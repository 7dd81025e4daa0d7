import AtomicMarkup.Keyword

/-!
Pseudo-classes and pseudo-elements. In a selector the elements stand after the classes.
-/

namespace AtomicMarkup

/-- A state or part of an element that a rule may be restricted to. -/
inductive Pseudo where
  | hover | focus | focusWithin | focusVisible | active | visited | disabled | enabled | checked
  | required | invalid | firstChild | lastChild | onlyChild | odd | even | empty | placeholder
  | before | after | selection | marker
  deriving DecidableEq

/-- The counting pseudo-classes are spelled by the selector for children of that parity. -/
instance : Keyword Pseudo where
  all := [.hover, .focus, .focusWithin, .focusVisible, .active, .visited, .disabled, .enabled,
    .checked, .required, .invalid, .firstChild, .lastChild, .onlyChild, .odd, .even, .empty,
    .placeholder, .before, .after, .selection, .marker]
  word
    | .hover => "hover"
    | .focus => "focus"
    | .focusWithin => "focus-within"
    | .focusVisible => "focus-visible"
    | .active => "active"
    | .visited => "visited"
    | .disabled => "disabled"
    | .enabled => "enabled"
    | .checked => "checked"
    | .required => "required"
    | .invalid => "invalid"
    | .firstChild => "first-child"
    | .lastChild => "last-child"
    | .onlyChild => "only-child"
    | .odd => "odd"
    | .even => "even"
    | .empty => "empty"
    | .placeholder => "placeholder"
    | .before => "before"
    | .after => "after"
    | .selection => "selection"
    | .marker => "marker"
  css
    | .hover => ":hover"
    | .focus => ":focus"
    | .focusWithin => ":focus-within"
    | .focusVisible => ":focus-visible"
    | .active => ":active"
    | .visited => ":visited"
    | .disabled => ":disabled"
    | .enabled => ":enabled"
    | .checked => ":checked"
    | .required => ":required"
    | .invalid => ":invalid"
    | .firstChild => ":first-child"
    | .lastChild => ":last-child"
    | .onlyChild => ":only-child"
    | .odd => ":nth-child(odd)"
    | .even => ":nth-child(even)"
    | .empty => ":empty"
    | .placeholder => "::placeholder"
    | .before => "::before"
    | .after => "::after"
    | .selection => "::selection"
    | .marker => "::marker"

namespace Pseudo

def isElement : Pseudo → Bool
  | placeholder | before | after | selection | marker => true
  | _ => false

def ordered (pseudos : List Pseudo) : List Pseudo :=
  pseudos.filter (fun p => !p.isElement) ++ pseudos.filter isElement

/-- What a list of pseudos appends to a selector; nothing for the empty list. -/
def suffix? : List Pseudo → Option String
  | [] => none
  | pseudos => some (String.join ((ordered pseudos).map Keyword.css))

end Pseudo

end AtomicMarkup
