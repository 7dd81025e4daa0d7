/-!
Declarations: one property, its value, and the scope that the pair is restricted to. On one
element a later declaration of a scope replaces an earlier one.
-/

namespace AtomicMarkup

inductive Layout where
  | compact
  | indented
  deriving DecidableEq

/-- Where a rule applies relative to the element that carries the class. -/
inductive Selector where
  /-- To descendants of the element. -/
  | descendant (target : String)
  /-- To children of the element. -/
  | child (target : String)
  /-- To the sibling after the element. -/
  | adjacent (target : String)
  /-- To the element, inside an ancestor. -/
  | within (target : String)
  deriving DecidableEq

namespace Selector

def target : Selector → String
  | descendant t | child t | adjacent t | within t => t

def combinator (symbol : String) : Layout → String
  | .compact => symbol
  | .indented => " " ++ symbol ++ " "

def wrap (base : String) (layout : Layout) : Selector → String
  | descendant t => base ++ " " ++ t
  | child t => base ++ combinator ">" layout ++ t
  | adjacent t => base ++ combinator "+" layout ++ t
  | within t => t ++ " " ++ base

end Selector

/-- A property and its value in a scope. Equal declarations share one class. -/
structure Declaration where
  property : String
  value : String
  media : Option String
  selector : Option Selector
  pseudo : Option String
  deriving DecidableEq

namespace Declaration

def plain (property value : String) : Declaration :=
  ⟨property, value, none, none, none⟩

/-- Declarations of one property with the same restrictions, whatever their values. -/
def sameScope (a b : Declaration) : Bool :=
  a.property == b.property && a.media == b.media && a.selector == b.selector &&
    a.pseudo == b.pseudo

/-- The declarations that take effect on an element: the last one of each scope, last applied
first. -/
def effective : List Declaration → List Declaration
  | [] => []
  | d :: later =>
    if later.any d.sameScope then effective later else effective later ++ [d]

end Declaration

end AtomicMarkup
