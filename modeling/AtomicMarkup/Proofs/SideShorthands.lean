import AtomicMarkup.Proofs.EitherOrder
import AtomicMarkup.Proofs.Effective
import AtomicMarkup.Proofs.QueryGrammar
import AtomicMarkup.Proofs.Words
import AtomicMarkup.Style.Property

/-!
Shorthands for the sides of a box. A shorthand gives the four sides its one, two, three or four
values; the other properties give one side each. What the sides are given is what they were set
to, because lengths that agree have one text.
-/

namespace AtomicMarkup

inductive Side where
  | top | right | bottom | left
  deriving DecidableEq

namespace Side

/-- Clockwise from the top. -/
def all : List Side :=
  [top, right, bottom, left]

def name : Side → String
  | top => "top"
  | right => "right"
  | bottom => "bottom"
  | left => "left"

theorem name_injective {a b : Side} (same : a.name = b.name) : a = b := by
  cases a <;> cases b <;> first | rfl | contradiction

theorem filterMap_all {α : Type} (side : Side) (value : Side → Option α) :
    (all.filterMap fun other => if other = side then value other else none) =
      (value side).toList := by
  cases side <;> simp [all, List.filterMap_cons] <;> split <;> simp_all

/-- The value that a side has of those of a shorthand. Where values are missing, a side has that of
the opposite one, and the right one that of the top. -/
def pick? {α : Type} (side : Side) : List α → Option α
  | [value] => some value
  | [vertical, horizontal] =>
    match side with
    | top | bottom => some vertical
    | right | left => some horizontal
  | [t, horizontal, b] =>
    match side with
    | top => some t
    | right | left => some horizontal
    | bottom => some b
  | [t, r, b, l] =>
    match side with
    | top => some t
    | right => some r
    | bottom => some b
    | left => some l
  | _ => none

example : all.map (fun side => side.pick? ["1px", "2px", "3px"]) =
    [some "1px", some "2px", some "3px", some "2px"] := by
  decide

end Side

namespace Sides

def get (s : Sides) : Side → Option Length
  | .top => s.top
  | .right => s.right
  | .bottom => s.bottom
  | .left => s.left

theorem pick?_shorthand (t r b l : Length) (side : Side) :
    side.pick? ((shorthand t r b l).map Length.css) = ((each t r b l).get side).map Length.css := by
  rw [shorthand]
  split_ifs with one two
  · simp only [Bool.and_eq_true] at one
    obtain ⟨⟨right, bottom⟩, left⟩ := one
    have right := Length.css_eq_of_agrees right
    have bottom := Length.css_eq_of_agrees bottom
    have left := Length.css_eq_of_agrees left
    cases side <;> simp [Side.pick?, each, get, right, bottom, left]
  · simp only [Bool.and_eq_true] at two
    obtain ⟨bottom, left⟩ := two
    have bottom := Length.css_eq_of_agrees bottom
    have left := Length.css_eq_of_agrees left
    cases side <;> simp [Side.pick?, each, get, bottom, left]
  · cases side <;> rfl

/-- Zeros of both signs are one value, and NaN is told from itself. -/
example : (shorthand (.px 0) (.px (-0.0)) (.px 0) (.px 0)).length = 1 ∧
    (shorthand (.px (0 / 0)) (.px (0 / 0)) (.px (0 / 0)) (.px (0 / 0))).length = 4 := by
  decide +kernel

end Sides

theorem Length.isWord_css (l : Length) : Text.IsWord l.css := by
  refine ⟨fun empty => l.css_ne_empty (String.toList_inj.mp empty), fun c member => ?_⟩
  have mark := isValueChar_of_mem_css member
  simp only [MediaQuery.isValueChar, Bool.or_eq_true, List.contains_iff_mem, List.mem_cons,
    List.not_mem_nil, or_false] at mark
  rcases mark with named | rfl | rfl | rfl
  · exact Text.isBlank_of_rest (by simp [Text.NameRule.classPrefix, named])
  · rfl
  · rfl
  · rfl

inductive Box where
  | margin | padding

namespace Box

def name : Box → String
  | margin => "margin"
  | padding => "padding"

def property : Box → Sides → Property
  | margin => .margin
  | padding => .padding

def longhand (box : Box) (side : Side) : String :=
  box.name ++ "-" ++ side.name

def given? (box : Box) (side : Side) (d : Declaration) : Option String :=
  if d.property = box.longhand side then some d.value
  else if d.property = box.name then side.pick? (Text.words d.value)
  else none

variable {box : Box} {side other : Side} {s : Sides} {scope : Scope}

theorem longhand_inj : box.longhand side = box.longhand other ↔ side = other := by
  constructor
  · intro same
    rw [longhand, longhand, String.append_right_inj] at same
    exact Side.name_injective same
  · exact congrArg box.longhand

theorem longhand_ne_name : box.longhand side ≠ box.name := by
  cases box <;> cases side <;> decide

theorem given?_longhand (value : String) :
    box.given? side (scope.declare (box.longhand other) value) =
      if other = side then some value else none := by
  have property : (scope.declare (box.longhand other) value).property = box.longhand other := rfl
  rw [given?, property, if_neg longhand_ne_name]
  by_cases same : other = side
  · rw [if_pos same, if_pos (longhand_inj.mpr same)]
    rfl
  · rw [if_neg same, if_neg (mt longhand_inj.mp same)]

theorem given?_shorthand (value : String) :
    box.given? side (scope.declare box.name value) = side.pick? (Text.words value) := by
  have property : (scope.declare box.name value).property = box.name := rfl
  rw [given?, property, if_neg longhand_ne_name.symm, if_pos rfl]
  rfl

theorem declarations_property :
    (box.property s).declarations scope = s.declarations box.name scope := by
  cases box <;> rfl

theorem declarations_each (t r b l : Length) :
    (box.property (.each t r b l)).declarations scope =
      [scope.declare box.name (" ".intercalate ((Sides.shorthand t r b l).map Length.css))] := by
  rw [declarations_property]
  rfl

theorem declarations_unset (unset : s.get side = none) :
    (box.property s).declarations scope = Side.all.filterMap fun other =>
      (s.get other).map fun l => scope.declare (box.longhand other) l.css := by
  rw [declarations_property, Sides.declarations.eq_def]
  split
  · next t r b l top right bottom left => cases side <;> simp_all [Sides.get]
  · rfl

theorem exists_unset_or_each (s : Sides) :
    (∃ side, s.get side = none) ∨ ∃ t r b l, s = .each t r b l := by
  obtain ⟨t, r, b, l⟩ := s
  cases t with
  | none => exact .inl ⟨.top, rfl⟩
  | some t =>
    cases r with
    | none => exact .inl ⟨.right, rfl⟩
    | some r =>
      cases b with
      | none => exact .inl ⟨.bottom, rfl⟩
      | some b =>
        cases l with
        | none => exact .inl ⟨.left, rfl⟩
        | some l => exact .inr ⟨t, r, b, l, rfl⟩

theorem filterMap_given? (box : Box) (s : Sides) (scope : Scope) (side : Side) :
    ((box.property s).declarations scope).filterMap (box.given? side) =
      ((s.get side).map Length.css).toList := by
  obtain ⟨missing, unset⟩ | ⟨t, r, b, l, rfl⟩ := exists_unset_or_each s
  · rw [declarations_unset unset, List.filterMap_filterMap,
      ← Side.filterMap_all side fun other => (s.get other).map Length.css]
    congr 1
    funext other
    cases s.get other with
    | none => simp
    | some l => exact given?_longhand l.css
  · have words : Text.words (" ".intercalate ((Sides.shorthand t r b l).map Length.css)) =
        (Sides.shorthand t r b l).map Length.css :=
      Text.words_intercalate (List.forall_mem_map.mpr fun l _ => l.isWord_css)
    rw [declarations_each, List.filterMap_cons, given?_shorthand, words,
      Sides.pick?_shorthand]
    cases (Sides.each t r b l).get side <;> rfl

theorem pairwise_declarations (box : Box) (s : Sides) (scope : Scope) :
    ((box.property s).declarations scope).Pairwise fun a b => a.sameScope b = false := by
  obtain ⟨missing, unset⟩ | ⟨t, r, b, l, rfl⟩ := exists_unset_or_each s
  · rw [declarations_unset unset, List.pairwise_filterMap]
    have distinct : Side.all.Nodup := by decide
    apply distinct.imp
    intro side other differ a first b second
    obtain ⟨l, -, rfl⟩ := Option.map_eq_some_iff.mp first
    obtain ⟨m, -, rfl⟩ := Option.map_eq_some_iff.mp second
    rw [Bool.eq_false_iff]
    intro same
    obtain ⟨property, -⟩ := Declaration.sameScope_iff.mp same
    exact differ (longhand_inj.mp property)
  · rw [declarations_each]
    exact List.pairwise_singleton _ _

theorem eq_declare_of_mem {d : Declaration} (member : d ∈ (box.property s).declarations scope) :
    d = scope.declare d.property d.value := by
  obtain ⟨missing, unset⟩ | ⟨t, r, b, l, rfl⟩ := exists_unset_or_each s
  · rw [declarations_unset unset] at member
    obtain ⟨side, -, declared⟩ := List.mem_filterMap.mp member
    obtain ⟨l, -, rfl⟩ := Option.map_eq_some_iff.mp declared
    rfl
  · rw [declarations_each] at member
    obtain rfl := List.mem_singleton.mp member
    rfl

end Box

/-- The sides of a box are given the texts of their lengths, each once, and those that are not set
nothing. All that is declared is declared in the scope, once for each property, and is in effect,
whatever was declared earlier. -/
theorem Box.sides_given (box : Box) (s : Sides) (scope : Scope) :
    (∀ side, ((box.property s).declarations scope).filterMap (box.given? side) =
        ((s.get side).map Length.css).toList) ∧
      (∀ d ∈ (box.property s).declarations scope, d = scope.declare d.property d.value) ∧
      ((box.property s).declarations scope).Pairwise (fun a b => a.sameScope b = false) ∧
      Declaration.effective ((box.property s).declarations scope) =
        ((box.property s).declarations scope).reverse ∧
      ∀ earlier, ((box.property s).declarations scope).reverse <+:
        Declaration.effective (earlier ++ (box.property s).declarations scope) := by
  have apart := pairwise_declarations box s scope
  have kept := Declaration.effective_of_pairwise apart
  refine ⟨filterMap_given? box s scope, fun _ => eq_declare_of_mem, apart, kept, ?_⟩
  intro earlier
  rw [Declaration.effective_append, kept]
  exact List.prefix_append _ _

end AtomicMarkup
