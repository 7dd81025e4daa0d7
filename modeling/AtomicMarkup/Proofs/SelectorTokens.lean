import AtomicMarkup.Proofs.Css.Tokens
import AtomicMarkup.Proofs.LiteralClasses
import AtomicMarkup.Proofs.ScopeText

/-!
Selectors read as stylesheet text. A class, the pseudos behind it and a combinator open nothing,
neither in plain text nor in a string. So a selector leaves something open just when its target
does, on whichever side of the class that stands.
-/

namespace AtomicMarkup

open Css

theorem selectorTarget_of_rest {c : Char} (named : Text.NameRule.classPrefix.rest c = true) :
    Text.NameRule.selectorTarget.rest c = true := by
  simp only [Text.NameRule.classPrefix, Bool.or_eq_true, beq_iff_eq] at named
  rcases named with (alphanum | rfl) | rfl
  · simp [Text.NameRule.selectorTarget, alphanum]
  · rfl
  · rfl

theorem selectorTarget_rest_of_first (c : Char)
    (first : Text.NameRule.selectorTarget.first c = true) :
    Text.NameRule.selectorTarget.rest c = true := by
  simp only [Text.NameRule.selectorTarget, Bool.or_eq_true, List.contains_eq_mem,
    decide_eq_true_eq, List.mem_cons, List.not_mem_nil, or_false] at first
  obtain letter | rfl | rfl | rfl | rfl | rfl | rfl := first
  · simp [Text.NameRule.selectorTarget, Char.isAlphanum, letter]
  all_goals rfl

/-- What stands beside a target in a selector: text that opens nothing, of the characters that
targets are made of. -/
structure Beside (cs : List Char) : Prop where
  neutral : Place.Neutral cs
  chars : cs.all Text.NameRule.selectorTarget.rest = true

namespace Beside

theorem of_ordinary {cs : List Char} (ordinary : cs.all isOrdinary = true)
    (chars : cs.all Text.NameRule.selectorTarget.rest = true) : Beside cs :=
  ⟨Place.neutral_of_ordinary ordinary, chars⟩

theorem append {front back : List Char} (first : Beside front) (second : Beside back) :
    Beside (front ++ back) :=
  ⟨first.neutral.append second.neutral, by rw [List.all_append, first.chars, second.chars]; rfl⟩

theorem of_accepts {name : String} (accepted : Text.NameRule.classPrefix.accepts name = true) :
    Beside name.toList := by
  have letters := Text.NameRule.rest_of_acceptsChars Text.classPrefix_rest_of_first accepted
  exact of_ordinary
    (List.all_eq_true.mpr fun c member => isOrdinary_of (by decide) (letters c member))
    (List.all_eq_true.mpr fun c member => selectorTarget_of_rest (letters c member))

theorem pseudo (p : Pseudo) : Beside (Keyword.css p).toList := by
  have chars : (Keyword.css p).toList.all Text.NameRule.selectorTarget.rest = true := by
    cases p <;> decide
  have plain : p ≠ .odd → p ≠ .even → (Keyword.css p).toList.all isOrdinary = true := by
    cases p <;> decide
  have counting {word : List Char} (ordinary : word.all isOrdinary = true) :
      Place.Neutral (":nth-child".toList ++ '(' :: (word ++ [')'])) :=
    (Place.neutral_of_ordinary (by decide)).append
      (Place.neutral_of_ordinary ordinary).parenthesized
  refine ⟨?_, chars⟩
  by_cases odd : p = .odd
  · rw [odd]
    exact @counting "odd".toList (by decide)
  · by_cases even : p = .even
    · rw [even]
      exact @counting "even".toList (by decide)
    · exact Place.neutral_of_ordinary (plain odd even)

theorem pseudos (scope : Scope) (property value : String) :
    Beside ((scope.declare property value).pseudo.getD "").toList := by
  have each (ps : List Pseudo) : Beside (String.join (ps.map Keyword.css)).toList := by
    induction ps with
    | nil => exact of_ordinary (by decide) (by decide)
    | cons p ps ih =>
      rw [List.map_cons, String.join_cons, String.toList_append]
      exact (pseudo p).append ih
  rw [scope.pseudo_declare, String.toList_append]
  exact (each _).append (each _)

end Beside

section Declared

variable {scope : Scope} {name : String}
  (accepted : Text.NameRule.classPrefix.accepts name = true)
  (targets : ∀ s ∈ scope.selector, Text.NameRule.selectorTarget.accepts s.target = true)
  (property value : String) (layout : Layout)

def Scope.targetText (scope : Scope) : List Char :=
  (scope.selector.map fun s => s.target.toList).getD []

include accepted in
theorem Scope.exists_beside_target : ∃ front back, Beside front ∧ Beside back ∧
    ((scope.declare property value).ahead ++
        ("." ++ name ++ (scope.declare property value).behind layout)).toList =
      front ++ (scope.targetText ++ back) := by
  have base : Beside ("." ++ name ++ (scope.declare property value).pseudo.getD "").toList := by
    rw [String.toList_append, String.toList_append]
    exact ((Beside.of_ordinary (by decide) (by decide)).append (.of_accepts accepted)).append
      (.pseudos scope property value)
  have nothing : Beside [] := .of_ordinary rfl rfl
  have blank : Beside " ".toList := .of_ordinary (by decide) (by decide)
  have child : Beside (Selector.combinator ">" layout).toList := by
    cases layout <;> exact .of_ordinary (by decide) (by decide)
  have adjacent : Beside (Selector.combinator "+" layout).toList := by
    cases layout <;> exact .of_ordinary (by decide) (by decide)
  have joined {joint : String} (plain : Beside joint.toList) (target : String) :
      ∃ front back, Beside front ∧ Beside back ∧
        ("" ++ ("." ++ name ++ ((scope.declare property value).pseudo.getD "" ++
          (joint ++ target)))).toList = front ++ (target.toList ++ back) :=
    ⟨_, [], base.append plain, nothing, by simp⟩
  have kept : (scope.declare property value).selector = scope.selector := rfl
  rw [Declaration.ahead, Declaration.behind, kept, targetText]
  cases scope.selector with
  | none => exact ⟨_, [], base, nothing, by simp⟩
  | some selector =>
    cases selector with
    | within target => exact ⟨[], _, nothing, blank.append base, by simp [Selector.target]⟩
    | descendant target => exact joined blank target
    | child target => exact joined child target
    | adjacent target => exact joined adjacent target

include targets in
theorem Scope.all_targetText :
    scope.targetText.all Text.NameRule.selectorTarget.rest = true := by
  rw [targetText]
  cases selector : scope.selector with
  | none => rfl
  | some s => exact List.all_eq_true.mpr (Text.NameRule.rest_of_acceptsChars
      selectorTarget_rest_of_first (targets s selector))

include accepted targets in
/-- The selector of a rule is its target between texts that open nothing. All of it is made of the
characters of targets. -/
theorem Rule.exists_beside_selector : ∃ front back, Beside front ∧ Beside back ∧
    (ofClass name (scope.declare property value) layout).selector.toList =
      front ++ (scope.targetText ++ back) ∧
    (front ++ (scope.targetText ++ back)).all Text.NameRule.selectorTarget.rest = true := by
  obtain ⟨front, back, first, last, text⟩ :=
    scope.exists_beside_target accepted property value layout
  have chars : (front ++ (scope.targetText ++ back)).all Text.NameRule.selectorTarget.rest =
      true := by
    rw [List.all_append, List.all_append, first.chars, scope.all_targetText targets, last.chars]
    rfl
  refine ⟨front, back, first, last, ?_, chars⟩
  rw [Declaration.selector_ofClass, Text.escapeStyle_of_not_mem, text]
  rw [text]
  exact not_mem_of_forall (List.all_eq_true.mp chars) rfl

include accepted targets in
theorem Rule.selector_plain :
    '\x7b' ∉ (ofClass name (scope.declare property value) layout).selector.toList ∧
      (Place.start.run
        (ofClass name (scope.declare property value) layout).selector.toList).Plain := by
  obtain ⟨front, back, -, -, text, chars⟩ :=
    Rule.exists_beside_selector accepted targets property value layout
  have absent {c : Char} (other : Text.NameRule.selectorTarget.rest c = false) :
      c ∉ front ++ (scope.targetText ++ back) :=
    not_mem_of_forall (List.all_eq_true.mp chars) other
  rw [text]
  exact ⟨absent rfl, Place.plain_start.run (absent rfl) (absent rfl)⟩

include accepted targets in
/-- A rule leaves nothing open in its selector just when its target, if it has one, is whole. No
brace opens a block in there. -/
theorem Rule.selector_tokens :
    '\x7b' ∉ (ofClass name (scope.declare property value) layout).selector.toList ∧
      (IsWhole (ofClass name (scope.declare property value) layout).selector.toList ↔
        ∀ s ∈ scope.selector, IsWhole s.target.toList) := by
  refine ⟨(Rule.selector_plain accepted targets property value layout).1, ?_⟩
  obtain ⟨front, back, first, last, text, -⟩ :=
    Rule.exists_beside_selector accepted targets property value layout
  have absent {c : Char} (other : Text.NameRule.selectorTarget.rest c = false) :
      c ∉ scope.targetText :=
    not_mem_of_forall (List.all_eq_true.mp (scope.all_targetText targets)) other
  have plain : (Place.start.run scope.targetText).Plain :=
    Place.plain_start.run (absent rfl) (absent rfl)
  have whole : IsWhole scope.targetText ↔ ∀ s ∈ scope.selector, IsWhole s.target.toList := by
    rw [Scope.targetText]
    cases scope.selector with
    | none => exact iff_of_true rfl nofun
    | some s => simp
  rw [text, ← whole, IsWhole, Place.run_append, Place.run_append,
    first.neutral _ Place.plain_start, last.neutral _ plain]
  exact Iff.rfl

end Declared

end AtomicMarkup
