import AtomicMarkup.Text.Name
import Mathlib.Computability.Language

/-!
The grammars of names as languages of characters. What a rule accepts is a product: one character
of the class that names begin with, then any number of characters of the other class.
-/

namespace AtomicMarkup.Text

open Computability

def letterChars : Set Char :=
  {c | 'a' ≤ c ∧ c ≤ 'z'} ∪ {c | 'A' ≤ c ∧ c ≤ 'Z'}

def digitChars : Set Char :=
  {c | '0' ≤ c ∧ c ≤ '9'}

def oneOf (chars : Set Char) : Language Char :=
  {text | ∃ c ∈ chars, text = [c]}

/-- `[a-zA-Z][a-zA-Z0-9-]*` -/
def tagNames : Language Char :=
  oneOf letterChars * (oneOf (letterChars ∪ digitChars ∪ {'-'}))∗

/-- `[a-zA-Z_:@][a-zA-Z0-9_:.@-]*` -/
def attributeNames : Language Char :=
  oneOf (letterChars ∪ {'_', ':', '@'}) *
    (oneOf (letterChars ∪ digitChars ∪ {'_', ':', '.', '@', '-'}))∗

/-- `[a-zA-Z.#*\[:_][a-zA-Z0-9.#*\[\]="':()_ >+~-]*` -/
def selectorTargets : Language Char :=
  oneOf (letterChars ∪ {'.', '#', '*', '[', ':', '_'}) *
    (oneOf (letterChars ∪ digitChars ∪ {'.', '#', '*', '[', ']', '=', '\x22', '\x27', ':', '(',
      ')', '_', ' ', '>', '+', '~', '-'}))∗

theorem mem_kstar_oneOf {chars : Set Char} {text : List Char} :
    text ∈ (oneOf chars)∗ ↔ ∀ c ∈ text, c ∈ chars := by
  rw [Language.mem_kstar]
  constructor
  · rintro ⟨words, rfl, each⟩ c member
    obtain ⟨word, inside, among⟩ := List.mem_flatten.mp member
    obtain ⟨d, ofClass, rfl⟩ := each word inside
    rw [List.mem_singleton.mp among]
    exact ofClass
  · intro each
    refine ⟨text.map fun c => [c], ?_, ?_⟩
    · rw [← List.flatMap_def, List.flatMap_singleton']
    · intro word inside
      obtain ⟨c, member, rfl⟩ := List.mem_map.mp inside
      exact ⟨c, each c member, rfl⟩

theorem mem_name_iff {first rest : Set Char} {text : List Char} :
    text ∈ oneOf first * (oneOf rest)∗ ↔
      ∃ c cs, text = c :: cs ∧ c ∈ first ∧ ∀ d ∈ cs, d ∈ rest := by
  rw [Language.mem_mul]
  constructor
  · rintro ⟨_, ⟨c, inFirst, rfl⟩, cs, inRest, rfl⟩
    exact ⟨c, cs, rfl, inFirst, mem_kstar_oneOf.mp inRest⟩
  · rintro ⟨c, cs, rfl, inFirst, inRest⟩
    exact ⟨[c], ⟨c, inFirst, rfl⟩, cs, mem_kstar_oneOf.mpr inRest, rfl⟩

theorem isAlpha_iff {c : Char} : c.isAlpha = true ↔ c ∈ letterChars := by
  have upper : c.isUpper = true ↔ 'A' ≤ c ∧ c ≤ 'Z' := decide_eq_true_iff
  have lower : (decide ('a' ≤ c) && decide (c ≤ 'z')) = true ↔ 'a' ≤ c ∧ c ≤ 'z' := by
    rw [Bool.and_eq_true, decide_eq_true_iff, decide_eq_true_iff]
  change (c.isUpper || c.isLower) = true ↔ _
  rw [Bool.or_eq_true, upper, or_comm]
  exact or_congr lower Iff.rfl

theorem isAlphanum_iff {c : Char} : c.isAlphanum = true ↔ c ∈ letterChars ∪ digitChars := by
  have digit : (decide ('0' ≤ c) && decide (c ≤ '9')) = true ↔ c ∈ digitChars := by
    rw [Bool.and_eq_true, decide_eq_true_iff, decide_eq_true_iff]
    exact Iff.rfl
  change (c.isAlpha || c.isDigit) = true ↔ _
  rw [Bool.or_eq_true, isAlpha_iff]
  exact or_congr Iff.rfl digit

namespace NameRule

theorem accepts_iff {rule : NameRule} {first rest : Set Char} {s : String}
    (firsts : ∀ c, rule.first c = true ↔ c ∈ first)
    (others : ∀ c, rule.rest c = true ↔ c ∈ rest) :
    rule.accepts s = true ↔ s.toList ∈ oneOf first * (oneOf rest)∗ := by
  rw [accepts, mem_name_iff]
  cases s.toList with
  | nil => simp [acceptsChars]
  | cons c cs => simp [acceptsChars, firsts, others]

theorem tagName_accepts_iff {s : String} : tagName.accepts s = true ↔ s.toList ∈ tagNames := by
  apply accepts_iff
  · intro c
    exact isAlpha_iff
  · intro c
    simp only [tagName, Bool.or_eq_true, isAlphanum_iff, beq_iff_eq, Set.mem_union,
      Set.mem_singleton_iff]

theorem attributeName_accepts_iff {s : String} :
    attributeName.accepts s = true ↔ s.toList ∈ attributeNames := by
  apply accepts_iff <;> intro c <;>
    simp only [attributeName, Bool.or_eq_true, isAlpha_iff, isAlphanum_iff,
      List.contains_iff_mem, List.mem_cons, List.not_mem_nil, or_false, Set.mem_union,
      Set.mem_insert_iff, Set.mem_singleton_iff]

theorem selectorTarget_accepts_iff {s : String} :
    selectorTarget.accepts s = true ↔ s.toList ∈ selectorTargets := by
  apply accepts_iff <;> intro c <;>
    simp only [selectorTarget, Bool.or_eq_true, isAlpha_iff, isAlphanum_iff,
      List.contains_iff_mem, List.mem_cons, List.not_mem_nil, or_false, Set.mem_union,
      Set.mem_insert_iff, Set.mem_singleton_iff]

end NameRule

end AtomicMarkup.Text
