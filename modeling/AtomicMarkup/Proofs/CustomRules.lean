import AtomicMarkup.Proofs.BuiltStyles
import AtomicMarkup.Proofs.SelectorTokens

/-!
Rules of custom properties read as stylesheet text. The check of a value keeps out the characters
that end a declaration, a rule or the stylesheet, but none of those that open something. So a rule
is read as it was written just when its target and its value leave nothing open: no string, comment
or bracket, and no backslash at the end.
-/

namespace AtomicMarkup

open Css

namespace Text

theorem mem_of_mem_trim {s : String} {c : Char} (member : c ∈ (trim s).toList) :
    c ∈ s.toList := by
  rw [trim, String.toList_ofList, dropTail, List.mem_reverse] at member
  have inside := List.mem_reverse.mp ((List.dropWhile_sublist _).subset member)
  exact (List.dropWhile_sublist _).subset inside

end Text

namespace Css

/-- The characters that open a string, a comment or brackets, or that take the next one with
them. -/
def opening : List Char :=
  ['/', '\x5c', '\x22', '\x27', '(', '[', '\x7b']

theorem Place.step_start {c : Char} (free : c ∉ opening) : start.step c = start := by
  simp only [opening, List.mem_cons, List.not_mem_nil, or_false, not_or] at free
  obtain ⟨slash, backslash, double, single, parenthesis, bracket, brace⟩ := free
  have quote : isQuote c = false := by simp [isQuote, double, single]
  have opens : closing? c = none := by
    unfold closing?
    split <;> first | contradiction | rfl
  simp [step, start, readText, nested, slash, backslash, quote, opens]

theorem isWhole_of_free {cs : List Char} (free : ∀ c ∈ cs, c ∉ opening) : IsWhole cs := by
  have stays : Place.start.run cs = Place.start := by
    induction cs with
    | nil => rfl
    | cons c cs ih =>
      obtain ⟨first, later⟩ := List.forall_mem_cons.mp free
      rw [Place.run_cons, Place.step_start first, ih later]
  rw [IsWhole, stays]
  rfl

end Css

namespace CustomProperty

variable {name value : String} {c : CustomProperty}

theorem not_mem_value (made : make name value = .ok c) {d : Char}
    (forbidden : isForbidden d = true) : d ∉ c.value.toList := by
  obtain ⟨-, checked, rfl⟩ := make_eq_ok_iff.mp made
  intro member
  exact List.any_eq_false.mp (Bool.or_eq_false_iff.mp checked).2 d (Text.mem_of_mem_trim member)
    forbidden

theorem rest_of_mem_name (made : make name value = .ok c) :
    ∀ d ∈ c.name.toList, Text.NameRule.tagName.rest d = true := by
  obtain ⟨named, -, rfl⟩ := make_eq_ok_iff.mp made
  obtain ⟨hyphens, letters, chars, each, accepted⟩ := Text.exists_of_isPropertyName named
  have plain := Text.NameRule.rest_of_acceptsChars Text.tagName_rest_of_first accepted
  rw [Text.lowercase, String.toList_map, chars, List.forall_mem_map, List.forall_mem_append]
  refine ⟨fun d member => ?_, fun d member => Text.rest_toLower (plain d member)⟩
  rw [each d member]
  rfl

theorem not_mem_name (made : make name value = .ok c) {d : Char}
    (other : Text.NameRule.tagName.rest d = false) : d ∉ c.name.toList :=
  not_mem_of_forall (rest_of_mem_name made) other

def pairText (c : CustomProperty) : String :=
  c.name ++ ":" ++ c.value

theorem not_mem_pairText (made : make name value = .ok c) : '\x7d' ∉ c.pairText.toList := by
  have first : '\x7d' ∉ c.name.toList := not_mem_name made rfl
  have second : '\x7d' ∉ c.value.toList := not_mem_value made rfl
  simp [pairText, first, second]

theorem isWhole_pairText_iff (made : make name value = .ok c) :
    IsWhole c.pairText.toList ↔ IsWhole c.value.toList := by
  have ordinary : (c.name ++ ":").toList.all isOrdinary = true := by
    rw [String.toList_append, List.all_append, Bool.and_eq_true]
    exact ⟨List.all_eq_true.mpr fun d member =>
      isOrdinary_of (by decide) (rest_of_mem_name made d member), by decide⟩
  rw [IsWhole, pairText, String.toList_append, Place.run_append,
    Place.neutral_of_ordinary ordinary _ Place.plain_start, IsWhole]

theorem toList_rule (made : make name value = .ok c) (className : String) (scope : Scope) :
    ((Rule.ofClass className (scope.declare c.name c.value) .compact).css "" .compact).toList =
      (Rule.ofClass className (scope.declare c.name c.value) .compact).selector.toList ++
        '\x7b' :: (c.pairText.toList ++ ['\x7d']) := by
  have pairs : (Rule.ofClass className (scope.declare c.name c.value) .compact).declarations =
      [(c.name, c.value)] := by
    rw [Rule.ofClass]
    simp [Scope.declare, Text.escapeStyle_of_not_mem (not_mem_name made (d := '<') rfl),
      Text.escapeStyle_of_not_mem (not_mem_value made (d := '<') rfl)]
  rw [Rule.css, pairs]
  simp [pairText]

/-- The rule of a custom property, in front of any text, is read as one complete rule of its own
selector and of its own name and value just when neither the target around the class nor the value
leaves anything open. A value without opening characters never does. -/
theorem rule_read_iff (made : make name value = .ok c) {scope : Scope} {className : String}
    (accepted : Text.NameRule.classPrefix.accepts className = true)
    (targets : ∀ s ∈ scope.selector, Text.NameRule.selectorTarget.accepts s.target = true)
    {d : Declaration} (emitted : d ∈ (Property.custom c).declarations scope) (rest : List Char) :
    (readRule? (((Rule.ofClass className d .compact).css "" .compact).toList ++ rest) =
        some ((Rule.ofClass className d .compact).selector.toList, c.pairText.toList, rest) ↔
      (∀ s ∈ scope.selector, IsWhole s.target.toList) ∧ IsWhole c.value.toList) ∧
      ((∀ e ∈ c.value.toList, e ∉ opening) → IsWhole c.value.toList) := by
  obtain rfl : d = scope.declare c.name c.value := List.mem_singleton.mp emitted
  obtain ⟨noBrace, selector⟩ := Rule.selector_tokens accepted targets c.name c.value .compact
  refine ⟨?_, isWhole_of_free⟩
  rw [toList_rule made, List.append_assoc, List.cons_append, List.append_assoc,
    List.singleton_append, readRule?_eq_some_iff noBrace (not_mem_pairText made), selector,
    isWhole_pairText_iff made]

theorem rule_read_hue :
    make "--hue" "210" = .ok ⟨"--hue", "210"⟩ ∧
      (Rule.ofClass "hue-0" ((Scope.ofSelector (.within ".card")).declare "--hue" "210")
        .compact).css "" .compact = ".card .hue-0\x7b--hue:210\x7d" ∧
      readRule? (".card .hue-0\x7b--hue:210\x7d".toList ++ ".width-0\x7bwidth:1px\x7d".toList) =
        some (".card .hue-0".toList, "--hue:210".toList, ".width-0\x7bwidth:1px\x7d".toList) := by
  have made : make "--hue" "210" = .ok ⟨"--hue", "210"⟩ :=
    make_eq_ok_iff.mpr ⟨by decide +kernel, by decide +kernel, by decide +kernel⟩
  have formed : ∀ s ∈ (Scope.ofSelector (.within ".card")).selector,
      Text.NameRule.selectorTarget.accepts s.target = true := by
    rintro _ ⟨⟩
    decide
  have whole : ∀ s ∈ (Scope.ofSelector (.within ".card")).selector, IsWhole s.target.toList := by
    rintro _ ⟨⟩
    decide
  have css : (Rule.ofClass "hue-0" ((Scope.ofSelector (.within ".card")).declare "--hue" "210")
      .compact).css "" .compact = ".card .hue-0\x7b--hue:210\x7d" := by decide +kernel
  have selector : (Rule.ofClass "hue-0" ((Scope.ofSelector (.within ".card")).declare "--hue" "210")
      .compact).selector = ".card .hue-0" := by decide +kernel
  have pair : pairText ⟨"--hue", "210"⟩ = "--hue:210" := by decide
  obtain ⟨complete, -⟩ := @rule_read_iff _ _ _ made _ "hue-0" (by decide) formed _
    List.mem_cons_self ".width-0\x7bwidth:1px\x7d".toList
  rw [css, selector, pair] at complete
  exact ⟨made, css, complete.mpr ⟨whole, by decide⟩⟩

/-- A backslash is accepted as a value. It takes the closing brace with it, so that the rule never
ends. -/
theorem backslash_never_ends :
    make "--x" "\\" = .ok ⟨"--x", "\\"⟩ ∧
      (Rule.ofClass "x-0" (Scope.root.declare "--x" "\\") .compact).css "" .compact =
        ".x-0\x7b--x:\\\x7d" ∧
      readRule? ".x-0\x7b--x:\\\x7d.width-0\x7bwidth:1px\x7d".toList = none :=
  ⟨make_eq_ok_iff.mpr ⟨by decide +kernel, by decide +kernel, by decide +kernel⟩,
    by decide +kernel, by decide +kernel⟩

end CustomProperty

end AtomicMarkup
