import AtomicMarkup.Proofs.Css.Strings
import AtomicMarkup.Proofs.PseudoElements
import AtomicMarkup.Style.Property

/-!
Font stacks read as stylesheet text. The name of a family loses its double quotes and is written
between two of them, but its backslashes and newlines stay. So a stack is read back entry by entry,
each family as one string, just when every name is quotable without its double quotes. No entry can
make up for another one: a value has just the quotes that its families need.
-/

namespace AtomicMarkup

open Css

section Entries

variable {texts : List (List Char)} {stop : Char → Bool}

/-- A text that is read from the top level back to it, past no such character there. -/
structure Css.IsEntry (stop : Char → Bool) (cs : List Char) : Prop where
  closed : Place.start.run cs = Place.start
  passed : passes stop .start cs = true

theorem Css.IsEntry.append {front back : List Char} (first : IsEntry stop front)
    (second : IsEntry stop back) : IsEntry stop (front ++ back) where
  closed := by rw [Place.run_append, first.closed, second.closed]
  passed := by rw [passes_append, first.passed, first.closed, second.passed]; rfl

theorem Css.isEntry_intercalate (comma : stop ',' = false)
    (each : ∀ text ∈ texts, IsEntry stop text) : IsEntry stop ([','].intercalate texts) := by
  have separator : IsEntry stop [','] := ⟨rfl, passes_of_free (by simpa using comma)⟩
  induction texts with
  | nil => exact ⟨rfl, rfl⟩
  | cons first rest ih =>
    obtain ⟨one, more⟩ := List.forall_mem_cons.mp each
    cases rest with
    | nil => rwa [List.intercalate_singleton]
    | cons second rest =>
      rw [List.intercalate_cons_cons]
      exact (one.append separator).append (ih more)

theorem Css.IsEntry.topFields {first back : List Char} (one : IsEntry (· == ',') first) :
    topFields (· == ',') .start (first ++ ',' :: back) =
      first :: topFields (· == ',') .start back := by
  have top : (Place.start.run first).isTop = true := by rw [one.closed]; rfl
  have again : Place.start.step ',' = Place.start := rfl
  rw [topFields_append_cons one.passed top rfl, one.closed, again]

theorem Css.topFields_intercalate (nonempty : texts ≠ [])
    (each : ∀ text ∈ texts, IsEntry (· == ',') text) :
    topFields (· == ',') .start ([','].intercalate texts) = texts := by
  induction texts with
  | nil => contradiction
  | cons first rest ih =>
    obtain ⟨one, more⟩ := List.forall_mem_cons.mp each
    cases rest with
    | nil => rw [List.intercalate_singleton, topFields_of_passes one.passed]
    | cons second rest =>
      rw [List.intercalate_cons_cons, List.append_assoc, List.singleton_append, one.topFields,
        ih (List.cons_ne_nil _ _) more]

theorem Css.count_intercalate {c : Char} (other : c ≠ ',') (texts : List (List Char)) :
    ([','].intercalate texts).count c = texts.flatten.count c := by
  induction texts with
  | nil => rfl
  | cons first rest ih =>
    cases rest with
    | nil => rw [List.intercalate_singleton, List.flatten_singleton]
    | cons second rest =>
      rw [List.intercalate_cons_cons, List.append_assoc, List.singleton_append, List.count_append,
        List.count_cons_of_ne (Ne.symm other), ih, ← List.count_append, ← List.flatten_cons]

theorem Css.count_flatten_le {c : Char} {others : List (List Char)}
    (each : List.Forall₂ (fun t u => t.count c ≤ u.count c) texts others) :
    texts.flatten.count c ≤ others.flatten.count c := by
  induction each with
  | nil => rfl
  | cons first _ ih =>
    rw [List.flatten_cons, List.flatten_cons, List.count_append, List.count_append]
    exact Nat.add_le_add first ih

end Entries

namespace Css

theorem not_mem_escape {cs : List Char} (free : '\x22' ∉ cs) :
    '\x22' ∉ cs.flatMap Text.styleChar := by
  rw [List.mem_flatMap]
  rintro ⟨c, member, inside⟩
  obtain ⟨rfl, text⟩ | ⟨-, text⟩ := styleChar_cases c
  · rw [text] at inside
    exact absurd inside (by decide)
  · rw [text, List.mem_singleton] at inside
    exact free (inside ▸ member)

theorem backslashes_escape (cs : List Char) :
    backslashes (cs.flatMap Text.styleChar) = backslashes cs := by
  induction cs using List.reverseRecOn with
  | nil => rfl
  | append_singleton cs c ih =>
    rw [List.flatMap_append, List.flatMap_singleton, backslashes_concat]
    obtain ⟨rfl, text⟩ | ⟨-, text⟩ := styleChar_cases c
    · have split : cs.flatMap Text.styleChar ++ ['\x5c', '3', 'c', ' '] =
          (cs.flatMap Text.styleChar ++ ['\x5c', '3', 'c']) ++ [' '] := by simp
      rw [text, split, backslashes_concat]
      rfl
    · rw [text, backslashes_concat, ih]

theorem linesEscaped_escape (cs : List Char) :
    LinesEscaped (cs.flatMap Text.styleChar) ↔ LinesEscaped cs := by
  induction cs using List.reverseRecOn with
  | nil => rfl
  | append_singleton cs c ih =>
    rw [List.flatMap_append, List.flatMap_singleton, linesEscaped_concat, ← ih]
    obtain ⟨rfl, text⟩ | ⟨-, text⟩ := styleChar_cases c
    · have split : cs.flatMap Text.styleChar ++ ['\x5c', '3', 'c', ' '] =
          (((cs.flatMap Text.styleChar ++ ['\x5c']) ++ ['3']) ++ ['c']) ++ [' '] := by simp
      rw [text, split, linesEscaped_concat, linesEscaped_concat, linesEscaped_concat,
        linesEscaped_concat]
      simp [isNewline]
    · rw [text, linesEscaped_concat, backslashes_escape]

theorem quotable_escape {cs : List Char} : Quotable (cs.flatMap Text.styleChar) ↔ Quotable cs := by
  constructor
  · rintro ⟨lines, ending⟩
    exact ⟨(linesEscaped_escape cs).mp lines, backslashes_escape cs ▸ ending⟩
  · rintro ⟨lines, ending⟩
    exact ⟨(linesEscaped_escape cs).mpr lines, (backslashes_escape cs).symm ▸ ending⟩

end Css

namespace FontFamily

def bareName (name : String) : List Char :=
  name.toList.filter (· != '\x22')

def entry (f : FontFamily) : List Char :=
  (Text.escapeStyle f.css).toList

theorem entry_family (name : String) :
    (family name).entry = '\x22' :: ((bareName name).flatMap Text.styleChar ++ ['\x22']) := by
  simp [entry, css, Text.escapeStyle, bareName, Text.styleChar]

theorem not_mem_bareName (name : String) : '\x22' ∉ bareName name := by
  simp [bareName]

theorem isString_entry_iff (name : String) :
    isString (family name).entry = true ↔ Quotable (bareName name) := by
  rw [entry_family, isString_iff (not_mem_escape (not_mem_bareName name)), quotable_escape]

theorem isEntry_entry {stop : Char → Bool} (quote : stop '\x22' = false)
    (letters : ∀ c, Text.NameRule.classPrefix.rest c = true → stop c = false) {f : FontFamily}
    (quotable : ∀ name, f = family name → Quotable (bareName name)) : IsEntry stop f.entry := by
  have keyword {cs : List Char} (chars : cs.all Text.NameRule.classPrefix.rest = true) :
      IsEntry stop cs := by
    have ordinary : cs.all isOrdinary = true := List.all_eq_true.mpr fun c member =>
      isOrdinary_of (by decide) (List.all_eq_true.mp chars c member)
    exact ⟨Place.neutral_of_ordinary ordinary _ Place.plain_start,
      passes_of_free fun c member => letters c (List.all_eq_true.mp chars c member)⟩
  cases f with
  | family name =>
    have string := (isString_entry_iff name).mpr (quotable name rfl)
    rw [isString, Bool.and_eq_true, Bool.and_eq_true, Bool.and_eq_true, beq_iff_eq] at string
    refine ⟨beq_iff_eq.mp string.2, ?_⟩
    have inside := string.1.2
    rw [entry_family, List.tail_cons] at inside
    rw [entry_family, passes, quote, passes_of_staysInString inside]
    rfl
  | sansSerif => exact keyword (by decide)
  | serif => exact keyword (by decide)
  | monospace => exact keyword (by decide)
  | systemUi => exact keyword (by decide)

theorem toList_value (stack : List FontFamily) :
    (Text.escapeStyle (",".intercalate (stack.map css))).toList =
      [','].intercalate (stack.map entry) := by
  induction stack with
  | nil => rfl
  | cons first rest ih =>
    cases rest with
    | nil => simp [entry]
    | cons second rest =>
      have comma : Text.escapeStyle "," = "," := rfl
      simp only [List.map_cons] at ih ⊢
      rw [String.intercalate_cons_cons, Text.escapeStyle_append, Text.escapeStyle_append, comma,
        String.toList_append, String.toList_append, ih, List.intercalate_cons_cons, entry]
      rfl

def endsValue (c : Char) : Bool :=
  c == ';' || c == '\x7d'

/-- An entry that is read for a family is one string. -/
def ReadsFor (f : FontFamily) (text : List Char) : Prop :=
  ∀ name, f = family name → isString text = true

/-- A value is read as a stack: between the commas of its top level it has one entry for each of
the stack, and it ends where it was written to its end. -/
structure ReadsAs (stack : List FontFamily) (value : List Char) : Prop where
  entries : List.Forall₂ ReadsFor stack (topFields (· == ',') .start value)
  ends : ∀ stop, endsValue stop = true → ∀ rest,
    upTo? endsValue .start (value ++ stop :: rest) = some (value, rest)

theorem count_entry_family (name : String) : (family name).entry.count '\x22' = 2 := by
  have free := List.count_eq_zero_of_not_mem (not_mem_escape (not_mem_bareName name))
  rw [entry_family, List.count_cons_self, List.count_append, free]
  rfl

theorem ReadsFor.count_le {f : FontFamily} {text : List Char} (read : ReadsFor f text) :
    f.entry.count '\x22' ≤ text.count '\x22' := by
  cases f with
  | family name =>
    obtain ⟨body, rfl⟩ := exists_body (read name rfl)
    rw [count_entry_family, List.count_cons_self, List.count_append, List.count_singleton_self]
    omega
  | _ => exact Nat.zero_le _

/-- A value has no more quotes than its families need. So the first entry, if it is one string, has
just those of the first family, and ends where that was written to its end. -/
theorem quotable_of_first {name : String} {rest : List FontFamily} {text : List Char}
    {texts : List (List Char)} (string : isString text = true)
    (others : List.Forall₂ ReadsFor rest texts)
    (read : topFields (· == ',') .start ([','].intercalate ((family name :: rest).map entry)) =
      text :: texts) : Quotable (bareName name) := by
  have few : (text :: texts).flatten.count '\x22' = 2 + (rest.map entry).flatten.count '\x22' := by
    rw [← read, count_flatten_topFields (by decide), count_intercalate (by decide), List.map_cons,
      List.flatten_cons, List.count_append, count_entry_family]
  have least : (rest.map entry).flatten.count '\x22' ≤ texts.flatten.count '\x22' :=
    count_flatten_le (List.forall₂_map_left_iff.mpr (others.imp fun _ _ => ReadsFor.count_le))
  obtain ⟨body, rfl⟩ := exists_body string
  have clear : '\x22' ∉ body := by
    rw [List.flatten_cons, List.count_append, List.count_cons_self, List.count_append,
      List.count_singleton_self] at few
    exact List.count_eq_zero.mp (by omega)
  obtain ⟨behind, text⟩ := topFields_eq_cons read
  have begins : ∃ after, [','].intercalate ((family name :: rest).map entry) =
      (family name).entry ++ after := by
    cases rest with
    | nil => exact ⟨[], by rw [List.map_singleton, List.intercalate_singleton, List.append_nil]⟩
    | cons second rest =>
      exact ⟨_, by rw [List.map_cons, List.map_cons, List.intercalate_cons_cons, List.append_assoc]⟩
  obtain ⟨after, written⟩ := begins
  have same : body ++ '\x22' :: behind =
      (bareName name).flatMap Text.styleChar ++ '\x22' :: after := by
    rw [text, entry_family] at written
    simpa using written
  obtain ⟨rfl, -⟩ := eq_at_mark clear (not_mem_escape (not_mem_bareName name)) same
  rw [← entry_family] at string
  exact (isString_entry_iff name).mp string

theorem comma_of_rest (c : Char) (named : Text.NameRule.classPrefix.rest c = true) :
    (c == ',') = false := by
  rw [beq_eq_false_iff_ne]
  rintro rfl
  contradiction

theorem endsValue_of_rest (c : Char) (named : Text.NameRule.classPrefix.rest c = true) :
    endsValue c = false := by
  rw [endsValue, Bool.or_eq_false_iff, beq_eq_false_iff_ne, beq_eq_false_iff_ne]
  constructor <;> rintro rfl <;> contradiction

/-- One entry after another is read as it was written, because the ones before it are. -/
theorem quotable_of_entries {stack : List FontFamily} (read : List.Forall₂ ReadsFor stack
      (topFields (· == ',') .start ([','].intercalate (stack.map entry)))) :
    ∀ name, family name ∈ stack → Quotable (bareName name) := by
  induction stack with
  | nil => exact fun name member => absurd member List.not_mem_nil
  | cons f rest ih =>
    obtain ⟨text, texts, first, others, fields⟩ := List.forall₂_cons_left_iff.mp read
    have quotable : ∀ name, f = family name → Quotable (bareName name) := by
      rintro name rfl
      exact quotable_of_first (first name rfl) others fields
    have one := isEntry_entry rfl comma_of_rest quotable
    have later : ∀ name, family name ∈ rest → Quotable (bareName name) := by
      cases rest with
      | nil => exact fun name member => absurd member List.not_mem_nil
      | cons second rest =>
        rw [List.map_cons, List.map_cons, List.intercalate_cons_cons, List.append_assoc,
          List.singleton_append, one.topFields] at read
        exact ih (List.forall₂_cons.mp read).2
    intro name member
    rcases List.mem_cons.mp member with same | inside
    · exact quotable name same.symm
    · exact later name inside

/-- The value of a font stack is read as the stack just when every name, without its double quotes,
is quotable. Its entries are then the ones that were written. -/
theorem value_readsAs_iff {stack : List FontFamily} {scope : Scope} {d : Declaration}
    (emitted : d ∈ (Property.fontFamily stack).declarations scope) (className : String)
    (layout : Layout) :
    ∃ value, (Rule.ofClass className d layout).declarations = [("font-family", value)] ∧
      (ReadsAs stack value.toList ↔ ∀ name, family name ∈ stack → Quotable (bareName name)) ∧
      (ReadsAs stack value.toList →
        topFields (· == ',') .start value.toList = stack.map entry) := by
  have nonempty : stack ≠ [] := by
    rintro rfl
    contradiction
  obtain rfl : d = scope.declare "font-family" (",".intercalate (stack.map css)) := by
    cases stack with
    | nil => contradiction
    | cons first rest => exact List.mem_singleton.mp emitted
  have property : Text.escapeStyle "font-family" = "font-family" := by decide
  have each {stop : Char → Bool} (quote : stop '\x22' = false)
      (letters : ∀ c, Text.NameRule.classPrefix.rest c = true → stop c = false)
      (quotable : ∀ name, family name ∈ stack → Quotable (bareName name)) :
      ∀ text ∈ stack.map entry, IsEntry stop text := by
    refine List.forall_mem_map.mpr fun f member => isEntry_entry quote letters ?_
    rintro name rfl
    exact quotable name member
  have written (quotable : ∀ name, family name ∈ stack → Quotable (bareName name)) :
      topFields (· == ',') .start ([','].intercalate (stack.map entry)) = stack.map entry :=
    topFields_intercalate (by simpa using nonempty) (each rfl comma_of_rest quotable)
  refine ⟨Text.escapeStyle (",".intercalate (stack.map css)), ?_, ?_⟩
  · rw [Rule.ofClass, Scope.declare, property]
  · rw [toList_value]
    refine ⟨⟨fun read => quotable_of_entries read.entries, fun quotable => ⟨?_, ?_⟩⟩,
      fun read => written (quotable_of_entries read.entries)⟩
    · rw [written quotable, List.forall₂_map_right_iff, List.forall₂_same]
      rintro _ member name rfl
      exact (isString_entry_iff name).mpr (quotable name member)
    · intro stop ends rest
      have whole := isEntry_intercalate rfl (each rfl endsValue_of_rest quotable)
      exact upTo?_of_passes whole.passed (by rw [whole.closed]; rfl) ends

def printed : List FontFamily :=
  [family "Open Sans", family "A\\\\", serif]

theorem value_readsAs_printed :
    ∃ value, (Rule.ofClass "font-family-0" (Scope.root.declare "font-family"
        (",".intercalate (printed.map css))) .compact).declarations = [("font-family", value)] ∧
      ReadsAs printed value.toList := by
  obtain ⟨value, declared, read, -⟩ :=
    @value_readsAs_iff printed .root _ List.mem_cons_self "font-family-0" .compact
  refine ⟨value, declared, read.mpr fun name member => (isString_entry_iff name).mp ?_⟩
  simp only [printed, List.mem_cons, family.injEq, List.not_mem_nil, or_false, reduceCtorEq]
    at member
  obtain rfl | rfl := member
  · decide
  · decide

/-- A backslash for a name takes the closing quote with it: the value is no string, and does not
end in front of the brace behind it. -/
theorem backslash_runs_on :
    (Property.fontFamily [family "\\"]).declarations .root =
        [Declaration.plain "font-family" "\x22\\\x22"] ∧
      isString (family "\\").entry = false ∧
      upTo? endsValue .start ((family "\\").entry ++ "\x7d.a\x7bwidth:0\x7d".toList) = none := by
  decide

end FontFamily

end AtomicMarkup
