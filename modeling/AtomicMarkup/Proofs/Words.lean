import AtomicMarkup.Proofs.Escape
import AtomicMarkup.Proofs.NameGrammar
import AtomicMarkup.Text.Blank
import AtomicMarkup.Text.Name

/-!
Words of a text, and names that every place of a page carries as they are. A separator ends what is
in front of it, so that words with one blank between them are found again, also where they were
escaped; texts cut at two sets of separators are told apart by the characters that are left. Whether
capitals matter to a function is tried on A to Z. A class name by its grammar has no character that
is escaped or that ends a word.
-/

namespace AtomicMarkup.Text

section Words

structure IsWord (s : String) : Prop where
  nonempty : s.toList ≠ []
  noBlank : ∀ c ∈ s.toList, isBlank c = false

theorem fields_eq_splitOnP (separator : Char → Bool) (cs : List Char) :
    fields separator cs = cs.splitOnP separator := by
  induction cs with
  | nil => rfl
  | cons c cs ih =>
    rw [fields, List.splitOnP_cons_eq_if_modifyHead, ih]
    cases fields : cs.splitOnP separator with
    | nil => exact absurd fields (List.splitOnP_ne_nil separator cs)
    | cons field rest => rfl

theorem not_separator_of_mem_fields {separator : Char → Bool} {cs field : List Char}
    (member : field ∈ fields separator cs) : ∀ c ∈ field, separator c = false := by
  induction cs generalizing field with
  | nil =>
    obtain rfl := List.mem_singleton.mp member
    nofun
  | cons c cs ih =>
    rw [fields] at member
    split at member
    · rcases List.mem_cons.mp member with rfl | later
      · nofun
      · exact ih later
    · next inField =>
      have ordinary : separator c = false := by simpa using inField
      split at member
      · obtain rfl := List.mem_singleton.mp member
        simpa using ordinary
      · next first rest eq =>
        rw [eq] at ih
        rcases List.mem_cons.mp member with rfl | later
        · exact List.forall_mem_cons.mpr ⟨ordinary, ih List.mem_cons_self⟩
        · exact ih (List.mem_cons_of_mem _ later)

theorem isWord_of_mem_words {s word : String} (member : word ∈ words s) : IsWord word := by
  obtain ⟨field, token, rfl⟩ := List.mem_map.mp member
  obtain ⟨inside, nonempty⟩ := List.mem_filter.mp token
  refine ⟨?_, ?_⟩
  · simpa using nonempty
  · rw [String.toList_ofList]
    exact not_separator_of_mem_fields inside

theorem tokens_eq_singleton {separator : Char → Bool} {cs : List Char} (nonempty : cs ≠ [])
    (free : ∀ c ∈ cs, separator c = false) : tokens separator cs = [cs] := by
  rw [tokens, fields_eq_splitOnP, List.splitOnP_eq_singleton free, List.filter_cons_of_pos,
    List.filter_nil]
  simpa using nonempty

theorem tokens_append_separator {separator : Char → Bool} (front back : List Char) {c : Char}
    (stop : separator c = true) :
    tokens separator (front ++ c :: back) = tokens separator front ++ tokens separator back := by
  rw [tokens, fields_eq_splitOnP, List.splitOnP_append_cons front back stop, List.filter_append,
    ← fields_eq_splitOnP, ← fields_eq_splitOnP]
  rfl

/-- Texts with one separator between them have the tokens of each. -/
theorem tokens_intercalate {separator : Char → Bool} {c : Char} (stop : separator c = true)
    (texts : List (List Char)) :
    tokens separator ([c].intercalate texts) = texts.flatMap (tokens separator) := by
  induction texts with
  | nil => rfl
  | cons first rest ih =>
    cases rest with
    | nil => rw [List.intercalate_singleton, List.flatMap_singleton]
    | cons second rest =>
      rw [List.intercalate_cons_cons, List.append_assoc, List.singleton_append,
        tokens_append_separator first _ stop, ih, ← List.flatMap_cons]

theorem flatten_tokens (separator : Char → Bool) (cs : List Char) :
    (tokens separator cs).flatten = cs.filter (fun c => !separator c) := by
  rw [tokens, List.flatten_filter_not_isEmpty]
  induction cs with
  | nil => rfl
  | cons c cs ih =>
    rw [fields]
    split
    · next stop =>
      rw [List.flatten_cons, List.nil_append, ih, List.filter_cons_of_neg (by simp [stop])]
    · next ordinary =>
      split
      · next none => exact absurd none (fields_ne_nil separator cs)
      · next field rest eq =>
        rw [eq, List.flatten_cons] at ih
        rw [List.flatten_cons, List.cons_append, ih,
          List.filter_cons_of_pos (by simpa using ordinary)]

theorem tokens_ne_nil {separator : Char → Bool} {cs : List Char} {c : Char} (member : c ∈ cs)
    (ordinary : separator c = false) : tokens separator cs ≠ [] := by
  intro none
  have kept : c ∈ cs.filter (fun c => !separator c) :=
    List.mem_filter.mpr ⟨member, by simpa using ordinary⟩
  rw [← flatten_tokens, none] at kept
  exact List.not_mem_nil kept

theorem tokens_congr {separator other : Char → Bool} {cs : List Char}
    (same : ∀ c ∈ cs, separator c = other c) : tokens separator cs = tokens other cs := by
  have cut : fields separator cs = fields other cs := by
    induction cs with
    | nil => rfl
    | cons c cs ih =>
      obtain ⟨first, later⟩ := List.forall_mem_cons.mp same
      rw [fields, fields, first, ih later]
  rw [tokens, tokens, cut]

/-- With more separators a text has other tokens, unless it holds none of those that are new. -/
theorem tokens_eq_tokens_iff {separator other : Char → Bool}
    (narrower : ∀ c, other c = true → separator c = true) {cs : List Char} :
    tokens separator cs = tokens other cs ↔
      ∀ c ∈ cs, separator c = true → other c = true := by
  constructor
  · intro same c member stop
    by_contra ordinary
    have kept : c ∈ cs.filter (fun c => !other c) :=
      List.mem_filter.mpr ⟨member, by simpa using ordinary⟩
    rw [← flatten_tokens, ← same, flatten_tokens, List.mem_filter, stop] at kept
    exact Bool.false_ne_true kept.2
  · intro only
    exact tokens_congr fun c member => Bool.eq_iff_iff.mpr ⟨only c member, narrower c⟩

theorem words_intercalate {texts : List String} (each : ∀ text ∈ texts, IsWord text) :
    words (" ".intercalate texts) = texts := by
  have alone : ∀ text ∈ texts, tokens isBlank text.toList = [text.toList] :=
    fun text member => tokens_eq_singleton (each text member).nonempty (each text member).noBlank
  have blank : " ".toList = [' '] := rfl
  rw [words, String.toList_intercalate, blank, tokens_intercalate rfl, List.flatMap_map,
    List.flatMap_congr alone, ← List.map_eq_flatMap, List.map_map]
  simp

theorem words_append_blank (front back : String) :
    words (front ++ " " ++ back) = words front ++ words back := by
  have blank : " ".toList = [' '] := rfl
  rw [words, String.toList_append, String.toList_append, blank, List.append_assoc,
    List.singleton_append, tokens_append_separator _ _ rfl, List.map_append]
  rfl

theorem isBlank_attributeChar {c : Char} (visible : isBlank c = false) :
    ∀ d ∈ attributeChar c, isBlank d = false := by
  unfold attributeChar
  split
  · simp [isBlank]
  · simp [isBlank]
  · simp [isBlank]
  · simp [isBlank]
  · simp [isBlank]
  · simpa using visible

theorem IsWord.escapeAttribute {s : String} (word : IsWord s) : IsWord (escapeAttribute s) := by
  obtain ⟨nonempty, noBlank⟩ := word
  rw [Text.escapeAttribute]
  constructor
  · rw [String.toList_ofList]
    cases chars : s.toList with
    | nil => exact absurd chars nonempty
    | cons c cs =>
      rw [List.flatMap_cons]
      intro empty
      have first := (List.append_eq_nil_iff.mp empty).1
      unfold attributeChar at first
      split at first <;> contradiction
  · rw [String.toList_ofList]
    intro d member
    obtain ⟨c, inside, written⟩ := List.mem_flatMap.mp member
    exact isBlank_attributeChar (noBlank c inside) d written

end Words

section Capitals

theorem apply_toLower {α : Type} {f : Char → α}
    (capitals : ∀ n < 91, 65 ≤ n → f (Char.ofNat n).toLower = f (Char.ofNat n)) (c : Char) :
    f c.toLower = f c := by
  by_cases capital : 65 ≤ c.toNat ∧ c.toNat ≤ 90
  · have own := capitals c.toNat (by omega) capital.1
    rwa [Char.ofNat_toNat] at own
  · have kept : c.toLower = c := dif_neg capital
    rw [kept]

theorem lowercase_lowercase (s : String) : lowercase (lowercase s) = lowercase s := by
  rw [← String.toList_inj, lowercase, lowercase, String.toList_map, String.toList_map, List.map_map]
  exact List.map_congr_left fun c _ => apply_toLower (f := Char.toLower) (by decide +kernel) c

end Capitals

section Names

theorem NameRule.acceptsChars_append {rule : NameRule} {cs rest : List Char}
    (accepted : rule.acceptsChars cs = true) (more : ∀ c ∈ rest, rule.rest c = true) :
    rule.acceptsChars (cs ++ rest) = true := by
  cases cs with
  | nil => contradiction
  | cons c cs =>
    rw [acceptsChars, Bool.and_eq_true] at accepted
    rw [List.cons_append, acceptsChars, List.all_append, accepted.1, accepted.2]
    simpa using more

theorem NameRule.rest_of_acceptsChars {rule : NameRule}
    (carried : ∀ c, rule.first c = true → rule.rest c = true) {cs : List Char}
    (accepted : rule.acceptsChars cs = true) : ∀ c ∈ cs, rule.rest c = true := by
  cases cs with
  | nil => contradiction
  | cons c cs =>
    rw [acceptsChars, Bool.and_eq_true] at accepted
    exact List.forall_mem_cons.mpr ⟨carried c accepted.1, List.all_eq_true.mp accepted.2⟩

theorem NameRule.acceptsChars_map {rule other : NameRule} {f : Char → Char}
    (first : ∀ c, rule.first c = true → other.first (f c) = true)
    (rest : ∀ c, rule.rest c = true → other.rest (f c) = true) {cs : List Char}
    (accepted : rule.acceptsChars cs = true) : other.acceptsChars (cs.map f) = true := by
  cases cs with
  | nil => contradiction
  | cons c cs =>
    rw [acceptsChars, Bool.and_eq_true, List.all_eq_true] at accepted
    rw [List.map_cons, acceptsChars, Bool.and_eq_true, List.all_eq_true]
    exact ⟨first c accepted.1,
      List.forall_mem_map.mpr fun d member => rest d (accepted.2 d member)⟩

theorem classPrefix_rest_of_first (c : Char) (first : NameRule.classPrefix.first c = true) :
    NameRule.classPrefix.rest c = true := by
  simp only [NameRule.classPrefix, Char.isAlphanum, Bool.or_eq_true] at first ⊢
  exact .inl (first.imp_left .inl)

theorem tagName_rest_of_first (c : Char) (letter : NameRule.tagName.first c = true) :
    NameRule.tagName.rest c = true := by
  simp only [NameRule.tagName, Char.isAlphanum, Bool.or_eq_true] at letter ⊢
  exact .inl (.inl letter)

theorem classPrefix_acceptsChars {cs : List Char}
    (named : NameRule.tagName.acceptsChars cs = true) :
    NameRule.classPrefix.acceptsChars cs = true := by
  have first (c : Char) (letter : NameRule.tagName.first c = true) :
      NameRule.classPrefix.first (id c) = true := Bool.or_eq_true_iff.mpr (.inl letter)
  have rest (c : Char) (inside : NameRule.tagName.rest c = true) :
      NameRule.classPrefix.rest (id c) = true := by
    simp only [NameRule.tagName, NameRule.classPrefix, Bool.or_eq_true] at inside ⊢
    exact inside.imp_left .inl
  have named := NameRule.acceptsChars_map first rest named
  rwa [List.map_id] at named

theorem attributeChar_of_rest {c : Char} (named : NameRule.classPrefix.rest c = true) :
    attributeChar c = [c] := by
  unfold attributeChar
  split
  · contradiction
  · contradiction
  · contradiction
  · contradiction
  · contradiction
  · rfl

theorem styleChar_of_rest {c : Char} (named : NameRule.classPrefix.rest c = true) :
    styleChar c = [c] := by
  unfold styleChar
  split
  · contradiction
  · rfl

theorem toNat_of_isAlphanum {c : Char} (named : c.isAlphanum = true) :
    (48 ≤ c.toNat ∧ c.toNat ≤ 57) ∨ (65 ≤ c.toNat ∧ c.toNat ≤ 90) ∨
      (97 ≤ c.toNat ∧ c.toNat ≤ 122) := by
  obtain (lower | upper) | digit := isAlphanum_iff.mp named
  · exact .inr (.inr lower)
  · exact .inr (.inl upper)
  · exact .inl digit

theorem isBlank_of_rest {c : Char} (named : NameRule.classPrefix.rest c = true) :
    isBlank c = false := by
  simp only [NameRule.classPrefix, Bool.or_eq_true, beq_iff_eq] at named
  rcases named with (alphanum | rfl) | rfl
  · have number := toNat_of_isAlphanum alphanum
    simp only [isBlank, Bool.or_eq_false_iff, Bool.and_eq_false_iff, decide_eq_false_iff_not,
      beq_eq_false_iff_ne]
    omega
  · rfl
  · rfl

/-- An escape that leaves the characters of class names leaves a class name. -/
theorem flatMap_of_rest {escape : Char → List Char}
    (each : ∀ c, NameRule.classPrefix.rest c = true → escape c = [c]) {s : String}
    (accepted : NameRule.classPrefix.accepts s = true) :
    String.ofList (s.toList.flatMap escape) = s := by
  have chars := NameRule.rest_of_acceptsChars classPrefix_rest_of_first accepted
  exact ofList_flatMap_eq_self fun c member => each c (chars c member)

theorem isWord_of_accepts {s : String} (accepted : NameRule.classPrefix.accepts s = true) :
    IsWord s := by
  have chars := NameRule.rest_of_acceptsChars classPrefix_rest_of_first accepted
  refine ⟨?_, fun c member => isBlank_of_rest (chars c member)⟩
  intro empty
  rw [NameRule.accepts, empty] at accepted
  contradiction

theorem toNat_lt_of_rest {c : Char} (named : NameRule.tagName.rest c = true) : c.toNat < 128 := by
  simp only [NameRule.tagName, Bool.or_eq_true, beq_iff_eq] at named
  rcases named with alphanum | rfl
  · have number := toNat_of_isAlphanum alphanum
    omega
  · decide

theorem first_toLower {c : Char} (letter : NameRule.tagName.first c = true) :
    NameRule.tagName.first c.toLower = true := by
  -- Letters are ASCII, so that each of them can be tried.
  have each : ∀ n < 128, NameRule.tagName.first (Char.ofNat n) = true →
      NameRule.tagName.first (Char.ofNat n).toLower = true := by decide
  have small : c.toNat < 128 := toNat_lt_of_rest (tagName_rest_of_first c letter)
  have lowered := each c.toNat small
  rw [Char.ofNat_toNat] at lowered
  exact lowered letter

theorem rest_toLower {c : Char} (named : NameRule.tagName.rest c = true) :
    NameRule.tagName.rest c.toLower = true := by
  have each : ∀ n < 128, NameRule.tagName.rest (Char.ofNat n) = true →
      NameRule.tagName.rest (Char.ofNat n).toLower = true := by decide
  have lowered := each c.toNat (toNat_lt_of_rest named)
  rw [Char.ofNat_toNat] at lowered
  exact lowered named

theorem acceptsChars_toLower {cs : List Char} (named : NameRule.tagName.acceptsChars cs = true) :
    NameRule.tagName.acceptsChars (cs.map Char.toLower) = true :=
  NameRule.acceptsChars_map (fun _ => first_toLower) (fun _ => rest_toLower) named

theorem exists_of_isPropertyName {s : String} (named : isPropertyName s = true) :
    ∃ hyphens name, s.toList = hyphens ++ name ∧ (∀ c ∈ hyphens, c = '-') ∧
      NameRule.tagName.acceptsChars name = true := by
  unfold isPropertyName at named
  split at named
  · next name chars => exact ⟨['-', '-'], name, chars, by simp, named⟩
  · next name _ chars => exact ⟨['-'], name, chars, by simp, named⟩
  · exact ⟨[], s.toList, rfl, nofun, named⟩

end Names

end AtomicMarkup.Text
