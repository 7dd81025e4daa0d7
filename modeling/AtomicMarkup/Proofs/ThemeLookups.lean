import AtomicMarkup.Proofs.Delimited
import AtomicMarkup.Proofs.TokenOrder
import AtomicMarkup.Proofs.Words
import AtomicMarkup.Yaml.Settings

/-!
Lookups in themes. A reference is a category and a name behind a mark, and it stands for what the
lookup of that name gives. In a theme that was loaded every name has its value: the check at
loading has read every colour that a lookup may read later.
-/

namespace AtomicMarkup

namespace TokenTable

variable {α : Type} {table : TokenTable α} {name : String}

def names (table : TokenTable α) : List String :=
  table.entries.map Prod.fst

theorem exists_find?_iff : (∃ value, table.find? name = some value) ↔ name ∈ table.names := by
  rw [← Option.isSome_iff_exists, find?, List.lookup_isSome_iff, names, List.mem_map]
  simp only [beq_iff_eq, eq_comm (a := name)]

theorem find?_eq_none_iff : table.find? name = none ↔ name ∉ table.names := by
  rw [← exists_find?_iff, ← Option.isSome_iff_exists, Option.not_isSome_iff_eq_none]

theorem mem_entries_of_find? {value : α} (found : table.find? name = some value) :
    (name, value) ∈ table.entries := by
  obtain ⟨before, after, entries, -⟩ := List.lookup_eq_some_iff.mp found
  rw [entries]
  exact List.mem_append_right before List.mem_cons_self

end TokenTable

namespace Theme

variable {t : Theme} {reference name text : String}

/-- A reference is the mark, a category and a name, with a full stop between the two. -/
structure RefersTo (reference category name : String) : Prop where
  text : reference = "$theme." ++ category ++ "." ++ name
  nonempty : name ≠ ""
  noStop : '.' ∉ name.toList

theorem fields_eq_pair_iff {cs category name : List Char} :
    Text.fields (· == '.') cs = [category, name] ↔
      cs = category ++ '.' :: name ∧ '.' ∉ category ∧ '.' ∉ name := by
  rw [Text.fields_eq_splitOnP]
  constructor
  · intro cut
    have joined : ['.'].intercalate (cs.splitOnP (· == '.')) = cs := List.intercalate_splitOn '.'
    have free : ∀ field ∈ [category, name], '.' ∉ field := by
      intro field member inside
      rw [← cut, ← Text.fields_eq_splitOnP] at member
      simpa using Text.not_separator_of_mem_fields member '.' inside
    rw [cut, intercalate_cons_eq, List.flatMap_singleton] at joined
    exact ⟨joined.symm, free category List.mem_cons_self,
      free name (List.mem_cons_of_mem _ List.mem_cons_self)⟩
  · rintro ⟨rfl, noStop, noStop'⟩
    rw [List.splitOnP_append_cons_of_forall_mem (beq_mark_eq_false noStop) '.' rfl,
      List.splitOnP_eq_singleton (beq_mark_eq_false noStop')]

theorem toList_reference (category name : String) :
    ("$theme." ++ category ++ "." ++ name).toList =
      referenceMark ++ (category.toList ++ '.' :: name.toList) := by
  rw [String.toList_append, String.toList_append, String.toList_append, List.append_assoc,
    List.append_assoc]
  rfl

theorem splitReference?_eq_some_iff {category : String} :
    splitReference? reference = some (category, name) ↔
      RefersTo reference category name ∧ '.' ∉ category.toList := by
  constructor
  · intro read
    rw [splitReference?] at read
    split_ifs at read with mark
    split at read
    · next first second cut =>
      split_ifs at read with nothing
      obtain ⟨rfl, rfl⟩ := Prod.mk.inj (Option.some.inj read)
      obtain ⟨path, noStop, noStop'⟩ := fields_eq_pair_iff.mp cut
      have whole := List.prefix_iff_eq_append.mp (List.isPrefixOf_iff_prefix.mp mark)
      refine ⟨⟨?_, ?_, ?_⟩, ?_⟩
      · rw [← String.toList_inj, toList_reference, String.toList_ofList, String.toList_ofList,
          ← path, whole]
      · simpa [← String.toList_inj] using nothing
      · rwa [String.toList_ofList]
      · rwa [String.toList_ofList]
    · contradiction
  · rintro ⟨⟨rfl, nonempty, noStop⟩, noStop'⟩
    have mark : isReference ("$theme." ++ category ++ "." ++ name) = true := by
      rw [isReference, toList_reference, List.isPrefixOf_iff_prefix]
      exact List.prefix_append ..
    have visible : name.toList.isEmpty = false :=
      List.isEmpty_eq_false_iff.mpr fun nothing => nonempty (String.toList_eq_nil_iff.mp nothing)
    rw [splitReference?, if_pos mark, toList_reference, List.drop_left,
      fields_eq_pair_iff.mpr ⟨rfl, noStop', noStop⟩]
    simp only [visible, Bool.false_eq_true, ↓reduceIte, String.ofList_toList]

inductive Category where
  | colors
  | spacing
  | borderRadius
  | typography

namespace Category

def word : Category → String
  | colors => "colors"
  | spacing => "spacing"
  | borderRadius => "borderRadius"
  | typography => "typography"

theorem stop_not_mem_word (category : Category) : '.' ∉ category.word.toList := by
  cases category <;> decide +kernel

end Category

def names (t : Theme) : Category → List String
  | .colors => (t.colors.getD .empty).names
  | .spacing => (t.spacing.getD .empty).names
  | .borderRadius => (t.borderRadius.getD .empty).names
  | .typography => (t.typography.getD .empty).names

/-- The text of what a lookup gives: of a colour the light one, of a distance its number. -/
inductive Gives (t : Theme) (name : String) : Category → String → Prop where
  | color {c : SchemeColor} (found : t.color name = .ok c) : Gives t name .colors c.light.css
  | spacing {v : Float} (found : t.spacingOf name = .ok (.px v)) :
    Gives t name .spacing (Number.cssText v)
  | radius {v : Float} (found : t.radiusOf name = .ok (.px v)) :
    Gives t name .borderRadius (Number.cssText v)
  | fontSize {v : Float} (found : t.fontSizeOf name = .ok (.px v)) :
    Gives t name .typography (Number.cssText v)

theorem distance_eq_ok_iff {category : String} {table : Option (TokenTable Float)} {v : Float} :
    distance category table name = .ok (.px v) ↔ (table.getD .empty).find? name = some v := by
  rw [distance]
  cases (table.getD .empty).find? name with
  | none => simp
  | some w => simp

theorem numberText?_eq_some_iff (category : String) {table : Option (TokenTable Float)} :
    numberText? table name = some text ↔
      ∃ v, distance category table name = .ok (.px v) ∧ Number.cssText v = text := by
  rw [numberText?, Option.map_eq_some_iff]
  simp only [distance_eq_ok_iff]

theorem colorText_eq_some_iff :
    ((t.color name).toOption.map fun c => c.light.css) = some text ↔
      ∃ c, t.color name = .ok c ∧ c.light.css = text := by
  rw [Option.map_eq_some_iff]
  simp only [toOption_eq_some_iff]

/-- A reference stands for what the lookup of its name in its category gives. -/
theorem resolve?_eq_some_iff : t.resolve? reference = some text ↔
    ∃ category : Category, ∃ name,
      RefersTo reference category.word name ∧ t.Gives name category text := by
  constructor
  · intro resolved
    rw [resolve?] at resolved
    split at resolved
    · next name split =>
      obtain ⟨c, found, rfl⟩ := colorText_eq_some_iff.mp resolved
      exact ⟨.colors, name, (splitReference?_eq_some_iff.mp split).1, .color found⟩
    · next name split =>
      obtain ⟨v, found, rfl⟩ := (numberText?_eq_some_iff "spacing").mp resolved
      exact ⟨.spacing, name, (splitReference?_eq_some_iff.mp split).1, .spacing found⟩
    · next name split =>
      obtain ⟨v, found, rfl⟩ := (numberText?_eq_some_iff "borderRadius").mp resolved
      exact ⟨.borderRadius, name, (splitReference?_eq_some_iff.mp split).1, .radius found⟩
    · next name split =>
      obtain ⟨v, found, rfl⟩ := (numberText?_eq_some_iff "typography").mp resolved
      exact ⟨.typography, name, (splitReference?_eq_some_iff.mp split).1, .fontSize found⟩
    · contradiction
  · rintro ⟨category, name, refers, gives⟩
    have split := splitReference?_eq_some_iff.mpr ⟨refers, category.stop_not_mem_word⟩
    rw [resolve?, split]
    cases gives with
    | color found => exact colorText_eq_some_iff.mpr ⟨_, found, rfl⟩
    | spacing found => exact (numberText?_eq_some_iff _).mpr ⟨_, found, rfl⟩
    | radius found => exact (numberText?_eq_some_iff _).mpr ⟨_, found, rfl⟩
    | fontSize found => exact (numberText?_eq_some_iff _).mpr ⟨_, found, rfl⟩

theorem resolveColor_eq_ok_iff {c : SchemeColor} : t.resolveColor reference = .ok c ↔
    ∃ name, RefersTo reference Category.colors.word name ∧ t.color name = .ok c := by
  constructor
  · intro resolved
    rw [resolveColor] at resolved
    split at resolved
    · next name split => exact ⟨name, (splitReference?_eq_some_iff.mp split).1, resolved⟩
    · contradiction
  · rintro ⟨name, refers, found⟩
    rw [resolveColor, splitReference?_eq_some_iff.mpr ⟨refers, Category.stop_not_mem_word .colors⟩]
    exact found

/-- The two ways to resolve a reference agree on colours. -/
theorem exists_resolveColor_iff : (∃ c, t.resolveColor reference = .ok c) ↔
    ∃ name text, RefersTo reference Category.colors.word name ∧
      t.resolve? reference = some text := by
  constructor
  · rintro ⟨c, resolved⟩
    obtain ⟨name, refers, found⟩ := resolveColor_eq_ok_iff.mp resolved
    exact ⟨name, _, refers, resolve?_eq_some_iff.mpr ⟨.colors, name, refers, .color found⟩⟩
  · rintro ⟨name, text, refers, resolved⟩
    rw [resolve?, splitReference?_eq_some_iff.mpr ⟨refers, Category.stop_not_mem_word .colors⟩]
      at resolved
    obtain ⟨c, found, -⟩ := colorText_eq_some_iff.mp resolved
    exact ⟨c, resolveColor_eq_ok_iff.mpr ⟨name, refers, found⟩⟩

theorem check_of_ofYaml {s : String} (loaded : ofYaml s = .ok t) : t.check = .ok () := by
  rw [ofYaml] at loaded
  split at loaded
  · contradiction
  · obtain ⟨_, checked, rfl⟩ := bind_pure_eq_ok_iff.mp loaded
    exact checked

theorem exists_color_of_mem (checked : t.check = .ok ()) (member : name ∈ t.names .colors) :
    ∃ c, t.color name = .ok c := by
  obtain ⟨token, found⟩ := TokenTable.exists_find?_iff.mpr member
  obtain ⟨c, read⟩ := check_eq_ok_iff.mp checked _ (TokenTable.mem_entries_of_find? found)
  refine ⟨c, ?_⟩
  rw [color, found]
  exact read

theorem color_of_not_mem (missing : name ∉ t.names .colors) :
    t.color name = .error (.themeVariableNotFound "colors" name) := by
  rw [color, TokenTable.find?_eq_none_iff.mpr missing]

/-- Of a checked theme the names are those that a lookup gives something for. -/
theorem exists_gives_iff (checked : t.check = .ok ()) {category : Category} :
    (∃ text, t.Gives name category text) ↔ name ∈ t.names category := by
  have number (word : String) {table : Option (TokenTable Float)} :
      (∃ v, distance word table name = .ok (.px v)) ↔ name ∈ (table.getD .empty).names := by
    simp only [distance_eq_ok_iff]
    exact TokenTable.exists_find?_iff
  cases category with
  | colors =>
    constructor
    · rintro ⟨text, gives⟩
      cases gives with
      | color found =>
        by_contra missing
        rw [color_of_not_mem missing] at found
        contradiction
    · intro member
      obtain ⟨c, found⟩ := exists_color_of_mem checked member
      exact ⟨_, .color found⟩
  | spacing =>
    refine Iff.trans ⟨?_, ?_⟩ (number "spacing")
    · exact fun ⟨_, .spacing found⟩ => ⟨_, found⟩
    · exact fun ⟨_, found⟩ => ⟨_, .spacing found⟩
  | borderRadius =>
    refine Iff.trans ⟨?_, ?_⟩ (number "borderRadius")
    · exact fun ⟨_, .radius found⟩ => ⟨_, found⟩
    · exact fun ⟨_, found⟩ => ⟨_, .radius found⟩
  | typography =>
    refine Iff.trans ⟨?_, ?_⟩ (number "typography")
    · exact fun ⟨_, .fontSize found⟩ => ⟨_, found⟩
    · exact fun ⟨_, found⟩ => ⟨_, .fontSize found⟩

/-- A theme without hidden errors, whose references agree with its lookups. -/
structure Coherent (t : Theme) : Prop where
  exists_color : ∀ name ∈ t.names .colors, ∃ c, t.color name = .ok c
  /-- Nothing but a missing name is an error. -/
  color_missing : ∀ name, name ∉ t.names .colors →
    t.color name = .error (.themeVariableNotFound "colors" name)
  /-- A reference stands for something just when it names a value that is there. -/
  exists_resolve_iff : ∀ reference, (∃ text, t.resolve? reference = some text) ↔
    ∃ category : Category, ∃ name, RefersTo reference category.word name ∧ name ∈ t.names category
  /-- It stands for what the lookup of that name gives. -/
  resolve_iff : ∀ reference text, t.resolve? reference = some text ↔
    ∃ category : Category, ∃ name, RefersTo reference category.word name ∧
      t.Gives name category text
  exists_resolveColor_iff : ∀ reference, (∃ c, t.resolveColor reference = .ok c) ↔
    ∃ name text, RefersTo reference Category.colors.word name ∧ t.resolve? reference = some text
  resolve_of_resolveColor : ∀ reference c,
    t.resolveColor reference = .ok c → t.resolve? reference = some c.light.css

theorem coherent_of_check (checked : t.check = .ok ()) : t.Coherent := by
  refine ⟨fun name => exists_color_of_mem checked, fun name => color_of_not_mem, ?_,
    fun reference text => resolve?_eq_some_iff, fun reference => exists_resolveColor_iff, ?_⟩
  · intro reference
    constructor
    · rintro ⟨text, resolved⟩
      obtain ⟨category, name, refers, gives⟩ := resolve?_eq_some_iff.mp resolved
      exact ⟨category, name, refers, (exists_gives_iff checked).mp ⟨text, gives⟩⟩
    · rintro ⟨category, name, refers, member⟩
      obtain ⟨text, gives⟩ := (exists_gives_iff checked).mpr member
      exact ⟨text, resolve?_eq_some_iff.mpr ⟨category, name, refers, gives⟩⟩
  · intro reference c resolved
    obtain ⟨name, refers, found⟩ := resolveColor_eq_ok_iff.mp resolved
    exact resolve?_eq_some_iff.mpr ⟨.colors, name, refers, .color found⟩

/-- A theme that was loaded has been checked, whatever text it was loaded from. In it a colour is
found by its name, and references resolve to what the lookups of their names give. -/
theorem lookups_of_ofYaml {s : String} (loaded : ofYaml s = .ok t) :
    t.check = .ok () ∧ t.Coherent :=
  ⟨check_of_ofYaml loaded, coherent_of_check (check_of_ofYaml loaded)⟩

theorem lookups_inkAndSmall :
    ∃ t, ofYaml "colors:\n  ink: \x22#4a90e2\x22\nspacing:\n  small: 8\n" = .ok t ∧
      t.color "paper" = .error (.themeVariableNotFound "colors" "paper") ∧
      (∃ c, t.resolveColor "$theme.colors.ink" = .ok c) ∧
      t.resolve? "$theme.spacing.small" = some "8" := by
  have loaded : ofYaml "colors:\n  ink: \x22#4a90e2\x22\nspacing:\n  small: 8\n" =
      .ok ⟨some ⟨[("ink", .single "#4a90e2")]⟩, some ⟨[("small", 8)]⟩, none, none⟩ := by
    rw [← toOption_eq_some_iff]
    decide +kernel
  obtain ⟨-, -, missing, there, stands, colors, -⟩ := lookups_of_ofYaml loaded
  have ink : RefersTo "$theme.colors.ink" Category.colors.word "ink" :=
    ⟨by decide +kernel, by decide +kernel, by decide +kernel⟩
  have small : RefersTo "$theme.spacing.small" Category.spacing.word "small" :=
    ⟨by decide +kernel, by decide +kernel, by decide +kernel⟩
  have eight : Number.cssText 8 = "8" := by decide +kernel
  obtain ⟨text, resolved⟩ := (there _).mpr ⟨.colors, "ink", ink, by decide +kernel⟩
  exact ⟨_, loaded, missing "paper" (by decide +kernel),
    (colors _).mpr ⟨"ink", text, ink, resolved⟩,
    (stands _ "8").mpr ⟨.spacing, "small", small, eight ▸ .spacing rfl⟩⟩

end Theme

end AtomicMarkup
