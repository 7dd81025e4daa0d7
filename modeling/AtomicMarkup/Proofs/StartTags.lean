import AtomicMarkup.Proofs.Editing
import AtomicMarkup.Proofs.Html.NormalForm

/-!
Names in start tags. A start tag reads back with the names of the element, each of them once, and
a class attribute exactly where there are classes. Names are compared letter by letter, while HTML
takes names in any capitals for the same: which spellings are to be avoided is said in terms of the
names that an element is built with.
-/

namespace AtomicMarkup

namespace Element

theorem valueIn?_of_mem {attributes : List Attribute}
    (distinct : (attributes.map fun a => a.name).Nodup) {a : Attribute}
    (inside : a ∈ attributes) : valueIn? a.name attributes = some a.value := by
  induction attributes with
  | nil => exact absurd inside List.not_mem_nil
  | cons first rest ih =>
    rw [List.map_cons, List.nodup_cons] at distinct
    rw [valueIn?_cons]
    obtain rfl | later := List.mem_cons.mp inside
    · rw [if_pos rfl]
    · have apart : first.name ≠ a.name := fun same =>
        distinct.1 (same ▸ List.mem_map_of_mem later)
      rw [if_neg apart, ih distinct.2 later]

theorem classWords_of_mem {e : Element} (distinct : e.names.Nodup) {a : Attribute}
    (inside : a ∈ e.attributes) (isClass : a.name = "class") :
    Text.words a.value.content = e.classWords := by
  have value := valueIn?_of_mem distinct inside
  rw [isClass] at value
  rw [classWords_eq, value?, value]
  rfl

theorem classWords_of_not_mem {e : Element} (unclassed : "class" ∉ e.names) :
    e.classWords = [] := by
  have absent : e.value? "class" = none := by
    rw [value?, valueIn?, Option.map_eq_none_iff, List.find?_eq_none]
    intro a inside isClass
    exact unclassed (List.mem_map.mpr ⟨a, inside, by simpa using isClass⟩)
  rw [classWords_eq, absent]
  rfl

/-- Whether a class attribute is written for an element. -/
def HasClasses (e : Element) : Prop :=
  e.classWords ≠ [] ∨ e.styles ≠ []

instance (e : Element) : Decidable e.HasClasses :=
  inferInstanceAs (Decidable (_ ∨ _))

/-- The names in the start tag of an element. -/
def writtenNames (e : Element) : List String :=
  if e.HasClasses then (e.names ++ ["class"]).eraseDups else e.names.filter (· != "class")

theorem mem_writtenNames {e : Element} {name : String} :
    name ∈ e.writtenNames ↔
      name ∈ e.names ∧ name ≠ "class" ∨ name = "class" ∧ e.HasClasses := by
  rw [writtenNames]
  split
  · next classes =>
    rw [List.mem_eraseDups, List.mem_append, List.mem_singleton]
    by_cases isClass : name = "class" <;> simp [isClass, classes]
  · next unclassed => simp [unclassed]

theorem nodup_writtenNames {e : Element} (distinct : e.names.Nodup) : e.writtenNames.Nodup := by
  rw [writtenNames]
  split
  · exact nodup_eraseDups _
  · exact distinct.filter _

end Element

namespace Html

theorem map_name_classAttributes (given : String) (generated : List String) :
    (classAttributes given generated).map (fun a => a.name) =
      if Text.words given ++ generated = [] then [] else ["class"] := by
  rw [classAttributes]
  cases Text.words given ++ generated <;> rfl

theorem map_name_ownAttributes {attributes : List Attribute} {classes generated : List String}
    (given : ∀ a ∈ attributes, a.name = "class" → Text.words a.value.content = classes) :
    (attributes.flatMap fun a => if a.name == "class" then
        classAttributes a.value.content generated else [a]).map (fun a => a.name) =
      if classes ++ generated = [] then (attributes.map fun a => a.name).filter (· != "class")
      else attributes.map fun a => a.name := by
  induction attributes with
  | nil => split <;> rfl
  | cons a rest ih =>
    obtain ⟨first, later⟩ := List.forall_mem_cons.mp given
    rw [List.flatMap_cons, List.map_append, ih later, List.map_cons]
    by_cases isClass : a.name = "class"
    · rw [if_pos (beq_iff_eq.mpr isClass), map_name_classAttributes, first isClass, isClass]
      split <;> simp
    · rw [if_neg (by simpa using isClass)]
      split <;> simp [isClass]

/-- The names that are written with generated classes: those of the element in their order, and a
class at its place, or else at the end, unless there are no classes at all. -/
theorem map_name_normalAttributes {e : Element} (distinct : e.names.Nodup)
    (generated : List String) :
    (normalAttributes e.attributes generated).map (fun a => a.name) =
      if e.classWords ++ generated = [] then e.names.filter (· != "class")
      else (e.names ++ ["class"]).eraseDups := by
  have own := @map_name_ownAttributes e.attributes e.classWords generated fun a inside isClass =>
    Element.classWords_of_mem distinct inside isClass
  have classed : e.attributes.any (fun a => a.name == "class") = true ↔ "class" ∈ e.names := by
    simp [Element.names]
  rw [normalAttributes, eraseDups_concat, eraseDups_eq_self distinct]
  by_cases inside : "class" ∈ e.names
  · rw [if_pos (classed.mpr inside), own, if_pos inside]
    rfl
  · have none : e.classWords = [] := Element.classWords_of_not_mem inside
    have blank : Text.words "" = [] := rfl
    rw [if_neg (fun present => inside (classed.mp present)), if_neg inside, List.map_append, own,
      map_name_classAttributes, none, blank]
    split
    · exact List.append_nil _
    · rfl

end Html

namespace Element

theorem generated_eq_nil_iff (table : ClassTable) (styles : List Declaration) :
    (table.internAll (Declaration.effective styles)).1 = [] ↔ styles = [] := by
  have perDeclaration := congrArg List.length
    (ClassTable.classOf?_internAll table (Declaration.effective styles))
  rw [List.length_map, List.length_map] at perDeclaration
  rw [← List.length_eq_zero_iff, ← perDeclaration, List.length_eq_zero_iff]
  constructor
  · intro none
    by_contra declared
    obtain ⟨d, member⟩ := List.exists_mem_of_ne_nil styles declared
    obtain ⟨last, -, kept⟩ := Declaration.exists_last_of_mem member
    rw [none] at kept
    contradiction
  · rintro rfl
    rfl

theorem readMark_startMark {e : Element} (tagged : Text.NameRule.tagName.accepts e.tag = true)
    (distinct : e.names.Nodup)
    (named : ∀ name ∈ e.names, Text.NameRule.attributeName.accepts name = true)
    (table : ClassTable) (rest : List Char) :
    ∃ written, Html.readMark ((e.startMark.write table).1.toList ++ rest) =
        some (.start e.tag written [], rest) ∧
      written.map (fun a => a.name) = e.writtenNames := by
  have accepted : ∀ a ∈ e.attributes, Text.NameRule.attributeName.accepts a.name = true :=
    fun a inside => named a.name (List.mem_map_of_mem inside)
  have unclassed := generated_eq_nil_iff table e.styles
  generalize generated_eq : (table.internAll (Declaration.effective e.styles)).1 = generated
    at unclassed
  have text : (e.startMark.write table).1.toList ++ rest = '<' :: e.tag.toList ++
      (Html.normalAttributes e.attributes generated).flatMap Html.writeAttribute ++
        '>' :: rest := by
    simp [startMark, Mark.write, generated_eq, Html.toList_attributesText]
  refine ⟨Html.normalAttributes e.attributes generated, ?_, ?_⟩
  · rw [text, Html.readMark_start tagged (Html.normalAttributes_named accepted)]
  · have classless : e.classWords ++ generated = [] ↔ ¬ e.HasClasses := by
      rw [List.append_eq_nil_iff, unclassed, HasClasses, not_or, not_not, not_not]
    rw [Html.map_name_normalAttributes distinct, writtenNames]
    by_cases classes : e.HasClasses
    · rw [if_pos classes, if_neg (fun none => classless.mp none classes)]
    · rw [if_neg classes, if_pos (classless.mpr classes)]

/-- Names that are written differ in more than their capitals just when those of the element do,
apart from the class attribute, which has to be the only one in any capitals if it is written. -/
theorem nodup_lowercase_writtenNames_iff {e : Element} (distinct : e.names.Nodup) :
    (e.writtenNames.map Text.lowercase).Nodup ↔
      (∀ m ∈ e.names, ∀ n ∈ e.names, m ≠ "class" → n ≠ "class" →
        Text.sameIgnoringCase m n = true → m = n) ∧
      (e.HasClasses → ∀ n ∈ e.names, Text.sameIgnoringCase n "class" = true → n = "class") := by
  simp only [List.nodup_map_iff_inj_on (nodup_writtenNames distinct), mem_writtenNames,
    Text.sameIgnoringCase, beq_iff_eq]
  constructor
  · intro apart
    refine ⟨fun m hm n hn mOther nOther same =>
      apart m (.inl ⟨hm, mOther⟩) n (.inl ⟨hn, nOther⟩) same, ?_⟩
    intro classes n inside same
    by_contra other
    exact other (apart n (.inl ⟨inside, other⟩) "class" (.inr ⟨rfl, classes⟩) same)
  · rintro ⟨others, only⟩ m (⟨hm, mOther⟩ | ⟨rfl, classes⟩) n (⟨hn, nOther⟩ | ⟨rfl, classes'⟩) same
    · exact others m hm n hn mOther nOther same
    · exact only classes' m hm same
    · exact (only classes n hn same.symm).symm
    · rfl

/-- The start tag of a built element holds no name twice. Nor does it hold one in two spellings that
differ in their capitals alone, exactly when no two of the names that the element starts with or
that are set are such spellings; a class attribute counts when there are classes to write. -/
theorem readMark_build {e : Element} (tagged : Text.NameRule.tagName.accepts e.tag = true)
    (distinct : e.names.Nodup) (edits : List Edit)
    (named : ∀ name ∈ e.names ++ edits.filterMap Edit.name?,
      Text.NameRule.attributeName.accepts name = true)
    (table : ClassTable) (rest : List Char) :
    ∃ written,
      Html.readMark (((e.build edits).startMark.write table).1.toList ++ rest) =
          some (.start e.tag written [], rest) ∧
        written.map (fun a => a.name) = (e.build edits).writtenNames ∧
        (written.map fun a => a.name).Nodup ∧
        ((written.map fun a => Text.lowercase a.name).Nodup ↔
          (∀ m ∈ e.names ++ edits.filterMap Edit.name?,
            ∀ n ∈ e.names ++ edits.filterMap Edit.name?, m ≠ "class" → n ≠ "class" →
              Text.sameIgnoringCase m n = true → m = n) ∧
          ((e.build edits).HasClasses → ∀ n ∈ e.names ++ edits.filterMap Edit.name?,
            Text.sameIgnoringCase n "class" = true → n = "class")) := by
  have names := e.names_build edits distinct
  have once : (e.build edits).names.Nodup := names ▸ nodup_eraseDups _
  have member (name : String) :
      name ∈ (e.build edits).names ↔ name ∈ e.names ++ edits.filterMap Edit.name? := by
    rw [names, List.mem_eraseDups]
  obtain ⟨written, read, namesRead⟩ := readMark_startMark (e := e.build edits)
    (by rw [tag_build]; exact tagged) once (fun name inside => named name ((member name).mp inside))
    table rest
  have lowered : written.map (fun a => Text.lowercase a.name) =
      (e.build edits).writtenNames.map Text.lowercase := by
    rw [← namesRead, List.map_map]
    rfl
  refine ⟨written, by rw [read, tag_build], namesRead, namesRead ▸ nodup_writtenNames once, ?_⟩
  rw [lowered, nodup_lowercase_writtenNames_iff once]
  simp only [member]

def cardEdits : List Edit :=
  [.id "x", .addClass "card", .flag "hidden", .data "open" "1", .setText "id" "y",
    .style (.property (.display .none))]

theorem readMark_build_card :
    ∃ written,
      Html.readMark ((((bare "p").build cardEdits).startMark.write
          (.empty .property none)).1.toList ++ []) = some (.start "p" written [], []) ∧
        (written.map fun a => Text.lowercase a.name).Nodup := by
  obtain ⟨written, read, -, -, apart⟩ := readMark_build (e := bare "p") (by decide) (by decide)
    cardEdits (by decide) (.empty .property none) []
  exact ⟨written, read, apart.mpr (by decide +kernel)⟩

def doublyClassed : Element :=
  (bare "p").build [.setText "Class" "card", .style (.property (.display .none))]

/-- The class in other capitals is an attribute of its own, in front of the generated one. -/
theorem class_written_twice :
    doublyClassed.toNode.validate = .ok () ∧ doublyClassed.writtenNames = ["Class", "class"] ∧
      ¬ (doublyClassed.writtenNames.map Text.lowercase).Nodup ∧
      (doublyClassed.toNode.render .standard).html =
        "<p Class=\x22card\x22 class=\x22display-0\x22></p>" := by
  refine ⟨rfl, ?_⟩
  decide +kernel

end Element

end AtomicMarkup
