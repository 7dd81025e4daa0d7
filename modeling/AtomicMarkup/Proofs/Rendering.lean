import AtomicMarkup.Proofs.ClassTable
import AtomicMarkup.Proofs.Effective
import AtomicMarkup.Proofs.Escape
import AtomicMarkup.Render

/-!
A rendering in terms of its final table. While marks are written the table still grows, but a
class that was written is never taken back: the markup is the one in which every element carries
the classes that the table has in the end.
-/

namespace AtomicMarkup

def ClassTable.classesOf (t : ClassTable) (ds : List Declaration) : List String :=
  ds.filterMap t.classOf?

namespace Mark

def styles : Mark → List Declaration
  | start _ _ styles => styles
  | _ => []

/-- The text of a mark whose element carries the given classes. -/
def textWith (classes : List Declaration → List String) : Mark → String
  | start tag attributes styles =>
    "<" ++ tag ++ attributesText attributes (classes styles) ++ ">"
  | finish tag => "</" ++ tag ++ ">"
  | text s => Text.escapeContent s
  | raw s => s

theorem classAttribute_eq (given : String) (generated : List String) :
    classAttribute given generated =
      match (Text.words given ++ generated).map Text.escapeAttribute with
      | [] => ""
      | texts => " class=\x22" ++ " ".intercalate texts ++ "\x22" := by
  rw [classAttribute]
  cases Text.words given ++ generated with
  | nil => rfl
  | cons first rest =>
    have quoted : quotedAttribute "class" (" ".intercalate (first :: rest)) =
        " class=\x22" ++ " ".intercalate ((first :: rest).map Text.escapeAttribute) ++ "\x22" := by
      rw [quotedAttribute, Text.escapeAttribute_intercalate]
      rfl
    exact quoted

end Mark

namespace ClassTable

theorem internAll_append (t : ClassTable) (first second : List Declaration) :
    (t.internAll (first ++ second)).2 = ((t.internAll first).2.internAll second).2 := by
  induction first generalizing t with
  | nil => rfl
  | cons d rest ih =>
    rw [List.cons_append, internAll_cons, internAll_cons]
    exact ih _

/-- Classes that were given out are still those of the declarations in a later table. -/
theorem Extends.classesOf_internAll {later t : ClassTable} {ds : List Declaration}
    (grown : later.Extends (t.internAll ds).2) : later.classesOf ds = (t.internAll ds).1 := by
  have given : ds.map later.classOf? = (t.internAll ds).1.map some := by
    rw [← classOf?_internAll t ds]
    apply List.map_congr_left
    intro d member
    have known : ∃ name, (t.internAll ds).2.classOf? d = some name := by
      have listed : (t.internAll ds).2.classOf? d ∈ (t.internAll ds).1.map some := by
        rw [← classOf?_internAll t ds]
        exact List.mem_map_of_mem member
      obtain ⟨name, -, same⟩ := List.mem_map.mp listed
      exact ⟨name, same.symm⟩
    obtain ⟨name, found⟩ := known
    rw [found, grown.classOf? found]
  have read : later.classesOf ds = (ds.map later.classOf?).filterMap id := by
    rw [classesOf, List.filterMap_map, Function.id_comp]
  rw [read, given, List.filterMap_map]
  exact List.filterMap_some

theorem exists_entry_of_mem_classesOf {t : ClassTable} {ds : List Declaration} {name : String}
    (member : name ∈ t.classesOf ds) : ∃ entry ∈ t.entries, entry.name = name := by
  obtain ⟨d, -, found⟩ := List.mem_filterMap.mp member
  obtain ⟨entry, first, rfl⟩ := Option.map_eq_some_iff.mp found
  exact ⟨entry, (mem_entries_of_find? first).1, rfl⟩

theorem map_classesOf {α : Type} {t : ClassTable} {ofName : String → α}
    {ofDeclaration : Declaration → α}
    (same : ∀ d name, t.classOf? d = some name → ofName name = ofDeclaration d)
    {ds : List Declaration} (known : ∀ d ∈ ds, d ∈ t.declarations) :
    (t.classesOf ds).map ofName = ds.map ofDeclaration := by
  induction ds with
  | nil => rfl
  | cons d rest ih =>
    obtain ⟨inTable, later⟩ := List.forall_mem_cons.mp known
    obtain ⟨name, given⟩ := Option.isSome_iff_exists.mp (classOf?_isSome_iff.mpr inTable)
    have behind := ih later
    rw [classesOf] at behind ⊢
    rw [List.filterMap_cons_some given, List.map_cons, List.map_cons, behind, same d name given]

theorem WellFormed.map_declarationOf?_classesOf {t : ClassTable} (wf : t.WellFormed)
    {ds : List Declaration} (known : ∀ d ∈ ds, d ∈ t.declarations) :
    (t.classesOf ds).map t.declarationOf? = ds.map some :=
  map_classesOf (fun _ _ given => wf.declarationOf?_classOf? given) known

theorem WellFormed.name_mem_classesOf_iff {t : ClassTable} (wf : t.WellFormed)
    {entry : ClassEntry} (member : entry ∈ t.entries) {ds : List Declaration} :
    entry.name ∈ t.classesOf ds ↔ entry.declaration ∈ ds := by
  have own := wf.classOf?_of_mem member
  constructor
  · intro named
    obtain ⟨d, inside, given⟩ := List.mem_filterMap.mp named
    have same : d = entry.declaration := Option.some.inj
      ((wf.declarationOf?_classOf? given).symm.trans (wf.declarationOf?_classOf? own))
    exact same ▸ inside
  · intro inside
    exact List.mem_filterMap.mpr ⟨_, inside, own⟩

end ClassTable

namespace Mark

theorem write_table (t : ClassTable) (mark : Mark) :
    (mark.write t).2 = (t.internAll mark.styles).2 := by
  cases mark <;> rfl

theorem write_text {later t : ClassTable} {mark : Mark}
    (grown : later.Extends (mark.write t).2) :
    (mark.write t).1 = mark.textWith later.classesOf := by
  cases mark with
  | start tag attributes styles =>
    rw [write_table] at grown
    have classes := grown.classesOf_internAll
    simp only [Mark.styles] at classes
    rw [textWith, classes]
    rfl
  | finish tag => rfl
  | text s => rfl
  | raw s => rfl

theorem writeAll_cons (t : ClassTable) (mark : Mark) (rest : List Mark) :
    writeAll t (mark :: rest) =
      ((mark.write t).1 :: (writeAll (mark.write t).2 rest).1,
        (writeAll (mark.write t).2 rest).2) :=
  rfl

theorem writeAll_table (t : ClassTable) (marks : List Mark) :
    (writeAll t marks).2 = (t.internAll (marks.flatMap styles)).2 := by
  induction marks generalizing t with
  | nil => rfl
  | cons mark rest ih =>
    rw [writeAll_cons, ih, write_table, List.flatMap_cons, ClassTable.internAll_append]

theorem writeAll_texts {later t : ClassTable} (marks : List Mark)
    (grown : later.Extends (writeAll t marks).2) :
    (writeAll t marks).1 = marks.map (textWith later.classesOf) := by
  induction marks generalizing t with
  | nil => rfl
  | cons mark rest ih =>
    rw [writeAll_cons] at grown ⊢
    have table : (writeAll (mark.write t).2 rest).2.Extends (mark.write t).2 := by
      rw [writeAll_table]
      exact ClassTable.extends_internAll _ _
    rw [List.map_cons, ih grown, write_text (grown.trans table)]

end Mark

def Node.renderedStyles (node : Node) : List Declaration :=
  (node.outline 0).flatMap Mark.styles

namespace Node

theorem render_table (node : Node) (options : RenderOptions) :
    (node.render options).sheet.table =
      ((ClassTable.empty options.naming options.classPrefix).internAll node.renderedStyles).2 := by
  rw [renderedStyles, ← Mark.writeAll_table]
  rfl

theorem render_wellFormed (node : Node) (options : RenderOptions) :
    (node.render options).sheet.table.WellFormed := by
  rw [render_table]
  exact (ClassTable.wellFormed_empty _ _).internAll _

theorem render_declarations (node : Node) (options : RenderOptions) :
    (node.render options).sheet.table.declarations = node.renderedStyles.eraseDups := by
  have start : (ClassTable.empty options.naming options.classPrefix).declarations =
      ([] : List Declaration).eraseDups := rfl
  rw [render_table]
  exact ClassTable.declarations_internAll start node.renderedStyles

theorem render_html (node : Node) (options : RenderOptions) :
    (node.render options).html = String.join ((node.outline 0).map
      (Mark.textWith (node.render options).sheet.table.classesOf)) := by
  have texts := Mark.writeAll_texts (t := ClassTable.empty options.naming options.classPrefix)
    (node.outline 0) .refl
  have html : (node.render options).html =
      "" ++ String.join (Mark.writeAll (ClassTable.empty options.naming options.classPrefix)
        (node.outline 0)).1 := rfl
  rw [html, String.empty_append, texts]
  rfl

end Node

end AtomicMarkup
