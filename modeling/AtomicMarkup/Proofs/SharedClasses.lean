import AtomicMarkup.Proofs.Occurrences
import AtomicMarkup.Proofs.Rendering
import Mathlib.Data.List.Forall2

/-!
What the stylesheet of a rendering has to do with the rendered elements. It has one rule for each
declaration that takes effect on them, in the order of first use, and the classes in a start tag
stand, in the finished stylesheet, for the rules of that element.
-/

namespace AtomicMarkup

namespace Declaration

def ahead (d : Declaration) : String :=
  match d.selector with
  | some (.within target) => target ++ " "
  | _ => ""

def behind (d : Declaration) (layout : Layout) : String :=
  d.pseudo.getD "" ++
    match d.selector with
    | some (.descendant target) => " " ++ target
    | some (.child target) => Selector.combinator ">" layout ++ target
    | some (.adjacent target) => Selector.combinator "+" layout ++ target
    | _ => ""

theorem selector_ofClass (d : Declaration) (name : String) (layout : Layout) :
    (Rule.ofClass name d layout).selector =
      Text.escapeStyle (d.ahead ++ ("." ++ name ++ d.behind layout)) := by
  obtain ⟨property, value, media, selector, pseudo⟩ := d
  rcases selector with _ | (target | target | target | target) <;>
    simp [Rule.ofClass, ahead, behind, Selector.wrap, String.append_assoc]

end Declaration

/-- A rule for one class that carries one declaration, in the scope of the declaration. -/
structure Rule.Carries (rule : Rule) (layout : Layout) (entry : ClassEntry) : Prop where
  selector : rule.selector = Text.escapeStyle
    (entry.declaration.ahead ++ ("." ++ entry.name ++ entry.declaration.behind layout))
  declarations : rule.declarations =
    [(Text.escapeStyle entry.declaration.property, Text.escapeStyle entry.declaration.value)]
  media : rule.media = entry.declaration.media

theorem Rule.carries_ofClass (layout : Layout) (entry : ClassEntry) :
    (Rule.ofClass entry.name entry.declaration layout).Carries layout entry :=
  ⟨entry.declaration.selector_ofClass entry.name layout, rfl, rfl⟩

namespace Sheet

def classesOf (s : Sheet) (e : Element) : List String :=
  s.table.classesOf (Declaration.effective e.styles)

/-- The rules, each with the class and the declaration it is for. -/
def ruled (s : Sheet) : List (Rule × ClassEntry) :=
  s.rules.zip s.table.entries

/-- The rules for classes of an element in the scope of a declaration. -/
def rulesIn (s : Sheet) (e : Element) (d : Declaration) : List (Rule × ClassEntry) :=
  s.ruled.filter fun (_, entry) =>
    (s.classesOf e).contains entry.name && d.sameScope entry.declaration

/-- A stylesheet that belongs to some elements. -/
structure Serves (s : Sheet) (elements : List Element) : Prop where
  /-- The entries are the declarations in effect, without repeats, in the order of first use. -/
  declarations : s.table.declarations =
    (elements.flatMap fun e => Declaration.effective e.styles).eraseDups
  /-- The classes of an element stand for its declarations in effect, in their order. -/
  classes : ∀ e ∈ elements,
    (s.classesOf e).map s.table.declarationOf? = (Declaration.effective e.styles).map some
  /-- The rules carry the entries, one each. -/
  rules : List.Forall₂ (fun rule entry => rule.Carries s.layout entry) s.rules s.table.entries
  /-- In every scope that an element declares in, it has one rule, with the last declaration. -/
  scopes : ∀ e ∈ elements, ∀ d ∈ e.styles, ∃ rule name last,
    (e.styles.filter d.sameScope).getLast? = some last ∧
      rule.Carries s.layout ⟨name, last⟩ ∧ s.rulesIn e d = [(rule, ⟨name, last⟩)]
  used : ∀ rule entry, (rule, entry) ∈ s.ruled → ∃ e ∈ elements, entry.name ∈ s.classesOf e
  /-- No declaration has two rules. -/
  declarations_nodup : (s.ruled.map fun (_, entry) => entry.declaration).Nodup
  names_nodup : (s.ruled.map fun (_, entry) => entry.name).Nodup

end Sheet

theorem Mark.flatMap_styles_starts (marks : List Mark) :
    (marks.filter isStart).flatMap styles = marks.flatMap styles := by
  induction marks with
  | nil => rfl
  | cons mark rest ih =>
    cases mark with
    | start tag attributes ds => rw [List.filter_cons_of_pos rfl, List.flatMap_cons, ih]; rfl
    | finish tag => exact ih
    | text s => exact ih
    | raw s => exact ih

theorem Node.renderedStyles_eq (node : Node) :
    node.renderedStyles =
      node.renderedElements.flatMap fun e => Declaration.effective e.styles := by
  rw [renderedStyles, ← Mark.flatMap_styles_starts, outline_starts, List.flatMap_map]
  rfl

namespace Sheet

variable {s : Sheet}

theorem ruled_eq (s : Sheet) :
    s.ruled = s.table.entries.map fun entry =>
      (.ofClass entry.name entry.declaration s.layout, entry) := by
  calc
    s.ruled = s.rules.zip (s.table.entries.map id) := by rw [List.map_id, ruled]
    _ = _ := List.zip_map'

theorem map_ruled {α : Type} (s : Sheet) (f : ClassEntry → α) :
    (s.ruled.map fun (_, entry) => f entry) = s.table.entries.map f := by
  rw [ruled_eq, List.map_map]
  rfl

theorem rules_carry (s : Sheet) :
    List.Forall₂ (fun rule entry => rule.Carries s.layout entry) s.rules s.table.entries := by
  rw [rules, List.forall₂_map_left_iff, List.forall₂_same]
  exact fun entry _ => Rule.carries_ofClass s.layout entry

theorem rulesIn_eq (s : Sheet) (e : Element) (d : Declaration) :
    s.rulesIn e d = (s.table.entries.filter fun entry =>
      (s.classesOf e).contains entry.name && d.sameScope entry.declaration).map fun entry =>
        (.ofClass entry.name entry.declaration s.layout, entry) := by
  rw [rulesIn, ruled_eq, List.filter_map]
  rfl

/-- Of the rules for an element, one stands in each scope that the element declares in. -/
theorem exists_rulesIn_eq (wf : s.table.WellFormed) {e : Element}
    (known : ∀ d ∈ Declaration.effective e.styles, d ∈ s.table.declarations) {d : Declaration}
    (declared : d ∈ e.styles) :
    ∃ rule name last, (e.styles.filter d.sameScope).getLast? = some last ∧
      rule.Carries s.layout ⟨name, last⟩ ∧ s.rulesIn e d = [(rule, ⟨name, last⟩)] := by
  obtain ⟨last, isLast, kept⟩ := Declaration.exists_last_of_mem declared
  have lastKept : last ∈ (Declaration.effective e.styles).filter d.sameScope := by simp [kept]
  obtain ⟨entry, inside, rfl⟩ := List.mem_map.mp (known last (List.mem_filter.mp lastKept).1)
  refine ⟨_, entry.name, entry.declaration, isLast, Rule.carries_ofClass s.layout entry, ?_⟩
  rw [rulesIn_eq]
  suffices only : (s.table.entries.filter fun other =>
      (s.classesOf e).contains other.name && d.sameScope other.declaration) = [entry] by
    rw [only]
    rfl
  rw [← wf.filter_declaration inside]
  apply List.filter_congr
  intro other there
  -- A rule of the element in this scope carries what `effective` keeps of the scope.
  have mine : other.name ∈ s.classesOf e ↔
      other.declaration ∈ Declaration.effective e.styles := wf.name_mem_classesOf_iff there
  have same : (other.declaration ∈ Declaration.effective e.styles ∧
      d.sameScope other.declaration = true) ↔ other.declaration = entry.declaration := by
    rw [← List.mem_filter, kept, List.mem_singleton]
  rw [Bool.eq_iff_iff, Bool.and_eq_true, List.contains_iff_mem, beq_iff_eq, mine, same]

/-- A table that lists exactly the declarations in effect on some elements serves them. -/
theorem serves_of_declarations {elements : List Element} (wf : s.table.WellFormed)
    (listed : s.table.declarations =
      (elements.flatMap fun e => Declaration.effective e.styles).eraseDups) :
    s.Serves elements := by
  have known : ∀ e ∈ elements, ∀ d ∈ Declaration.effective e.styles,
      d ∈ s.table.declarations := by
    intro e member d inEffect
    rw [listed, List.mem_eraseDups]
    exact List.mem_flatMap.mpr ⟨e, member, inEffect⟩
  refine ⟨listed, ?_, s.rules_carry, ?_, ?_, ?_, ?_⟩
  · intro e member
    exact wf.map_declarationOf?_classesOf (known e member)
  · intro e member d declared
    exact exists_rulesIn_eq wf (known e member) declared
  · intro rule entry paired
    have inside : entry ∈ s.table.entries := (List.of_mem_zip paired).2
    have inEffect : entry.declaration ∈ s.table.declarations := List.mem_map_of_mem inside
    rw [listed, List.mem_eraseDups] at inEffect
    obtain ⟨e, member, kept⟩ := List.mem_flatMap.mp inEffect
    exact ⟨e, member, (wf.name_mem_classesOf_iff inside).mpr kept⟩
  · rw [map_ruled]
    exact wf.once
  · rw [map_ruled]
    exact wf.names_nodup

end Sheet

/-- The finished stylesheet of a rendering belongs to the rendered elements: these are the
elements whose start tags are written, and they are written with the classes that the finished
stylesheet has for them. -/
theorem Node.render_serves (node : Node) (options : RenderOptions) :
    (node.render options).sheet.Serves node.renderedElements ∧
      (node.outline 0).filter Mark.isStart = node.renderedElements.map Element.startMark ∧
      (node.render options).html = String.join ((node.outline 0).map
        (Mark.textWith (node.render options).sheet.table.classesOf)) := by
  refine ⟨?_, node.outline_starts 0, node.render_html options⟩
  apply Sheet.serves_of_declarations (node.render_wellFormed options)
  rw [node.render_declarations options, node.renderedStyles_eq]

namespace Sheet

def collect (options : RenderOptions) (steps : List (List Declaration)) : Sheet :=
  steps.foldl (fun sheet styles => (sheet.classesFor styles).2) (.empty options)

theorem foldl_classesFor (s : Sheet) (steps : List (List Declaration)) :
    steps.foldl (fun sheet styles => (sheet.classesFor styles).2) s =
      ⟨(s.table.internAll (steps.flatMap Declaration.effective)).2, s.layout⟩ := by
  induction steps generalizing s with
  | nil => rfl
  | cons styles rest ih =>
    rw [List.foldl_cons, ih, List.flatMap_cons, ClassTable.internAll_append]
    rfl

theorem collect_eq (options : RenderOptions) (steps : List (List Declaration)) :
    collect options steps = ⟨((ClassTable.empty options.naming options.classPrefix).internAll
      (steps.flatMap Declaration.effective)).2, options.layout⟩ :=
  foldl_classesFor _ steps

theorem collect_declarations (options : RenderOptions) (steps : List (List Declaration)) :
    (collect options steps).table.declarations =
      (steps.flatMap Declaration.effective).eraseDups := by
  have start : (ClassTable.empty options.naming options.classPrefix).declarations =
      ([] : List Declaration).eraseDups := rfl
  rw [collect_eq]
  exact ClassTable.declarations_internAll start _

theorem collect_wellFormed (options : RenderOptions) (steps : List (List Declaration)) :
    (collect options steps).table.WellFormed := by
  rw [collect_eq]
  exact (ClassTable.wellFormed_empty _ _).internAll _

theorem collect_lead (options : RenderOptions) (steps : List (List Declaration)) :
    (collect options steps).table.lead = options.classPrefix.getD "" := by
  rw [collect_eq]
  exact (ClassTable.extends_internAll _ _).lead

/-- The classes that an element gets in its turn are its classes in the finished stylesheet. -/
theorem classesFor_collect (options : RenderOptions) (before after : List (List Declaration))
    (styles : List Declaration) :
    ((collect options before).classesFor styles).1 =
      (collect options (before ++ styles :: after)).table.classesOf
        (Declaration.effective styles) := by
  rw [collect_eq options (before ++ styles :: after), List.flatMap_append, List.flatMap_cons,
    ClassTable.internAll_append, ClassTable.internAll_append, collect_eq]
  exact (ClassTable.Extends.classesOf_internAll (ClassTable.extends_internAll _ _)).symm

theorem size_collect (options : RenderOptions) (steps : List (List Declaration)) :
    (collect options steps).size = (steps.flatMap Declaration.effective).eraseDups.length := by
  have entries : (collect options steps).size =
      (collect options steps).table.declarations.length := (List.length_map _).symm
  rw [entries, collect_declarations]

end Sheet

theorem Node.render_sheet (node : Node) (options : RenderOptions) :
    (node.render options).sheet =
      Sheet.collect options (node.renderedElements.map fun e => e.styles) := by
  have table := node.render_table options
  rw [node.renderedStyles_eq] at table
  have sheet : (node.render options).sheet =
      ⟨(node.render options).sheet.table, options.layout⟩ := rfl
  rw [sheet, table, Sheet.collect_eq, List.flatMap_map]

end AtomicMarkup
