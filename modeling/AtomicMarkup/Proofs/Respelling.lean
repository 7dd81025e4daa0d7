import AtomicMarkup.Proofs.Delimited
import AtomicMarkup.Proofs.Grouping
import AtomicMarkup.Proofs.SharedClasses

/-!
Options of a rendering spell its classes and lay out its stylesheet, and do nothing else. Two
renderings of one tree have the same entries in the same order, the same markup up to the names of
the entries, and the same groups of rules up to their selectors.
-/

namespace AtomicMarkup

/-- A piece of markup: text that stands in it for itself, or one generated class. -/
inductive Piece (α : Type) where
  | fixed (text : String)
  | generated (item : α)

namespace Piece

variable {α β : Type}

def map (f : α → β) : Piece α → Piece β
  | fixed text => fixed text
  | generated item => generated (f item)

def text : Piece String → String
  | fixed text => text
  | generated name => Text.escapeAttribute name

@[simp] theorem map_fixed (f : α → β) (text : String) : (fixed text).map f = fixed text := rfl

@[simp] theorem text_fixed (text : String) : (fixed text).text = text := rfl

def classAttribute : List (Piece α) → List (Piece α)
  | [] => []
  | first :: rest =>
    fixed " class=\x22" :: first :: rest.flatMap (fun token => [fixed " ", token]) ++ [fixed "\x22"]

def tokens (given : String) (generated : List α) : List (Piece α) :=
  (Text.words given).map (fun word => fixed (Text.escapeAttribute word)) ++
    generated.map Piece.generated

def ofAttribute (generated : List α) (a : Attribute) : List (Piece α) :=
  if a.name == "class" then classAttribute (tokens a.value.content generated)
  else [fixed (Mark.attributeText [] a)]

def ofAttributes (attributes : List Attribute) (generated : List α) : List (Piece α) :=
  let own := attributes.flatMap (ofAttribute generated)
  if attributes.any (fun a => a.name == "class") then own
  else own ++ classAttribute (tokens "" generated)

def ofMark (classes : List Declaration → List α) : Mark → List (Piece α)
  | .start tag attributes styles =>
    fixed ("<" ++ tag) :: ofAttributes attributes (classes styles) ++ [fixed ">"]
  | mark => [fixed (mark.textWith fun _ => [])]

theorem join_classAttribute (pieces : List (Piece String)) :
    String.join ((classAttribute pieces).map text) =
      match pieces.map text with
      | [] => ""
      | texts => " class=\x22" ++ " ".intercalate texts ++ "\x22" := by
  cases pieces with
  | nil => rfl
  | cons first rest =>
    rw [List.map_cons, ← String.toList_inj]
    simp [classAttribute, intercalate_cons_eq, List.flatMap_assoc, List.flatMap_map]

theorem join_tokens (given : String) (generated : List String) :
    String.join ((classAttribute (tokens given generated)).map text) =
      Mark.classAttribute given generated := by
  have texts : (tokens given generated).map text =
      (Text.words given ++ generated).map Text.escapeAttribute := by
    simp [tokens, Function.comp_def, text]
  have written := join_classAttribute (tokens given generated)
  rw [texts] at written
  exact written.trans (Mark.classAttribute_eq given generated).symm

theorem join_ofAttribute (generated : List String) (a : Attribute) :
    String.join ((ofAttribute generated a).map text) = Mark.attributeText generated a := by
  unfold ofAttribute Mark.attributeText
  split
  · exact join_tokens _ _
  · simp [text]

theorem join_ofAttributes (attributes : List Attribute) (generated : List String) :
    String.join ((ofAttributes attributes generated).map text) =
      Mark.attributesText attributes generated := by
  have own : String.join ((attributes.flatMap (ofAttribute generated)).map text) =
      String.join (attributes.map (Mark.attributeText generated)) := by
    induction attributes with
    | nil => rfl
    | cons a rest ih =>
      rw [List.flatMap_cons, List.map_append, String.join_append, join_ofAttribute, ih,
        List.map_cons, String.join_cons]
  unfold ofAttributes Mark.attributesText
  dsimp only
  split
  · exact own
  · rw [List.map_append, String.join_append, own, join_tokens]

theorem join_ofMark (classes : List Declaration → List String) (mark : Mark) :
    String.join ((ofMark classes mark).map text) = mark.textWith classes := by
  cases mark with
  | start tag attributes styles =>
    rw [ofMark, List.map_append, List.map_cons, String.join_append, String.join_cons,
      join_ofAttributes, Mark.textWith]
    simp [text]
  | finish tag => simp [ofMark, text, Mark.textWith]
  | text s => simp [ofMark, text, Mark.textWith]
  | raw s => simp [ofMark, text, Mark.textWith]

variable (f : α → β)

theorem map_classAttribute (pieces : List (Piece α)) :
    (classAttribute pieces).map (map f) = classAttribute (pieces.map (map f)) := by
  cases pieces with
  | nil => rfl
  | cons first rest =>
    simp [classAttribute, List.map_flatMap, List.flatMap_map]

theorem map_tokens (given : String) (generated : List α) :
    (tokens given generated).map (map f) = tokens given (generated.map f) := by
  simp [tokens, map, Function.comp_def]

theorem map_ofAttribute (generated : List α) (a : Attribute) :
    (ofAttribute generated a).map (map f) = ofAttribute (generated.map f) a := by
  unfold ofAttribute
  split
  · rw [map_classAttribute, map_tokens]
  · rfl

theorem map_ofAttributes (attributes : List Attribute) (generated : List α) :
    (ofAttributes attributes generated).map (map f) =
      ofAttributes attributes (generated.map f) := by
  have own : (attributes.flatMap (ofAttribute generated)).map (map f) =
      attributes.flatMap (ofAttribute (generated.map f)) := by
    rw [List.map_flatMap]
    exact List.flatMap_congr fun a _ => map_ofAttribute f generated a
  unfold ofAttributes
  dsimp only
  split
  · exact own
  · rw [List.map_append, own, map_classAttribute, map_tokens]

theorem map_ofMark (classes : List Declaration → List α) (mark : Mark) :
    (ofMark classes mark).map (map f) = ofMark (fun ds => (classes ds).map f) mark := by
  cases mark with
  | start tag attributes styles =>
    rw [ofMark, List.map_append, List.map_cons, map_ofAttributes]
    rfl
  | finish tag => rfl
  | text s => rfl
  | raw s => rfl

end Piece

section Positions

theorem idxOf?_of_nodup {α : Type} [DecidableEq α] {xs : List α} (once : xs.Nodup) {x : α}
    {i : Nat} (at_i : xs[i]? = some x) : xs.idxOf? x = some i := by
  obtain ⟨bound, here⟩ := List.getElem?_eq_some_iff.mp at_i
  refine List.idxOf?_eq_some_iff.mpr ⟨bound, here, ?_⟩
  intro j earlier same
  have equal := once.getElem_inj_iff.mp (same.trans here.symm)
  omega

namespace ClassTable

/-- The index of the entry that a class names. -/
def position? (t : ClassTable) (name : String) : Option Nat :=
  (t.entries.map fun entry => entry.name).idxOf? name

theorem WellFormed.position?_classOf? {t : ClassTable} (wf : t.WellFormed) {d : Declaration}
    {name : String} (given : t.classOf? d = some name) :
    t.position? name = t.declarations.idxOf? d ∧ (t.position? name).isSome = true := by
  obtain ⟨entry, found, rfl⟩ := Option.map_eq_some_iff.mp given
  obtain ⟨member, rfl⟩ := mem_entries_of_find? found
  -- Neither names nor declarations are repeated, so that both are found at one index.
  obtain ⟨i, at_i⟩ := List.mem_iff_getElem?.mp member
  have byName : t.position? entry.name = some i :=
    idxOf?_of_nodup wf.names_nodup (by simp [at_i])
  have byDeclaration : t.declarations.idxOf? entry.declaration = some i :=
    idxOf?_of_nodup wf.once (by simp [declarations, at_i])
  exact ⟨byName.trans byDeclaration.symm, by rw [byName]; rfl⟩

theorem WellFormed.map_position?_classesOf {t : ClassTable} (wf : t.WellFormed)
    {ds : List Declaration} (known : ∀ d ∈ ds, d ∈ t.declarations) :
    (t.classesOf ds).map t.position? = ds.map t.declarations.idxOf? :=
  map_classesOf (fun _ _ given => (wf.position?_classOf? given).1) known

end ClassTable

end Positions

section Groups

namespace RuleGroup

def content (g : RuleGroup) : Option String × List (List (String × String)) :=
  (g.media, g.rules.map fun rule => rule.declarations)

theorem map_content_ofRules (rules : List Rule) :
    (ofRules rules).map content =
      (match (rules.filter fun rule => rule.media.isNone).map fun rule => rule.declarations with
        | [] => []
        | plain => [(none, plain)]) ++
      (queries rules).map fun query => (some query,
        (rules.filter fun rule => rule.media == some query).map fun rule => rule.declarations) := by
  have asked : ((queries rules).map (under rules)).map content =
      (queries rules).map fun query => (some query,
        (rules.filter fun rule => rule.media == some query).map fun rule => rule.declarations) :=
    List.map_map
  rw [ofRules_eq, List.map_append, asked]
  cases rules.filter fun rule => rule.media.isNone with
  | nil => rfl
  | cons first rest => rfl

/-- Rules are grouped by their queries, whatever their selectors are. -/
theorem map_content_congr {rules others : List Rule}
    (same : rules.map (fun rule => (rule.media, rule.declarations)) =
      others.map fun rule => (rule.media, rule.declarations)) :
    (ofRules rules).map content = (ofRules others).map content := by
  have asked : queries rules = queries others := by
    have media := congrArg (List.filterMap Prod.fst) same
    rw [List.filterMap_map, List.filterMap_map] at media
    exact congrArg List.eraseDups media
  have filtered (p : Option String → Bool) :
      (rules.filter fun rule => p rule.media).map (fun rule => rule.declarations) =
        (others.filter fun rule => p rule.media).map fun rule => rule.declarations := by
    have kept := congrArg (fun pairs => (pairs.filter fun pair => p pair.1).map Prod.snd) same
    simpa [List.filter_map, Function.comp_def] using kept
  rw [map_content_ofRules, map_content_ofRules, asked, filtered Option.isNone]
  simp only [fun query => filtered (· == some query)]

end RuleGroup

end Groups

def Node.pieces (node : Node) (s : Sheet) : List (Piece String) :=
  (node.outline 0).flatMap (Piece.ofMark s.table.classesOf)

/-- Two renderings of a tree that differ in the names of classes and in the layout only. -/
structure Node.Respelled (node : Node) (r s : Rendering) : Prop where
  declarations : r.sheet.table.declarations = s.sheet.table.declarations
  /-- Every class of an element names an entry. -/
  found : ∀ e ∈ node.renderedElements, ∀ name ∈ r.sheet.classesOf e,
    (r.sheet.table.position? name).isSome = true
  /-- The classes of an element name the same entries, in the same order. -/
  positions : (node.renderedElements.map fun e =>
      (r.sheet.classesOf e).map r.sheet.table.position?) =
    node.renderedElements.map fun e => (s.sheet.classesOf e).map s.sheet.table.position?
  /-- With the entries in place of the classes that name them, the markup is the same. -/
  markup : (node.pieces r.sheet).map (Piece.map r.sheet.table.position?) =
    (node.pieces s.sheet).map (Piece.map s.sheet.table.position?)
  groups : r.sheet.groups.map RuleGroup.content = s.sheet.groups.map RuleGroup.content

namespace Node

section Options

variable (node : Node) (options : RenderOptions)

/-- The declarations in effect somewhere in a tree, each once: the entries of its stylesheet. -/
def entries : List Declaration :=
  node.renderedStyles.eraseDups

theorem mem_entries {mark : Mark} (written : mark ∈ node.outline 0) {d : Declaration}
    (inEffect : d ∈ mark.styles) : d ∈ node.entries :=
  List.mem_eraseDups.mpr (List.mem_flatMap.mpr ⟨mark, written, inEffect⟩)

theorem map_position?_classesOf {ds : List Declaration} (known : ∀ d ∈ ds, d ∈ node.entries) :
    ((node.render options).sheet.table.classesOf ds).map
      (node.render options).sheet.table.position? = ds.map node.entries.idxOf? := by
  have listed := node.render_declarations options
  rw [(node.render_wellFormed options).map_position?_classesOf (by rw [listed]; exact known),
    listed]
  rfl

theorem html_eq_join_pieces :
    (node.render options).html =
      String.join ((node.pieces (node.render options).sheet).map Piece.text) := by
  rw [node.render_html options, pieces]
  induction node.outline 0 with
  | nil => rfl
  | cons mark rest ih =>
    rw [List.flatMap_cons, List.map_append, String.join_append, Piece.join_ofMark, ← ih,
      List.map_cons, String.join_cons]

/-- The markup of a tree with entries in place of classes is written without any options. -/
theorem map_position?_pieces :
    (node.pieces (node.render options).sheet).map
        (Piece.map (node.render options).sheet.table.position?) =
      (node.outline 0).flatMap (Piece.ofMark (List.map node.entries.idxOf?)) := by
  rw [pieces, List.map_flatMap]
  apply List.flatMap_congr
  intro mark written
  rw [Piece.map_ofMark]
  cases mark with
  | start tag attributes styles =>
    have known : ∀ d ∈ styles, d ∈ node.entries := fun d => node.mem_entries written
    rw [Piece.ofMark, node.map_position?_classesOf options known]
    rfl
  | finish tag => rfl
  | text s => rfl
  | raw s => rfl

theorem mem_entries_of_effective {e : Element} (member : e ∈ node.renderedElements) :
    ∀ d ∈ Declaration.effective e.styles, d ∈ node.entries := by
  have written : e.startMark ∈ (node.outline 0).filter Mark.isStart := by
    rw [node.outline_starts 0]
    exact List.mem_map_of_mem member
  exact fun d => node.mem_entries (List.mem_filter.mp written).1

theorem isSome_position?_of_mem_classesOf {e : Element} {name : String}
    (named : name ∈ (node.render options).sheet.classesOf e) :
    ((node.render options).sheet.table.position? name).isSome = true := by
  obtain ⟨d, -, given⟩ := List.mem_filterMap.mp named
  exact ((node.render_wellFormed options).position?_classOf? given).2

theorem map_content_groups :
    (node.render options).sheet.groups.map RuleGroup.content =
      (RuleGroup.ofRules (node.entries.map fun d => Rule.ofClass "" d .compact)).map
        RuleGroup.content := by
  have listed := node.render_declarations options
  refine RuleGroup.map_content_congr ?_
  -- The selector is all of a rule that has to do with the class and the layout.
  rw [← entries] at listed
  rw [← listed, Sheet.rules, ClassTable.declarations, List.map_map, List.map_map, List.map_map]
  rfl

end Options

/-- Renderings of a tree under any two options are spelled differently and say the same. Options
for the layout and the doctype leave the markup as it is. -/
theorem render_respelled (node : Node) (options others : RenderOptions) :
    node.Respelled (node.render options) (node.render others) ∧
      (node.render options).html =
        String.join ((node.pieces (node.render options).sheet).map Piece.text) ∧
      ∀ layout doctype,
        (node.render { options with layout := layout, doctype := doctype }).html =
          (node.render options).html := by
  refine ⟨⟨?_, ?_, ?_, ?_, ?_⟩, node.html_eq_join_pieces options, fun _ _ => rfl⟩
  · rw [node.render_declarations, node.render_declarations]
  · exact fun e _ name => node.isSome_position?_of_mem_classesOf options
  · apply List.map_congr_left
    intro e member
    have known := node.mem_entries_of_effective member
    rw [Sheet.classesOf, Sheet.classesOf, node.map_position?_classesOf options known,
      node.map_position?_classesOf others known]
  · rw [node.map_position?_pieces options, node.map_position?_pieces others]
  · rw [node.map_content_groups options, node.map_content_groups others]

end Node

end AtomicMarkup
