import AtomicMarkup.Proofs.Html.Writer
import AtomicMarkup.Proofs.SharedClasses
import AtomicMarkup.Proofs.Validity

/-!
Rendering can be undone. What a page tree is read back as has its fragments spliced into the lists
around them, no empty texts, no two texts next to each other, and on every element the classes
that it was given together with those of its declarations. Nothing is claimed of trees with raw
markup, which can be read as anything.
-/

namespace AtomicMarkup

namespace Html

def consText (s : String) : List Node → List Node
  | .text t :: rest => .text (s ++ t) :: rest
  | nodes => if s.isEmpty then nodes else .text s :: nodes

/-- Nodes without empty texts, and with one text where several stand next to each other. -/
def joinTexts : List Node → List Node
  | [] => []
  | .text s :: rest => consText s (joinTexts rest)
  | node :: rest => node :: joinTexts rest

def classAttributes (given : String) (generated : List String) : List Attribute :=
  match Text.words given ++ generated with
  | [] => []
  | classes => [⟨"class", .text (" ".intercalate classes)⟩]

/-- Attributes with generated classes among them: behind the classes that are given, else in a
class attribute at the end. -/
def normalAttributes (attributes : List Attribute) (generated : List String) : List Attribute :=
  let own := attributes.flatMap fun a =>
    if a.name == "class" then classAttributes a.value.content generated else [a]
  if attributes.any (fun a => a.name == "class") then own else own ++ classAttributes "" generated

end Html

mutual

/-- The nodes that a node stands for among its siblings, with the classes of a stylesheet. -/
def Node.spliced (sheet : Sheet) : Node → List Node
  | element tag attributes children styles =>
    let generated := sheet.classesOf ⟨tag, attributes, children, styles⟩
    [.element tag (Html.normalAttributes attributes generated)
      (Html.joinTexts (Node.listSpliced sheet children)) []]
  | text s => [.text s]
  | raw s => [.raw s]
  | fragment items => Node.listSpliced sheet items

def Node.listSpliced (sheet : Sheet) : List Node → List Node
  | [] => []
  | node :: rest => node.spliced sheet ++ Node.listSpliced sheet rest

end

def Node.normalForm (node : Node) (sheet : Sheet) : List Node :=
  Html.joinTexts (node.spliced sheet)

mutual

def Node.rawFree : Node → Bool
  | element _ _ children _ => Node.listRawFree children
  | text _ => true
  | raw _ => false
  | fragment items => Node.listRawFree items

def Node.listRawFree : List Node → Bool
  | [] => true
  | node :: rest => node.rawFree && Node.listRawFree rest

end

/-- An element without its texts: its tag, the names of its attributes other than its classes,
and the elements in it. -/
inductive Shape where
  | element (tag : String) (names : List String) (children : List Shape)

mutual

def Node.shapes : Node → List Shape
  | element tag attributes children _ =>
    [.element tag ((attributes.map fun a => a.name).filter (· != "class"))
      (Node.listShapes children)]
  | text _ => []
  | raw _ => []
  | fragment items => Node.listShapes items

def Node.listShapes : List Node → List Shape
  | [] => []
  | node :: rest => node.shapes ++ Node.listShapes rest

end

namespace Html

section Texts

/-- What is made of nodes one by one does not show where one text ends and the next begins, unless
it tells a joined text from its parts. -/
theorem flatMap_joinTexts {α : Type} {piece : Node → List α} (empty : piece (.text "") = [])
    (append : ∀ s t, piece (.text (s ++ t)) = piece (.text s) ++ piece (.text t))
    (nodes : List Node) : (joinTexts nodes).flatMap piece = nodes.flatMap piece := by
  have cons (s : String) (nodes : List Node) :
      (consText s nodes).flatMap piece = piece (.text s) ++ nodes.flatMap piece := by
    unfold consText
    split
    · rw [List.flatMap_cons, List.flatMap_cons, append, List.append_assoc]
    · split
      · next blank => rw [String.isEmpty_iff.mp blank, empty, List.nil_append]
      · exact List.flatMap_cons
  induction nodes with
  | nil => rfl
  | cons node rest ih =>
    rw [List.flatMap_cons, ← ih]
    cases node with
    | text s => exact cons s (joinTexts rest)
    | element => exact List.flatMap_cons
    | raw s => exact List.flatMap_cons
    | fragment items => exact List.flatMap_cons

theorem writeNodes_joinTexts (nodes : List Node) :
    writeNodes (joinTexts nodes) = writeNodes nodes := by
  rw [writeNodes_eq_flatMap, writeNodes_eq_flatMap]
  refine flatMap_joinTexts (by rw [writeNode]; rfl) (fun s t => ?_) nodes
  rw [writeNode, writeNode, writeNode, String.toList_append, List.flatMap_append]

inductive Piece : Node → Prop where
  | text (s : String) : Piece (.text s)
  | element {tag : String} {attributes : List Attribute} {children : List Node}
    (tagged : Text.NameRule.tagName.accepts tag = true)
    (named : ∀ a ∈ attributes, Text.NameRule.attributeName.accepts a.name = true)
    (void : isVoidTag tag = true → children = []) (inside : Normal children) :
    Piece (.element tag attributes children [])

theorem Normal.consText {nodes : List Node} (normal : Normal nodes) (s : String) :
    Normal (Html.consText s nodes) := by
  unfold Html.consText
  split
  · next t rest =>
    cases normal with
    | text nonempty apart after =>
      refine .text ?_ apart after
      intro empty
      exact nonempty (String.append_eq_empty_iff.mp empty).2
  · next noText =>
    split
    · exact normal
    · next nonempty =>
      refine .text (fun empty => nonempty (String.isEmpty_iff.mpr empty)) ?_ normal
      intro next first
      cases normal with
      | nil => contradiction
      | text => exact absurd rfl (noText _ _)
      | element => cases first; rfl

theorem normal_joinTexts {nodes : List Node} (pieces : ∀ node ∈ nodes, Piece node) :
    Normal (joinTexts nodes) := by
  induction nodes with
  | nil => exact .nil
  | cons node rest ih =>
    have after := ih fun n member => pieces n (List.mem_cons_of_mem node member)
    cases pieces node List.mem_cons_self with
    | text s => exact after.consText s
    | element tagged named void inside => exact .element tagged named void inside after

end Texts

section Attributes

theorem toList_quotedAttribute (name value : String) :
    (Mark.quotedAttribute name value).toList = writeAttribute ⟨name, .text value⟩ := by
  simp [Mark.quotedAttribute, writeAttribute, Text.escapeAttribute]

theorem toList_classAttribute (given : String) (generated : List String) :
    (Mark.classAttribute given generated).toList =
      (classAttributes given generated).flatMap writeAttribute := by
  unfold Mark.classAttribute classAttributes
  cases Text.words given ++ generated with
  | nil => rfl
  | cons first rest => simp [toList_quotedAttribute]

theorem toList_attributesText (attributes : List Attribute) (generated : List String) :
    (Mark.attributesText attributes generated).toList =
      (normalAttributes attributes generated).flatMap writeAttribute := by
  have one (a : Attribute) : (Mark.attributeText generated a).toList =
      (if a.name == "class" then classAttributes a.value.content generated
        else [a]).flatMap writeAttribute := by
    unfold Mark.attributeText
    split
    · exact toList_classAttribute _ _
    · rw [List.flatMap_singleton]
      split
      · next value text => rw [toList_quotedAttribute, ← text]
      · next flag => simp [writeAttribute, flag]
  have own : (String.join (attributes.map (Mark.attributeText generated))).toList =
      (attributes.flatMap fun a => if a.name == "class" then
        classAttributes a.value.content generated else [a]).flatMap writeAttribute := by
    rw [String.toList_join, List.flatMap_map, List.flatMap_assoc]
    exact List.flatMap_congr fun a _ => one a
  unfold Mark.attributesText normalAttributes
  dsimp only
  split
  · exact own
  · rw [String.toList_append, own, toList_classAttribute, List.flatMap_append]

theorem classAttributes_name {given : String} {generated : List String} {a : Attribute}
    (member : a ∈ classAttributes given generated) : a.name = "class" := by
  unfold classAttributes at member
  split at member
  · contradiction
  · rw [List.mem_singleton.mp member]

theorem normalAttributes_named {attributes : List Attribute} {generated : List String}
    (named : ∀ a ∈ attributes, Text.NameRule.attributeName.accepts a.name = true) :
    ∀ a ∈ normalAttributes attributes generated,
      Text.NameRule.attributeName.accepts a.name = true := by
  have ofClass {given : String} {a : Attribute} (member : a ∈ classAttributes given generated) :
      Text.NameRule.attributeName.accepts a.name = true := by
    rw [classAttributes_name member]
    decide
  have own : ∀ a ∈ attributes.flatMap fun a => if a.name == "class" then
      classAttributes a.value.content generated else [a],
      Text.NameRule.attributeName.accepts a.name = true := by
    intro a member
    obtain ⟨b, inside, from_⟩ := List.mem_flatMap.mp member
    split at from_
    · exact ofClass from_
    · rw [List.mem_singleton.mp from_]
      exact named b inside
  intro a member
  unfold normalAttributes at member
  dsimp only at member
  split at member
  · exact own a member
  · rcases List.mem_append.mp member with given | new
    · exact own a given
    · exact ofClass new

theorem normalAttributes_names (attributes : List Attribute) (generated : List String) :
    ((normalAttributes attributes generated).map fun a => a.name).filter (· != "class") =
      (attributes.map fun a => a.name).filter (· != "class") := by
  have ofClass (given : String) :
      ((classAttributes given generated).map fun a => a.name).filter (· != "class") = [] := by
    rw [List.filter_eq_nil_iff]
    intro name member
    obtain ⟨a, inside, rfl⟩ := List.mem_map.mp member
    simp [classAttributes_name inside]
  have own : ((attributes.flatMap fun a => if a.name == "class" then
      classAttributes a.value.content generated else [a]).map fun a => a.name).filter
        (· != "class") = (attributes.map fun a => a.name).filter (· != "class") := by
    induction attributes with
    | nil => rfl
    | cons a rest ih =>
      rw [List.flatMap_cons, List.map_append, List.filter_append, ih, List.map_cons]
      by_cases isClass : a.name = "class"
      · rw [if_pos (beq_iff_eq.mpr isClass), ofClass,
          List.filter_cons_of_neg (by simp [isClass]), List.nil_append]
      · rw [if_neg (by simp [isClass]), List.filter_cons_of_pos (by simp [isClass])]
        simp [isClass]
  unfold normalAttributes
  dsimp only
  split
  · exact own
  · rw [List.map_append, List.filter_append, own, ofClass, List.append_nil]

end Attributes

section Shapes

theorem listShapes_eq_flatMap (nodes : List Node) :
    Node.listShapes nodes = nodes.flatMap Node.shapes :=
  eq_flatMap_of_cons (by rw [Node.listShapes]) (fun _ _ => by rw [Node.listShapes]) nodes

theorem listShapes_joinTexts (nodes : List Node) :
    Node.listShapes (joinTexts nodes) = Node.listShapes nodes := by
  rw [listShapes_eq_flatMap, listShapes_eq_flatMap]
  refine flatMap_joinTexts (by rw [Node.shapes]) (fun s t => ?_) nodes
  rw [Node.shapes, Node.shapes, Node.shapes, List.append_nil]

end Shapes

end Html

namespace Node

section Rendered

variable (sheet : Sheet)

mutual

/-- The written outline of accepted nodes is the plain markup of what they stand for. -/
theorem toList_outline_of (depth : Nat) : (node : Node) → node.check depth = .ok () →
    ((node.outline depth).flatMap fun mark => (mark.textWith sheet.table.classesOf).toList) =
      Html.writeNodes (node.spliced sheet)
  | .element tag attributes children styles, accepted => by
    obtain ⟨shallow, valid, inside⟩ := check_element_eq_ok_iff.mp accepted
    have below := toList_listOutline_of (depth + 1) children (checkAll_eq_ok_iff.mpr inside)
    rw [outline, if_neg (Nat.not_lt.mpr shallow), spliced, Html.writeNodes, Html.writeNode,
      Html.writeNodes_joinTexts, ← below]
    cases isVoid : isVoidTag tag with
    | true => simp [Mark.textWith, Html.toList_attributesText, Sheet.classesOf, Html.writeNodes]
    | false => simp [Mark.textWith, Html.toList_attributesText, Sheet.classesOf, Html.writeNodes]
  | .text s, _ => by
    simp [outline, spliced, Html.writeNodes, Html.writeNode, Mark.textWith, Text.escapeContent]
  | .raw s, _ => by
    simp [outline, spliced, Html.writeNodes, Html.writeNode, Mark.textWith]
  | .fragment items, accepted => by
    have inside := checkAll_eq_ok_iff.mpr (check_fragment_eq_ok_iff.mp accepted).2
    rw [outline, spliced]
    exact toList_listOutline_of depth items inside

theorem toList_listOutline_of (depth : Nat) : (nodes : List Node) →
    Node.checkAll depth nodes = .ok () →
    ((listOutline depth nodes).flatMap fun mark =>
        (mark.textWith sheet.table.classesOf).toList) =
      Html.writeNodes (listSpliced sheet nodes)
  | [], _ => by rw [listOutline, listSpliced]; rfl
  | node :: rest, accepted => by
    rw [checkAll, bind_eq_ok_iff] at accepted
    rw [listOutline, listSpliced, List.flatMap_append, toList_outline_of depth node accepted.1,
      toList_listOutline_of depth rest accepted.2]
    simp only [Html.writeNodes_eq_flatMap, List.flatMap_append]

end

mutual

theorem spliced_pieces (depth : Nat) : (node : Node) → node.rawFree = true →
    node.check depth = .ok () → ∀ n ∈ node.spliced sheet, Html.Piece n
  | .element tag attributes children styles, safe, accepted => by
    obtain ⟨-, valid, inside⟩ := check_element_eq_ok_iff.mp accepted
    have below := listSpliced_pieces (depth + 1) children (by rw [← safe, rawFree])
      (checkAll_eq_ok_iff.mpr inside)
    intro n member
    rw [spliced, List.mem_singleton] at member
    subst member
    refine .element valid.tag (Html.normalAttributes_named valid.attributes) ?_
      (Html.normal_joinTexts below)
    intro isVoid
    have empty : children = [] := valid.void isVoid
    rw [empty]
    rfl
  | .text s, _, _ => by
    intro n member
    rw [spliced, List.mem_singleton] at member
    subst member
    exact .text s
  | .raw s, safe, _ => by
    rw [rawFree] at safe
    contradiction
  | .fragment items, safe, accepted => by
    have inside := checkAll_eq_ok_iff.mpr (check_fragment_eq_ok_iff.mp accepted).2
    rw [rawFree] at safe
    rw [spliced]
    exact listSpliced_pieces depth items safe inside

theorem listSpliced_pieces (depth : Nat) : (nodes : List Node) →
    Node.listRawFree nodes = true → Node.checkAll depth nodes = .ok () →
    ∀ n ∈ listSpliced sheet nodes, Html.Piece n
  | [], _, _ => by
    intro n member
    rw [listSpliced] at member
    contradiction
  | node :: rest, safe, accepted => by
    rw [listRawFree, Bool.and_eq_true] at safe
    rw [checkAll, bind_eq_ok_iff] at accepted
    intro n member
    rw [listSpliced, List.mem_append] at member
    obtain first | later := member
    · exact spliced_pieces depth node safe.1 accepted.1 n first
    · exact listSpliced_pieces depth rest safe.2 accepted.2 n later

end

mutual

theorem listShapes_spliced : (node : Node) →
    listShapes (node.spliced sheet) = node.shapes
  | .element tag attributes children styles => by
    rw [spliced, listShapes, shapes, shapes, Html.listShapes_joinTexts,
      listShapes_listSpliced children, Html.normalAttributes_names, listShapes, List.append_nil]
  | .text s => rfl
  | .raw s => rfl
  | .fragment items => by rw [spliced, shapes, listShapes_listSpliced items]

theorem listShapes_listSpliced : (nodes : List Node) →
    listShapes (listSpliced sheet nodes) = listShapes nodes
  | [] => rfl
  | node :: rest => by
    rw [listSpliced, listShapes, ← listShapes_spliced node, ← listShapes_listSpliced rest]
    simp only [Html.listShapes_eq_flatMap, List.flatMap_append]

end

end Rendered

/-- An accepted tree without raw markup is read back from its rendering in normal form. Its
elements and attributes are there as they were, with nothing added, left out or moved, and with
any texts at all. -/
theorem read_render (node : Node) (safe : node.rawFree = true)
    (accepted : node.validate = .ok ()) (options : RenderOptions) :
    Html.read (node.render options).html =
        some (node.normalForm (node.render options).sheet) ∧
      listShapes (node.normalForm (node.render options).sheet) = node.shapes := by
  -- The markup is the plain one of the normal form, which does not show how texts were split.
  have pieces := node.spliced_pieces (node.render options).sheet 0 safe accepted
  have html : (node.render options).html =
      String.ofList (Html.writeNodes (node.normalForm (node.render options).sheet)) := by
    rw [normalForm, Html.writeNodes_joinTexts, ← toList_outline_of _ 0 node accepted,
      ← String.toList_inj, String.toList_ofList, render_html, String.toList_join,
      List.flatMap_map]
  constructor
  · rw [html]
    exact Html.read_written (Html.normal_joinTexts pieces)
  · rw [normalForm, Html.listShapes_joinTexts, listShapes_spliced]

def notice : Node :=
  .fragment [.text "", .text "1 <", .text "& 2",
    .element "p" [⟨"class", .text " a  b "⟩, ⟨"hidden", .flag⟩]
      [.element "br" [] [] [], .fragment [.text "\x22"]] [.plain "color" "red"]]

theorem read_render_notice :
    notice.rawFree = true ∧ notice.validate = .ok () ∧
      Html.read (notice.render .standard).html = some [.text "1 <& 2",
        .element "p" [⟨"class", .text "a b color-0"⟩, ⟨"hidden", .flag⟩]
          [.element "br" [] [] [], .text "\x22"] []] := by
  have safe : notice.rawFree = true := rfl
  have accepted : notice.validate = .ok () := rfl
  have classes : (notice.render .standard).sheet.table.classesOf [.plain "color" "red"] =
      ["color-0"] := by decide +kernel
  have given : Text.words " a  b " = ["a", "b"] := by decide +kernel
  have unclassed : Text.words "" = [] := rfl
  refine ⟨safe, accepted, ?_⟩
  rw [(read_render notice safe accepted .standard).1]
  generalize (notice.render .standard).sheet = sheet at classes
  have joined : "1 <" ++ "& 2" = "1 <& 2" := rfl
  have named : " ".intercalate ["a", "b", "color-0"] = "a b color-0" := rfl
  have lineBreak : sheet.table.classesOf [] = [] := rfl
  simp [normalForm, notice, spliced, listSpliced, Sheet.classesOf, classes,
    Declaration.effective, lineBreak, Html.joinTexts, Html.consText, Html.normalAttributes,
    Html.classAttributes, AttributeValue.content, given, unclassed, joined, named]

end Node

end AtomicMarkup
