import AtomicMarkup.Data.Styles
import AtomicMarkup.Document

/-!
The data of pages: attributes, nodes, elements, heads and documents. Empty lists and missing
options are left out where a reader supplies them again.
-/

namespace AtomicMarkup

instance : DataForm AttributeValue where
  toData
    | .text s => .text s
    | .flag => .null
  ofData?
    | .text s => some (.text s)
    | .null => some .flag
    | _ => none

instance : DataForm Attribute where
  toData a := .record [("name", .text a.name), ("value", toData a.value)]
  ofData? d := do
    let m ← Members.ofData? ["name", "value"] d
    return ⟨← m.required "name", ← m.required "value"⟩

def Element.fieldsToData (tag : String) (attributes : List Attribute) (children : List Data)
    (styles : List Declaration) : Data :=
  .ofFields [("tag", some (.text tag)), ("attributes", Data.unlessEmpty attributes),
    ("children", if children.isEmpty then none else some (.list children)),
    ("styles", Data.unlessEmpty styles)]

mutual

def Node.toData : Node → Data
  | element tag attributes children styles =>
    .variant "element"
      (Element.fieldsToData tag attributes (Node.listToData children) styles)
  | text s => .variant "text" (.text s)
  | raw s => .variant "raw" (.text s)
  | fragment items => .variant "fragment" (.list (Node.listToData items))

def Node.listToData : List Node → List Data
  | [] => []
  | node :: rest => node.toData :: Node.listToData rest

end

mutual

def Node.ofData? : Data → Option Node
  | .record [("element", d)] => (Element.ofData? d).map Element.toNode
  | .record [("text", d)] => (DataForm.ofData? d).map .text
  | .record [("raw", d)] => (DataForm.ofData? d).map .raw
  | .record [("fragment", d)] => (Node.itemsOfData? d).map .fragment
  | _ => none

def Element.ofData? : Data → Option Element
  | .record members => do
    let m : Members := ⟨members, false⟩
    let children ← Node.childrenOfMembers? members
    return ⟨← m.required "tag", ← m.defaulted "attributes" [], children,
      ← m.defaulted "styles" []⟩
  | .list [tag] => do return ⟨← DataForm.ofData? tag, [], [], []⟩
  | .list [tag, attributes] => do
    return ⟨← DataForm.ofData? tag, ← DataForm.ofData? attributes, [], []⟩
  | .list [tag, attributes, children] => do
    let nodes ← Node.itemsOfData? children
    return ⟨← DataForm.ofData? tag, ← DataForm.ofData? attributes, nodes, []⟩
  | .list [tag, attributes, children, styles] => do
    let nodes ← Node.itemsOfData? children
    return ⟨← DataForm.ofData? tag, ← DataForm.ofData? attributes, nodes,
      ← DataForm.ofData? styles⟩
  | _ => none

def Node.childrenOfMembers? : List (String × Data) → Option (List Node)
  | [] => some []
  | (name, d) :: rest =>
    if name == "children" then Node.itemsOfData? d else Node.childrenOfMembers? rest

def Node.itemsOfData? : Data → Option (List Node)
  | .list items => Node.allOfData? items
  | _ => none

def Node.allOfData? : List Data → Option (List Node)
  | [] => some []
  | d :: rest => do
    let node ← Node.ofData? d
    let nodes ← Node.allOfData? rest
    return node :: nodes

end

instance : DataForm Node where
  toData := Node.toData
  ofData? := Node.ofData?

instance : DataForm Element where
  toData e := Element.fieldsToData e.tag e.attributes (Node.listToData e.children) e.styles
  ofData? := Element.ofData?

instance : DataForm MetaTag where
  toData m := .record [("name", .text m.name), ("content", .text m.content)]
  ofData? d := do
    let m ← Members.ofData? ["name", "content"] d
    return ⟨← m.required "name", ← m.required "content"⟩

instance : DataForm WebFont where
  toData f := .record [("family", .text f.family), ("weights", toData f.weights)]
  ofData? d := do
    let m ← Members.ofData? ["family", "weights"] d
    return ⟨← m.required "family", ← m.required "weights"⟩

/-- A missing viewport is the usual one; null stands for none. -/
instance : DataForm Head where
  toData h :=
    .ofFields [("title", some (.text h.title)), ("charset", some (.text h.charset)),
      ("viewport", some (toData h.viewport)), ("description", h.description.map toData),
      ("author", h.author.map toData), ("meta", Data.unlessEmpty h.metaTags),
      ("stylesheets", Data.unlessEmpty h.stylesheets), ("fonts", Data.unlessEmpty h.fonts)]
  ofData? d := do
    let m ← Members.ofData? ["title", "charset", "viewport", "description", "author", "meta",
      "stylesheets", "fonts"] d
    return ⟨← m.required "title", ← m.defaulted "charset" Head.standardCharset,
      ← m.defaulted "viewport" (some Head.standardViewport), ← m.defaulted "description" none,
      ← m.defaulted "author" none, ← m.defaulted "meta" [], ← m.defaulted "stylesheets" [],
      ← m.defaulted "fonts" []⟩

instance : DataForm Document where
  toData d :=
    .ofFields [("lang", d.language.map toData), ("head", some (toData d.head)),
      ("body", some (toData d.body))]
  ofData? d := do
    let m ← Members.ofData? ["lang", "head", "body"] d
    return ⟨← m.defaulted "lang" none, ← m.required "head", ← m.required "body"⟩

end AtomicMarkup
