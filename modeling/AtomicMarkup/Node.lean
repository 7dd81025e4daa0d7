import AtomicMarkup.Style.Declaration

/-!
Page trees. A node is an element with its attributes, children and style declarations, or text,
or markup that is written as it stands, or a fragment that stands for its items.
-/

namespace AtomicMarkup

inductive AttributeValue where
  | text (s : String)
  | flag
  deriving DecidableEq

def AttributeValue.content : AttributeValue → String
  | text s => s
  | flag => ""

structure Attribute where
  name : String
  value : AttributeValue
  deriving DecidableEq

inductive Node where
  | element (tag : String) (attributes : List Attribute) (children : List Node)
    (styles : List Declaration)
  | text (s : String)
  | raw (s : String)
  | fragment (items : List Node)

def voidTags : List String :=
  ["area", "base", "br", "col", "embed", "hr", "img", "input", "link", "meta", "source", "track",
    "wbr"]

/-- Whether elements of a tag have neither content nor an end tag. -/
def isVoidTag (tag : String) : Bool :=
  voidTags.contains tag

structure Element where
  tag : String
  attributes : List Attribute
  children : List Node
  /-- The style declarations in the order of application. -/
  styles : List Declaration

def Element.toNode (e : Element) : Node :=
  .element e.tag e.attributes e.children e.styles

def Node.toElement? : Node → Option Element
  | element tag attributes children styles => some ⟨tag, attributes, children, styles⟩
  | _ => none

end AtomicMarkup
