import AtomicMarkup.Outline
import AtomicMarkup.Sheet.Basic
import AtomicMarkup.Text.Escape

/-!
Rendering: the markup of page trees together with the stylesheet that they share. Every start tag
names the classes of its element's declarations, behind the classes that the element was given.
-/

namespace AtomicMarkup

namespace Mark

def quotedAttribute (name value : String) : String :=
  " " ++ name ++ "=\x22" ++ Text.escapeAttribute value ++ "\x22"

/-- The class attribute: given classes first, then generated ones; nothing without either. -/
def classAttribute (given : String) (generated : List String) : String :=
  match Text.words given ++ generated with
  | [] => ""
  | classes => quotedAttribute "class" (" ".intercalate classes)

def attributeText (generated : List String) (a : Attribute) : String :=
  if a.name == "class" then classAttribute a.value.content generated
  else match a.value with
    | .text value => quotedAttribute a.name value
    | .flag => " " ++ a.name

/-- The text of all attributes. Generated classes stand at the end when the element has no class
attribute of its own. -/
def attributesText (attributes : List Attribute) (generated : List String) : String :=
  let own := String.join (attributes.map (attributeText generated))
  if attributes.any (fun a => a.name == "class") then own
  else own ++ classAttribute "" generated

def write (table : ClassTable) : Mark → String × ClassTable
  | start tag attributes styles =>
    let (generated, table) := table.internAll styles
    ("<" ++ tag ++ attributesText attributes generated ++ ">", table)
  | finish tag => ("</" ++ tag ++ ">", table)
  | text s => (Text.escapeContent s, table)
  | raw s => (s, table)

def writeAll (table : ClassTable) : List Mark → List String × ClassTable
  | [] => ([], table)
  | mark :: rest =>
    let (written, table) := mark.write table
    let (texts, table) := writeAll table rest
    (written :: texts, table)

end Mark

structure Rendering where
  html : String
  sheet : Sheet

namespace Rendering

def empty (options : RenderOptions) : Rendering :=
  ⟨"", .empty options⟩

def add (r : Rendering) (node : Node) : Rendering :=
  let (texts, table) := Mark.writeAll r.sheet.table (node.outline 0)
  ⟨r.html ++ String.join texts, { r.sheet with table := table }⟩

end Rendering

def Node.render (node : Node) (options : RenderOptions) : Rendering :=
  (Rendering.empty options).add node

end AtomicMarkup
