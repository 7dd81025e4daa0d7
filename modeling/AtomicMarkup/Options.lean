import AtomicMarkup.Error
import AtomicMarkup.Keyword
import AtomicMarkup.Style.Declaration
import AtomicMarkup.Text.Name

/-!
Options of a rendering: the layout of the stylesheet, the spelling of the generated classes, and
whether a document begins with its doctype.
-/

namespace AtomicMarkup

inductive ClassNaming where
  /-- By the property and a counter of its own. -/
  | property
  /-- By one counter for all classes, in base 36. -/
  | compact
  deriving DecidableEq

instance : Keyword ClassNaming where
  all := [.property, .compact]
  word
    | .property => "property"
    | .compact => "compact"

structure RenderOptions where
  /-- Applies to the stylesheet only: blanks between elements have a meaning. -/
  layout : Layout
  naming : ClassNaming
  /-- Stands in front of every generated class. -/
  classPrefix : Option String
  doctype : Bool
  deriving DecidableEq

namespace RenderOptions

/-- Compact text, classes by property, no prefix, and a doctype. -/
def standard : RenderOptions :=
  ⟨.compact, .property, none, true⟩

def indented : RenderOptions :=
  { standard with layout := .indented }

def check (o : RenderOptions) : Except MarkupError Unit :=
  match o.classPrefix with
  | none => .ok ()
  | some text =>
    if Text.NameRule.classPrefix.accepts text then .ok () else .error (.invalidClassPrefix text)

end RenderOptions

end AtomicMarkup
