import AtomicMarkup.Color.Dark
import AtomicMarkup.Style.Scope

/-!
Properties with colours, and borders. A colour that differs between the schemes is declared twice:
once for every scheme, and once more for the dark one.
-/

namespace AtomicMarkup

/-- The declarations of a property whose value is a colour. In a dark scope the dark value stands
alone; in a light scope, and for a colour that both schemes share, the light value does. -/
def SchemeColor.declarations (property : String) (c : SchemeColor) (scope : Scope) :
    List Declaration :=
  if scope.isDark then [scope.declare property c.resolvedDark.css]
  else
    scope.declare property c.light.css ::
      (if c.isUniform || scope.isLight then []
       else [scope.darkened.declare property c.resolvedDark.css])

/-- A border, of all sides or of one. Parts that are not given are left out. -/
structure Border where
  width : Option Length
  style : Option BorderStyle
  color : Option SchemeColor
  side : Option BorderSide
  deriving DecidableEq

namespace Border

def unset : Border :=
  ⟨none, none, none, none⟩

def ofParts (width : Length) (style : BorderStyle) (color : SchemeColor) : Border :=
  ⟨some width, some style, some color, none⟩

def property (b : Border) : String :=
  "border" ++ (b.side.map fun side => "-" ++ Keyword.css side).getD ""

def parts (b : Border) (scope : Scope) : List String :=
  let color := b.color.map fun c => if scope.isDark then c.resolvedDark else c.light
  [b.width.map Length.css, b.style.map Keyword.css, color.map Color.css].filterMap id

def darkDeclarations (b : Border) (scope : Scope) : List Declaration :=
  match b.color with
  | none => []
  | some c =>
    if scope.isDark || scope.isLight || c.isUniform then []
    else [scope.darkened.declare (b.property ++ "-color") c.resolvedDark.css]

def declarations (b : Border) (scope : Scope) : List Declaration :=
  match b.parts scope with
  | [] => []
  | parts => scope.declare b.property (" ".intercalate parts) :: b.darkDeclarations scope

end Border

end AtomicMarkup
