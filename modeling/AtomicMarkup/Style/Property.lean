import AtomicMarkup.Style.Border
import AtomicMarkup.Style.Custom
import AtomicMarkup.Style.Sides

/-!
The properties of an element's style, and the declarations that each of them makes in a scope.
-/

namespace AtomicMarkup

inductive LengthProperty where
  | width | height | minWidth | maxWidth | minHeight | maxHeight | top | right | bottom | left
  | gap | fontSize | lineHeight | letterSpacing | borderRadius
  deriving DecidableEq

instance : Keyword LengthProperty where
  all := [.width, .height, .minWidth, .maxWidth, .minHeight, .maxHeight, .top, .right, .bottom,
    .left, .gap, .fontSize, .lineHeight, .letterSpacing, .borderRadius]
  word
    | .width => "width"
    | .height => "height"
    | .minWidth => "min-width"
    | .maxWidth => "max-width"
    | .minHeight => "min-height"
    | .maxHeight => "max-height"
    | .top => "top"
    | .right => "right"
    | .bottom => "bottom"
    | .left => "left"
    | .gap => "gap"
    | .fontSize => "font-size"
    | .lineHeight => "line-height"
    | .letterSpacing => "letter-spacing"
    | .borderRadius => "border-radius"

inductive ColorProperty where
  | color | backgroundColor | borderColor
  deriving DecidableEq

instance : Keyword ColorProperty where
  all := [.color, .backgroundColor, .borderColor]
  word
    | .color => "color"
    | .backgroundColor => "background-color"
    | .borderColor => "border-color"

inductive FontWeight where
  | number (value : UInt16)
  | named (name : FontWeightName)
  deriving DecidableEq

def FontWeight.css : FontWeight → String
  | number n => Number.decimal n.toNat
  | named n => Keyword.css n

inductive FontFamily where
  | sansSerif | serif | monospace | systemUi
  | family (name : String)
  deriving DecidableEq

/-- The text of an entry. The name of a family stands in double quotes, without those of its
own. -/
def FontFamily.css : FontFamily → String
  | sansSerif => "sans-serif"
  | serif => "serif"
  | monospace => "monospace"
  | systemUi => "system-ui"
  | family name => "\x22" ++ String.ofList (name.toList.filter (· != '\x22')) ++ "\x22"

inductive Property where
  | length (property : LengthProperty) (value : Length)
  | zIndex (value : Int32)
  | display (value : Display)
  | position (value : Position)
  | textAlign (value : TextAlign)
  | textTransform (value : TextTransform)
  | textDecoration (value : TextDecoration)
  | overflow (value : Overflow)
  | cursor (value : Cursor)
  | flexDirection (value : FlexDirection)
  | flexWrap (value : FlexWrap)
  | justifyContent (value : JustifyContent)
  | alignItems (value : AlignItems)
  | fontWeight (value : FontWeight)
  | opacity (value : Float)
  | fontFamily (stack : List FontFamily)
  | color (property : ColorProperty) (value : SchemeColor)
  | margin (sides : Sides)
  | padding (sides : Sides)
  | border (value : Border)
  | custom (property : CustomProperty)
  deriving DecidableEq

namespace Property

/-- The declarations of a property in a scope. An opacity is moved into the interval from zero to
one, and an empty font stack declares nothing. -/
def declarations (scope : Scope) : Property → List Declaration
  | length p v => [scope.declare (Keyword.css p) v.css]
  | zIndex n => [scope.declare "z-index" (Number.signedDecimal n.toInt)]
  | display v => [scope.declare "display" (Keyword.css v)]
  | position v => [scope.declare "position" (Keyword.css v)]
  | textAlign v => [scope.declare "text-align" (Keyword.css v)]
  | textTransform v => [scope.declare "text-transform" (Keyword.css v)]
  | textDecoration v => [scope.declare "text-decoration" (Keyword.css v)]
  | overflow v => [scope.declare "overflow" (Keyword.css v)]
  | cursor v => [scope.declare "cursor" (Keyword.css v)]
  | flexDirection v => [scope.declare "flex-direction" (Keyword.css v)]
  | flexWrap v => [scope.declare "flex-wrap" (Keyword.css v)]
  | justifyContent v => [scope.declare "justify-content" (Keyword.css v)]
  | alignItems v => [scope.declare "align-items" (Keyword.css v)]
  | fontWeight v => [scope.declare "font-weight" v.css]
  | opacity v => [scope.declare "opacity" (Number.cssText (Number.clampUnit v))]
  | fontFamily [] => []
  | fontFamily stack =>
    [scope.declare "font-family" (",".intercalate (stack.map FontFamily.css))]
  | color p c => c.declarations (Keyword.css p) scope
  | margin s => s.declarations "margin" scope
  | padding s => s.declarations "padding" scope
  | border b => b.declarations scope
  | custom c => [scope.declare c.name c.value]

end Property

end AtomicMarkup
