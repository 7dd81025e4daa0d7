/-!
Keywords: the closed vocabularies of the style properties. Each value has a word by which data
names it and a text by which a stylesheet spells it; the two differ only where noted.
-/

namespace AtomicMarkup

class Keyword (α : Type) where
  all : List α
  word : α → String
  css : α → String := word

def Keyword.ofWord? {α : Type} [Keyword α] (word : String) : Option α :=
  (Keyword.all (α := α)).find? (fun value => Keyword.word value == word)

inductive Display where
  | block | inline | inlineBlock | flex | inlineFlex | grid | contents | none
  deriving DecidableEq

instance : Keyword Display where
  all := [.block, .inline, .inlineBlock, .flex, .inlineFlex, .grid, .contents, .none]
  word
    | .block => "block"
    | .inline => "inline"
    | .inlineBlock => "inline-block"
    | .flex => "flex"
    | .inlineFlex => "inline-flex"
    | .grid => "grid"
    | .contents => "contents"
    | .none => "none"

inductive Position where
  | static | relative | absolute | fixed | sticky
  deriving DecidableEq

instance : Keyword Position where
  all := [.static, .relative, .absolute, .fixed, .sticky]
  word
    | .static => "static"
    | .relative => "relative"
    | .absolute => "absolute"
    | .fixed => "fixed"
    | .sticky => "sticky"

inductive TextAlign where
  | left | center | right | justify | start | finish
  deriving DecidableEq

instance : Keyword TextAlign where
  all := [.left, .center, .right, .justify, .start, .finish]
  word
    | .left => "left"
    | .center => "center"
    | .right => "right"
    | .justify => "justify"
    | .start => "start"
    | .finish => "end"

inductive TextTransform where
  | none | uppercase | lowercase | capitalize
  deriving DecidableEq

instance : Keyword TextTransform where
  all := [.none, .uppercase, .lowercase, .capitalize]
  word
    | .none => "none"
    | .uppercase => "uppercase"
    | .lowercase => "lowercase"
    | .capitalize => "capitalize"

inductive TextDecoration where
  | none | underline | overline | lineThrough
  deriving DecidableEq

instance : Keyword TextDecoration where
  all := [.none, .underline, .overline, .lineThrough]
  word
    | .none => "none"
    | .underline => "underline"
    | .overline => "overline"
    | .lineThrough => "line-through"

inductive BorderStyle where
  | none | solid | dashed | dotted | double
  deriving DecidableEq

instance : Keyword BorderStyle where
  all := [.none, .solid, .dashed, .dotted, .double]
  word
    | .none => "none"
    | .solid => "solid"
    | .dashed => "dashed"
    | .dotted => "dotted"
    | .double => "double"

inductive Overflow where
  | visible | hidden | clip | scroll | auto
  deriving DecidableEq

instance : Keyword Overflow where
  all := [.visible, .hidden, .clip, .scroll, .auto]
  word
    | .visible => "visible"
    | .hidden => "hidden"
    | .clip => "clip"
    | .scroll => "scroll"
    | .auto => "auto"

inductive Cursor where
  | default | pointer | notAllowed | text | wait | grab
  deriving DecidableEq

instance : Keyword Cursor where
  all := [.default, .pointer, .notAllowed, .text, .wait, .grab]
  word
    | .default => "default"
    | .pointer => "pointer"
    | .notAllowed => "not-allowed"
    | .text => "text"
    | .wait => "wait"
    | .grab => "grab"

inductive FlexDirection where
  | row | rowReverse | column | columnReverse
  deriving DecidableEq

instance : Keyword FlexDirection where
  all := [.row, .rowReverse, .column, .columnReverse]
  word
    | .row => "row"
    | .rowReverse => "row-reverse"
    | .column => "column"
    | .columnReverse => "column-reverse"

inductive FlexWrap where
  | nowrap | wrap | wrapReverse
  deriving DecidableEq

instance : Keyword FlexWrap where
  all := [.nowrap, .wrap, .wrapReverse]
  word
    | .nowrap => "nowrap"
    | .wrap => "wrap"
    | .wrapReverse => "wrap-reverse"

/-- Distribution along the main axis. Data names the two ends without their `flex-`. -/
inductive JustifyContent where
  | start | center | finish | spaceBetween | spaceAround | spaceEvenly
  deriving DecidableEq

instance : Keyword JustifyContent where
  all := [.start, .center, .finish, .spaceBetween, .spaceAround, .spaceEvenly]
  word
    | .start => "start"
    | .center => "center"
    | .finish => "end"
    | .spaceBetween => "space-between"
    | .spaceAround => "space-around"
    | .spaceEvenly => "space-evenly"
  css
    | .start => "flex-start"
    | .center => "center"
    | .finish => "flex-end"
    | .spaceBetween => "space-between"
    | .spaceAround => "space-around"
    | .spaceEvenly => "space-evenly"

/-- Alignment across the main axis. Data names the two ends without their `flex-`. -/
inductive AlignItems where
  | start | center | finish | stretch | baseline
  deriving DecidableEq

instance : Keyword AlignItems where
  all := [.start, .center, .finish, .stretch, .baseline]
  word
    | .start => "start"
    | .center => "center"
    | .finish => "end"
    | .stretch => "stretch"
    | .baseline => "baseline"
  css
    | .start => "flex-start"
    | .center => "center"
    | .finish => "flex-end"
    | .stretch => "stretch"
    | .baseline => "baseline"

inductive FontWeightName where
  | normal | bold | lighter | bolder
  deriving DecidableEq

instance : Keyword FontWeightName where
  all := [.normal, .bold, .lighter, .bolder]
  word
    | .normal => "normal"
    | .bold => "bold"
    | .lighter => "lighter"
    | .bolder => "bolder"

inductive BorderSide where
  | top | right | bottom | left
  deriving DecidableEq

instance : Keyword BorderSide where
  all := [.top, .right, .bottom, .left]
  word
    | .top => "top"
    | .right => "right"
    | .bottom => "bottom"
    | .left => "left"

end AtomicMarkup
