import AtomicMarkup.Keyword
import AtomicMarkup.Number.Numeral

/-!
Colours, their channels and their text. Two colours paint alike when their channels are equal,
however they are spelled.
-/

namespace AtomicMarkup

inductive NamedColor where
  | black | white | gray | silver | red | maroon | orange | yellow | olive | lime | green | teal
  | aqua | blue | navy | fuchsia | purple
  deriving DecidableEq

instance : Keyword NamedColor where
  all := [.black, .white, .gray, .silver, .red, .maroon, .orange, .yellow, .olive, .lime, .green,
    .teal, .aqua, .blue, .navy, .fuchsia, .purple]
  word
    | .black => "black"
    | .white => "white"
    | .gray => "gray"
    | .silver => "silver"
    | .red => "red"
    | .maroon => "maroon"
    | .orange => "orange"
    | .yellow => "yellow"
    | .olive => "olive"
    | .lime => "lime"
    | .green => "green"
    | .teal => "teal"
    | .aqua => "aqua"
    | .blue => "blue"
    | .navy => "navy"
    | .fuchsia => "fuchsia"
    | .purple => "purple"

structure Channels where
  red : UInt8
  green : UInt8
  blue : UInt8
  deriving DecidableEq

def NamedColor.channels : NamedColor → Channels
  | black => ⟨0, 0, 0⟩
  | white => ⟨255, 255, 255⟩
  | gray => ⟨128, 128, 128⟩
  | silver => ⟨192, 192, 192⟩
  | red => ⟨255, 0, 0⟩
  | maroon => ⟨128, 0, 0⟩
  | orange => ⟨255, 165, 0⟩
  | yellow => ⟨255, 255, 0⟩
  | olive => ⟨128, 128, 0⟩
  | lime => ⟨0, 255, 0⟩
  | green => ⟨0, 128, 0⟩
  | teal => ⟨0, 128, 128⟩
  | aqua => ⟨0, 255, 255⟩
  | blue => ⟨0, 0, 255⟩
  | navy => ⟨0, 0, 128⟩
  | fuchsia => ⟨255, 0, 255⟩
  | purple => ⟨128, 0, 128⟩

/-- A colour in a stylesheet. The last two have no channels. -/
inductive Color where
  | rgb (channels : Channels)
  | rgba (channels : Channels) (alpha : Float)
  | named (name : NamedColor)
  | transparent
  | currentColor
  deriving DecidableEq

namespace Color

/-- The colour of a number whose lowest three bytes are the channels. -/
def ofHex (value : UInt32) : Color :=
  .rgb ⟨(value >>> 16).toUInt8, (value >>> 8).toUInt8, value.toUInt8⟩

/-- A colour with an opacity, which is moved into the interval from zero to one. -/
def withAlpha (channels : Channels) (alpha : Float) : Color :=
  .rgba channels (Number.clampUnit alpha)

def channels? : Color → Option (Channels × Float)
  | rgb c => some (c, 1.0)
  | rgba c a => some (c, a)
  | named n => some (n.channels, 1.0)
  | transparent => none
  | currentColor => none

def hexCss (c : Channels) : String :=
  String.ofList ('#' :: Number.hexByte c.red ++ Number.hexByte c.green ++ Number.hexByte c.blue)

def css : Color → String
  | rgb c => hexCss c
  | rgba c a =>
    "rgba(" ++ ",".intercalate [Number.decimal c.red.toNat, Number.decimal c.green.toNat,
      Number.decimal c.blue.toNat, Number.cssText a] ++ ")"
  | named n => Keyword.css n
  | transparent => "transparent"
  | currentColor => "currentColor"

/-- Colours that paint alike. Opacities are compared as numbers, so NaN is alike nothing; a
colour without channels is alike itself only. -/
def paintsLike (a b : Color) : Bool :=
  match a.channels?, b.channels? with
  | some (c, x), some (d, y) => c == d && x == y
  | none, none => a == b
  | _, _ => false

end Color

end AtomicMarkup
