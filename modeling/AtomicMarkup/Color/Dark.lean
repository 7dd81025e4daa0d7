import AtomicMarkup.Color.Basic

/-!
Dark counterparts. A colour without a dark value of its own is given one of the same hue and
saturation whose lightness is mirrored at one half. The steps are the usual conversions between
channels and hue, saturation and lightness, in floating-point arithmetic of fixed order.
-/

namespace AtomicMarkup

/-- Hue in turns, saturation, and lightness. -/
structure Hsl where
  hue : Float
  saturation : Float
  lightness : Float

namespace Hsl

def larger (a b : Float) : Float :=
  if a < b then b else a

def smaller (a b : Float) : Float :=
  if b < a then b else a

def fraction (b : UInt8) : Float :=
  b.toFloat / 255.0

/-- Hue, saturation and lightness of channels. Grays have neither hue nor saturation. -/
def ofChannels (c : Channels) : Hsl :=
  let r := fraction c.red
  let g := fraction c.green
  let b := fraction c.blue
  let most := larger (larger r g) b
  let least := smaller (smaller r g) b
  let l := (most + least) / 2.0
  if most == least then ⟨0.0, 0.0, l⟩
  else
    let d := most - least
    let s := if l > 0.5 then d / (2.0 - most - least) else d / (most + least)
    let h :=
      if most == r then (g - b) / d + (if g < b then 6.0 else 0.0)
      else if most == g then (b - r) / d + 2.0
      else (r - g) / d + 4.0
    ⟨h / 6.0, s, l⟩

/-- The channel at a place of the colour wheel, given in turns, between the two extreme values. -/
def channelAt (low high turn : Float) : Float :=
  let t := if turn < 0.0 then turn + 1.0 else turn
  let t := if t > 1.0 then t - 1.0 else t
  if t < 1.0 / 6.0 then low + (high - low) * 6.0 * t
  else if t < 0.5 then high
  else if t < 2.0 / 3.0 then low + (high - low) * (2.0 / 3.0 - t) * 6.0
  else low

def byte (v : Float) : UInt8 :=
  Number.nearestByte (v * 255.0)

def toChannels (x : Hsl) : Channels :=
  let s := x.saturation
  let l := x.lightness
  if s == 0.0 then ⟨byte l, byte l, byte l⟩
  else
    let high := if l < 0.5 then l * (1.0 + s) else l + s - l * s
    let low := 2.0 * l - high
    ⟨byte (channelAt low high (x.hue + 1.0 / 3.0)), byte (channelAt low high x.hue),
      byte (channelAt low high (x.hue - 1.0 / 3.0))⟩

def mirrored (x : Hsl) : Hsl :=
  { x with lightness := 1.0 - x.lightness }

end Hsl

def Channels.mirrored (c : Channels) : Channels :=
  (Hsl.ofChannels c).mirrored.toChannels

/-- The dark counterpart of a colour. An opacity below one is kept, and a colour without channels
is its own counterpart. -/
def Color.darkCounterpart (color : Color) : Color :=
  match color.channels? with
  | none => color
  | some (c, alpha) =>
    if alpha < 1.0 then .rgba c.mirrored alpha else .rgb c.mirrored

structure SchemeColor where
  light : Color
  dark : Option Color
  deriving DecidableEq

namespace SchemeColor

def ofColor (color : Color) : SchemeColor :=
  ⟨color, none⟩

def fixed (color : Color) : SchemeColor :=
  ⟨color, some color⟩

def resolvedDark (c : SchemeColor) : Color :=
  c.dark.getD c.light.darkCounterpart

def isUniform (c : SchemeColor) : Bool :=
  c.light.paintsLike c.resolvedDark

end SchemeColor

end AtomicMarkup
