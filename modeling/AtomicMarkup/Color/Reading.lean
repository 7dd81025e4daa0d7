import AtomicMarkup.Color.Basic
import AtomicMarkup.Error
import AtomicMarkup.Text.Blank

/-!
Reading colours: the two keywords and the names in any case, and hexadecimal numerals of three
or six digits. Blanks around the text are ignored.
-/

namespace AtomicMarkup.Color

def ofWord? (word : String) : Option Color :=
  if Text.sameIgnoringCase word "transparent" then some .transparent
  else if Text.sameIgnoringCase word "currentcolor" then some .currentColor
  else ((Keyword.all (α := NamedColor)).find?
    (fun name => Text.sameIgnoringCase (Keyword.word name) word)).map .named

def byteOfDigits (high low : Nat) : UInt8 :=
  UInt8.ofNat (16 * high + low)

/-- The channels of three or six digit values; a single digit stands for two of it. -/
def channelsOfDigits? : List Nat → Option Channels
  | [r, g, b] => some ⟨byteOfDigits r r, byteOfDigits g g, byteOfDigits b b⟩
  | [r, r', g, g', b, b'] => some ⟨byteOfDigits r r', byteOfDigits g g', byteOfDigits b b'⟩
  | _ => none

/-- Reads a colour. An error carries the text as given, with its blanks. -/
def read (s : String) : Except MarkupError Color :=
  let trimmed := Text.trim s
  match ofWord? trimmed with
  | some color => .ok color
  | none =>
    match trimmed.toList with
    | '#' :: digits =>
      match digits.mapM Number.hexValue? with
      | none => .error (.invalidHexDigits s)
      | some values =>
        match channelsOfDigits? values with
        | none => .error (.invalidHexLength s)
        | some channels => .ok (.rgb channels)
    | _ => .error (.colorExpected s)

end AtomicMarkup.Color
