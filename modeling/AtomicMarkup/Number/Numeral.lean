import AtomicMarkup.Number.Binary

/-!
Numerals: positional notation in any base up to 36, zero-padded fields, hexadecimal bytes, and the
spelling of numbers in a stylesheet.
-/

namespace AtomicMarkup.Number

def digit (d : Nat) : Char :=
  Char.ofNat (if d < 10 then 48 + d else 87 + d)

/-- The digits of a number, most significant first, without leading zeros. -/
def digits (base n : Nat) : List Char :=
  if 2 ≤ base ∧ base ≤ n then digits base (n / base) ++ [digit (n % base)] else [digit n]
termination_by n
decreasing_by exact Nat.div_lt_self (by omega) (by omega)

def decimal (n : Nat) : String :=
  String.ofList (digits 10 n)

def signedDecimal (n : Int) : String :=
  if n < 0 then "-" ++ decimal n.natAbs else decimal n.natAbs

def base36 (n : Nat) : String :=
  String.ofList (digits 36 n)

def zeroPadded (width n : Nat) : String :=
  let ds := digits 10 n
  String.ofList (List.replicate (width - ds.length) '0' ++ ds)

def hexByte (b : UInt8) : List Char :=
  [digit (b.toNat / 16), digit (b.toNat % 16)]

def hexValue? (c : Char) : Option Nat :=
  if c.isDigit then some (c.toNat - 48)
  else if 'a' ≤ c && c ≤ 'f' then some (c.toNat - 87)
  else if 'A' ≤ c && c ≤ 'F' then some (c.toNat - 55)
  else none

/-- The digits after the point of a number of ten-thousandths, without the zeros at their end. -/
def fractionDigits (units : Nat) : List Char :=
  let places := [units / 1000 % 10, units / 100 % 10, units / 10 % 10, units % 10]
  (places.reverse.dropWhile (· == 0)).reverse.map digit

/-- The numeral of a signed number of ten-thousandths. Zero has no sign, and a whole number no
point. -/
def tenThousandths (negative : Bool) (units : Nat) : String :=
  let sign := if negative && units != 0 then "-" else ""
  let whole := decimal (units / 10000)
  match fractionDigits units with
  | [] => sign ++ whole
  | places => sign ++ whole ++ "." ++ String.ofList places

/-- A number as a stylesheet writes it: rounded to four places with ties to even. Numbers that
are not finite have no spelling and are written as zero. -/
def cssText (v : Float) : String :=
  match Binary.ofFloat? v with
  | none => "0"
  | some b => tenThousandths b.negative (roundHalfEven (b.numerator * 10000) b.denominator)

end AtomicMarkup.Number
