import AtomicMarkup.Number.Numeral

/-!
Reading decimal numerals. A numeral has digits, which a point may divide, and may have a sign and
a power of ten; it stands for the float nearest to its value.
-/

namespace AtomicMarkup.Number

/-- The number `value · 10 ^ exponent`, negated when `negative` holds. -/
structure Scientific where
  negative : Bool
  value : Nat
  exponent : Int
  deriving DecidableEq

namespace Scientific

def ofDigits (ds : List Char) : Nat :=
  ds.foldl (fun n c => 10 * n + (c.toNat - 48)) 0

def splitSign : List Char → Bool × List Char
  | '-' :: cs => (true, cs)
  | '+' :: cs => (false, cs)
  | cs => (false, cs)

/-- Reads what may follow the digits: nothing, or a power of ten. -/
def readExponent? : List Char → Option Int
  | [] => some 0
  | c :: cs =>
    if c == 'e' || c == 'E' then
      let (negative, ds) := splitSign cs
      if ds.isEmpty || !ds.all Char.isDigit then none
      else some (if negative then -(ofDigits ds : Int) else ofDigits ds)
    else none

def read? (cs : List Char) : Option Scientific :=
  let (negative, cs) := splitSign cs
  let whole := cs.takeWhile Char.isDigit
  let rest := cs.dropWhile Char.isDigit
  let (places, rest) := match rest with
    | '.' :: cs => (cs.takeWhile Char.isDigit, cs.dropWhile Char.isDigit)
    | cs => ([], cs)
  if whole.isEmpty && places.isEmpty then none
  else do
    let e ← readExponent? rest
    return ⟨negative, ofDigits (whole ++ places), e - places.length⟩

/-- The nearest float. Numbers of more than 310 digits before the point are infinite, and numbers
with more than 330 zeros behind it are zero. -/
def toFloat (s : Scientific) : Float :=
  let size : Int := (digits 10 s.value).length + s.exponent
  let magnitude :=
    if s.value = 0 || size < -330 then 0.0
    else if 310 < size then 1.0 / 0.0
    else Float.ofScientific s.value (s.exponent < 0) s.exponent.natAbs
  if s.negative then -magnitude else magnitude

end Scientific

end AtomicMarkup.Number
