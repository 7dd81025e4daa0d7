/-!
The exact value of a floating-point number, and rounding of quotients. Every finite number is a
sign, a natural significand and a power of two, so the numerals and bytes that a page shows are
computed in exact arithmetic.
-/

namespace AtomicMarkup.Number

/-- The number `significand · 2 ^ exponent`, negated when `negative` holds. -/
structure Binary where
  negative : Bool
  significand : Nat
  exponent : Int
  deriving DecidableEq

/-- The exact value of a float; infinities and NaN have none. -/
def Binary.ofFloat? (v : Float) : Option Binary :=
  match v.toModel.unpack with
  | .notANumber => none
  | .infinity _ => none
  | .zero .negative => some ⟨true, 0, 0⟩
  | .zero .positive => some ⟨false, 0, 0⟩
  | .finite .negative m e _ => some ⟨true, m, e⟩
  | .finite .positive m e _ => some ⟨false, m, e⟩

def Binary.numerator (b : Binary) : Nat :=
  b.significand <<< b.exponent.toNat

def Binary.denominator (b : Binary) : Nat :=
  1 <<< (-b.exponent).toNat

/-- The whole number nearest to a quotient; halves go to the even neighbour. -/
def roundHalfEven (num den : Nat) : Nat :=
  let q := num / den
  let r := num % den
  if 2 * r < den then q else if den < 2 * r then q + 1 else q + q % 2

/-- The whole number nearest to a quotient; halves go up. -/
def roundHalfUp (num den : Nat) : Nat :=
  (2 * num + den) / (2 * den)

/-- The byte nearest to a float: halves go away from zero, numbers outside the range to the
nearer end, and NaN to zero. -/
def nearestByte (v : Float) : UInt8 :=
  match Binary.ofFloat? v with
  | none => if 0.0 < v then 255 else 0
  | some b =>
    if b.negative then 0
    else UInt8.ofNat (min 255 (roundHalfUp b.numerator b.denominator))

/-- The float moved into the interval from zero to one; NaN stays. -/
def clampUnit (v : Float) : Float :=
  if v < 0.0 then 0.0 else if 1.0 < v then 1.0 else v

end AtomicMarkup.Number
