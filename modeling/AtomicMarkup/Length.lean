import AtomicMarkup.Number.Numeral

/-!
Lengths: the two keywords and the six units that a property may be given in.
-/

namespace AtomicMarkup

inductive Length where
  | zero
  | auto
  | px (value : Float)
  | rem (value : Float)
  | em (value : Float)
  | percent (value : Float)
  | vw (value : Float)
  | vh (value : Float)
  deriving DecidableEq

namespace Length

def css : Length → String
  | zero => "0"
  | auto => "auto"
  | px v => Number.cssText v ++ "px"
  | rem v => Number.cssText v ++ "rem"
  | em v => Number.cssText v ++ "em"
  | percent v => Number.cssText v ++ "%"
  | vw v => Number.cssText v ++ "vw"
  | vh v => Number.cssText v ++ "vh"

/-- Lengths of one unit with equal numbers. Numbers are compared as numbers: zeros of both signs
agree, and NaN agrees with nothing. -/
def agrees : Length → Length → Bool
  | zero, zero => true
  | auto, auto => true
  | px v, px w => v == w
  | rem v, rem w => v == w
  | em v, em w => v == w
  | percent v, percent w => v == w
  | vw v, vw w => v == w
  | vh v, vh w => v == w
  | _, _ => false

end Length

end AtomicMarkup
