import AtomicMarkup.Number.Reading
import AtomicMarkup.Yaml.Tree

/-!
The meaning of plain scalars: null, truth values, integers and numbers by their spelling, and text
otherwise. Quoted scalars are text whatever they spell.
-/

namespace AtomicMarkup.Yaml

def isNull (text : String) : Bool :=
  ["", "null", "Null", "NULL", "~"].contains text

def truth? (text : String) : Option Bool :=
  if ["true", "True", "TRUE"].contains text then some true
  else if ["false", "False", "FALSE"].contains text then some false
  else none

def dropPlus? : List Char → Option (List Char)
  | '+' :: '+' :: _ => none
  | '+' :: '-' :: _ => none
  | '+' :: cs => some cs
  | cs => some cs

/-- Several digits of which the first is zero, possibly signed. They are text rather than a
number. -/
def isZeroPadded (cs : List Char) : Bool :=
  let digits := match cs with
    | '-' :: cs => cs
    | '+' :: cs => cs
    | cs => cs
  match digits with
  | '0' :: d :: cs => (d :: cs).all Char.isDigit
  | _ => false

def digitsValue? (base : Nat) (cs : List Char) : Option Nat :=
  if cs.isEmpty then none
  else cs.foldlM (fun n c => match Number.hexValue? c with
    | none => none
    | some d => if d < base then some (base * n + d) else none) 0

def magnitude? : List Char → Option Nat
  | '0' :: 'x' :: cs => digitsValue? 16 cs
  | '0' :: 'o' :: cs => digitsValue? 8 cs
  | '0' :: 'b' :: cs => digitsValue? 2 cs
  | cs => digitsValue? 10 cs

def integer? (text : String) : Option Int :=
  let cs := text.toList
  if isZeroPadded cs then none
  else match cs with
    | '-' :: cs => do
      let n ← magnitude? cs
      if n ≤ 1 <<< 127 then some (-(n : Int)) else none
    | cs => do
      let n ← magnitude? (← dropPlus? cs)
      if n < 1 <<< 128 then some n else none

/-- The number that a text spells: a decimal numeral that is not too large, an infinity, or
NaN. -/
def number? (text : String) : Option Float := do
  if ["-.inf", "-.Inf", "-.INF"].contains text then return -1.0 / 0.0
  if [".nan", ".NaN", ".NAN"].contains text then return 0.0 / 0.0
  let cs ← dropPlus? text.toList
  if [".inf", ".Inf", ".INF"].contains (String.ofList cs) then return 1.0 / 0.0
  let v := (← Number.Scientific.read? cs).toFloat
  if v.isFinite then return v else none

def isText (text : String) : Bool :=
  !isNull text && (truth? text).isNone && (integer? text).isNone &&
    (isZeroPadded text.toList || (number? text).isNone)

end AtomicMarkup.Yaml
