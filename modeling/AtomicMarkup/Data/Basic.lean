/-!
Data: the values that styles, pages and settings are exchanged as, apart from any notation.
A structure is a record of its members, or a list of them in order; a variant is its name, or a
record of its name and its payload.
-/

namespace AtomicMarkup

inductive Data where
  | null
  | bool (value : Bool)
  | int (value : Int)
  | float (value : Float)
  | text (value : String)
  | list (items : List Data)
  | record (members : List (String × Data))

class DataForm (α : Type) where
  toData : α → Data
  /-- Reads a value; nothing for data of another form. -/
  ofData? : Data → Option α

export DataForm (toData ofData?)

structure Members where
  values : List (String × Data)
  positional : Bool

namespace Members

/-- The members of a structure whose fields have the given names, in this order. Members of other
names do not matter; in a list there is no place for them. -/
def ofData? (names : List String) : Data → Option Members
  | .record values => some ⟨values, false⟩
  | .list items =>
    if names.length < items.length then none else some ⟨names.zip items, true⟩
  | _ => none

def required {α : Type} [DataForm α] (m : Members) (name : String) : Option α :=
  (m.values.lookup name).bind DataForm.ofData?

def defaulted {α : Type} [DataForm α] (m : Members) (name : String) (default : α) : Option α :=
  match m.values.lookup name with
  | none => some default
  | some d => DataForm.ofData? d

def optional {α : Type} [DataForm (Option α)] (m : Members) (name : String) :
    Option (Option α) :=
  if m.positional then m.required name else m.defaulted name none

end Members

namespace Data

/-- The name and the payload of a variant; a variant without payload has the null one. -/
def variant? : Data → Option (String × Data)
  | text name => some (name, null)
  | record [(name, payload)] => some (name, payload)
  | _ => none

def variant (name : String) (payload : Data) : Data :=
  record [(name, payload)]

def ofFields (fields : List (String × Option Data)) : Data :=
  record (fields.filterMap fun (name, value) => value.map fun d => (name, d))

def natBelow? (bound : Nat) : Data → Option Nat
  | int n => if 0 ≤ n ∧ n < bound then some n.toNat else none
  | _ => none

def unlessEmpty {α : Type} [DataForm (List α)] : List α → Option Data
  | [] => none
  | items => some (toData items)

end Data

instance : DataForm Bool where
  toData := .bool
  ofData?
    | .bool b => some b
    | _ => none

instance : DataForm String where
  toData := .text
  ofData?
    | .text s => some s
    | _ => none

instance : DataForm Float where
  toData := .float
  ofData?
    | .float v => some v
    | .int n => some (Float.ofInt n)
    | _ => none

instance : DataForm UInt8 where
  toData n := .int n.toNat
  ofData? d := (d.natBelow? UInt8.size).map UInt8.ofNat

instance : DataForm UInt16 where
  toData n := .int n.toNat
  ofData? d := (d.natBelow? UInt16.size).map UInt16.ofNat

instance : DataForm UInt32 where
  toData n := .int n.toNat
  ofData? d := (d.natBelow? UInt32.size).map UInt32.ofNat

instance : DataForm Int32 where
  toData n := .int n.toInt
  ofData?
    | .int n =>
      if Int32.minValue.toInt ≤ n ∧ n ≤ Int32.maxValue.toInt then some (Int32.ofInt n) else none
    | _ => none

instance {α : Type} [DataForm α] : DataForm (Option α) where
  toData
    | none => .null
    | some x => toData x
  ofData?
    | .null => some none
    | d => (ofData? d).map some

instance {α : Type} [DataForm α] : DataForm (List α) where
  toData items := .list (items.map toData)
  ofData?
    | .list items => items.mapM ofData?
    | _ => none

instance {α β : Type} [DataForm α] [DataForm β] : DataForm (α × β) where
  toData pair := .list [toData pair.1, toData pair.2]
  ofData?
    | .list [x, y] => do return (← ofData? x, ← ofData? y)
    | _ => none

end AtomicMarkup
