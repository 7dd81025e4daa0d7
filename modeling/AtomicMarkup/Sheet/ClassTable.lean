import AtomicMarkup.Number.Numeral
import AtomicMarkup.Options
import AtomicMarkup.Text.Blank

/-!
The table of generated classes. It holds each declaration once, in the order of first use, with
the class that stands for it. A table only grows, so a class that was given out stays valid.
-/

namespace AtomicMarkup

structure ClassEntry where
  name : String
  declaration : Declaration
  deriving DecidableEq

/-- The classes in use, and how the next one is spelled. -/
structure ClassTable where
  naming : ClassNaming
  /-- Stands in front of every class. -/
  lead : String
  entries : List ClassEntry

namespace ClassTable

def empty (naming : ClassNaming) (classPrefix : Option String) : ClassTable :=
  ⟨naming, classPrefix.getD "", []⟩

def stem (property : String) : String :=
  String.ofList (property.toList.dropWhile (· == '-'))

def stemCount (t : ClassTable) (s : String) : Nat :=
  t.entries.countP (fun entry => stem entry.declaration.property == s)

/-- The class of the next entry. By property, the entries of one stem are counted; in compact
form, all of them. -/
def nextName (t : ClassTable) (property : String) : String :=
  match t.naming with
  | .property =>
    let s := stem property
    t.lead ++ s ++ "-" ++ Number.decimal (t.stemCount s)
  | .compact => t.lead ++ "c" ++ Number.base36 t.entries.length

def find? (t : ClassTable) (d : Declaration) : Option ClassEntry :=
  t.entries.find? (fun entry => entry.declaration == d)

/-- The class of a declaration, which is entered at its first use, and the table afterwards. -/
def intern (t : ClassTable) (d : Declaration) : String × ClassTable :=
  match t.find? d with
  | some entry => (entry.name, t)
  | none =>
    let name := t.nextName d.property
    (name, { t with entries := t.entries ++ [⟨name, d⟩] })

def internAll (t : ClassTable) : List Declaration → List String × ClassTable
  | [] => ([], t)
  | d :: rest =>
    let (name, t) := t.intern d
    let (names, t) := t.internAll rest
    (name :: names, t)

end ClassTable

end AtomicMarkup
