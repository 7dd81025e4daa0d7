import AtomicMarkup.Style.Scope

/-!
Values for the four sides of a box. When every side is set they are written as the shortest
shorthand of one, two or four values; otherwise each set side is written by itself.
-/

namespace AtomicMarkup

/-- Lengths for the sides of a box; a side that is not set is left out. -/
structure Sides where
  top : Option Length
  right : Option Length
  bottom : Option Length
  left : Option Length
  deriving DecidableEq

namespace Sides

def unset : Sides :=
  ⟨none, none, none, none⟩

def each (top right bottom left : Length) : Sides :=
  ⟨some top, some right, some bottom, some left⟩

def all (l : Length) : Sides :=
  each l l l l

def symmetric (vertical horizontal : Length) : Sides :=
  each vertical horizontal vertical horizontal

def vertical (l : Length) : Sides :=
  { unset with top := some l, bottom := some l }

def horizontal (l : Length) : Sides :=
  { unset with right := some l, left := some l }

def named (s : Sides) : List (String × Option Length) :=
  [("top", s.top), ("right", s.right), ("bottom", s.bottom), ("left", s.left)]

/-- The shortest list of values that gives the four sides, clockwise from the top. -/
def shorthand (t r b l : Length) : List Length :=
  if t.agrees r && r.agrees b && b.agrees l then [t]
  else if t.agrees b && r.agrees l then [t, r]
  else [t, r, b, l]

def declarations (property : String) (s : Sides) (scope : Scope) : List Declaration :=
  match s.top, s.right, s.bottom, s.left with
  | some t, some r, some b, some l =>
    [scope.declare property (" ".intercalate ((shorthand t r b l).map Length.css))]
  | _, _, _, _ =>
    s.named.filterMap fun (side, length) =>
      length.map fun l => scope.declare (property ++ "-" ++ side) l.css

end Sides

end AtomicMarkup
