/-!
Blank characters, the tokens between separators, and trimming. The functions work on lists of
characters; `trim` is the one that page and colour texts are read through.
-/

namespace AtomicMarkup.Text

def isBlank (c : Char) : Bool :=
  let n := c.toNat
  (9 ≤ n && n ≤ 13) || n == 0x20 || n == 0x85 || n == 0xA0 || n == 0x1680 ||
    (0x2000 ≤ n && n ≤ 0x200A) || n == 0x2028 || n == 0x2029 || n == 0x202F || n == 0x205F ||
    n == 0x3000

/-- The stretches between separators. There is one more of them than there are separators, and
any of them may be empty. -/
def fields (separator : Char → Bool) : List Char → List (List Char)
  | [] => [[]]
  | c :: cs =>
    if separator c then [] :: fields separator cs
    else match fields separator cs with
      | [] => [[c]]
      | field :: rest => (c :: field) :: rest

def tokens (separator : Char → Bool) (cs : List Char) : List (List Char) :=
  (fields separator cs).filter (fun field => !field.isEmpty)

def words (s : String) : List String :=
  (tokens isBlank s.toList).map String.ofList

def dropTail {α : Type} (p : α → Bool) (xs : List α) : List α :=
  (xs.reverse.dropWhile p).reverse

def trim (s : String) : String :=
  String.ofList (dropTail isBlank (s.toList.dropWhile isBlank))

def allBlank (s : String) : Bool :=
  s.toList.all isBlank

/-- A to Z become a to z; every other character stays. -/
def lowercase (s : String) : String :=
  s.map Char.toLower

def sameIgnoringCase (s t : String) : Bool :=
  lowercase s == lowercase t

theorem fields_ne_nil (separator : Char → Bool) (cs : List Char) : fields separator cs ≠ [] := by
  induction cs with
  | nil => simp [fields]
  | cons c cs ih =>
    rw [fields]
    split
    · simp
    · split <;> simp

end AtomicMarkup.Text
