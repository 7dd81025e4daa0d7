/-!
Located characters. A text is read as the list of its characters with their lines and columns, so
that what is left of a text also says where it begins. Line breaks are unified on the way.
-/

namespace AtomicMarkup.Yaml

/-- A character with its place, both counted from zero. -/
structure Spot where
  char : Char
  line : Nat
  column : Nat

def isBreak (c : Char) : Bool :=
  c == '\n' || c == '\u2028' || c == '\u2029'

def isSpace (c : Char) : Bool :=
  c == ' ' || c == '\t'

def isPrintable (c : Char) : Bool :=
  let n := c.toNat
  n == 9 || n == 10 || n == 13 || (0x20 ≤ n && n ≤ 0x7E) || n == 0x85 ||
    (0xA0 ≤ n && n ≤ 0xFFFD) || 0x10000 ≤ n

def orderMark : Char :=
  '\uFEFF'

/-- Writes carriage returns, alone or before a line feed, and next-line characters as line
feeds. -/
def unifyBreaks : List Char → List Char
  | '\r' :: '\n' :: cs => '\n' :: unifyBreaks cs
  | c :: cs => (if c == '\r' || c == '\u0085' then '\n' else c) :: unifyBreaks cs
  | [] => []

def locate (line column : Nat) : List Char → List Spot
  | [] => []
  | c :: cs =>
    ⟨c, line, column⟩ :: if isBreak c then locate (line + 1) 0 cs else locate line (column + 1) cs

def endsWord : List Spot → Bool
  | [] => true
  | s :: _ => isSpace s.char || isBreak s.char

def startsWith (c : Char) : List Spot → Bool
  | [] => false
  | s :: _ => s.char == c

def startsWithAny (cs : List Char) : List Spot → Bool
  | [] => false
  | s :: _ => cs.contains s.char

def atIndicator (c : Char) : List Spot → Bool
  | [] => false
  | s :: rest => s.char == c && endsWord rest

/-- Whether a line begins with three of a character as a word of its own. -/
def atTriple (c : Char) : List Spot → Bool
  | x :: y :: z :: rest =>
    x.column == 0 && x.char == c && y.char == c && z.char == c && endsWord rest
  | _ => false

def atDocumentMark (spots : List Spot) : Bool :=
  atTriple '-' spots || atTriple '.' spots

def atDocumentEnd (spots : List Spot) : Bool :=
  spots.isEmpty || atDocumentMark spots

def lineAt (last : Nat) : List Spot → Nat
  | [] => last
  | s :: _ => s.line

/-- Skips what stands between two tokens: spaces, comments and breaks. Tabs are skipped within a
flow collection, and elsewhere on the first line when `tabs` holds. -/
def skipGap (flow tabs comment : Bool) : List Spot → List Spot
  | [] => []
  | s :: rest =>
    if isBreak s.char then skipGap flow flow false rest
    else if comment then skipGap flow tabs true rest
    else if s.char == ' ' || (tabs && s.char == '\t') ||
        (s.char == orderMark && s.column == 0) then
      skipGap flow tabs false rest
    else if s.char == '#' then skipGap flow tabs true rest
    else s :: rest

def skipSpaces (spots : List Spot) : List Spot :=
  spots.dropWhile (fun s => isSpace s.char)

end AtomicMarkup.Yaml
