import AtomicMarkup.Yaml.Scalar

/-!
Trees of YAML documents. A text holds one document, in block or flow style; anchors, tags, complex
keys, folded blocks and further documents are refused. The readers follow the indentation: content
at column `n` or further belongs to the node that is being read.
-/

namespace AtomicMarkup

/-- A node of a document. A scalar is plain when it is neither quoted nor a block. -/
inductive Yaml where
  | scalar (plain : Bool) (text : String)
  | sequence (items : List Yaml)
  | mapping (entries : List (Yaml × Yaml))

namespace Yaml

def nothing : Yaml :=
  scalar true ""

/-- A node, the line on which it ends, and what is left. -/
structure Reading where
  node : Yaml
  lastLine : Nat
  left : List Spot

def readScalar? (flow : Bool) (n : Nat) (spots : List Spot) : Option Reading := do
  let fuel := spots.length + 1
  if startsWith '\x22' spots then
    let (text, line, left) ← doubleQuoted? fuel (spots.drop 1)
    return ⟨scalar false (String.ofList text), line, left⟩
  else if startsWith '\x27' spots then
    let (text, line, left) ← singleQuoted? fuel (spots.drop 1)
    return ⟨scalar false (String.ofList text), line, left⟩
  else if startsPlain flow spots then
    let (text, line, left) ← plain? flow n fuel spots
    return ⟨scalar true (String.ofList text), line, left⟩
  else none

def keyLimit : Nat := 1024

/-- Whether what is read from `start` to `colon` is a key: it stands on one line together with
its colon, and is not too long. -/
def fitsKey (start colon : List Spot) : Bool :=
  lineAt 0 start == lineAt 0 colon && start.length ≤ colon.length + keyLimit

mutual

def readFlow? (flow : Bool) (n : Nat) : Nat → List Spot → Option Reading
  | 0, _ => none
  | fuel + 1, spots =>
    if startsWith '[' spots then readItems? n [] fuel (spots.drop 1)
    else if startsWith '\x7b' spots then readEntries? n [] fuel (spots.drop 1)
    else readScalar? flow n spots

/-- Reads the items of a flow sequence up to its bracket. A key with a value is an item by
itself. -/
def readItems? (n : Nat) (items : List Yaml) : Nat → List Spot → Option Reading
  | 0, _ => none
  | fuel + 1, spots =>
    match skipGap true true false spots with
    | [] => none
    | s :: rest =>
      if s.char == ']' then some ⟨sequence items, s.line, rest⟩
      else do
        let (key, value, left) ← readPair? n ']' fuel (s :: rest)
        let item := match value with
          | none => key
          | some v => mapping [(key, v)]
        match left with
        | [] => none
        | t :: rest =>
          if t.char == ',' then readItems? n (items ++ [item]) fuel rest
          else if t.char == ']' then some ⟨sequence (items ++ [item]), t.line, rest⟩
          else none

/-- Reads the entries of a flow mapping up to its brace. A key may do without a value. -/
def readEntries? (n : Nat) (entries : List (Yaml × Yaml)) : Nat → List Spot → Option Reading
  | 0, _ => none
  | fuel + 1, spots =>
    match skipGap true true false spots with
    | [] => none
    | s :: rest =>
      if s.char == '\x7d' then some ⟨mapping entries, s.line, rest⟩
      else do
        let (key, value, left) ← readPair? n '\x7d' fuel (s :: rest)
        let entry := (key, value.getD nothing)
        match left with
        | [] => none
        | t :: rest =>
          if t.char == ',' then readEntries? n (entries ++ [entry]) fuel rest
          else if t.char == '\x7d' then some ⟨mapping (entries ++ [entry]), t.line, rest⟩
          else none

/-- Reads a node of a flow collection and, if it is a key, its value. What is left begins with
the next token. -/
def readPair? (n : Nat) (close : Char) : Nat → List Spot → Option (Yaml × Option Yaml × List Spot)
  | 0, _ => none
  | fuel + 1, spots =>
    if atDocumentMark spots then none
    else do
      let key ← readFlow? true n fuel spots
      let behind := skipGap true true false key.left
      if !startsWith ':' behind then return (key.node, none, behind)
      if !fitsKey spots behind then none
      let start := skipGap true true false (behind.drop 1)
      if startsWithAny [',', close] start then return (key.node, some nothing, start)
      if atDocumentMark start then none
      let value ← readFlow? true n fuel start
      return (key.node, some value.node, skipGap true true false value.left)

end

/-- What is left behind a node of a block, up to the next token. Nothing more may stand on the
line on which the node ends. -/
def freshLine? (r : Reading) : Option (List Spot) :=
  let tabs := lineAt r.lastLine r.left == r.lastLine
  let next := skipGap false tabs false r.left
  if next.isEmpty || lineAt 0 next != r.lastLine then some next else none

/-- Reads the key of a block mapping whose indentation is `n` at most, and its colon. -/
def readKey? (n fuel : Nat) (spots : List Spot) : Option (Yaml × List Spot) := do
  let key ← readFlow? false n fuel spots
  let colon := skipSpaces key.left
  if atIndicator ':' colon && fitsKey spots colon then return (key.node, colon.drop 1)
  else none

def atColumn (column : Nat) (spots : List Spot) : Bool :=
  !atDocumentEnd spots && spots.head?.any (fun s => s.column == column)

def beyondColumn (column : Nat) (spots : List Spot) : Bool :=
  !atDocumentEnd spots && spots.head?.any (fun s => column < s.column)

def columnAt : List Spot → Nat
  | [] => 0
  | s :: _ => s.column

mutual

/-- Reads a node of a block, behind its indicator. `fresh` tells whether keys and sequences may
begin on the line of the indicator, and `level` whether a sequence may stand at column `n - 1`,
as the value of a key at that column. What is left begins with the next token. -/
def readBlock? (n : Nat) (fresh level : Bool) (line : Nat) :
    Nat → List Spot → Option (Yaml × List Spot)
  | 0, _ => none
  | fuel + 1, spots =>
    let start := skipGap false (!fresh) false spots
    let keys := fresh || lineAt line start != line
    if level && keys && atIndicator '-' start && atColumn (n - 1) start then
      readSequence? (n - 1) true [] fuel start
    else if atDocumentEnd start || !start.head?.any (fun s => n ≤ s.column) then
      some (nothing, start)
    else if atIndicator '-' start then
      if keys then readSequence? (columnAt start) false [] fuel start else none
    else if startsWith '|' start then do
      let (text, left) ← literal? n (start.drop 1)
      return (scalar false (String.ofList text), skipGap false false false left)
    else do
      let r ← readFlow? false n fuel start
      let colon := skipSpaces r.left
      if atIndicator ':' colon then
        if keys && fitsKey start colon then
          readMapping? (columnAt start) [] r.node fuel (colon.drop 1)
        else none
      else do
        let next ← freshLine? r
        return (r.node, next)
termination_by structural fuel => fuel

def readMapping? (column : Nat) (entries : List (Yaml × Yaml)) (key : Yaml) :
    Nat → List Spot → Option (Yaml × List Spot)
  | 0, _ => none
  | fuel + 1, spots => do
    let (value, next) ← readBlock? (column + 1) false true (lineAt 0 spots) fuel spots
    let entries := entries ++ [(key, value)]
    if beyondColumn column next then none
    if !atColumn column next then return (mapping entries, next)
    let (key, left) ← readKey? (column + 1) fuel next
    readMapping? column entries key fuel left
termination_by structural fuel => fuel

def readSequence? (column : Nat) (level : Bool) (items : List Yaml) :
    Nat → List Spot → Option (Yaml × List Spot)
  | 0, _ => none
  | fuel + 1, spots => do
    let (item, next) ← readBlock? (column + 1) true false (lineAt 0 spots) fuel (spots.drop 1)
    let items := items ++ [item]
    if beyondColumn column next then none
    if !atColumn column next then return (sequence items, next)
    if atIndicator '-' next then readSequence? column level items fuel next
    else if level then return (sequence items, next)
    else none
termination_by structural fuel => fuel

end

/-- Skips the marks at the end of a document. Nothing may follow them. -/
def endsDocument : Nat → List Spot → Bool
  | 0, _ => false
  | fuel + 1, spots =>
    let rest := skipGap false true false spots
    rest.isEmpty || (atTriple '.' rest && endsDocument fuel (rest.drop 3))

def shortNumber? (spots : List Spot) : Option (Nat × List Spot) :=
  let ds := spots.takeWhile (fun s => s.char.isDigit)
  if ds.isEmpty || 9 < ds.length then none
  else some (ds.foldl (fun n s => 10 * n + (s.char.toNat - 48)) 0, spots.drop ds.length)

/-- Skips a line that states the version of the format, which is 1.1 or 1.2. -/
def skipVersion? (spots : List Spot) : Option (List Spot) := do
  let behind := spots.drop 5
  if (spots.take 5).map Spot.char != "%YAML".toList || !startsWithAny [' ', '\t'] behind then none
  let (major, rest) ← shortNumber? (skipSpaces behind)
  if !startsWith '.' rest then none
  let (minor, rest) ← shortNumber? (rest.drop 1)
  if major != 1 || (minor != 1 && minor != 2) then none
  let rest := skipSpaces rest
  let rest := if startsWith '#' rest then rest.dropWhile (fun s => !isBreak s.char) else rest
  match rest with
  | [] => some []
  | s :: next => if isBreak s.char then some (skipGap false false false next) else none

/-- Reads the document of a text. A version is stated before the mark of its beginning. -/
def read? (s : String) : Option Yaml := do
  if !s.toList.all isPrintable then none
  let chars := match s.toList with
    | c :: cs => if c == orderMark then cs else c :: cs
    | [] => []
  let first := skipGap false false false (locate 0 0 (unifyBreaks chars))
  let fuel := 4 * first.length + 8
  let versioned := startsWith '%' first && columnAt first == 0
  let start ← if versioned then skipVersion? first else some first
  let (node, left) ←
    if atTriple '-' start then readBlock? 0 false false (lineAt 0 start) fuel (start.drop 3)
    else if versioned || atTriple '.' start then none
    else readBlock? 0 true false (lineAt 0 start) fuel start
  if endsDocument fuel left then return node else none

end Yaml

end AtomicMarkup
