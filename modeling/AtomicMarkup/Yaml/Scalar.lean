import AtomicMarkup.Number.Numeral
import AtomicMarkup.Yaml.Spot

/-!
Scalars: plain and quoted text, which folds over several lines, and literal blocks, which keep
their lines. Every reader gives the text it has read and what is left.
-/

namespace AtomicMarkup.Yaml

/-- The blanks before the first break, the breaks, and what follows them. Blanks at the beginning
of a line are dropped; `leading` tells whether the first ones are at such a place. -/
def lineGap (leading : Bool) : List Spot → List Char × List Char × List Spot
  | [] => ([], [], [])
  | s :: rest =>
    if isBreak s.char then
      let (blanks, breaks, after) := lineGap true rest
      (blanks, s.char :: breaks, after)
    else if isSpace s.char then
      let (blanks, breaks, after) := lineGap leading rest
      (if leading then blanks else s.char :: blanks, breaks, after)
    else ([], [], s :: rest)

def fold (blanks : List Char) : List Char → List Char
  | [] => blanks
  | ['\n'] => [' ']
  | '\n' :: breaks => breaks
  | breaks => breaks

def tabBefore (n : Nat) (leading : Bool) : List Spot → Bool
  | [] => false
  | s :: rest =>
    if isBreak s.char then tabBefore n true rest
    else if isSpace s.char then
      (leading && s.char == '\t' && s.column < n) || tabBefore n leading rest
    else false

def flowIndicators : List Char :=
  [',', '[', ']', '\x7b', '\x7d']

def indicators : List Char :=
  ['-', '?', ':', ',', '[', ']', '\x7b', '\x7d', '#', '&', '*', '!', '|', '>', '\x27', '\x22',
    '%', '@', '\x60']

def startsPlain (flow : Bool) : List Spot → Bool
  | [] => false
  | s :: rest =>
    if s.char == '-' then !endsWord rest
    else if s.char == '?' || s.char == ':' then !flow && !endsWord rest
    else !isSpace s.char && !isBreak s.char && !indicators.contains s.char

/-- Splits off a plain word. A colon ends it at the end of a word; within a flow collection a
colon directly before another indicator is refused. -/
def plainWord? (flow : Bool) : List Spot → Option (List Char × List Spot)
  | [] => some ([], [])
  | s :: rest =>
    if isSpace s.char || isBreak s.char then some ([], s :: rest)
    else if flow && s.char == ':' && startsWithAny ('?' :: flowIndicators) rest then none
    else if s.char == ':' && endsWord rest then some ([], s :: rest)
    else if flow && flowIndicators.contains s.char then some ([], s :: rest)
    else (plainWord? flow rest).map fun (word, after) => (s.char :: word, after)

def continuesPlain (flow : Bool) (n : Nat) (spots : List Spot) : Bool :=
  match spots with
  | [] => false
  | s :: _ => !atDocumentMark spots && s.char != '#' && (flow || n ≤ s.column)

/-- Reads a plain scalar whose later lines are indented to column `n`. Gives its text, the line on
which it ends, and what is left, without the gap behind it. -/
def plain? (flow : Bool) (n : Nat) : Nat → List Spot → Option (List Char × Nat × List Spot)
  | 0, _ => none
  | fuel + 1, spots => do
    let (word, rest) ← plainWord? flow spots
    let line := lineAt 0 spots
    if tabBefore n false rest then none
    let (blanks, breaks, after) := lineGap false rest
    if word.isEmpty || !continuesPlain flow n after then return (word, line, after)
    if blanks.isEmpty && breaks.isEmpty then return (word, line, after)
    let (more, last, left) ← plain? flow n fuel after
    if more.isEmpty then return (word, line, after)
    return (word ++ fold blanks breaks ++ more, last, left)

def hexNumber? (spots : List Spot) : Option Nat :=
  spots.foldlM (fun n s => (Number.hexValue? s.char).map fun d => 16 * n + d) 0

def charOfNumber? (n : Nat) : Option Char :=
  if n < 0xD800 || (0xDFFF < n && n < 0x110000) then some (Char.ofNat n) else none

def numericEscape? (count : Nat) (spots : List Spot) : Option (Char × List Spot) := do
  let ds := spots.take count
  if ds.length < count then none
  let c ← charOfNumber? (← hexNumber? ds)
  return (c, spots.drop count)

def letterEscape? : Char → Option Char
  | '0' => some '\x00'
  | 'a' => some '\x07'
  | 'b' => some '\x08'
  | 't' => some '\t'
  | '\t' => some '\t'
  | 'n' => some '\n'
  | 'v' => some '\x0b'
  | 'f' => some '\x0c'
  | 'r' => some '\r'
  | 'e' => some '\x1b'
  | ' ' => some ' '
  | '\x22' => some '\x22'
  | '/' => some '/'
  | '\x5c' => some '\x5c'
  | 'N' => some '\u0085'
  | '_' => some '\u00a0'
  | 'L' => some '\u2028'
  | 'P' => some '\u2029'
  | _ => none

def escape? : List Spot → Option (Char × List Spot)
  | [] => none
  | s :: rest =>
    match s.char with
    | 'x' => numericEscape? 2 rest
    | 'u' => numericEscape? 4 rest
    | 'U' => numericEscape? 8 rest
    | c => (letterEscape? c).map fun d => (d, rest)

/-- Reads a scalar in single quotes, behind the first of them. Two quotes stand for one. Gives the
text, the line of the last quote, and what is left. -/
def singleQuoted? : Nat → List Spot → Option (List Char × Nat × List Spot)
  | 0, _ => none
  | _, [] => none
  | fuel + 1, s :: rest =>
    if atDocumentMark (s :: rest) then none
    else if isSpace s.char || isBreak s.char then do
      let (blanks, breaks, after) := lineGap false (s :: rest)
      let (text, line, left) ← singleQuoted? fuel after
      return (fold blanks breaks ++ text, line, left)
    else if s.char == '\x27' then
      if startsWith '\x27' rest then do
        let (text, line, left) ← singleQuoted? fuel (rest.drop 1)
        return ('\x27' :: text, line, left)
      else some ([], s.line, rest)
    else do
      let (text, line, left) ← singleQuoted? fuel rest
      return (s.char :: text, line, left)

/-- Reads a scalar in double quotes, behind the first of them. A backslash before a break removes
the break and the blanks after it. Gives the text, the line of the last quote, and what is left. -/
def doubleQuoted? : Nat → List Spot → Option (List Char × Nat × List Spot)
  | 0, _ => none
  | _, [] => none
  | fuel + 1, s :: rest =>
    if atDocumentMark (s :: rest) then none
    else if isSpace s.char || isBreak s.char then do
      let (blanks, breaks, after) := lineGap false (s :: rest)
      let (text, line, left) ← doubleQuoted? fuel after
      return (fold blanks breaks ++ text, line, left)
    else if s.char == '\x22' then some ([], s.line, rest)
    else if s.char == '\x5c' then
      match rest with
      | [] => none
      | b :: behind =>
        if isBreak b.char then do
          let (_, breaks, after) := lineGap true behind
          let (text, line, left) ← doubleQuoted? fuel after
          return (breaks ++ text, line, left)
        else do
          let (c, after) ← escape? rest
          let (text, line, left) ← doubleQuoted? fuel after
          return (c :: text, line, left)
    else do
      let (text, line, left) ← doubleQuoted? fuel rest
      return (s.char :: text, line, left)

inductive Chomping where
  | strip
  | clip
  | keep
  deriving DecidableEq

structure BlockHeader where
  chomping : Chomping
  increment : Nat

/-- Reads the header of a literal block, behind its indicator: a sign and a digit from 1 to 9 in
either order, each at most once. -/
def blockHeader (h : BlockHeader) (signed : Bool) : List Spot → BlockHeader × List Spot
  | [] => (h, [])
  | s :: rest =>
    if !signed && s.char == '+' then blockHeader { h with chomping := .keep } true rest
    else if !signed && s.char == '-' then blockHeader { h with chomping := .strip } true rest
    else if h.increment == 0 && '1' ≤ s.char && s.char ≤ '9' then
      blockHeader { h with increment := s.char.toNat - 48 } signed rest
    else (h, s :: rest)

def withinIndent (indent : Option Nat) (column : Nat) : Bool :=
  match indent with
  | none => true
  | some n => column < n

/-- Skips indentation and empty lines. Gives the breaks, the furthest column, and what is left;
a tab within the indentation is refused. -/
def blockBreaks? (indent : Option Nat) (furthest : Nat) :
    List Spot → Option (List Char × Nat × List Spot)
  | [] => some ([], furthest, [])
  | s :: rest =>
    if withinIndent indent s.column && s.char == ' ' then
      blockBreaks? indent (max furthest (s.column + 1)) rest
    else if withinIndent indent s.column && s.char == '\t' then none
    else if isBreak s.char then
      (blockBreaks? indent furthest rest).map fun (breaks, column, left) =>
        (s.char :: breaks, column, left)
    else some ([], max furthest s.column, s :: rest)

/-- Reads the lines of a literal block that begin at its column. Gives their text, the break at
the end of the last line, the breaks after it, and what is left; nothing if there is no such
line. -/
def blockLines? (indent : Nat) :
    Nat → List Spot → Option (Option (List Char × List Char × List Char) × List Spot)
  | 0, _ => none
  | _, [] => some (none, [])
  | fuel + 1, s :: rest =>
    if s.column != indent then some (none, s :: rest)
    else do
      let content := ((s :: rest).takeWhile (fun t => !isBreak t.char)).map Spot.char
      let behind := (s :: rest).dropWhile (fun t => !isBreak t.char)
      let lineBreak := (behind.take 1).map Spot.char
      let (breaks, _, next) ← blockBreaks? (some indent) 0 (behind.drop 1)
      match ← blockLines? indent fuel next with
      | (none, left) => return (some (content, lineBreak, breaks), left)
      | (some (more, lastBreak, lastBreaks), left) =>
        return (some (content ++ lineBreak ++ breaks ++ more, lastBreak, lastBreaks), left)

/-- Reads a literal block, behind its indicator, in a place where content begins at column `n` or
further. -/
def literal? (n : Nat) (spots : List Spot) : Option (List Char × List Spot) := do
  let (header, rest) := blockHeader ⟨.clip, 0⟩ false spots
  let rest := skipSpaces rest
  let rest := if startsWith '#' rest then rest.dropWhile (fun s => !isBreak s.char) else rest
  let body ← match rest with
    | [] => some []
    | s :: body => if isBreak s.char then some body else none
  let fixed := if header.increment == 0 then none else some (n - 1 + header.increment)
  let (breaks, furthest, first) ← blockBreaks? fixed 0 body
  let indent := fixed.getD (max furthest (max n 1))
  let (lines, left) ← blockLines? indent (first.length + 1) first
  return match lines, header.chomping with
    | none, .keep => (breaks, left)
    | none, _ => ([], left)
    | some (text, _, _), .strip => (breaks ++ text, left)
    | some (text, lastBreak, _), .clip => (breaks ++ text ++ lastBreak, left)
    | some (text, lastBreak, lastBreaks), .keep =>
      (breaks ++ text ++ lastBreak ++ lastBreaks, left)

end AtomicMarkup.Yaml
