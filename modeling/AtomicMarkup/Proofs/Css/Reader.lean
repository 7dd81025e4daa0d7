import AtomicMarkup.Sheet.Rule

/-!
A reader of stylesheets in each of the two layouts. Braces cut a text into stretches. What a
stretch opens or closes follows from its brace, from what is open already, and from the word that
stands in front of media queries. The margins must be those of the layout; anything else is
refused.
-/

namespace AtomicMarkup.Css

def newline : Layout → List Char
  | .compact => []
  | .indented => ['\n']

def gap : Layout → List Char
  | .compact => []
  | .indented => [' ']

def indentation : Layout → List Char
  | .compact => []
  | .indented => [' ', ' ']

def margin (layout : Layout) : Option String → List Char
  | none => newline layout
  | some _ => newline layout ++ indentation layout

def mediaWord : List Char :=
  ['@', 'm', 'e', 'd', 'i', 'a', ' ']

/-- What is left of a text when its first and its last part are taken off. -/
def between (first last cs : List Char) : Option (List Char) :=
  (first.isPrefixOf? cs).bind last.isSuffixOf?

def readPair (layout : Layout) (cs : List Char) : Option (String × String) :=
  match cs.dropWhile (· != ':') with
  | [] => none
  | _ :: rest =>
    (between (gap layout) [] rest).map fun value =>
      (String.ofList (cs.takeWhile (· != ':')), String.ofList value)

/-- The pairs of a rule. In compact text a semicolon stands between them; in indented text each
has a line and a semicolon of its own. -/
def readPairs (layout : Layout) (media : Option String) (cs : List Char) :
    Option (List (String × String)) :=
  match layout with
  | .compact => if cs.isEmpty then some [] else (cs.splitOn ';').mapM (readPair layout)
  | .indented =>
    let lines := cs.splitOn ';'
    if lines.getLast? == some (margin layout media) then
      lines.dropLast.mapM fun line =>
        (between (margin layout media ++ indentation layout) [] line).bind (readPair layout)
    else none

structure Progress where
  /-- The last one stands first. -/
  groups : List RuleGroup
  media : Option String
  selector : Option String

namespace Progress

def start : Progress :=
  ⟨[], none, none⟩

/-- Puts a rule into the last group. Rules without a query that stand behind a block begin a
group of their own. -/
def add (p : Progress) (rule : Rule) : Progress :=
  match p.groups with
  | [] => { p with groups := [⟨rule.media, [rule]⟩] }
  | g :: earlier =>
    if g.media == rule.media then
      { p with groups := { g with rules := g.rules ++ [rule] } :: earlier }
    else { p with groups := ⟨rule.media, [rule]⟩ :: g :: earlier }

def openBrace (layout : Layout) (p : Progress) (cs : List Char) : Option Progress :=
  match p.selector, between (margin layout p.media) (gap layout) cs with
  | none, some head =>
    match p.media, mediaWord.isPrefixOf? head with
    | none, some query =>
      some ⟨⟨some (String.ofList query), []⟩ :: p.groups, some (String.ofList query), none⟩
    | _, _ => some { p with selector := some (String.ofList head) }
  | _, _ => none

def closeBrace (layout : Layout) (p : Progress) (cs : List Char) : Option Progress :=
  match p.selector, p.media with
  | some selector, media =>
    (readPairs layout media cs).map fun pairs =>
      ({ p with selector := none } : Progress).add ⟨selector, pairs, media⟩
  | none, some _ => if cs == newline layout then some { p with media := none } else none
  | none, none => none

/-- Reads on. The stretch is what stands between the last brace and the rest of the text. -/
def run (layout : Layout) (p : Progress) (stretch : List Char) : List Char → Option Progress
  | [] =>
    if p.media.isNone && p.selector.isNone && stretch == newline layout then some p else none
  | c :: cs =>
    if c = '\x7b' then (p.openBrace layout stretch).bind fun p => p.run layout [] cs
    else if c = '\x7d' then (p.closeBrace layout stretch).bind fun p => p.run layout [] cs
    else p.run layout (stretch ++ [c]) cs

end Progress

def read (layout : Layout) (text : String) : Option (List RuleGroup) :=
  (Progress.start.run layout [] (newline layout ++ text.toList)).map fun p => p.groups.reverse

example : read .compact ".a\x7bcolor:red;top:0\x7d@media print\x7b.b\x7b\x7d\x7d" =
    some [⟨none, [⟨".a", [("color", "red"), ("top", "0")], none⟩]⟩,
      ⟨some "print", [⟨".b", [], some "print"⟩]⟩] := by
  decide

example : read .indented ".a \x7b\n  color: red;\n\x7d\n" =
    some [⟨none, [⟨".a", [("color", "red")], none⟩]⟩] := by
  decide

end AtomicMarkup.Css
