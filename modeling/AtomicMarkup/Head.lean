import AtomicMarkup.Error
import AtomicMarkup.Number.Numeral
import AtomicMarkup.Text.Blank
import AtomicMarkup.Text.Escape
import AtomicMarkup.Text.Name

/-!
The head of a document: its title, its metadata, and the stylesheets and fonts that it loads. One
address loads all declared fonts.
-/

namespace AtomicMarkup

structure MetaTag where
  name : String
  content : String
  deriving DecidableEq

structure WebFont where
  family : String
  weights : List UInt16
  deriving DecidableEq

namespace WebFont

def withoutRepeats : List UInt16 → List UInt16
  | v :: w :: rest =>
    if v == w then withoutRepeats (w :: rest) else v :: withoutRepeats (w :: rest)
  | short => short

def sortedWeights (f : WebFont) : List UInt16 :=
  withoutRepeats (f.weights.mergeSort (fun v w => v ≤ w))

/-- The family without outer blanks, and with plus signs for spaces. -/
def queryFamily (f : WebFont) : String :=
  (Text.trim f.family).map fun c => if c == ' ' then '+' else c

def query (f : WebFont) : String :=
  match f.sortedWeights with
  | [] => "family=" ++ f.queryFamily
  | weights =>
    "family=" ++ f.queryFamily ++ ":wght@" ++
      ";".intercalate (weights.map fun w => Number.decimal w.toNat)

def check (f : WebFont) : Except MarkupError Unit :=
  if Text.allBlank f.family then .error (.invalidFontFamily f.family)
  else match f.weights.find? (fun w => w < 100 || 900 < w || w % 100 != 0) with
    | none => .ok ()
    | some w => .error (.invalidFontWeight f.family w)

end WebFont

structure Head where
  title : String
  charset : String
  viewport : Option String
  description : Option String
  author : Option String
  metaTags : List MetaTag
  stylesheets : List String
  fonts : List WebFont
  deriving DecidableEq

namespace Head

def standardCharset : String :=
  "utf-8"

def standardViewport : String :=
  "width=device-width, initial-scale=1"

def titled (title : String) : Head :=
  ⟨title, standardCharset, some standardViewport, none, none, [], [], []⟩

def fontsUrl? (h : Head) : Option String :=
  match h.fonts with
  | [] => none
  | fonts =>
    some ("https://fonts.googleapis.com/css2?" ++ "&".intercalate (fonts.map WebFont.query) ++
      "&display=swap")

def metaText (name content : String) : String :=
  "<meta name=\x22" ++ Text.escapeAttribute name ++ "\x22 content=\x22" ++
    Text.escapeAttribute content ++ "\x22>"

def stylesheetText (href : String) : String :=
  "<link rel=\x22stylesheet\x22 href=\x22" ++ Text.escapeAttribute href ++ "\x22>"

def optionText {α : Type} (text : α → String) (x : Option α) : String :=
  (x.map text).getD ""

/-- The content of the head. The stylesheet of the page stands last, unless it is empty. -/
def html (h : Head) (css : String) : String :=
  String.join [
    "<meta charset=\x22", Text.escapeAttribute h.charset, "\x22>",
    optionText (metaText "viewport") h.viewport,
    "<title>", Text.escapeContent h.title, "</title>",
    optionText (metaText "description") h.description,
    optionText (metaText "author") h.author,
    String.join (h.metaTags.map fun m => metaText m.name m.content),
    optionText stylesheetText h.fontsUrl?,
    String.join (h.stylesheets.map stylesheetText),
    if css.isEmpty then "" else "<style>" ++ css ++ "</style>"]

def checkMeta (m : MetaTag) : Except MarkupError Unit :=
  if Text.NameRule.attributeName.accepts m.name then .ok () else .error (.invalidMetaName m.name)

/-- Accepts a head with a title, valid fonts and valid metadata names, checked in this order. -/
def check (h : Head) : Except MarkupError Unit := do
  if Text.allBlank h.title then throw .missingTitle
  h.fonts.forM WebFont.check
  h.metaTags.forM checkMeta

end Head

end AtomicMarkup
