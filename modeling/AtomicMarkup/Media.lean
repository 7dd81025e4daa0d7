import AtomicMarkup.Keyword
import AtomicMarkup.Length

/-!
Media queries: conjunctions of conditions on the device that shows a page. A query holds each
condition once, in the order of addition, and its text puts the media types first.
-/

namespace AtomicMarkup

inductive Breakpoint where
  | sm | md | lg | xl | xxl
  deriving DecidableEq

instance : Keyword Breakpoint where
  all := [.sm, .md, .lg, .xl, .xxl]
  word
    | .sm => "sm"
    | .md => "md"
    | .lg => "lg"
    | .xl => "xl"
    | .xxl => "2xl"

namespace Breakpoint

def rems : Breakpoint → Float
  | sm => 40.0
  | md => 48.0
  | lg => 64.0
  | xl => 80.0
  | xxl => 96.0

def width (b : Breakpoint) : Length :=
  .rem b.rems

/-- The greatest width below a breakpoint: one pixel, a sixteenth of a root font size, less. -/
def maxWidth (b : Breakpoint) : Length :=
  .rem (b.rems - 0.0625)

end Breakpoint

inductive ColorScheme where
  | light | dark
  deriving DecidableEq

instance : Keyword ColorScheme where
  all := [.light, .dark]
  word
    | .light => "light"
    | .dark => "dark"

inductive Orientation where
  | portrait | landscape
  deriving DecidableEq

instance : Keyword Orientation where
  all := [.portrait, .landscape]
  word
    | .portrait => "portrait"
    | .landscape => "landscape"

inductive MediaCondition where
  | screen
  | print
  | minWidth (width : Length)
  | maxWidth (width : Length)
  | prefersColorScheme (scheme : ColorScheme)
  | prefersReducedMotion
  | noMotionPreference
  | orientation (value : Orientation)
  deriving DecidableEq

namespace MediaCondition

/-- The media types, which a query has to begin with. -/
def isMediaType : MediaCondition → Bool
  | screen | print => true
  | _ => false

/-- Conditions that ask the same of a device; widths are compared as `Length.agrees` does. -/
def agrees : MediaCondition → MediaCondition → Bool
  | screen, screen => true
  | print, print => true
  | minWidth v, minWidth w => v.agrees w
  | maxWidth v, maxWidth w => v.agrees w
  | prefersColorScheme s, prefersColorScheme t => s == t
  | prefersReducedMotion, prefersReducedMotion => true
  | noMotionPreference, noMotionPreference => true
  | orientation o, orientation p => o == p
  | _, _ => false

/-- A feature with its value, in parentheses. -/
def feature (name value : String) : String :=
  "(" ++ name ++ ": " ++ value ++ ")"

def css : MediaCondition → String
  | screen => "screen"
  | print => "print"
  | minWidth w => feature "min-width" w.css
  | maxWidth w => feature "max-width" w.css
  | prefersColorScheme s => feature "prefers-color-scheme" (Keyword.css s)
  | prefersReducedMotion => feature "prefers-reduced-motion" "reduce"
  | noMotionPreference => feature "prefers-reduced-motion" "no-preference"
  | orientation o => feature "orientation" (Keyword.css o)

end MediaCondition

structure MediaQuery where
  conditions : List MediaCondition
  deriving DecidableEq

namespace MediaQuery

def empty : MediaQuery :=
  ⟨[]⟩

def ofCondition (c : MediaCondition) : MediaQuery :=
  ⟨[c]⟩

def minWidth (w : Length) : MediaQuery :=
  ofCondition (.minWidth w)

def maxWidth (w : Length) : MediaQuery :=
  ofCondition (.maxWidth w)

def breakpoint (b : Breakpoint) : MediaQuery :=
  minWidth b.width

def below (b : Breakpoint) : MediaQuery :=
  maxWidth b.maxWidth

def dark : MediaQuery :=
  ofCondition (.prefersColorScheme .dark)

def light : MediaQuery :=
  ofCondition (.prefersColorScheme .light)

def print : MediaQuery :=
  ofCondition .print

def screen : MediaQuery :=
  ofCondition .screen

def holds (q : MediaQuery) (c : MediaCondition) : Bool :=
  q.conditions.any (fun present => present.agrees c)

/-- Adds a condition at the end unless the query holds it already. -/
def add (q : MediaQuery) (c : MediaCondition) : MediaQuery :=
  if q.holds c then q else ⟨q.conditions ++ [c]⟩

/-- The conjunction of two queries: the conditions of the second are added in order. -/
def combine (q r : MediaQuery) : MediaQuery :=
  r.conditions.foldl add q

def isEmpty (q : MediaQuery) : Bool :=
  q.conditions.isEmpty

def isDark (q : MediaQuery) : Bool :=
  q.holds (.prefersColorScheme .dark)

def isLight (q : MediaQuery) : Bool :=
  q.holds (.prefersColorScheme .light)

def ordered (q : MediaQuery) : List MediaCondition :=
  q.conditions.filter MediaCondition.isMediaType ++
    q.conditions.filter (fun c => !c.isMediaType)

def css (q : MediaQuery) : String :=
  " and ".intercalate (q.ordered.map MediaCondition.css)

end MediaQuery

end AtomicMarkup
