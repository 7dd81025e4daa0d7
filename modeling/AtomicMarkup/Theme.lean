import AtomicMarkup.Color.Dark
import AtomicMarkup.Color.Reading
import AtomicMarkup.Length

/-!
Themes: named colours, distances, radii and font sizes, and references to them of the form
`$theme.category.name`.
-/

namespace AtomicMarkup

/-- A colour of a theme, by its text or by one text for each scheme. -/
inductive ColorToken where
  | single (value : String)
  | pair (light : String) (dark : Option String)
  deriving DecidableEq

def ColorToken.read : ColorToken → Except MarkupError SchemeColor
  | single value => do return .ofColor (← Color.read value)
  | pair light none => do return .ofColor (← Color.read light)
  | pair light (some dark) => do
    let l ← Color.read light
    let d ← Color.read dark
    return ⟨l, some d⟩

/-- Named values, each name once. -/
structure TokenTable (α : Type) where
  entries : List (String × α)
  deriving DecidableEq

namespace TokenTable

def empty {α : Type} : TokenTable α :=
  ⟨[]⟩

def find? {α : Type} (table : TokenTable α) (name : String) : Option α :=
  table.entries.lookup name

def insertIn {α : Type} (name : String) (value : α) : List (String × α) → List (String × α)
  | [] => [(name, value)]
  | entry :: rest =>
    if entry.1 == name then (name, value) :: rest else entry :: insertIn name value rest

def insert {α : Type} (table : TokenTable α) (name : String) (value : α) : TokenTable α :=
  ⟨insertIn name value table.entries⟩

/-- The table of a list of entries; a later entry replaces an earlier one of its name. -/
def ofEntries {α : Type} (entries : List (String × α)) : TokenTable α :=
  entries.foldl (fun table entry => table.insert entry.1 entry.2) empty

end TokenTable

/-- The named values that a design reuses. A category may be missing. -/
structure Theme where
  colors : Option (TokenTable ColorToken)
  spacing : Option (TokenTable Float)
  borderRadius : Option (TokenTable Float)
  typography : Option (TokenTable Float)
  deriving DecidableEq

namespace Theme

def empty : Theme :=
  ⟨none, none, none, none⟩

def check (t : Theme) : Except MarkupError Unit :=
  (t.colors.getD .empty).entries.forM fun entry => do
    let _ ← entry.2.read

def color (t : Theme) (name : String) : Except MarkupError SchemeColor :=
  match (t.colors.getD .empty).find? name with
  | none => .error (.themeVariableNotFound "colors" name)
  | some token => token.read

def distance (category : String) (table : Option (TokenTable Float)) (name : String) :
    Except MarkupError Length :=
  match (table.getD .empty).find? name with
  | none => .error (.themeVariableNotFound category name)
  | some v => .ok (.px v)

def spacingOf (t : Theme) (name : String) : Except MarkupError Length :=
  distance "spacing" t.spacing name

def radiusOf (t : Theme) (name : String) : Except MarkupError Length :=
  distance "borderRadius" t.borderRadius name

def fontSizeOf (t : Theme) (name : String) : Except MarkupError Length :=
  distance "typography" t.typography name

def referenceMark : List Char :=
  "$theme.".toList

def isReference (s : String) : Bool :=
  referenceMark.isPrefixOf s.toList

/-- The category and the name of a reference. Neither may contain a full stop, and the name may
not be empty. -/
def splitReference? (s : String) : Option (String × String) :=
  if isReference s then
    match Text.fields (· == '.') (s.toList.drop referenceMark.length) with
    | [category, name] =>
      if name.isEmpty then none else some (String.ofList category, String.ofList name)
    | _ => none
  else none

def numberText? (table : Option (TokenTable Float)) (name : String) : Option String :=
  ((table.getD .empty).find? name).map Number.cssText

/-- The text that a reference stands for; a colour stands for its light value. -/
def resolve? (t : Theme) (reference : String) : Option String :=
  match splitReference? reference with
  | some ("colors", name) => (t.color name).toOption.map fun c => c.light.css
  | some ("spacing", name) => numberText? t.spacing name
  | some ("borderRadius", name) => numberText? t.borderRadius name
  | some ("typography", name) => numberText? t.typography name
  | _ => none

def resolveColor (t : Theme) (reference : String) : Except MarkupError SchemeColor :=
  match splitReference? reference with
  | some ("colors", name) => t.color name
  | _ => .error (.invalidThemeReference reference)

end Theme

end AtomicMarkup
