import AtomicMarkup.Options
import AtomicMarkup.Theme
import AtomicMarkup.Yaml.Plain

/-!
Settings from YAML: rendering options and themes. A document without content stands for the
standard options and for the empty theme. Where a text is expected, every scalar is taken as it is
spelled; a colour token has to be text by its meaning.
-/

namespace AtomicMarkup

namespace Yaml

def spelling? : Yaml → Option String
  | scalar _ text => some text
  | _ => none

def isNothing : Yaml → Bool
  | scalar true text => isNull text
  | _ => false

def optional? {α : Type} (read : Yaml → Option α) (y : Yaml) : Option (Option α) :=
  if y.isNothing then some none else (read y).map some

def bool? : Yaml → Option Bool
  | scalar true text => truth? text
  | _ => none

def float? : Yaml → Option Float
  | scalar true text => number? text
  | _ => none

def keyword? {α : Type} [Keyword α] (y : Yaml) : Option α :=
  y.spelling?.bind Keyword.ofWord?

def entries? : Yaml → Option (List (String × Yaml))
  | mapping entries => entries.mapM fun (key, value) => key.spelling?.map fun k => (k, value)
  | scalar true "" => some []
  | _ => none

/-- The entries of a structure, whose fields may each be given once. Other entries do not
matter. -/
def fields? (names : List String) (y : Yaml) : Option (List (String × Yaml)) := do
  let entries ← y.entries?
  if names.all (fun name => entries.countP (fun entry => entry.1 == name) ≤ 1) then
    return entries
  else none

def fieldOr? {α : Type} (fields : List (String × Yaml)) (name : String) (default : α)
    (read : Yaml → Option α) : Option α :=
  match fields.lookup name with
  | none => some default
  | some y => read y

def table? {α : Type} (read : Yaml → Option α) (y : Yaml) : Option (TokenTable α) := do
  let entries ← y.entries?
  let values ← entries.mapM fun (name, value) => (read value).map fun v => (name, v)
  return .ofEntries values

def text? : Yaml → Option String
  | scalar plain text => if plain && !isText text then none else some text
  | _ => none

/-- The field of a colour pair that a key names, by its text or by its place. Other texts and
places name no field. -/
def pairField? (key : Yaml) : Option String :=
  match key.text? with
  | some name => some name
  | none =>
    match key.spelling?.bind integer? with
    | some 0 => some "light"
    | some 1 => some "dark"
    | some n => if 0 ≤ n && n < UInt64.size then some "" else none
    | none => none

def colorToken? : Yaml → Option ColorToken
  | mapping entries => do
    let named ← entries.mapM fun (key, value) => (pairField? key).map fun k => (k, value)
    let fields ← fields? ["light", "dark"] (mapping (named.map fun (k, v) => (scalar false k, v)))
    let light ← (fields.lookup "light").bind text?
    let dark ← fieldOr? fields "dark" none (optional? text?)
    return .pair light dark
  | y => y.text?.map .single

def renderOptions? (y : Yaml) : Option RenderOptions := do
  let standard := RenderOptions.standard
  let fields ← y.fields? ["pretty", "classNaming", "classPrefix", "doctype"]
  let layout ← fieldOr? fields "pretty" standard.layout fun value =>
    value.bool?.map fun pretty => if pretty then .indented else .compact
  return ⟨layout, ← fieldOr? fields "classNaming" standard.naming keyword?,
    ← fieldOr? fields "classPrefix" standard.classPrefix (optional? spelling?),
    ← fieldOr? fields "doctype" standard.doctype bool?⟩

def theme? (y : Yaml) : Option Theme := do
  let fields ← y.fields? ["colors", "spacing", "borderRadius", "typography"]
  return ⟨← fieldOr? fields "colors" none (optional? (table? colorToken?)),
    ← fieldOr? fields "spacing" none (optional? (table? float?)),
    ← fieldOr? fields "borderRadius" none (optional? (table? float?)),
    ← fieldOr? fields "typography" none (optional? (table? float?))⟩

end Yaml

/-- Reads rendering options and checks them. A text of blanks stands for the standard ones. -/
def RenderOptions.ofYaml (s : String) : Except MarkupError RenderOptions :=
  if Text.allBlank s then .ok .standard
  else match (Yaml.read? s).bind Yaml.renderOptions? with
    | none => .error .malformedData
    | some options => do
      options.check
      return options

def Theme.ofYaml (s : String) : Except MarkupError Theme :=
  match (Yaml.read? s).bind Yaml.theme? with
  | none => .error .malformedData
  | some theme => do
    theme.check
    return theme

end AtomicMarkup
