import AtomicMarkup.Data.Styles
import AtomicMarkup.Input

/-!
The data of inputs. A kind of input is a structure whose `type` member names the kind; a list
begins with that name.
-/

namespace AtomicMarkup

instance : DataForm Date where
  toData d := .record [("year", toData d.year), ("month", toData d.month), ("day", toData d.day)]
  ofData? d := do
    let m ← Members.ofData? ["year", "month", "day"] d
    return ⟨← m.required "year", ← m.required "month", ← m.required "day"⟩

instance : DataForm Time where
  toData t := .record [("hour", toData t.hour), ("minute", toData t.minute)]
  ofData? d := do
    let m ← Members.ofData? ["hour", "minute"] d
    return ⟨← m.required "hour", ← m.required "minute"⟩

namespace InputKind

/-- The name of the kind, and the data of its own fields. -/
def splitTag? : Data → Option (String × Data)
  | .record values => do
    let .text kind ← values.lookup "type" | none
    return (kind, .record values)
  | .list (.text kind :: rest) => some (kind, .list rest)
  | _ => none

def ofFields? (kind : String) (d : Data) : Option InputKind :=
  match kind with
  | "text" => do
    let m ← Members.ofData? ["placeholder", "max_length"] d
    return .text (← m.optional "placeholder") (← m.optional "max_length")
  | "password" => do
    let m ← Members.ofData? ["placeholder", "min_length"] d
    return .password (← m.optional "placeholder") (← m.optional "min_length")
  | "email" => do
    let m ← Members.ofData? ["placeholder", "multiple"] d
    return .email (← m.optional "placeholder") (← m.required "multiple")
  | "search" => do
    let m ← Members.ofData? ["placeholder"] d
    return .search (← m.optional "placeholder")
  | "url" => do
    let m ← Members.ofData? ["placeholder"] d
    return .url (← m.optional "placeholder")
  | "tel" => do
    let m ← Members.ofData? ["pattern"] d
    return .tel (← m.optional "pattern")
  | "number" => do
    let m ← Members.ofData? ["min", "max", "step"] d
    return .number (← m.optional "min") (← m.optional "max") (← m.optional "step")
  | "range" => do
    let m ← Members.ofData? ["min", "max", "step"] d
    return .range (← m.required "min") (← m.required "max") (← m.optional "step")
  | "date" => do
    let m ← Members.ofData? ["min", "max"] d
    return .date (← m.optional "min") (← m.optional "max")
  | "time" => do
    let m ← Members.ofData? ["min", "max"] d
    return .time (← m.optional "min") (← m.optional "max")
  | "dateTimeLocal" => do
    let m ← Members.ofData? ["min", "max"] d
    return .dateTimeLocal (← m.optional "min") (← m.optional "max")
  | "file" => do
    let m ← Members.ofData? ["accept", "multiple"] d
    return .file (← m.required "accept") (← m.required "multiple")
  | "checkbox" => do
    let m ← Members.ofData? ["checked"] d
    return .checkbox (← m.required "checked")
  | "radio" => do
    let m ← Members.ofData? ["checked"] d
    return .radio (← m.required "checked")
  | "color" => do
    let m ← Members.ofData? ["value"] d
    return .color (← m.optional "value")
  | "hidden" => do
    let m ← Members.ofData? ["value"] d
    return .hidden (← m.required "value")
  | "submit" => do
    let m ← Members.ofData? ["label"] d
    return .submit (← m.optional "label")
  | _ => none

def fields : InputKind → String × List (String × Data)
  | text placeholder maxLength =>
    ("text", [("placeholder", toData placeholder), ("max_length", toData maxLength)])
  | password placeholder minLength =>
    ("password", [("placeholder", toData placeholder), ("min_length", toData minLength)])
  | email placeholder multiple =>
    ("email", [("placeholder", toData placeholder), ("multiple", toData multiple)])
  | search placeholder => ("search", [("placeholder", toData placeholder)])
  | url placeholder => ("url", [("placeholder", toData placeholder)])
  | tel pattern => ("tel", [("pattern", toData pattern)])
  | number min max step =>
    ("number", [("min", toData min), ("max", toData max), ("step", toData step)])
  | range min max step =>
    ("range", [("min", toData min), ("max", toData max), ("step", toData step)])
  | date min max => ("date", [("min", toData min), ("max", toData max)])
  | time min max => ("time", [("min", toData min), ("max", toData max)])
  | dateTimeLocal min max => ("dateTimeLocal", [("min", toData min), ("max", toData max)])
  | file accept multiple =>
    ("file", [("accept", toData accept), ("multiple", toData multiple)])
  | checkbox checked => ("checkbox", [("checked", toData checked)])
  | radio checked => ("radio", [("checked", toData checked)])
  | color value => ("color", [("value", toData value)])
  | hidden value => ("hidden", [("value", toData value)])
  | submit label => ("submit", [("label", toData label)])

end InputKind

instance : DataForm InputKind where
  toData kind := .record (("type", .text kind.fields.1) :: kind.fields.2)
  ofData? d := do
    let (kind, rest) ← InputKind.splitTag? d
    InputKind.ofFields? kind rest

end AtomicMarkup
