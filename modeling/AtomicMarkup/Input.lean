import AtomicMarkup.Color.Basic
import AtomicMarkup.Tag

/-!
Input elements. Each kind of input carries exactly the attributes that it can have, so that an
attribute on the wrong kind cannot be expressed.
-/

namespace AtomicMarkup

structure Date where
  year : UInt16
  month : UInt8
  day : UInt8
  deriving DecidableEq

namespace Date

/-- A date whose month and day are moved into the ranges 1 to 12 and 1 to 31. -/
def clamped (year : UInt16) (month day : UInt8) : Date :=
  ⟨year, max 1 (min 12 month), max 1 (min 31 day)⟩

def css (d : Date) : String :=
  Number.zeroPadded 4 d.year.toNat ++ "-" ++ Number.zeroPadded 2 d.month.toNat ++ "-" ++
    Number.zeroPadded 2 d.day.toNat

end Date

structure Time where
  hour : UInt8
  minute : UInt8
  deriving DecidableEq

namespace Time

def clamped (hour minute : UInt8) : Time :=
  ⟨min 23 hour, min 59 minute⟩

def css (t : Time) : String :=
  Number.zeroPadded 2 t.hour.toNat ++ ":" ++ Number.zeroPadded 2 t.minute.toNat

end Time

def dateTimeCss (moment : Date × Time) : String :=
  moment.1.css ++ "T" ++ moment.2.css

inductive InputKind where
  | text (placeholder : Option String) (maxLength : Option UInt32)
  | password (placeholder : Option String) (minLength : Option UInt32)
  | email (placeholder : Option String) (multiple : Bool)
  | search (placeholder : Option String)
  | url (placeholder : Option String)
  | tel (pattern : Option String)
  | number (min max step : Option Float)
  | range (min max : Float) (step : Option Float)
  | date (min max : Option Date)
  | time (min max : Option Time)
  | dateTimeLocal (min max : Option (Date × Time))
  | file (accept : List String) (multiple : Bool)
  | checkbox (checked : Bool)
  | radio (checked : Bool)
  | color (value : Option Color)
  | hidden (value : String)
  | submit (label : Option String)
  deriving DecidableEq

namespace InputKind

def typeName : InputKind → String
  | text .. => "text"
  | password .. => "password"
  | email .. => "email"
  | search .. => "search"
  | url .. => "url"
  | tel .. => "tel"
  | number .. => "number"
  | range .. => "range"
  | date .. => "date"
  | time .. => "time"
  | dateTimeLocal .. => "datetime-local"
  | file .. => "file"
  | checkbox .. => "checkbox"
  | radio .. => "radio"
  | color .. => "color"
  | hidden .. => "hidden"
  | submit .. => "submit"

/-- A colour as a colour input takes it: its channels alone. -/
def colorValue? (c : Color) : Option String :=
  c.channels?.map fun (channels, _) => Color.hexCss channels

def attributes : InputKind → List (String × Option AttributeValue)
  | text placeholder maxLength =>
    [("placeholder", placeholder.map .text),
      ("maxlength", maxLength.map fun n => .text (Number.decimal n.toNat))]
  | password placeholder minLength =>
    [("placeholder", placeholder.map .text),
      ("minlength", minLength.map fun n => .text (Number.decimal n.toNat))]
  | email placeholder multiple =>
    [("placeholder", placeholder.map .text), ("multiple", flagWhen multiple)]
  | search placeholder => [("placeholder", placeholder.map .text)]
  | url placeholder => [("placeholder", placeholder.map .text)]
  | tel pattern => [("pattern", pattern.map .text)]
  | number min max step => [("min", bound min), ("max", bound max), ("step", bound step)]
  | range min max step =>
    [("min", bound (some min)), ("max", bound (some max)), ("step", bound step)]
  | date min max =>
    [("min", min.map fun d => .text d.css), ("max", max.map fun d => .text d.css)]
  | time min max =>
    [("min", min.map fun t => .text t.css), ("max", max.map fun t => .text t.css)]
  | dateTimeLocal min max =>
    [("min", min.map fun m => .text (dateTimeCss m)),
      ("max", max.map fun m => .text (dateTimeCss m))]
  | file accept multiple =>
    [("accept", if accept.isEmpty then none else some (.text (",".intercalate accept))),
      ("multiple", flagWhen multiple)]
  | checkbox checked => [("checked", flagWhen checked)]
  | radio checked => [("checked", flagWhen checked)]
  | color value => [("value", (value.bind colorValue?).map .text)]
  | hidden value => [("value", some (.text value))]
  | submit label => [("value", label.map .text)]
where
  flagWhen (on : Bool) : Option AttributeValue := if on then some .flag else none
  bound (v : Option Float) : Option AttributeValue := v.map fun x => .text (Number.cssText x)

def element (name : String) (kind : InputKind) : Element :=
  kind.attributes.foldl
    (fun e (key, value) => match value with
      | none => e
      | some v => e.set key v)
    (((Element.bare "input").setText "type" kind.typeName).setText "name" name)

end InputKind

end AtomicMarkup
