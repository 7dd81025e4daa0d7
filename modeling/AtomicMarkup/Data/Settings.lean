import AtomicMarkup.Data.Styles
import AtomicMarkup.Options
import AtomicMarkup.Theme

/-!
The data of settings: rendering options and themes. Every option has a standard value, and every
category of a theme may be missing.
-/

namespace AtomicMarkup

def Layout.isIndented : Layout → Bool
  | compact => false
  | indented => true

def Layout.ofIndented (on : Bool) : Layout :=
  if on then indented else compact

instance : DataForm RenderOptions where
  toData o :=
    .ofFields [("pretty", some (.bool o.layout.isIndented)),
      ("classNaming", some (toData o.naming)), ("classPrefix", o.classPrefix.map toData),
      ("doctype", some (.bool o.doctype))]
  ofData? d := do
    let m ← Members.ofData? ["pretty", "classNaming", "classPrefix", "doctype"] d
    let pretty ← m.defaulted "pretty" RenderOptions.standard.layout.isIndented
    return ⟨.ofIndented pretty, ← m.defaulted "classNaming" RenderOptions.standard.naming,
      ← m.defaulted "classPrefix" RenderOptions.standard.classPrefix,
      ← m.defaulted "doctype" RenderOptions.standard.doctype⟩

/-- A token is one text, or a record of one text for each scheme. -/
instance : DataForm ColorToken where
  toData
    | .single value => .text value
    | .pair light dark => .ofFields [("light", some (.text light)), ("dark", dark.map toData)]
  ofData?
    | .text value => some (.single value)
    | .record values => do
      let m : Members := ⟨values, false⟩
      return .pair (← m.required "light") (← m.defaulted "dark" none)
    | _ => none

instance {α : Type} [DataForm α] : DataForm (TokenTable α) where
  toData table := .record (table.entries.map fun (name, value) => (name, toData value))
  ofData?
    | .record values => do
      let entries ← values.mapM fun (name, d) => do return (name, ← ofData? d)
      return .ofEntries entries
    | _ => none

instance : DataForm Theme where
  toData t :=
    .ofFields [("colors", t.colors.map toData), ("spacing", t.spacing.map toData),
      ("borderRadius", t.borderRadius.map toData), ("typography", t.typography.map toData)]
  ofData? d := do
    let m ← Members.ofData? ["colors", "spacing", "borderRadius", "typography"] d
    return ⟨← m.optional "colors", ← m.optional "spacing", ← m.optional "borderRadius",
      ← m.optional "typography"⟩

end AtomicMarkup
