import AtomicMarkup.Data.Basic
import AtomicMarkup.Style.Property

/-!
The data of styles: keywords by their word, lengths and colours by their kind, and the structures
that are built from them. Reading does not check or clamp; the data may hold what no constructor
would make.
-/

namespace AtomicMarkup

def Keyword.ofData? {α : Type} [Keyword α] (d : Data) : Option α :=
  match d.variant? with
  | some (word, .null) => Keyword.ofWord? word
  | _ => none

instance {α : Type} [Keyword α] : DataForm α where
  toData value := .text (Keyword.word value)
  ofData? := Keyword.ofData?

instance : DataForm Length where
  toData
    | .zero => .text "zero"
    | .auto => .text "auto"
    | .px v => .variant "px" (.float v)
    | .rem v => .variant "rem" (.float v)
    | .em v => .variant "em" (.float v)
    | .percent v => .variant "percent" (.float v)
    | .vw v => .variant "vw" (.float v)
    | .vh v => .variant "vh" (.float v)
  ofData? d :=
    match d.variant? with
    | some ("zero", .null) => some .zero
    | some ("auto", .null) => some .auto
    | some ("px", v) => (ofData? v).map .px
    | some ("rem", v) => (ofData? v).map .rem
    | some ("em", v) => (ofData? v).map .em
    | some ("percent", v) => (ofData? v).map .percent
    | some ("vw", v) => (ofData? v).map .vw
    | some ("vh", v) => (ofData? v).map .vh
    | _ => none

instance : DataForm Color where
  toData
    | .rgb c => .variant "rgb" (.list [toData c.red, toData c.green, toData c.blue])
    | .rgba c a =>
      .variant "rgba" (.list [toData c.red, toData c.green, toData c.blue, .float a])
    | .named n => .variant "named" (toData n)
    | .transparent => .text "transparent"
    | .currentColor => .text "currentColor"
  ofData? d :=
    match d.variant? with
    | some ("rgb", .list [r, g, b]) => do
      return .rgb ⟨← ofData? r, ← ofData? g, ← ofData? b⟩
    | some ("rgba", .list [r, g, b, a]) => do
      return .rgba ⟨← ofData? r, ← ofData? g, ← ofData? b⟩ (← ofData? a)
    | some ("named", n) => (ofData? n).map .named
    | some ("transparent", .null) => some .transparent
    | some ("currentColor", .null) => some .currentColor
    | _ => none

instance : DataForm SchemeColor where
  toData c := .ofFields [("light", some (toData c.light)), ("dark", c.dark.map toData)]
  ofData? d := do
    let m ← Members.ofData? ["light", "dark"] d
    return ⟨← m.required "light", ← m.defaulted "dark" none⟩

instance : DataForm MediaCondition where
  toData
    | .screen => .text "screen"
    | .print => .text "print"
    | .minWidth w => .variant "min-width" (toData w)
    | .maxWidth w => .variant "max-width" (toData w)
    | .prefersColorScheme s => .variant "prefers-color-scheme" (toData s)
    | .prefersReducedMotion => .text "prefers-reduced-motion"
    | .noMotionPreference => .text "no-motion-preference"
    | .orientation o => .variant "orientation" (toData o)
  ofData? d :=
    match d.variant? with
    | some ("screen", .null) => some .screen
    | some ("print", .null) => some .print
    | some ("min-width", w) => (ofData? w).map .minWidth
    | some ("max-width", w) => (ofData? w).map .maxWidth
    | some ("prefers-color-scheme", s) => (ofData? s).map .prefersColorScheme
    | some ("prefers-reduced-motion", .null) => some .prefersReducedMotion
    | some ("no-motion-preference", .null) => some .noMotionPreference
    | some ("orientation", o) => (ofData? o).map .orientation
    | _ => none

instance : DataForm MediaQuery where
  toData q := .record [("conditions", toData q.conditions)]
  ofData? d := do
    let m ← Members.ofData? ["conditions"] d
    return ⟨← m.required "conditions"⟩

instance : DataForm Selector where
  toData
    | .descendant t => .variant "descendant" (.text t)
    | .child t => .variant "child" (.text t)
    | .adjacent t => .variant "adjacent" (.text t)
    | .within t => .variant "within" (.text t)
  ofData? d :=
    match d.variant? with
    | some ("descendant", t) => (ofData? t).map .descendant
    | some ("child", t) => (ofData? t).map .child
    | some ("adjacent", t) => (ofData? t).map .adjacent
    | some ("within", t) => (ofData? t).map .within
    | _ => none

instance : DataForm Declaration where
  toData d :=
    .ofFields [("property", some (.text d.property)), ("value", some (.text d.value)),
      ("media", d.media.map toData), ("selector", d.selector.map toData),
      ("pseudo", d.pseudo.map toData)]
  ofData? d := do
    let m ← Members.ofData? ["property", "value", "media", "selector", "pseudo"] d
    return ⟨← m.required "property", ← m.required "value", ← m.defaulted "media" none,
      ← m.defaulted "selector" none, ← m.defaulted "pseudo" none⟩

instance : DataForm Sides where
  toData s :=
    .record [("top", toData s.top), ("right", toData s.right), ("bottom", toData s.bottom),
      ("left", toData s.left)]
  ofData? d := do
    let m ← Members.ofData? ["top", "right", "bottom", "left"] d
    return ⟨← m.optional "top", ← m.optional "right", ← m.optional "bottom",
      ← m.optional "left"⟩

instance : DataForm Border where
  toData b :=
    .record [("width", toData b.width), ("style", toData b.style), ("color", toData b.color),
      ("side", toData b.side)]
  ofData? d := do
    let m ← Members.ofData? ["width", "style", "color", "side"] d
    return ⟨← m.optional "width", ← m.optional "style", ← m.optional "color",
      ← m.optional "side"⟩

instance : DataForm CustomProperty where
  toData c := .record [("name", .text c.name), ("value", .text c.value)]
  ofData? d := do
    let m ← Members.ofData? ["name", "value"] d
    return ⟨← m.required "name", ← m.required "value"⟩

instance : DataForm FontWeight where
  toData
    | .number n => toData n
    | .named n => toData n
  ofData? d := ((ofData? d).map .number).or ((ofData? d).map .named)

instance : DataForm FontFamily where
  toData
    | .sansSerif => .text "sans-serif"
    | .serif => .text "serif"
    | .monospace => .text "monospace"
    | .systemUi => .text "system-ui"
    | .family name => .variant "family" (.text name)
  ofData? d :=
    match d.variant? with
    | some ("sans-serif", .null) => some .sansSerif
    | some ("serif", .null) => some .serif
    | some ("monospace", .null) => some .monospace
    | some ("system-ui", .null) => some .systemUi
    | some ("family", name) => (ofData? name).map .family
    | _ => none

end AtomicMarkup
