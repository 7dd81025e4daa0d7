import AtomicMarkup.Proofs.ColorText
import AtomicMarkup.Proofs.Css.Writer
import AtomicMarkup.Proofs.CustomRules
import AtomicMarkup.Proofs.QueryGrammar
import AtomicMarkup.Proofs.Validity

/-!
Rules of typed properties, one behind the other, read as stylesheet text. Lengths, numbers, colours
and keywords open nothing, so that all depends on the targets: the rules are read one by one as
they were written just when no accepted target leaves a string or a bracket open.
-/

namespace AtomicMarkup

open Css

namespace Css

/-- A number of rules, with their selectors and blocks, and what stands behind them. -/
def readRules? : Nat → List Char → Option (List (List Char × List Char) × List Char)
  | 0, cs => some ([], cs)
  | n + 1, cs => do
    let (selector, block, rest) ← readRule? cs
    let (rules, behind) ← readRules? n rest
    return ((selector, block) :: rules, behind)

theorem readRules?_succ_iff {selector block middle rest : List Char}
    {rules : List (List Char × List Char)} {n : Nat} :
    readRules? (n + 1) (selector ++ '\x7b' :: (block ++ '\x7d' :: middle)) =
        some ((selector, block) :: rules, rest) ↔
      readRule? (selector ++ '\x7b' :: (block ++ '\x7d' :: middle)) =
          some (selector, block, middle) ∧ readRules? n middle = some (rules, rest) := by
  constructor
  · intro read
    simp only [readRules?, Option.bind_eq_bind, Option.bind_eq_some_iff] at read
    obtain ⟨⟨front, inner, behind⟩, first, ⟨others, last⟩, later, eq⟩ := read
    obtain ⟨⟨⟨rfl, rfl⟩, rfl⟩, rfl⟩ :
        ((front = selector ∧ inner = block) ∧ others = rules) ∧ last = rest := by
      simpa using eq
    obtain rfl : middle = behind := by
      simpa using (exists_of_readRule? first).1
    exact ⟨first, later⟩
  · rintro ⟨first, later⟩
    simp [readRules?, first, later]

end Css

/-- A text that opens nothing, does not end its block, and is written as it stands. -/
structure InBlock (s : String) : Prop where
  neutral : Place.Neutral s.toList
  noBrace : '\x7d' ∉ s.toList
  noAngle : '<' ∉ s.toList

namespace InBlock

def isPlain (c : Char) : Bool :=
  isOrdinary c && c != '<'

theorem of_plain {s : String} (plain : s.toList.all isPlain = true) : InBlock s where
  neutral := Place.neutral_of_ordinary (List.all_eq_true.mpr fun c member =>
    (Bool.and_eq_true_iff.mp (List.all_eq_true.mp plain c member)).1)
  noBrace := not_mem_of_forall (List.all_eq_true.mp plain) rfl
  noAngle := not_mem_of_forall (List.all_eq_true.mp plain) rfl

theorem of_chars {allowed : Char → Bool} (none : ('<' :: special).all (fun d => !allowed d) = true)
    {s : String} (each : ∀ c ∈ s.toList, allowed c = true) : InBlock s := by
  obtain ⟨angle, others⟩ := Bool.and_eq_true_iff.mp none
  refine of_plain (List.all_eq_true.mpr fun c member => ?_)
  rw [isPlain, isOrdinary_of others (each c member), Bool.true_and, bne_iff_ne]
  rintro rfl
  have refused : allowed '<' = false := by simpa using angle
  rw [each _ member] at refused
  contradiction

theorem append {front back : String} (first : InBlock front) (second : InBlock back) :
    InBlock (front ++ back) where
  neutral := by
    rw [String.toList_append]
    exact first.neutral.append second.neutral
  noBrace := by simp [first.noBrace, second.noBrace]
  noAngle := by simp [first.noAngle, second.noAngle]

theorem intercalate {separator : String} (between : InBlock separator) {texts : List String}
    (each : ∀ text ∈ texts, InBlock text) : InBlock (separator.intercalate texts) := by
  induction texts with
  | nil => exact of_plain rfl
  | cons first rest ih =>
    obtain ⟨one, others⟩ := List.forall_mem_cons.mp each
    cases rest with
    | nil => exact one
    | cons second rest =>
      rw [String.intercalate_cons_cons]
      exact (one.append between).append (ih others)

theorem parenthesized {s : String} (inside : InBlock s) : InBlock ("(" ++ s ++ ")") where
  neutral := by
    rw [String.toList_append, String.toList_append]
    exact inside.neutral.parenthesized
  noBrace := by simp [inside.noBrace]
  noAngle := by simp [inside.noAngle]

theorem numeral {s : String} (digits : ∀ c ∈ s.toList, Number.isNumeralChar c = true) :
    InBlock s :=
  of_chars (by decide) digits

theorem decimal (n : Nat) : InBlock (Number.decimal n) :=
  numeral fun _ => Number.isNumeralChar_of_mem_decimal

theorem cssText (v : Float) : InBlock (Number.cssText v) :=
  numeral fun _ => Number.isNumeralChar_of_mem_cssText

theorem length (w : Length) : InBlock w.css :=
  of_chars (by decide) fun _ => Length.isValueChar_of_mem_css

theorem isPlain_of_mem_hexByte {b : UInt8} {c : Char} (member : c ∈ Number.hexByte b) :
    isPlain c = true := by
  have each : ∀ d < 16, isPlain (Number.digit d) = true := by decide
  have bound := b.toNat_lt
  simp only [Number.hexByte, List.mem_cons, List.not_mem_nil, or_false] at member
  obtain rfl | rfl := member
  · exact each _ (by omega)
  · exact each _ (by omega)

theorem color (c : Color) : InBlock c.css := by
  obtain ⟨channels, rfl⟩ | ⟨channels, alpha, rfl⟩ | word := c.forms
  · refine of_plain ?_
    rw [Color.css, Color.toList_hexCss, List.all_cons, List.all_append, List.all_append,
      List.all_eq_true.mpr fun _ => isPlain_of_mem_hexByte,
      List.all_eq_true.mpr fun _ => isPlain_of_mem_hexByte,
      List.all_eq_true.mpr fun _ => isPlain_of_mem_hexByte]
    rfl
  · have comma : InBlock "," := of_plain rfl
    have parts := comma.intercalate (List.forall_mem_cons.mpr
      ⟨decimal channels.red.toNat, List.forall_mem_cons.mpr ⟨decimal channels.green.toNat,
        List.forall_mem_cons.mpr ⟨decimal channels.blue.toNat,
          List.forall_mem_singleton.mpr (cssText alpha)⟩⟩⟩)
    have word : InBlock "rgba" := of_plain (by decide)
    have text (s : String) : "rgba(" ++ s ++ ")" = "rgba" ++ ("(" ++ s ++ ")") := by
      rw [← String.append_assoc, ← String.append_assoc]
      rfl
    rw [Color.css, text]
    exact word.append parts.parenthesized
  · have plain : ∀ c ∈ Color.words, c.css.toList.all isPlain = true := by decide +kernel
    exact of_plain (plain c word)

end InBlock

/-- A property whose value is made of lengths, numbers, colours and keywords. -/
def Property.IsTyped : Property → Prop
  | .custom _ => False
  | .fontFamily stack => ∀ name, .family name ∉ stack
  | _ => True

structure Declaration.StaysIn (scope : Scope) (d : Declaration) : Prop where
  property : InBlock d.property
  value : InBlock d.value
  declared : ∃ inner : Scope, inner.selector = scope.selector ∧
    d = inner.declare d.property d.value

theorem Scope.staysIn_declare (scope : Scope) {property value : String}
    (first : InBlock property) (second : InBlock value) :
    (scope.declare property value).StaysIn scope :=
  ⟨first, second, scope, rfl, rfl⟩

theorem Scope.staysIn_darkened (scope : Scope) {property value : String}
    (first : InBlock property) (second : InBlock value) :
    (scope.darkened.declare property value).StaysIn scope :=
  ⟨first, second, scope.darkened, rfl, rfl⟩

theorem SchemeColor.staysIn_declarations {property : String} (named : InBlock property)
    (c : SchemeColor) (scope : Scope) : ∀ d ∈ c.declarations property scope, d.StaysIn scope := by
  intro d member
  obtain ⟨color, rfl | rfl⟩ := exists_of_mem_declarations member
  · exact scope.staysIn_declare named (.color _)
  · exact scope.staysIn_darkened named (.color _)

theorem Sides.staysIn_declarations {property : String} (named : InBlock property) (s : Sides)
    (scope : Scope) : ∀ d ∈ s.declarations property scope, d.StaysIn scope := by
  have sides : ∀ side ∈ ["top", "right", "bottom", "left"],
      side.toList.all InBlock.isPlain = true := by decide
  intro d member
  obtain ⟨lengths, rfl⟩ | ⟨side, known, l, rfl⟩ := exists_of_mem_declarations member
  · refine scope.staysIn_declare named (.intercalate (.of_plain rfl) ?_)
    exact List.forall_mem_map.mpr fun l _ => .length l
  · exact scope.staysIn_declare
      ((named.append (.of_plain rfl)).append (.of_plain (sides side known))) (.length l)

theorem Border.staysIn_declarations (b : Border) (scope : Scope) :
    ∀ d ∈ b.declarations scope, d.StaysIn scope := by
  have property : InBlock b.property := by
    unfold Border.property
    cases b.side with
    | none => exact .of_plain (by decide)
    | some side => cases side <;> exact .of_plain (by decide)
  have parts : ∀ text ∈ b.parts scope, InBlock text := by
    intro text member
    obtain ⟨part, inside, same⟩ := List.mem_filterMap.mp member
    obtain rfl : part = some text := same
    simp only [List.mem_cons, List.not_mem_nil, or_false, eq_comm (a := some text),
      Option.map_eq_some_iff] at inside
    obtain ⟨width, -, rfl⟩ | ⟨style, -, rfl⟩ | ⟨color, -, rfl⟩ := inside
    · exact .length width
    · cases style <;> exact .of_plain (by decide)
    · exact .color color
  intro d member
  obtain rfl | ⟨color, rfl⟩ := exists_of_mem_declarations member
  · exact scope.staysIn_declare property (.intercalate (.of_plain rfl) parts)
  · exact scope.staysIn_darkened (property.append (.of_plain rfl)) (.color _)

theorem Property.IsTyped.staysIn_declarations {p : Property} (typed : p.IsTyped) (scope : Scope) :
    ∀ d ∈ p.declarations scope, d.StaysIn scope := by
  cases p with
  | length property value =>
    refine List.forall_mem_singleton.mpr (scope.staysIn_declare (.of_plain ?_) (.length value))
    cases property <;> decide
  | zIndex n =>
    refine List.forall_mem_singleton.mpr (scope.staysIn_declare (.of_plain rfl) ?_)
    unfold Number.signedDecimal
    split
    · exact .append (.of_plain rfl) (.decimal _)
    · exact .decimal _
  | fontWeight value =>
    refine List.forall_mem_singleton.mpr (scope.staysIn_declare (.of_plain rfl) ?_)
    cases value with
    | number n => exact .decimal _
    | named name => cases name <;> exact .of_plain (by decide)
  | opacity value =>
    exact List.forall_mem_singleton.mpr (scope.staysIn_declare (.of_plain rfl) (.cssText _))
  | fontFamily stack =>
    have each : ∀ text ∈ stack.map FontFamily.css, InBlock text := by
      refine List.forall_mem_map.mpr fun f member => ?_
      cases f with
      | family name => exact absurd member (typed name)
      | _ => exact .of_plain (by decide)
    cases stack with
    | nil => nofun
    | cons first rest =>
      exact List.forall_mem_singleton.mpr
        (scope.staysIn_declare (.of_plain rfl) (.intercalate (.of_plain rfl) each))
  | color property value =>
    refine value.staysIn_declarations (.of_plain ?_) scope
    cases property <;> decide
  | margin sides => exact sides.staysIn_declarations (.of_plain rfl) scope
  | padding sides => exact sides.staysIn_declarations (.of_plain rfl) scope
  | border value => exact value.staysIn_declarations scope
  | custom property => exact typed.elim
  | display value | position value | textAlign value | textTransform value | textDecoration value
    | overflow value | cursor value | flexDirection value | flexWrap value | justifyContent value
    | alignItems value =>
    refine List.forall_mem_singleton.mpr (scope.staysIn_declare (.of_plain rfl) (.of_plain ?_))
    cases value <;> decide +kernel

/-- What a rule is written for: a declaration of a typed property that is accepted on some element,
and a class. -/
structure TypedRule where
  className : String
  tag : String
  scope : Scope
  property : Property
  declaration : Declaration
  named : Text.NameRule.classPrefix.accepts className = true
  typed : property.IsTyped
  emitted : declaration ∈ property.declarations scope
  checked : checkStyle tag declaration = .ok ()

namespace TypedRule

variable (r : TypedRule) (layout : Layout)

def rule : Rule :=
  .ofClass r.className r.declaration layout

def css : String :=
  (r.rule layout).css (if r.declaration.media.isSome then "  " else "") layout

def head : List Char :=
  margin layout r.declaration.media ++ ((r.rule layout).selector.toList ++ gap layout)

def block : List Char :=
  pairsText layout r.declaration.media (r.rule layout).declarations

/-- The target of the rule, if there is one, leaves no string or bracket open. -/
def HasWholeTarget : Prop :=
  ∀ s ∈ r.scope.selector, IsWhole s.target.toList

theorem staysIn : r.declaration.StaysIn r.scope :=
  r.typed.staysIn_declarations r.scope r.declaration r.emitted

theorem newline_append_css (rest : List Char) :
    newline layout ++ ((r.css layout).toList ++ rest) =
      r.head layout ++ '\x7b' :: (r.block layout ++ '\x7d' :: (newline layout ++ rest)) := by
  have text : newline layout ++ (r.css layout).toList =
      r.head layout ++ '\x7b' :: (r.block layout ++ '\x7d' :: newline layout) :=
    Css.newline_append_css layout (r.rule layout)
  rw [← List.append_assoc, text, List.append_assoc, List.cons_append, List.append_assoc,
    List.cons_append]

theorem run_margin (media : Option String) :
    Place.start.run (margin layout media) = Place.start ∧
      Place.start.run (margin layout media ++ indentation layout) = Place.start := by
  cases layout <;> cases media <;> exact ⟨rfl, rfl⟩

theorem neutral_gap : Place.Neutral (gap layout) := by
  cases layout <;> exact Place.neutral_of_ordinary rfl

theorem targets_accepted :
    ∀ s ∈ r.scope.selector, Text.NameRule.selectorTarget.accepts s.target = true := by
  obtain ⟨inner, kept, declared⟩ := r.staysIn.declared
  have checked := checkStyle_eq_ok_iff.mp r.checked
  rw [declared] at checked
  exact kept ▸ checked

theorem selector_tokens : '\x7b' ∉ (r.rule layout).selector.toList ∧
    (Place.start.run (r.rule layout).selector.toList).Plain ∧
    (IsWhole (r.rule layout).selector.toList ↔ r.HasWholeTarget) := by
  obtain ⟨inner, kept, declared⟩ := r.staysIn.declared
  have targets : ∀ s ∈ inner.selector, Text.NameRule.selectorTarget.accepts s.target = true :=
    kept ▸ r.targets_accepted
  have plain := Rule.selector_plain r.named targets r.declaration.property r.declaration.value
    layout
  have tokens := Rule.selector_tokens r.named targets r.declaration.property r.declaration.value
    layout
  rw [← declared] at plain tokens
  rw [kept] at tokens
  exact ⟨plain.1, plain.2, tokens.2⟩

theorem head_tokens : '\x7b' ∉ r.head layout ∧ (IsWhole (r.head layout) ↔ r.HasWholeTarget) := by
  obtain ⟨noBrace, plain, whole⟩ := r.selector_tokens layout
  constructor
  · have space : '\x7b' ∉ margin layout r.declaration.media ++ indentation layout :=
      not_mem_margin (by decide) (by decide) layout r.declaration.media
    have behind : '\x7b' ∉ gap layout := not_mem_gap (by decide) layout
    rw [List.mem_append, not_or] at space
    simp [head, space.1, noBrace, behind]
  · rw [← whole, IsWhole, head, Place.run_append, (run_margin layout _).1, Place.run_append,
      neutral_gap layout _ plain, IsWhole]

theorem block_tokens : '\x7d' ∉ r.block layout ∧ IsWhole (r.block layout) := by
  obtain ⟨property, value, -⟩ := r.staysIn
  have pairs : (r.rule layout).declarations = [(r.declaration.property, r.declaration.value)] := by
    rw [rule, Rule.ofClass, Text.escapeStyle_of_not_mem property.noAngle,
      Text.escapeStyle_of_not_mem value.noAngle]
  have colon : Place.Neutral [':'] := Place.neutral_of_ordinary rfl
  have neutral : Place.Neutral
      (pairText layout (r.declaration.property, r.declaration.value)) :=
    property.neutral.append (colon.append ((neutral_gap layout).append value.neutral))
  have noBrace : '\x7d' ∉ pairText layout (r.declaration.property, r.declaration.value) :=
    not_mem_pairText (by decide) (by decide) layout property.noBrace value.noBrace
  rw [block, pairs]
  cases layout with
  | compact =>
    rw [pairsText, List.map_singleton, List.intercalate_singleton]
    exact ⟨noBrace, by rw [IsWhole, neutral _ Place.plain_start]; rfl⟩
  | indented =>
    have space : '\x7d' ∉ margin .indented r.declaration.media ++ indentation .indented :=
      not_mem_margin (by decide) (by decide) .indented r.declaration.media
    obtain ⟨back, ahead⟩ := run_margin .indented r.declaration.media
    have mark : Place.start.run [';'] = Place.start := rfl
    rw [pairsText, List.map_singleton, List.flatMap_singleton]
    refine ⟨?_, ?_⟩
    · rw [List.mem_append, not_or] at space
      simp [space.1, space.2, noBrace]
    · rw [IsWhole, Place.run_append, Place.run_append, Place.run_append, ahead,
        neutral _ Place.plain_start, mark, back]
      rfl

/-- A rule in front of any text is read as it was written just when its target is whole. -/
theorem readRule?_iff (rest : List Char) :
    readRule? (newline layout ++ ((r.css layout).toList ++ rest)) =
        some (r.head layout, r.block layout, newline layout ++ rest) ↔ r.HasWholeTarget := by
  obtain ⟨noOpening, whole⟩ := r.head_tokens layout
  obtain ⟨noClosing, closed⟩ := r.block_tokens layout
  rw [r.newline_append_css layout, readRule?_eq_some_iff noOpening noClosing, whole]
  exact and_iff_left closed

def targetOpening : List Char :=
  opening.filter Text.NameRule.selectorTarget.rest

theorem targetOpening_eq : targetOpening = ['\x22', '\x27', '(', '['] := by
  decide

theorem hasWholeTarget_of_free (free : ∀ s ∈ r.scope.selector, ∀ c ∈ s.target.toList,
    c ∉ targetOpening) : r.HasWholeTarget := by
  intro s selected
  refine isWhole_of_free fun c member => ?_
  have accepted := Text.NameRule.rest_of_acceptsChars selectorTarget_rest_of_first
    (r.targets_accepted s selected) c member
  exact fun opens => free s selected c member (List.mem_filter.mpr ⟨opens, accepted⟩)

theorem readRules?_append_iff (rules : List TypedRule) (rest : List Char) :
    readRules? rules.length (newline layout ++
        ((String.join (rules.map fun r => r.css layout)).toList ++ rest)) =
          some (rules.map fun r => (r.head layout, r.block layout), newline layout ++ rest) ↔
      ∀ r ∈ rules, r.HasWholeTarget := by
  induction rules with
  | nil => simp [readRules?]
  | cons r others ih =>
    rw [List.map_cons, String.join_cons, String.toList_append, List.append_assoc,
      r.newline_append_css layout, List.length_cons, List.map_cons, readRules?_succ_iff,
      ← r.newline_append_css layout, r.readRule?_iff layout, ih, List.forall_mem_cons]

/-- Rules of typed properties, in whatever classes and scopes, are read one by one as they were
written, with all that stands behind them, just when none of their targets leaves a string or a
bracket open. A target without quotes and opening brackets never does. -/
theorem rules_read_iff (rules : List TypedRule) (layout : Layout) (rest : List Char) :
    (∀ r ∈ rules, '\x7b' ∉ (r.rule layout).selector.toList ∧
      (IsWhole (r.rule layout).selector.toList ↔ r.HasWholeTarget)) ∧
    (readRules? rules.length (newline layout ++
        ((String.join (rules.map fun r => r.css layout)).toList ++ rest)) =
          some (rules.map fun r => (r.head layout, r.block layout), newline layout ++ rest) ↔
      ∀ r ∈ rules, r.HasWholeTarget) ∧
    targetOpening = ['\x22', '\x27', '(', '['] ∧
    ∀ r ∈ rules, (∀ s ∈ r.scope.selector, ∀ c ∈ s.target.toList, c ∉ targetOpening) →
      r.HasWholeTarget :=
  ⟨fun r _ => ⟨(r.selector_tokens layout).1, (r.selector_tokens layout).2.2⟩,
    readRules?_append_iff layout rules rest, targetOpening_eq,
    fun r _ => r.hasWholeTarget_of_free⟩

def ofItems : TypedRule where
  className := "width-0"
  tag := "ul"
  scope := .ofSelector (.descendant "li:not(.done)")
  property := .length .width .auto
  declaration := (Scope.ofSelector (.descendant "li:not(.done)")).declare "width" "auto"
  named := by decide
  typed := trivial
  emitted := List.mem_singleton_self _
  checked := rfl

def inCards : TypedRule where
  className := "display-0"
  tag := "p"
  scope := ⟨none, [.hover, .odd], some (.within ".card[data-open=\x22(\x22]")⟩
  property := .display .flex
  declaration := Scope.declare ⟨none, [.hover, .odd], some (.within ".card[data-open=\x22(\x22]")⟩
    "display" "flex"
  named := by decide
  typed := trivial
  emitted := List.mem_singleton_self _
  checked := rfl

theorem rules_read_items :
    ofItems.css .compact = ".width-0 li:not(.done)\x7bwidth:auto\x7d" ∧
      inCards.css .compact = ".card[data-open=\x22(\x22] .display-0:hover:nth-child(odd)" ++
        "\x7bdisplay:flex\x7d" ∧
      readRules? 2 ((ofItems.css .compact ++ inCards.css .compact).toList ++ ".gap-0".toList) =
        some ([(".width-0 li:not(.done)".toList, "width:auto".toList),
          (".card[data-open=\x22(\x22] .display-0:hover:nth-child(odd)".toList,
            "display:flex".toList)], ".gap-0".toList) := by
  have whole : ∀ r ∈ [ofItems, inCards], r.HasWholeTarget := by
    refine List.forall_mem_cons.mpr ⟨?_, List.forall_mem_singleton.mpr ?_⟩
    · rintro _ ⟨⟩
      decide
    · rintro _ ⟨⟩
      decide
  have read := (rules_read_iff [ofItems, inCards] .compact ".gap-0".toList).2.1.mpr whole
  have items : ofItems.head .compact = ".width-0 li:not(.done)".toList ∧
      ofItems.block .compact = "width:auto".toList := by decide +kernel
  have cards : inCards.head .compact =
        ".card[data-open=\x22(\x22] .display-0:hover:nth-child(odd)".toList ∧
      inCards.block .compact = "display:flex".toList := by decide +kernel
  have text : String.join ([ofItems, inCards].map fun r => r.css .compact) =
      ofItems.css .compact ++ inCards.css .compact := by
    simp [String.join_cons]
  have two : [ofItems, inCards].length = 2 := rfl
  rw [text, two, newline, List.nil_append, List.nil_append, List.map_cons, List.map_singleton,
    items.1, items.2, cards.1, cards.2] at read
  exact ⟨by decide +kernel, by decide +kernel, read⟩

/-- A target that a bracket is left open in is accepted. The bracket takes in the block of the rule
and the rules behind it. -/
def leftOpen : TypedRule where
  className := "width-0"
  tag := "p"
  scope := .ofSelector (.descendant "a[")
  property := .length .width .auto
  declaration := (Scope.ofSelector (.descendant "a[")).declare "width" "auto"
  named := by decide
  typed := trivial
  emitted := List.mem_singleton_self _
  checked := rfl

theorem leftOpen_never_ends :
    checkStyle "p" leftOpen.declaration = .ok () ∧
      leftOpen.css .compact = ".width-0 a[\x7bwidth:auto\x7d" ∧
      ¬ IsWhole (leftOpen.rule .compact).selector.toList ∧
      readRule? (leftOpen.css .compact ++ ".gap-0\x7bgap:0\x7d").toList = none := by
  refine ⟨rfl, ?_⟩
  decide +kernel

end TypedRule

end AtomicMarkup
