import AtomicMarkup.Proofs.BuiltStyles
import AtomicMarkup.Proofs.RuleOrder
import AtomicMarkup.Proofs.ScopeText

/-!
Generated classes are written as they are. For styles that were built, every generated class is a
name that no escape touches, so that the rule and the class attribute have it in the same
spelling, and the words of a written class attribute are the given classes and the generated ones.
-/

namespace AtomicMarkup

open Text

theorem rest_of_mem_numeral {base : Nat} (least : 2 ≤ base) (most : base ≤ 36) (n : Nat) :
    ∀ c ∈ (String.ofList (Number.digits base n)).toList, NameRule.classPrefix.rest c = true := by
  intro c member
  rw [String.toList_ofList] at member
  simp [NameRule.classPrefix, Number.isAlphanum_of_mem_digits least most member]

theorem RenderOptions.lead_of_check {options : RenderOptions} (accepted : options.check = .ok ()) :
    options.classPrefix.getD "" = "" ∨
      NameRule.classPrefix.accepts (options.classPrefix.getD "") = true := by
  unfold check at accepted
  split at accepted
  · next none => exact .inl (by rw [none]; rfl)
  · next text given =>
    split at accepted
    · next named => exact .inr (by rw [given]; exact named)
    · contradiction

namespace ClassTable

theorem accepts_nextName {t : ClassTable}
    (lead : t.lead = "" ∨ NameRule.classPrefix.accepts t.lead = true) {property : String}
    (named : NameRule.tagName.accepts (stem property) = true) :
    NameRule.classPrefix.accepts (t.nextName property) = true := by
  -- What a name begins with may also follow in it, so that names can be joined.
  have behindLead {body : String} (accepted : NameRule.classPrefix.accepts body = true) :
      NameRule.classPrefix.accepts (t.lead ++ body) = true := by
    rcases lead with empty | leadNamed
    · rw [empty, String.empty_append, accepted]
    · rw [NameRule.accepts, String.toList_append]
      exact NameRule.acceptsChars_append leadNamed
        (NameRule.rest_of_acceptsChars classPrefix_rest_of_first accepted)
  unfold nextName
  split
  · have body : NameRule.classPrefix.accepts
        (stem property ++ ("-" ++ Number.decimal (t.stemCount (stem property)))) = true := by
      rw [NameRule.accepts, String.toList_append]
      refine NameRule.acceptsChars_append (classPrefix_acceptsChars named) ?_
      rw [String.toList_append, Number.decimal, List.forall_mem_append]
      exact ⟨List.forall_mem_singleton.mpr rfl, rest_of_mem_numeral (by omega) (by omega) _⟩
    have whole := behindLead body
    rw [← String.append_assoc, ← String.append_assoc] at whole
    exact whole
  · have body : NameRule.classPrefix.accepts ("c" ++ Number.base36 t.entries.length) = true := by
      rw [NameRule.accepts, String.toList_append, Number.base36]
      exact NameRule.acceptsChars_append rfl (rest_of_mem_numeral (by omega) (by omega) _)
    have whole := behindLead body
    rw [← String.append_assoc] at whole
    exact whole

theorem WellFormed.accepts_name {t : ClassTable} (wf : t.WellFormed)
    (lead : t.lead = "" ∨ NameRule.classPrefix.accepts t.lead = true)
    (named : ∀ d ∈ t.declarations, d.Named) {entry : ClassEntry} (member : entry ∈ t.entries) :
    NameRule.classPrefix.accepts entry.name = true := by
  obtain ⟨before, after, entries⟩ := List.append_of_mem member
  rw [wf.named before entry after entries]
  exact accepts_nextName (t := ⟨t.naming, t.lead, before⟩) lead
    (named _ (List.mem_map_of_mem member)).1

end ClassTable

namespace Declaration

theorem Named.head_behind {d : Declaration} (named : d.Named) (layout : Layout) :
    ∀ c ∈ (d.behind layout).toList.head?, c ∈ [':', ' ', '>', '+'] := by
  obtain ⟨-, scope, pseudo⟩ := named
  rw [Pseudo.suffix?_eq] at pseudo
  rw [behind, pseudo]
  cases Pseudo.ordered scope.pseudos with
  | nil =>
    -- Without pseudos it is the combinator that comes next.
    rcases d.selector with _ | (target | target | target | target) <;> cases layout <;>
      simp [written?, Selector.combinator]
  | cons first rest =>
    have opening := first.head?_css
    cases chars : (Keyword.css first).toList with
    | nil => simp [chars] at opening
    | cons c cs =>
      rw [chars, List.head?_cons, Option.some.injEq] at opening
      simp [written?, chars, opening]

end Declaration

theorem Text.head?_escapeStyle {s : String} (ordinary : ∀ c ∈ s.toList.head?, c ≠ '<') :
    (escapeStyle s).toList.head? = s.toList.head? := by
  rw [escapeStyle, String.toList_ofList]
  cases chars : s.toList with
  | nil => rfl
  | cons c cs =>
    rw [chars] at ordinary
    have alone : styleChar c = [c] := by
      unfold styleChar
      split
      · exact absurd rfl (ordinary _ rfl)
      · rfl
    rw [List.flatMap_cons, alone, List.singleton_append, List.head?_cons, List.head?_cons]

theorem Declaration.Named.selector_literal {d : Declaration} (named : d.Named) {name : String}
    (accepted : NameRule.classPrefix.accepts name = true) (layout : Layout) :
    (Rule.ofClass name d layout).selector =
        escapeStyle d.ahead ++ "." ++ name ++ escapeStyle (d.behind layout) ∧
      ∀ c ∈ (escapeStyle (d.behind layout)).toList.head?,
        NameRule.classPrefix.rest c = false := by
  constructor
  · have kept : escapeStyle name = name :=
      flatMap_of_rest (fun _ => styleChar_of_rest) accepted
    have dot : escapeStyle "." = "." := rfl
    rw [selector_ofClass, escapeStyle_append, escapeStyle_append, escapeStyle_append, kept, dot]
    simp only [String.append_assoc]
  · have stops : ∀ c ∈ [':', ' ', '>', '+'],
        c ≠ '<' ∧ NameRule.classPrefix.rest c = false := by simp [NameRule.classPrefix]
    have behind := named.head_behind layout
    rw [head?_escapeStyle fun c first => (stops c (behind c first)).1]
    exact fun c first => (stops c (behind c first)).2

theorem Mark.words_classAttribute {names : List String}
    (accepted : ∀ name ∈ names, NameRule.classPrefix.accepts name = true) (given : String)
    (some : words given ++ names ≠ []) :
    ∃ text, classAttribute given names = " class=\x22" ++ text ++ "\x22" ∧ '\x22' ∉ text.toList ∧
      words text = (words given).map escapeAttribute ++ names := by
  have kept : names.map escapeAttribute = names := by
    have each : ∀ name ∈ names, escapeAttribute name = name :=
      fun name member => flatMap_of_rest (fun _ => attributeChar_of_rest) (accepted name member)
    rw [List.map_congr_left each, List.map_id']
  have texts : (words given ++ names).map escapeAttribute =
      (words given).map escapeAttribute ++ names := by rw [List.map_append, kept]
  refine ⟨" ".intercalate ((words given ++ names).map escapeAttribute), ?_, ?_, ?_⟩
  · rw [classAttribute_eq]
    cases tokens : words given ++ names with
    | nil => contradiction
    | cons first rest => rfl
  · rw [← escapeAttribute_intercalate]
    exact not_mem_escapeAttribute (.inr rfl) _
  · rw [words_intercalate ?_, texts]
    intro text member
    rw [texts, List.mem_append] at member
    rcases member with word | name
    · obtain ⟨word, inside, rfl⟩ := List.mem_map.mp word
      exact (isWord_of_mem_words inside).escapeAttribute
    · exact isWord_of_accepts (accepted _ name)

namespace Sheet

section Built

variable {options : RenderOptions} {elements : List Element}

theorem named_declarations_collect (built : ∀ e ∈ elements, e.Built) :
    ∀ d ∈ (collect options (elements.map fun e => e.styles)).table.declarations, d.Named := by
  intro d member
  rw [collect_declarations, List.mem_eraseDups, List.flatMap_map, List.mem_flatMap] at member
  obtain ⟨e, inside, kept⟩ := member
  obtain ⟨steps, made, styles⟩ := built e inside
  have declared := Declaration.mem_of_mem_effective kept
  rw [styles] at declared
  exact StyleStep.named_listDeclarations .root steps made d declared

theorem accepts_name_collect (accepted : options.check = .ok ())
    (built : ∀ e ∈ elements, e.Built) :
    ∀ entry ∈ (collect options (elements.map fun e => e.styles)).table.entries,
      NameRule.classPrefix.accepts entry.name = true := by
  intro entry member
  refine (collect_wellFormed options _).accepts_name ?_ (named_declarations_collect built) member
  rw [collect_lead]
  exact options.lead_of_check accepted

/-- With options that were checked and elements that were built, every generated class is a name
by the grammar of class prefixes. It stands unescaped in the selector of its rule, where no
further character of a name follows, and unescaped in the class attribute, whose words are the
given classes, each escaped, and then the classes of the element. -/
theorem classes_literal (accepted : options.check = .ok ()) (built : ∀ e ∈ elements, e.Built) :
    let sheet := collect options (elements.map fun e => e.styles)
    (∀ entry ∈ sheet.table.entries,
      let after := escapeStyle (entry.declaration.behind sheet.layout)
      NameRule.classPrefix.accepts entry.name = true ∧
        (Rule.ofClass entry.name entry.declaration sheet.layout).selector =
          escapeStyle entry.declaration.ahead ++ "." ++ entry.name ++ after ∧
        ∀ c ∈ after.toList.head?, NameRule.classPrefix.rest c = false) ∧
      ∀ before e after, elements = before ++ e :: after →
        let names := ((collect options (before.map fun e => e.styles)).classesFor e.styles).1
        names = sheet.classesOf e ∧
          (∀ name ∈ names, ∃ entry ∈ sheet.table.entries, entry.name = name) ∧
          ∀ given,
            (words given ++ names = [] → Mark.classAttribute given names = "") ∧
            (words given ++ names ≠ [] → ∃ text,
              Mark.classAttribute given names = " class=\x22" ++ text ++ "\x22" ∧
                '\x22' ∉ text.toList ∧
                words text = (words given).map escapeAttribute ++ names) := by
  intro sheet
  have accepts := accepts_name_collect accepted built
  constructor
  · intro entry member after
    have named := named_declarations_collect built _ (List.mem_map_of_mem member)
    exact ⟨accepts entry member, named.selector_literal (accepts entry member) sheet.layout⟩
  · intro before e after elements names
    -- Elements that come later add entries and change none.
    have inSheet : names = sheet.classesOf e := by
      have given := classesFor_collect options (before.map fun e => e.styles)
        (after.map fun e => e.styles) e.styles
      rw [← List.map_cons (f := fun e : Element => e.styles), ← List.map_append,
        ← elements] at given
      exact given
    have entered : ∀ name ∈ names, ∃ entry ∈ sheet.table.entries, entry.name = name := by
      rw [inSheet]
      exact fun name member => ClassTable.exists_entry_of_mem_classesOf member
    have literal : ∀ name ∈ names, NameRule.classPrefix.accepts name = true := by
      intro name member
      obtain ⟨entry, inside, rfl⟩ := entered name member
      exact accepts entry inside
    refine ⟨inSheet, entered, fun given => ⟨?_, Mark.words_classAttribute literal given⟩⟩
    intro none
    rw [Mark.classAttribute, none]

end Built

end Sheet

def Property.accent : Property :=
  .custom ⟨"--accent", "red"⟩

def Element.accented : Element :=
  (bare "p").build [.style (.property .accent)]

def Element.outlined : Element :=
  (bare "q").build [.addClass "a&b  c", .style (.hover [.property .accent,
    .property (.border { Border.unset with style := some .solid, side := some .left })])]

theorem Element.built_outlined : ∀ e ∈ [accented, outlined], e.Built := by
  have made : Property.accent.Made :=
    ⟨"--Accent", " red ",
      CustomProperty.make_eq_ok_iff.mpr ⟨by decide, by decide, by decide +kernel⟩⟩
  rw [List.forall_mem_cons, List.forall_mem_singleton]
  refine ⟨built_build fun step member => ?_, built_build fun step member => ?_⟩
  · obtain ⟨rfl⟩ := List.mem_singleton.mp member
    exact .property made
  · rw [List.mem_cons, List.mem_singleton] at member
    rcases member with other | same
    · contradiction
    · obtain ⟨rfl⟩ := same
      refine .inside _ (List.forall_mem_cons.mpr ⟨.property made, ?_⟩)
      exact List.forall_mem_singleton.mpr (.property trivial)

def RenderOptions.withLead : RenderOptions :=
  { standard with classPrefix := some "nt-" }

theorem Sheet.classes_literal_outlined :
    RenderOptions.withLead.check = .ok () ∧
      (∀ e ∈ [Element.accented, Element.outlined], e.Built) ∧
      (collect .withLead [Element.accented.styles, Element.outlined.styles]).table.entries.map
        (fun entry => entry.name) = ["nt-accent-0", "nt-border-left-0", "nt-accent-1"] ∧
      (∀ entry ∈
          (collect .withLead [Element.accented.styles, Element.outlined.styles]).table.entries,
        NameRule.classPrefix.accepts entry.name = true) ∧
      ∃ text, Mark.classAttribute "a&b  c" ["nt-border-left-0", "nt-accent-1"] =
          " class=\x22" ++ text ++ "\x22" ∧ '\x22' ∉ text.toList ∧
        words text = ["a&amp;b", "c", "nt-border-left-0", "nt-accent-1"] := by
  have accepted : RenderOptions.withLead.check = .ok () := by decide
  have classes :
      ((collect .withLead [Element.accented.styles]).classesFor Element.outlined.styles).1 =
        ["nt-border-left-0", "nt-accent-1"] := by decide +kernel
  have given : (words "a&b  c").map escapeAttribute = ["a&amp;b", "c"] := by decide +kernel
  obtain ⟨names, elements⟩ := classes_literal accepted Element.built_outlined
  obtain ⟨-, -, written⟩ := elements [Element.accented] Element.outlined [] rfl
  rw [List.map_singleton, classes] at written
  have text := (written "a&b  c").2 (by simp)
  rw [given] at text
  exact ⟨accepted, Element.built_outlined, by decide +kernel,
    fun entry member => (names entry member).1, text⟩

end AtomicMarkup
