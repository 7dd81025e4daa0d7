import AtomicMarkup.Proofs.LiteralClasses

/-!
Pseudo-elements in selectors. In the text of a selector a pseudo-element begins with two colons,
and nothing may follow it. The pseudo-elements of a scope are written behind its pseudo-classes,
but a second one is written behind the first, and a target may be written behind them all: which
scopes have selectors that end with their pseudo-element is said exactly.
-/

namespace AtomicMarkup

open Text

/-- A text in which two colons have nothing but a name behind them. So there are two colons at one
place at most: a pseudo-element, if there is one, is the only one and ends the text. -/
def EndsInElement (text : String) : Prop :=
  ∀ before after, text.toList = before ++ ':' :: ':' :: after →
    ∀ c ∈ after, NameRule.classPrefix.rest c = true

def ElementFree (text : String) : Prop :=
  ¬ [':', ':'] <:+: text.toList

instance (text : String) : Decidable (ElementFree text) :=
  inferInstanceAs (Decidable (¬ _))

def endsInElement : List Char → Bool
  | [] => true
  | c :: rest =>
    if [':', ':'].isPrefixOf (c :: rest) then rest.tail.all NameRule.classPrefix.rest
    else endsInElement rest

theorem endsInElement_mark (rest : List Char) :
    endsInElement (':' :: ':' :: rest) = rest.all NameRule.classPrefix.rest := by
  simp [endsInElement]

theorem endsInElement_cons {c : Char} {rest : List Char} (none : ¬ [':', ':'] <+: c :: rest) :
    endsInElement (c :: rest) = endsInElement rest := by
  rw [endsInElement, if_neg (mt List.isPrefixOf_iff_prefix.mp none)]

theorem endsInElement_cons_of_ne {c : Char} (other : c ≠ ':') (rest : List Char) :
    endsInElement (c :: rest) = endsInElement rest :=
  endsInElement_cons fun mark => other (List.cons_prefix_cons.mp mark).1.symm

theorem endsInElement_colon_cons {c : Char} (other : c ≠ ':') (rest : List Char) :
    endsInElement (':' :: c :: rest) = endsInElement rest := by
  rw [endsInElement_cons, endsInElement_cons_of_ne other]
  rw [List.cons_prefix_cons, List.cons_prefix_cons]
  exact fun mark => other mark.2.1.symm

theorem colon_not_name : NameRule.classPrefix.rest ':' = false := rfl

theorem endsInElement_eq_true_iff {cs : List Char} : endsInElement cs = true ↔
    ∀ before after, cs = before ++ ':' :: ':' :: after →
      ∀ c ∈ after, NameRule.classPrefix.rest c = true := by
  induction cs with
  | nil => simp [endsInElement]
  | cons c rest ih =>
    by_cases mark : [':', ':'] <+: c :: rest
    · obtain ⟨tail, split⟩ := mark
      rw [List.cons_append, List.cons_append, List.nil_append] at split
      obtain ⟨rfl, rfl⟩ := List.cons_eq_cons.mp split
      rw [endsInElement_mark, List.all_eq_true]
      constructor
      · intro names before after split
        cases before with
        | nil =>
          obtain rfl : tail = after := by simpa using split
          exact names
        | cons b front =>
          -- Two colons further behind have one of them in the name.
          obtain ⟨-, split⟩ := List.cons_eq_cons.mp split
          have inside : ':' ∈ tail := by
            cases front with
            | nil => simp_all
            | cons _ front => simp_all
          exact absurd (names ':' inside) (by simp [colon_not_name])
      · exact fun each => each [] tail rfl
    · rw [endsInElement_cons mark, ih]
      constructor
      · intro each before after split
        cases before with
        | nil => exact absurd ⟨after, split.symm⟩ mark
        | cons b front => exact each front after (List.cons_eq_cons.mp split).2
      · rintro each before after rfl
        exact each (c :: before) after rfl

theorem endsInElement_iff {text : String} :
    EndsInElement text ↔ endsInElement text.toList = true :=
  endsInElement_eq_true_iff.symm

instance (text : String) : Decidable (EndsInElement text) :=
  decidable_of_iff _ endsInElement_iff.symm

/-- A text that makes no difference to the pseudo-elements in what follows it. -/
def Neutral (cs : List Char) : Prop :=
  ∀ rest, endsInElement (cs ++ rest) = endsInElement rest

theorem Neutral.nil : Neutral [] :=
  fun _ => rfl

theorem Neutral.append {first second : List Char} (one : Neutral first) (two : Neutral second) :
    Neutral (first ++ second) := by
  intro rest
  rw [List.append_assoc, one, two]

theorem neutral_of_not_mem {cs : List Char} (free : ':' ∉ cs) : Neutral cs := by
  intro rest
  induction cs with
  | nil => rfl
  | cons c cs ih =>
    rw [List.mem_cons, not_or] at free
    rw [List.cons_append, endsInElement_cons_of_ne (Ne.symm free.1), ih free.2]

/-- Behind a character that stands in no name and is no colon, pseudo-elements count anew; none may
stand in front of it. -/
theorem endsInElement_append_cons {c : Char} (colon : c ≠ ':')
    (other : NameRule.classPrefix.rest c = false) (cs rest : List Char) :
    endsInElement (cs ++ c :: rest) = true ↔
      ¬ [':', ':'] <:+: cs ∧ endsInElement rest = true := by
  induction cs with
  | nil => simp [endsInElement_cons_of_ne colon]
  | cons d cs ih =>
    rw [List.infix_cons_iff, not_or, and_assoc, ← ih, List.cons_append]
    cases cs with
    | nil =>
      -- A colon alone is no pseudo-element, as the next character is no colon.
      have none : ¬ [':', ':'] <+: d :: c :: rest := by
        rw [List.cons_prefix_cons, List.cons_prefix_cons]
        exact fun mark => colon mark.2.1.symm
      rw [List.nil_append, endsInElement_cons none]
      simp
    | cons e cs =>
      by_cases mark : d = ':' ∧ e = ':'
      · obtain ⟨rfl, rfl⟩ := mark
        rw [List.cons_append, endsInElement_mark]
        simp [other]
      · have front (cs : List Char) : ¬ [':', ':'] <+: d :: e :: cs := by
          rw [List.cons_prefix_cons, List.cons_prefix_cons]
          exact fun found => mark ⟨found.1.symm, found.2.1.symm⟩
        rw [List.cons_append, endsInElement_cons (front _)]
        simp only [front, not_false_eq_true, true_and]

theorem styleChar_cases (c : Char) :
    c = '<' ∧ styleChar c = ['\x5c', '3', 'c', ' '] ∨ c ≠ '<' ∧ styleChar c = [c] := by
  unfold styleChar
  split
  · exact .inl ⟨rfl, rfl⟩
  · next other => exact .inr ⟨other, rfl⟩

theorem all_escape (cs : List Char) :
    (cs.flatMap styleChar).all NameRule.classPrefix.rest = cs.all NameRule.classPrefix.rest := by
  have each : (fun c => (styleChar c).all NameRule.classPrefix.rest) =
      NameRule.classPrefix.rest := by
    funext c
    obtain ⟨rfl, text⟩ | ⟨-, text⟩ := styleChar_cases c
    · rw [text]
      decide
    · rw [text, List.all_cons, List.all_nil, Bool.and_true]
  rw [List.all_flatMap, each]

/-- The escape of a stylesheet neither makes nor hides a pseudo-element. -/
theorem endsInElement_escape (cs : List Char) :
    endsInElement (cs.flatMap styleChar) = endsInElement cs := by
  induction cs with
  | nil => rfl
  | cons c rest ih =>
    rw [List.flatMap_cons]
    obtain ⟨rfl, text⟩ | ⟨-, text⟩ := styleChar_cases c
    · have neutral : Neutral (styleChar '<') := neutral_of_not_mem (by decide)
      rw [neutral, ih, endsInElement_cons_of_ne (by decide)]
    · rw [text, List.singleton_append]
      by_cases colon : c = ':'
      · subst colon
        cases rest with
        | nil => rfl
        | cons d more =>
          rw [List.flatMap_cons] at ih ⊢
          by_cases mark : d = ':'
          · subst mark
            have kept : styleChar ':' = [':'] := rfl
            rw [kept, List.singleton_append, endsInElement_mark, endsInElement_mark, all_escape]
          · -- What stands for the next character begins with no colon either.
            obtain ⟨first, others, begins, apart⟩ :
                ∃ first others, styleChar d = first :: others ∧ first ≠ ':' := by
              obtain ⟨-, text⟩ | ⟨-, text⟩ := styleChar_cases d
              · exact ⟨_, _, text, by decide⟩
              · exact ⟨_, _, text, mark⟩
            rw [begins, List.cons_append, endsInElement_cons_of_ne apart] at ih
            rw [begins, List.cons_append, endsInElement_colon_cons apart, ih,
              endsInElement_colon_cons mark, endsInElement_cons_of_ne mark]
      · rw [endsInElement_cons_of_ne colon, endsInElement_cons_of_ne colon, ih]

namespace Pseudo

theorem colons_eq (p : Pseudo) : p.colons = if p.isElement then [':', ':'] else [':'] := by
  cases p <;> decide

theorem neutral_css {p : Pseudo} (state : p.isElement = false) :
    Neutral (Keyword.css p).toList := by
  obtain ⟨c, cs, name⟩ := List.exists_cons_of_ne_nil p.name_ne_nil
  have free := p.colon_not_mem_name
  intro rest
  rw [name, List.mem_cons, not_or] at free
  rw [← p.colons_append_name, colons_eq, state, if_neg Bool.false_ne_true, name,
    List.singleton_append, List.cons_append, List.cons_append,
    endsInElement_colon_cons (Ne.symm free.1), neutral_of_not_mem free.2]

theorem css_element {p : Pseudo} (part : p.isElement = true) :
    ∃ name, (Keyword.css p).toList = ':' :: ':' :: name ∧
      ∀ c ∈ name, NameRule.classPrefix.rest c = true := by
  have plain : p.isElement = true → p.name.all NameRule.classPrefix.rest = true := by
    cases p <;> decide
  refine ⟨p.name, ?_, List.all_eq_true.mp (plain part)⟩
  rw [← p.colons_append_name, colons_eq, if_pos part]
  rfl

end Pseudo

theorem endsInElement_elements {parts : List Pseudo} (each : ∀ p ∈ parts, p.isElement = true)
    (tail : List Char) :
    endsInElement ((parts.flatMap fun p => (Keyword.css p).toList) ++ tail) = true ↔
      parts = [] ∧ endsInElement tail = true ∨
        parts.length = 1 ∧ tail.all NameRule.classPrefix.rest = true := by
  cases parts with
  | nil => simp
  | cons first more =>
    obtain ⟨part, others⟩ := List.forall_mem_cons.mp each
    obtain ⟨name, text, plain⟩ := Pseudo.css_element part
    rw [List.flatMap_cons, text, List.cons_append, List.cons_append, List.cons_append,
      List.cons_append, endsInElement_mark, List.all_append, List.all_append,
      List.all_eq_true.mpr plain]
    cases more with
    | nil => simp
    | cons second rest =>
      obtain ⟨name, text, -⟩ := Pseudo.css_element (others second List.mem_cons_self)
      simp [text, colon_not_name]

namespace Scope

theorem endsInElement_class (s : Scope) {name : String} (plain : ':' ∉ name.toList)
    (property value : String) (tail : List Char) :
    endsInElement (("." ++ name).toList ++
        ((s.declare property value).pseudo.getD "").toList ++ tail) = true ↔
      s.elements = [] ∧ endsInElement tail = true ∨
        s.elements.length = 1 ∧ tail.all NameRule.classPrefix.rest = true := by
  have parts : ∀ p ∈ s.elements, p.isElement = true := fun p member => (List.mem_filter.mp member).2
  have front : Neutral (("." ++ name).toList ++
      s.states.flatMap fun p => (Keyword.css p).toList) := by
    refine (neutral_of_not_mem (by simpa using plain)).append
      (flatMap_of_append Neutral .nil .append fun p member => ?_)
    exact Pseudo.neutral_css (by simpa using (List.mem_filter.mp member).2)
  have chars : ((s.declare property value).pseudo.getD "").toList =
      (s.states.flatMap fun p => (Keyword.css p).toList) ++
        s.elements.flatMap fun p => (Keyword.css p).toList := by
    rw [pseudo_declare, String.toList_append, String.toList_join, String.toList_join,
      List.flatMap_map, List.flatMap_map]
  rw [chars, ← List.append_assoc, List.append_assoc, front, endsInElement_elements parts]

theorem endsInElement_alone_iff (s : Scope) {name : String} (plain : ':' ∉ name.toList)
    (property value : String) :
    endsInElement
        ("." ++ name ++ ((s.declare property value).pseudo.getD "" ++ "")).toList = true ↔
      s.elements.length ≤ 1 := by
  have few : s.elements = [] ∨ s.elements.length = 1 ↔ s.elements.length ≤ 1 := by
    rw [← List.length_eq_zero_iff]
    omega
  have ended := s.endsInElement_class plain property value []
  rw [List.append_nil] at ended
  rw [String.append_empty, String.toList_append, ended, ← few]
  simp [endsInElement]

theorem endsInElement_joined_iff (s : Scope) {name : String} (plain : ':' ∉ name.toList)
    (property value : String) {combinator : String} (free : ':' ∉ combinator.toList)
    (other : ∃ c ∈ combinator.toList, NameRule.classPrefix.rest c = false) (target : String) :
    endsInElement ("." ++ name ++
        ((s.declare property value).pseudo.getD "" ++ (combinator ++ target))).toList = true ↔
      s.elements = [] ∧ EndsInElement target := by
  obtain ⟨c, inside, stop⟩ := other
  have notName : (combinator ++ target).toList.all NameRule.classPrefix.rest = false := by
    rw [List.all_eq_false]
    exact ⟨c, by simp [inside], by simp [stop]⟩
  rw [String.toList_append, String.toList_append (s := (s.declare property value).pseudo.getD ""),
    ← List.append_assoc, s.endsInElement_class plain, notName, String.toList_append,
    neutral_of_not_mem free, endsInElement_iff]
  simp

end Scope

theorem endsInElement_escapeStyle {text : String} :
    EndsInElement (escapeStyle text) ↔ endsInElement text.toList = true := by
  rw [endsInElement_iff, escapeStyle, String.toList_ofList, endsInElement_escape]

/-- The pseudo-elements of a scope are written behind all its pseudo-classes. A selector has at
most one pseudo-element, and nothing behind it, just when the scope has at most one and none of the
targets around it interferes: a target in front of the class has none, and a target behind the
class may end in one where the scope has none. -/
theorem Rule.pseudoElement_last_iff (s : Scope) {name : String} (plain : ':' ∉ name.toList)
    (property value : String) (layout : Layout) :
    (s.declare property value).pseudo.getD "" =
        String.join (s.states.map Keyword.css) ++ String.join (s.elements.map Keyword.css) ∧
      (EndsInElement (ofClass name (s.declare property value) layout).selector ↔
        match s.selector with
        | none => s.elements.length ≤ 1
        | some (.within target) => ElementFree target ∧ s.elements.length ≤ 1
        | some (.descendant target) | some (.child target) | some (.adjacent target) =>
          s.elements = [] ∧ EndsInElement target) := by
  refine ⟨s.pseudo_declare property value, ?_⟩
  have alone := s.endsInElement_alone_iff plain property value
  have joined {combinator : String} :=
    @s.endsInElement_joined_iff name plain property value combinator
  have kept : (s.declare property value).selector = s.selector := rfl
  rw [Declaration.selector_ofClass, endsInElement_escapeStyle, Declaration.ahead,
    Declaration.behind, kept]
  cases s.selector with
  | none => rw [String.empty_append, alone]
  | some selector =>
    cases selector with
    | within target =>
      rw [String.append_assoc, String.toList_append, String.toList_append, ← alone]
      exact endsInElement_append_cons (by decide) rfl _ _
    | descendant target => exact joined (by decide) ⟨' ', by decide, rfl⟩ target
    | child target => cases layout <;> exact joined (by decide) ⟨'>', by decide, rfl⟩ target
    | adjacent target => cases layout <;> exact joined (by decide) ⟨'+', by decide, rfl⟩ target

def Scope.cardMarker : Scope :=
  ((ofPseudo .marker).merge (ofSelector (.within ".card:focus"))).merge (ofPseudo .hover)

theorem Rule.cardMarker_selector :
    ':' ∉ "color-0".toList ∧
      (ofClass "color-0" (Scope.cardMarker.declare "color" "red") .compact).selector =
        ".card:focus .color-0:hover::marker" ∧
      EndsInElement
        (ofClass "color-0" (Scope.cardMarker.declare "color" "red") .compact).selector := by
  have plain : ':' ∉ "color-0".toList := by decide
  obtain ⟨-, ends⟩ := pseudoElement_last_iff Scope.cardMarker plain "color" "red" .compact
  exact ⟨plain, by decide +kernel, ends.mpr ⟨by decide +kernel, by decide +kernel⟩⟩

/-- A pseudo-element in another is written behind it, and a target behind them both. -/
theorem Rule.chained_before_selector :
    (ofClass "color-0" (((Scope.ofPseudo .before).merge (.ofPseudo .after)).declare "color" "red")
        .compact).selector = ".color-0::before::after" ∧
      ¬ EndsInElement ".color-0::before::after" ∧
      (ofClass "color-0" (((Scope.ofPseudo .before).merge (.ofSelector (.descendant "a"))).declare
        "color" "red") .compact).selector = ".color-0::before a" ∧
      ¬ EndsInElement ".color-0::before a" := by
  decide +kernel

end AtomicMarkup
