import AtomicMarkup.Proofs.ScopeText
import AtomicMarkup.Text.Name
import Mathlib.Data.List.Perm.Subperm

/-!
The grammar of media queries. A query is written as a media type or a feature, with further
features behind it. What is built from single conditions holds none of them twice, so it has at
most one media type of each kind, and these are written first: a query that was built is
well-formed just when it does not ask for both media types.
-/

namespace AtomicMarkup

open Text

namespace MediaQuery

/-- Texts of a media type, which is an identifier. -/
def IsMediaType (text : String) : Prop :=
  NameRule.tagName.accepts text = true

def isValueChar (c : Char) : Bool :=
  c.isAlphanum || ['-', '.', '%'].contains c

/-- Texts of a feature: its name, which is an identifier, and its value, in parentheses. -/
def IsFeature (text : String) : Prop :=
  ∃ name value, text = "(" ++ name ++ ": " ++ value ++ ")" ∧
    NameRule.tagName.accepts name = true ∧ value ≠ "" ∧
    ∀ c ∈ value.toList, isValueChar c = true

/-- Texts of a query: one media type or feature, and any number of features behind it. -/
def IsQuery (text : String) : Prop :=
  ∃ first rest, text = " and ".intercalate (first :: rest) ∧
    (IsMediaType first ∨ IsFeature first) ∧ ∀ t ∈ rest, IsFeature t

theorem IsMediaType.rest {text : String} (identifier : IsMediaType text) :
    ∃ c cs, text.toList = c :: cs ∧ c.isAlpha = true ∧
      ∀ d ∈ cs, NameRule.tagName.rest d = true := by
  rw [IsMediaType, NameRule.accepts] at identifier
  cases chars : text.toList with
  | nil => simp [chars, NameRule.acceptsChars] at identifier
  | cons c cs =>
    rw [chars, NameRule.acceptsChars, Bool.and_eq_true, List.all_eq_true] at identifier
    exact ⟨c, cs, rfl, identifier⟩

theorem IsMediaType.head_ne {text : String} (identifier : IsMediaType text) :
    ∃ c, c ≠ '(' ∧ text.toList.head? = some c := by
  obtain ⟨c, cs, chars, letter, -⟩ := identifier.rest
  refine ⟨c, ?_, by rw [chars, List.head?_cons]⟩
  rintro rfl
  contradiction

theorem IsFeature.head_eq {text : String} (feature : IsFeature text) :
    text.toList.head? = some '(' := by
  obtain ⟨name, value, rfl, -⟩ := feature
  simp

theorem IsMediaType.not_isFeature {text : String} (identifier : IsMediaType text) :
    ¬ IsFeature text := by
  intro feature
  obtain ⟨c, other, head⟩ := identifier.head_ne
  rw [feature.head_eq] at head
  exact other (Option.some.inj head).symm

theorem IsMediaType.written {text : String} (identifier : IsMediaType text) :
    MediaCondition.Written text.toList := by
  refine .inl ⟨?_, identifier.head_ne⟩
  obtain ⟨c, cs, chars, letter, rest⟩ := identifier.rest
  rw [chars, List.mem_cons, not_or]
  constructor
  · rintro rfl
    contradiction
  · intro blank
    exact absurd (rest ' ' blank) (by decide)

theorem IsFeature.written {text : String} (feature : IsFeature text) :
    MediaCondition.Written text.toList := by
  obtain ⟨name, value, rfl, named, -, valued⟩ := feature
  have nameFree : ')' ∉ name.toList := by
    obtain ⟨c, cs, chars, letter, rest⟩ := IsMediaType.rest named
    rw [chars, List.mem_cons, not_or]
    constructor
    · rintro rfl
      contradiction
    · intro inside
      exact absurd (rest ')' inside) (by decide)
  have valueFree : ')' ∉ value.toList := fun inside => absurd (valued ')' inside) (by decide)
  exact MediaCondition.written_feature nameFree valueFree

/-- A text of media types and features can be taken apart in one way only. -/
theorem isQuery_intercalate_iff {first : String} {rest : List String}
    (kinds : ∀ t ∈ first :: rest, IsMediaType t ∨ IsFeature t) :
    IsQuery (" and ".intercalate (first :: rest)) ↔ ∀ t ∈ rest, IsFeature t := by
  have written (t : String) (kind : IsMediaType t ∨ IsFeature t) :
      MediaCondition.Written t.toList := kind.elim IsMediaType.written IsFeature.written
  constructor
  · rintro ⟨other, more, same, lead, features⟩
    have otherKinds : ∀ t ∈ other :: more, IsMediaType t ∨ IsFeature t :=
      List.forall_mem_cons.mpr ⟨lead, fun t member => .inr (features t member)⟩
    have texts := MediaCondition.texts_eq_of_intercalate_eq
      (fun t member => written t (kinds t member))
      (fun t member => written t (otherKinds t member)) same
    obtain ⟨-, rfl⟩ := List.cons_eq_cons.mp texts
    exact features
  · intro features
    exact ⟨first, rest, rfl, kinds first List.mem_cons_self, features⟩

end MediaQuery

theorem Length.css_ne_empty (w : Length) : w.css ≠ "" := by
  intro none
  have chars := congrArg String.toList none
  cases w <;> simp [css] at chars

theorem Length.isValueChar_of_mem_css {w : Length} {c : Char} (member : c ∈ w.css.toList) :
    MediaQuery.isValueChar c = true := by
  have number {v : Float} (inside : c ∈ (Number.cssText v).toList) :
      MediaQuery.isValueChar c = true := by
    have mark := Number.isNumeralChar_of_mem_cssText inside
    simp only [Number.isNumeralChar, Bool.or_eq_true, beq_iff_eq] at mark
    rcases mark with (digit | rfl) | rfl
    · simp [MediaQuery.isValueChar, Char.isAlphanum, digit]
    · rfl
    · rfl
  have word {name : String} (letters : name.toList.all MediaQuery.isValueChar = true)
      (inside : c ∈ name.toList) : MediaQuery.isValueChar c = true :=
    List.all_eq_true.mp letters c inside
  have measured {v : Float} {unit : String}
      (letters : unit.toList.all MediaQuery.isValueChar = true)
      (inside : c ∈ (Number.cssText v ++ unit).toList) : MediaQuery.isValueChar c = true := by
    rw [String.toList_append, List.mem_append] at inside
    exact inside.elim number (word letters)
  cases w with
  | zero => exact word rfl member
  | auto => exact word rfl member
  | px v | rem v | em v | percent v | vw v | vh v => exact measured rfl member

namespace MediaCondition

theorem isMediaType_css {c : MediaCondition} (type : c.isMediaType = true) :
    MediaQuery.IsMediaType c.css := by
  cases c with
  | screen => rfl
  | print => rfl
  | _ => contradiction

theorem isFeature_css {c : MediaCondition} (other : c.isMediaType = false) :
    MediaQuery.IsFeature c.css := by
  have given {name value : String} (named : NameRule.tagName.accepts name = true)
      (filled : value ≠ "") (chars : ∀ c ∈ value.toList, MediaQuery.isValueChar c = true) :
      MediaQuery.IsFeature (feature name value) := ⟨name, value, rfl, named, filled, chars⟩
  have keyword {name value : String} (named : NameRule.tagName.accepts name = true)
      (filled : value ≠ "") (chars : value.toList.all MediaQuery.isValueChar = true) :
      MediaQuery.IsFeature (feature name value) := given named filled (List.all_eq_true.mp chars)
  cases c with
  | screen => contradiction
  | print => contradiction
  | minWidth w => exact given rfl w.css_ne_empty fun _ => Length.isValueChar_of_mem_css
  | maxWidth w => exact given rfl w.css_ne_empty fun _ => Length.isValueChar_of_mem_css
  | prefersColorScheme s => cases s <;> exact keyword rfl (by decide) rfl
  | prefersReducedMotion => exact keyword rfl (by decide) rfl
  | noMotionPreference => exact keyword rfl (by decide) rfl
  | orientation o => cases o <;> exact keyword rfl (by decide) rfl

end MediaCondition

namespace MediaQuery

def types (q : MediaQuery) : List MediaCondition :=
  q.conditions.filter MediaCondition.isMediaType

def features (q : MediaQuery) : List MediaCondition :=
  q.conditions.filter fun c => !c.isMediaType

theorem css_eq (q : MediaQuery) :
    q.css = " and ".intercalate
      (q.types.map MediaCondition.css ++ q.features.map MediaCondition.css) := by
  rw [css, ordered, List.map_append]
  rfl

theorem isMediaType_of_mem_types {q : MediaQuery} {text : String}
    (member : text ∈ q.types.map MediaCondition.css) : IsMediaType text := by
  obtain ⟨c, inside, rfl⟩ := List.mem_map.mp member
  exact MediaCondition.isMediaType_css (List.mem_filter.mp inside).2

theorem isFeature_of_mem_features {q : MediaQuery} {text : String}
    (member : text ∈ q.features.map MediaCondition.css) : IsFeature text := by
  obtain ⟨c, inside, rfl⟩ := List.mem_map.mp member
  exact MediaCondition.isFeature_css (by simpa using (List.mem_filter.mp inside).2)

theorem isQuery_css_iff {q : MediaQuery} (filled : q.conditions ≠ []) :
    IsQuery q.css ↔ q.types.length ≤ 1 := by
  have typeKinds {text : String} := @isMediaType_of_mem_types q text
  have featureKinds {text : String} := @isFeature_of_mem_features q text
  rw [css_eq]
  cases types : q.types with
  | nil =>
    -- A query of features only begins with one of them.
    have some : q.features ≠ [] := by
      intro none
      have all := q.ordered_perm.length_eq
      rw [ordered, List.length_append] at all
      change q.types.length + q.features.length = _ at all
      rw [types, none] at all
      exact filled (List.length_eq_zero_iff.mp all.symm)
    obtain ⟨first, rest, split⟩ := List.exists_cons_of_ne_nil some
    rw [split, List.map_cons] at featureKinds ⊢
    rw [List.map_nil, List.nil_append,
      isQuery_intercalate_iff fun t member => .inr (featureKinds member)]
    simpa using fun t inside => featureKinds (List.mem_cons_of_mem _ (List.mem_map_of_mem inside))
  | cons first rest =>
    rw [types] at typeKinds
    have kinds : ∀ t ∈ first.css ::
        (rest.map MediaCondition.css ++ q.features.map MediaCondition.css),
        IsMediaType t ∨ IsFeature t := by
      intro t member
      rw [← List.cons_append, ← List.map_cons, List.mem_append] at member
      exact member.imp typeKinds featureKinds
    rw [List.map_cons, List.cons_append, isQuery_intercalate_iff kinds, List.forall_mem_append]
    cases rest with
    | nil => simpa using fun t inside => featureKinds (List.mem_map_of_mem inside)
    | cons second more =>
      have identifier : IsMediaType second.css := typeKinds (by simp)
      simp [identifier.not_isFeature]

/-- Queries made of single conditions by addition and conjunction, as nested scopes make them. -/
inductive Built : MediaQuery → Prop where
  | empty : Built empty
  | ofCondition (c : MediaCondition) : Built (ofCondition c)
  | add {q : MediaQuery} (built : Built q) (c : MediaCondition) : Built (q.add c)
  | combine {q r : MediaQuery} (first : Built q) (second : Built r) : Built (q.combine r)

def Unrepeated (q : MediaQuery) : Prop :=
  q.conditions.Pairwise fun c d => c.agrees d = false

theorem Unrepeated.add {q : MediaQuery} (once : q.Unrepeated) (c : MediaCondition) :
    (q.add c).Unrepeated := by
  rw [MediaQuery.add]
  split
  · exact once
  · next new =>
    have apart : ∀ d ∈ q.conditions, d.agrees c = false := by simpa [holds] using new
    refine List.pairwise_append.mpr ⟨once, List.pairwise_singleton _ _, ?_⟩
    intro d inside e last
    obtain rfl := List.mem_singleton.mp last
    exact apart d inside

theorem Unrepeated.combine {q : MediaQuery} (once : q.Unrepeated) (r : MediaQuery) :
    (q.combine r).Unrepeated := by
  obtain ⟨conditions⟩ := r
  induction conditions generalizing q with
  | nil => exact once
  | cons c rest ih => exact ih (once.add c)

theorem Built.unrepeated {q : MediaQuery} (built : q.Built) : q.Unrepeated := by
  induction built with
  | empty => exact List.Pairwise.nil
  | ofCondition c => exact List.pairwise_singleton _ c
  | add _ c ih => exact ih.add c
  | @combine q r _ _ ih _ => exact ih.combine r

theorem mem_types_iff {q : MediaQuery} {c : MediaCondition} :
    c ∈ q.types ↔ c ∈ q.conditions ∧ (c = .screen ∨ c = .print) := by
  rw [types, List.mem_filter]
  cases c <;> simp [MediaCondition.isMediaType]

/-- Media types have one text only when they are one. -/
theorem css_inj_of_mem_types {q r : MediaQuery} {c d : MediaCondition} (first : c ∈ q.types)
    (second : d ∈ r.types) (same : c.css = d.css) : c = d := by
  obtain ⟨-, rfl | rfl⟩ := mem_types_iff.mp first <;>
    obtain ⟨-, rfl | rfl⟩ := mem_types_iff.mp second
  · rfl
  · contradiction
  · contradiction
  · rfl

theorem Unrepeated.nodup_types {q : MediaQuery} (once : q.Unrepeated) : q.types.Nodup := by
  refine (List.Pairwise.filter _ once).imp_of_mem ?_
  rintro c d inside - apart rfl
  obtain ⟨-, rfl | rfl⟩ := mem_types_iff.mp inside <;> contradiction

theorem Unrepeated.length_types_le_one_iff {q : MediaQuery} (once : q.Unrepeated) :
    q.types.length ≤ 1 ↔ ¬ (.screen ∈ q.conditions ∧ .print ∈ q.conditions) := by
  have screen : .screen ∈ q.conditions ↔ .screen ∈ q.types := by simp [mem_types_iff]
  have print : .print ∈ q.conditions ↔ .print ∈ q.types := by simp [mem_types_iff]
  have kinds : q.types.Subperm [.screen, .print] :=
    once.nodup_types.subperm fun c inside => by simpa using (mem_types_iff.mp inside).2
  rw [screen, print]
  constructor
  · rintro few ⟨first, second⟩
    have distinct : [MediaCondition.screen, .print].Nodup := by decide
    have both : [MediaCondition.screen, .print].Subperm q.types :=
      distinct.subperm (by simp [first, second])
    exact absurd (Nat.le_trans both.length_le few) (by decide)
  · intro apart
    by_contra many
    have all := kinds.perm_of_length_le (Nat.lt_of_not_le many)
    exact apart ⟨all.mem_iff.mpr (by decide), all.mem_iff.mpr (by decide)⟩

/-- What is written for a query that was built: its media types, of which there are at most one
of each kind, and then its features. This is a query by the grammar just when it does not hold both
media types. -/
theorem Built.css_grammar {q : MediaQuery} (built : q.Built) (filled : q.isEmpty = false) :
    (∃ types features : List String, q.css = " and ".intercalate (types ++ features) ∧
      types.Nodup ∧ (∀ t ∈ types, t = "screen" ∨ t = "print") ∧ ∀ t ∈ features, IsFeature t) ∧
    (IsQuery q.css ↔ ¬ (.screen ∈ q.conditions ∧ .print ∈ q.conditions)) := by
  have once := built.unrepeated
  have words {c : MediaCondition} (inside : c ∈ q.types) : c.css = "screen" ∨ c.css = "print" :=
    (mem_types_iff.mp inside).2.imp (congrArg _) (congrArg _)
  have distinct : (q.types.map MediaCondition.css).Nodup :=
    once.nodup_types.map_on fun _ first _ second => css_inj_of_mem_types first second
  constructor
  · exact ⟨_, _, q.css_eq, distinct, List.forall_mem_map.mpr fun _ => words,
      fun _ => isFeature_of_mem_features⟩
  · have nonempty : q.conditions ≠ [] := by simpa [isEmpty] using filled
    rw [isQuery_css_iff nonempty, once.length_types_le_one_iff]

def darkPrint : MediaQuery :=
  (breakpoint .md).combine ((dark.add .print).combine dark)

theorem darkPrint_css_grammar :
    darkPrint.Built ∧ darkPrint.isEmpty = false ∧
      darkPrint.css = "print and (min-width: 48rem) and (prefers-color-scheme: dark)" ∧
      IsQuery darkPrint.css := by
  have built : darkPrint.Built :=
    .combine (.ofCondition _) (.combine (.add (.ofCondition _) _) (.ofCondition _))
  have filled : darkPrint.isEmpty = false := by decide +kernel
  have text : darkPrint.css = "print and (min-width: 48rem) and (prefers-color-scheme: dark)" := by
    decide +kernel
  exact ⟨built, filled, text, (built.css_grammar filled).2.mpr (by decide +kernel)⟩

/-- A print scope inside a scope for screens has a query that nothing spells. -/
theorem screen_print_not_isQuery :
    (screen.combine print).Built ∧ (screen.combine print).isEmpty = false ∧
      (screen.combine print).css = "screen and print" ∧ ¬ IsQuery (screen.combine print).css := by
  refine ⟨.combine (.ofCondition _) (.ofCondition _), rfl, by decide, ?_⟩
  rw [isQuery_css_iff (by decide)]
  decide

end MediaQuery

end AtomicMarkup
