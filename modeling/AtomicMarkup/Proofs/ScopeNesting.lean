import AtomicMarkup.Element
import AtomicMarkup.Proofs.ExactValue
import Mathlib.Data.List.Nodup

/-!
Nesting of scopes. Merging is associative with the root scope as its unit, and steps in a scope
within a scope are steps in the merge of the two. The lists that are merged keep their order and
take in what is new; whether a condition is new is asked up to agreement, which is transitive but
not reflexive, since a width that is not a number agrees with nothing.
-/

namespace AtomicMarkup

section Joining

variable {α : Type} (agrees : α → α → Bool)

def appendNew (present : List α) (item : α) : List α :=
  if present.any (fun p => agrees p item) then present else present ++ [item]

/-- The first list, and behind it the items of the second that agree with none before them. -/
def joinNew (first second : List α) : List α :=
  second.foldl (appendNew agrees) first

variable {agrees}

theorem joinNew_cons (first : List α) (item : α) (rest : List α) :
    joinNew agrees first (item :: rest) = joinNew agrees (appendNew agrees first item) rest :=
  rfl

variable (trans : ∀ x y z, agrees x y = true → agrees y z = true → agrees x z = true)

include trans

/-- Appending an item adds what the item stands for, also where it agrees with one before it. -/
theorem any_appendNew (present : List α) (item z : α) :
    (appendNew agrees present item).any (fun p => agrees p z) =
      (present.any (fun p => agrees p z) || agrees item z) := by
  rw [appendNew]
  split
  · next known =>
    cases same : agrees item z with
    | false => rw [Bool.or_false]
    | true =>
      obtain ⟨p, member, agreed⟩ := List.any_eq_true.mp known
      rw [Bool.or_true, List.any_eq_true]
      exact ⟨p, member, trans p item z agreed same⟩
  · rw [List.any_append, List.any_cons, List.any_nil, Bool.or_false]

theorem any_joinNew (first second : List α) (z : α) :
    (joinNew agrees first second).any (fun p => agrees p z) =
      (first.any (fun p => agrees p z) || second.any fun p => agrees p z) := by
  induction second generalizing first with
  | nil => rw [List.any_nil, Bool.or_false]; rfl
  | cons item rest ih =>
    rw [joinNew_cons, ih, any_appendNew trans, List.any_cons, Bool.or_assoc]

theorem joinNew_appendNew (first second : List α) (item : α) :
    joinNew agrees first (appendNew agrees second item) =
      appendNew agrees (joinNew agrees first second) item := by
  by_cases known : second.any (fun p => agrees p item) = true
  · have joined : (joinNew agrees first second).any (fun p => agrees p item) = true := by
      rw [any_joinNew trans, known, Bool.or_true]
    rw [appendNew, if_pos known, appendNew, if_pos joined]
  · rw [appendNew, if_neg known, joinNew, List.foldl_append]
    rfl

theorem joinNew_assoc (first second third : List α) :
    joinNew agrees (joinNew agrees first second) third =
      joinNew agrees first (joinNew agrees second third) := by
  induction third generalizing second with
  | nil => rfl
  | cons item rest ih =>
    calc joinNew agrees (joinNew agrees first second) (item :: rest)
        = joinNew agrees (appendNew agrees (joinNew agrees first second) item) rest := rfl
      _ = joinNew agrees (joinNew agrees first (appendNew agrees second item)) rest := by
        rw [joinNew_appendNew trans]
      _ = joinNew agrees first (joinNew agrees second (item :: rest)) := ih _

end Joining

section Added

variable {α : Type} {agrees : α → α → Bool}

theorem joinNew_of_known {first second : List α}
    (known : ∀ d ∈ second, ∃ c ∈ first, agrees c d = true) :
    joinNew agrees first second = first := by
  induction second with
  | nil => rfl
  | cons item rest ih =>
    obtain ⟨present, later⟩ := List.forall_mem_cons.mp known
    have kept : appendNew agrees first item = first := by
      rw [appendNew, if_pos (List.any_eq_true.mpr present)]
    rw [joinNew_cons, kept, ih later]

theorem joinNew_of_new {first second : List α}
    (new : ∀ d ∈ second, ∀ c ∈ first, agrees c d = false)
    (once : second.Pairwise fun c d => agrees c d = false) :
    joinNew agrees first second = first ++ second := by
  induction second generalizing first with
  | nil => rw [List.append_nil]; rfl
  | cons item rest ih =>
    obtain ⟨apart, later⟩ := List.forall_mem_cons.mp new
    obtain ⟨unlike, onceRest⟩ := List.pairwise_cons.mp once
    have added : appendNew agrees first item = first ++ [item] := by
      rw [appendNew, if_neg]
      simpa using apart
    have newRest : ∀ d ∈ rest, ∀ c ∈ first ++ [item], agrees c d = false := by
      intro d inside
      rw [List.forall_mem_append, List.forall_mem_singleton]
      exact ⟨later d inside, unlike d inside⟩
    rw [joinNew_cons, added, ih newRest onceRest, List.append_assoc, List.singleton_append]

end Added

section Unrepeated

variable {α : Type} [DecidableEq α]

theorem joinNew_of_nodup {first second : List α} (once : (first ++ second).Nodup) :
    joinNew (· == ·) first second = first ++ second := by
  obtain ⟨-, onceSecond, apart⟩ := List.nodup_append.mp once
  apply joinNew_of_new
  · intro d inside c present
    exact beq_eq_false_iff_ne.mpr (apart c present d inside)
  · exact onceSecond.imp fun distinct => beq_eq_false_iff_ne.mpr distinct

theorem nodup_joinNew {first : List α} (once : first.Nodup) (second : List α) :
    (joinNew (· == ·) first second).Nodup := by
  induction second generalizing first with
  | nil => exact once
  | cons item rest ih =>
    apply ih
    rw [appendNew]
    split
    · exact once
    · next new =>
      have apart : item ∉ first := by simpa using new
      rw [← List.concat_eq_append]
      exact (List.nodup_concat first item).mpr ⟨apart, once⟩

theorem joinNew_nil_eq_iff {items : List α} : joinNew (· == ·) [] items = items ↔ items.Nodup :=
  ⟨fun same => same ▸ nodup_joinNew List.nodup_nil items, fun once => joinNew_of_nodup once⟩

end Unrepeated

section Agreement

/-- Agreement of lengths is transitive. It is no equivalence: NaN does not agree with itself. -/
theorem Length.agrees_trans {u v w : Length} (first : u.agrees v = true)
    (second : v.agrees w = true) : u.agrees w = true := by
  cases u <;> cases v <;> try exact absurd first Bool.false_ne_true
  all_goals cases w <;> try exact absurd second Bool.false_ne_true
  case zero.zero.zero => rfl
  case auto.auto.auto => rfl
  all_goals exact Number.beq_trans first second

theorem MediaCondition.agrees_trans (c d e : MediaCondition) (first : c.agrees d = true)
    (second : d.agrees e = true) : c.agrees e = true := by
  cases c <;> cases d <;> try exact absurd first Bool.false_ne_true
  all_goals cases e <;> try exact absurd second Bool.false_ne_true
  case minWidth.minWidth.minWidth => exact Length.agrees_trans first second
  case maxWidth.maxWidth.maxWidth => exact Length.agrees_trans first second
  case prefersColorScheme.prefersColorScheme.prefersColorScheme => exact BEq.trans first second
  case orientation.orientation.orientation => exact BEq.trans first second
  all_goals rfl

end Agreement

namespace MediaQuery

theorem combine_eq (q r : MediaQuery) :
    q.combine r = ⟨joinNew MediaCondition.agrees q.conditions r.conditions⟩ := by
  obtain ⟨conditions⟩ := r
  induction conditions generalizing q with
  | nil => rfl
  | cons c rest ih =>
    have added : (q.add c).conditions = appendNew MediaCondition.agrees q.conditions c := by
      rw [add, holds, appendNew]
      split <;> rfl
    have step : q.combine ⟨c :: rest⟩ = (q.add c).combine ⟨rest⟩ := rfl
    rw [step, ih, added]
    rfl

theorem combine_assoc (q r s : MediaQuery) :
    (q.combine r).combine s = q.combine (r.combine s) := by
  rw [combine_eq, combine_eq, combine_eq, combine_eq,
    joinNew_assoc MediaCondition.agrees_trans]

theorem holds_combine (q r : MediaQuery) (c : MediaCondition) :
    (q.combine r).holds c = (q.holds c || r.holds c) := by
  rw [combine_eq]
  exact any_joinNew MediaCondition.agrees_trans _ _ c

end MediaQuery

namespace Scope

theorem joinMedia_none (q : Option MediaQuery) : joinMedia q none = q := by
  cases q <;> rfl

theorem none_joinMedia (q : Option MediaQuery) : joinMedia none q = q := by
  cases q <;> rfl

theorem joinMedia_assoc (q r s : Option MediaQuery) :
    joinMedia (joinMedia q r) s = joinMedia q (joinMedia r s) := by
  cases r with
  | none => rw [joinMedia_none, none_joinMedia]
  | some r =>
    cases q with
    | none => rw [none_joinMedia, none_joinMedia]
    | some q =>
      cases s with
      | none => rw [joinMedia_none, joinMedia_none]
      | some s => exact congrArg some (q.combine_assoc r s)

theorem any_joinMedia {asks : MediaQuery → Bool}
    (each : ∀ q r : MediaQuery, asks (q.combine r) = (asks q || asks r))
    (q r : Option MediaQuery) : (joinMedia q r).any asks = (q.any asks || r.any asks) := by
  cases q with
  | none => rw [none_joinMedia, Option.any_none, Bool.false_or]
  | some q =>
    cases r with
    | none => rw [joinMedia_none, Option.any_none, Bool.or_false]
    | some r => exact each q r

theorem joinPseudos_eq (outer inner : List Pseudo) :
    joinPseudos outer inner = joinNew (· == ·) outer inner := by
  have step : (fun (present : List Pseudo) p =>
      if present.contains p then present else present ++ [p]) = appendNew (· == ·) := by
    funext present p
    rw [appendNew, List.contains_eq_any_beq]
    simp only [BEq.comm]
  rw [joinPseudos, step]
  rfl

theorem joinPseudos_assoc (first second third : List Pseudo) :
    joinPseudos (joinPseudos first second) third =
      joinPseudos first (joinPseudos second third) := by
  have trans (p q r : Pseudo) : (p == q) = true → (q == r) = true → (p == r) = true := BEq.trans
  rw [joinPseudos_eq, joinPseudos_eq, joinPseudos_eq, joinPseudos_eq, joinNew_assoc trans]

theorem merge_assoc (a b c : Scope) : (a.merge b).merge c = a.merge (b.merge c) := by
  have media := joinMedia_assoc a.media b.media c.media
  have pseudos := joinPseudos_assoc a.pseudos b.pseudos c.pseudos
  have selector : c.selector.or (b.selector.or a.selector) =
      (c.selector.or b.selector).or a.selector := Option.or_assoc.symm
  simp only [merge, media, pseudos, selector]

theorem merge_root (a : Scope) : a.merge root = a := by
  have media := joinMedia_none a.media
  simp only [merge, root, media]
  rfl

theorem root_merge_eq_iff {a : Scope} : root.merge a = a ↔ a.pseudos.Nodup := by
  have pseudos : (root.merge a).pseudos = joinNew (· == ·) [] a.pseudos := joinPseudos_eq _ _
  rw [← joinNew_nil_eq_iff, ← pseudos]
  constructor
  · exact congrArg Scope.pseudos
  · intro same
    obtain ⟨media, _, selector⟩ := a
    simp only [merge, root, none_joinMedia, Option.or_none] at same ⊢
    rw [same]

theorem isDark_merge (a b : Scope) : (a.merge b).isDark = (a.isDark || b.isDark) :=
  any_joinMedia (fun q r => q.holds_combine r _) a.media b.media

theorem isLight_merge (a b : Scope) : (a.merge b).isLight = (a.isLight || b.isLight) :=
  any_joinMedia (fun q r => q.holds_combine r _) a.media b.media

/-- Scopes that restrict different kinds of things, and repeat no pseudo. -/
structure Apart (a b : Scope) : Prop where
  media : a.media = none ∨ b.media = none
  pseudos : a.pseudos = [] ∨ b.pseudos = []
  selector : a.selector = none ∨ b.selector = none
  once : a.pseudos.Nodup ∧ b.pseudos.Nodup

theorem merge_comm {a b : Scope} (apart : a.Apart b) : a.merge b = b.merge a := by
  have media : joinMedia a.media b.media = joinMedia b.media a.media := by
    obtain none | none := apart.media <;> rw [none, joinMedia_none, none_joinMedia]
  have alone {ps : List Pseudo} (once : ps.Nodup) : joinPseudos [] ps = joinPseudos ps [] := by
    rw [joinPseudos_eq, joinNew_nil_eq_iff.mpr once]
    rfl
  have pseudos : joinPseudos a.pseudos b.pseudos = joinPseudos b.pseudos a.pseudos := by
    obtain none | none := apart.pseudos
    · rw [none, alone apart.once.2]
    · rw [none, alone apart.once.1]
  have selector : b.selector.or a.selector = a.selector.or b.selector := by
    obtain none | none := apart.selector <;> rw [none, Option.none_or, Option.or_none]
  simp only [merge, media, pseudos, selector]

end Scope

/-- Styles under construction in a scope, with the declarations made so far. -/
structure ScopedStyles where
  scope : Scope
  declarations : List Declaration

namespace ScopedStyles

def empty (scope : Scope) : ScopedStyles :=
  ⟨scope, []⟩

def add (s : ScopedStyles) (declarations : List Declaration) : ScopedStyles :=
  { s with declarations := s.declarations ++ declarations }

mutual

/-- Applies a step. A further scope is opened by styles of its own, in the merge of the scopes,
and their declarations are taken over in the end. -/
def apply (s : ScopedStyles) : StyleStep → ScopedStyles
  | .property p => s.add (p.declarations s.scope)
  | .inside scope steps => s.add (applyAll (empty (s.scope.merge scope)) steps).declarations

def applyAll (s : ScopedStyles) : List StyleStep → ScopedStyles
  | [] => s
  | step :: rest => applyAll (s.apply step) rest

end

mutual

/-- What a step adds are its declarations in the scope of the styles. -/
theorem apply_eq (s : ScopedStyles) :
    (step : StyleStep) → s.apply step = s.add (step.declarations s.scope)
  | .property p => by rw [apply, StyleStep.declarations]
  | .inside scope steps => by
    have inner := applyAll_eq (empty (s.scope.merge scope)) steps
    rw [apply, StyleStep.declarations, inner]
    rfl

theorem applyAll_eq (s : ScopedStyles) :
    (steps : List StyleStep) →
      s.applyAll steps = s.add (StyleStep.listDeclarations s.scope steps)
  | [] => by simp [applyAll, StyleStep.listDeclarations, add]
  | step :: rest => by
    have first := apply_eq s step
    have later := applyAll_eq (s.apply step) rest
    rw [applyAll, later, first, StyleStep.listDeclarations]
    simp [add]

end

end ScopedStyles

theorem ScopedStyles.apply_nested (s : ScopedStyles) (a b : Scope) (steps : List StyleStep) :
    s.apply (.inside a [.inside b steps]) = s.apply (.inside (a.merge b) steps) := by
  have nested : StyleStep.declarations s.scope (.inside a [.inside b steps]) =
      StyleStep.declarations s.scope (.inside (a.merge b) steps) := by
    rw [StyleStep.declarations, StyleStep.listDeclarations, StyleStep.listDeclarations,
      List.append_nil, StyleStep.declarations, StyleStep.declarations, Scope.merge_assoc]
  rw [apply_eq, apply_eq, nested]

/-- An element takes over what styles without any restriction make of a step. -/
theorem Element.edit_style (e : Element) (step : StyleStep) :
    e.edit (.style step) = e.addStyles ((ScopedStyles.empty .root).apply step).declarations := by
  rw [ScopedStyles.apply_eq]
  rfl

/-- Scopes nest as a monoid with the root as its unit, up to repeated pseudos on the left. A
merge asks for a scheme when one of its parts does, parts of different kinds may be merged in any
order, and steps in nested scopes are steps in their merge, on elements and in scopes. -/
theorem Scope.nested_eq_merged :
    (∀ a b c : Scope, (a.merge b).merge c = a.merge (b.merge c)) ∧
    (∀ a : Scope, a.merge root = a) ∧
    (∀ a : Scope, root.merge a = a ↔ a.pseudos.Nodup) ∧
    (∀ a b : Scope, (a.merge b).isDark = (a.isDark || b.isDark) ∧
      (a.merge b).isLight = (a.isLight || b.isLight)) ∧
    (∀ a b : Scope, a.Apart b → a.merge b = b.merge a) ∧
    (∀ (e : Element) (a b : Scope) (steps : List StyleStep),
      e.edit (.style (.inside a [.inside b steps])) =
        e.edit (.style (.inside (a.merge b) steps))) ∧
    (∀ (s : ScopedStyles) (a b : Scope) (steps : List StyleStep),
      s.apply (.inside a [.inside b steps]) = s.apply (.inside (a.merge b) steps)) := by
  refine ⟨merge_assoc, merge_root, fun _ => root_merge_eq_iff,
    fun a b => ⟨isDark_merge a b, isLight_merge a b⟩, fun _ _ => merge_comm, ?_,
    ScopedStyles.apply_nested⟩
  intro e a b steps
  rw [Element.edit_style, Element.edit_style, ScopedStyles.apply_nested]

def Scope.nanWidths : Scope :=
  ⟨some ⟨[.minWidth (.px (0.0 / 0.0)), .minWidth (.px (0.0 / 0.0))]⟩, [], none⟩

def Scope.hoveredItem : Scope :=
  ⟨none, [.before, .hover], some (.child "li")⟩

theorem Scope.nanWidths_merge_hoveredItem :
    nanWidths.Apart hoveredItem ∧
      nanWidths.merge hoveredItem = hoveredItem.merge nanWidths := by
  have apart : nanWidths.Apart hoveredItem := ⟨.inr rfl, .inl rfl, .inl rfl, by decide⟩
  obtain ⟨-, -, -, -, commute, -⟩ := nested_eq_merged
  exact ⟨apart, commute nanWidths hoveredItem apart⟩

end AtomicMarkup
