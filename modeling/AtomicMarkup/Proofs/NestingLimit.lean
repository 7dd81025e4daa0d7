import AtomicMarkup.Proofs.Pruning
import AtomicMarkup.Proofs.Requirements

/-!
The nesting limit as validity sees it and as a rendering does. Both count the elements around a
node, and both allow 256 of them; but validity asks this of every node, and a rendering of
elements only. So a tree of valid elements is refused for its depth when an element of it is left
out, and besides when some other node stands right inside an element of the last allowed depth.
-/

namespace AtomicMarkup

namespace Occurrence

def isTooDeep (o : Occurrence) : Bool :=
  decide (maxNestingDepth < o.depth)

/-- The node in this place, if it is an element, passes the checks of an element by itself. -/
def Sound (o : Occurrence) : Prop :=
  ∀ e ∈ o.node.toElement?, e.checkSelf = .ok ()

end Occurrence

namespace Node

/-- The elements that a rendering leaves out for their depth. -/
def dropped (node : Node) : List Element :=
  ((node.occurrences 0 false).filter fun o => o.node.isCut o.depth).filterMap
    fun o => o.node.toElement?

/-- Where every element is sound by itself, the only requirement left is depth. -/
theorem verdict_of_sound {places : List Occurrence} (sound : ∀ o ∈ places, o.Sound) :
    Requirement.verdict (places.flatMap Occurrence.requirements) =
      if places.any Occurrence.isTooDeep then .error .nestedTooDeeply else .ok () := by
  induction places with
  | nil => rfl
  | cons o rest ih =>
    obtain ⟨here, later⟩ := List.forall_mem_cons.mp sound
    have self : Requirement.verdict (o.node.toElement?.elim [] Element.requirements) = .ok () := by
      cases isElement : o.node.toElement? with
      | none => rfl
      | some e => exact e.checkSelf_eq_verdict.symm.trans (here e isElement)
    rw [List.flatMap_cons, Occurrence.requirements, List.cons_append,
      Requirement.verdict_shallow_cons, Requirement.verdict_append, self, ih later, List.any_cons]
    by_cases deep : maxNestingDepth < o.depth
    · simp [deep, Occurrence.isTooDeep]
    · simp [deep, Occurrence.isTooDeep, bind, Except.bind]

theorem check_of_sound (depth : Nat) (inVoid : Bool) (node : Node)
    (sound : ∀ o ∈ node.occurrences depth inVoid, o.Sound) :
    node.check depth =
      if (node.occurrences depth inVoid).any Occurrence.isTooDeep then .error .nestedTooDeeply
      else .ok () := by
  rw [check_eq_verdict depth inVoid node, verdict_of_sound sound]

section Places

theorem exists_around {depth : Nat} {inVoid : Bool} (node : Node) :
    ∀ o ∈ node.occurrences depth inVoid, depth < o.depth →
      ∃ outer ∈ node.occurrences depth inVoid,
        outer.node.toElement?.isSome = true ∧ outer.depth + 1 = o.depth := by
  refine occurrences_induction node (fun deeper => absurd deeper (Nat.lt_irrefl _)) ?_
  intro o place known inner inside deeper
  obtain ⟨e, isElement, -, next, -⟩ | ⟨same, -⟩ := Occurrence.mem_items inside
  · exact ⟨o, place, by rw [isElement]; rfl, next.symm⟩
  · rw [same] at deeper ⊢
    exact known deeper

theorem not_inVoid_of_sound {depth : Nat} {node : Node}
    (sound : ∀ o ∈ node.occurrences depth false, o.Sound) :
    ∀ o ∈ node.occurrences depth false, o.inVoid = false := by
  refine occurrences_induction node rfl ?_
  intro o place free inner inside
  obtain ⟨e, isElement, child, -, next⟩ | ⟨-, same⟩ := Occurrence.mem_items inside
  · have valid := Element.checkSelf_eq_ok_iff.mp (sound o place e isElement)
    have filled : isVoidTag e.tag = false := by
      rw [Bool.eq_false_iff]
      intro void
      rw [valid.void void] at child
      exact absurd child List.not_mem_nil
    rw [next, free, filled, Bool.or_false]
  · rw [same, free]

end Places

theorem sound_of_elements {node : Node} (sound : ∀ e ∈ node.elements, e.checkSelf = .ok ()) :
    ∀ o ∈ node.occurrences 0 false, o.Sound :=
  fun o member e isElement => sound e (List.mem_filterMap.mpr ⟨o, member, isElement⟩)

theorem dropped_eq (node : Node) :
    node.dropped =
      ((node.occurrences 0 false).filter Occurrence.isTooDeep).filterMap
        fun o => o.node.toElement? := by
  rw [dropped, List.filterMap_filter, List.filterMap_filter]
  apply List.filterMap_congr
  intro o _
  cases isElement : o.node.toElement? <;> simp [isCut, isElement, Occurrence.isTooDeep]

theorem dropped_ne_nil_iff {node : Node} :
    node.dropped ≠ [] ↔ ∃ o ∈ node.occurrences 0 false,
      o.node.toElement?.isSome = true ∧ maxNestingDepth < o.depth := by
  constructor
  · intro some
    obtain ⟨e, member⟩ := List.exists_mem_of_ne_nil _ some
    obtain ⟨o, inside, -⟩ := List.mem_filterMap.mp member
    obtain ⟨place, cut⟩ := List.mem_filter.mp inside
    exact ⟨o, place, isCut_eq_true_iff.mp cut⟩
  · rintro ⟨o, place, cut⟩
    obtain ⟨e, isElement⟩ := Option.isSome_iff_exists.mp cut.1
    have inside : o ∈ (node.occurrences 0 false).filter fun o => o.node.isCut o.depth :=
      List.mem_filter.mpr ⟨place, isCut_eq_true_iff.mpr cut⟩
    exact List.ne_nil_of_mem (List.mem_filterMap.mpr ⟨o, inside, isElement⟩)

/-- Some place is too deep just when one of an element is, or one right inside an element of the
last allowed depth. -/
theorem exists_tooDeep_iff (node : Node) :
    (∃ o ∈ node.occurrences 0 false, maxNestingDepth < o.depth) ↔
      node.dropped ≠ [] ∨ ∃ o ∈ node.occurrences 0 false,
        o.node.toElement? = none ∧ o.depth = maxNestingDepth + 1 := by
  rw [dropped_ne_nil_iff]
  constructor
  · rintro ⟨o, member, deep⟩
    cases isElement : o.node.toElement? with
    | some e => exact .inl ⟨o, member, by rw [isElement]; rfl, deep⟩
    | none =>
      by_cases next : o.depth = maxNestingDepth + 1
      · exact .inr ⟨o, member, isElement, next⟩
      · -- An element around a still deeper node is itself too deep.
        obtain ⟨outer, inside, outerElement, around⟩ :=
          exists_around node o member (by omega)
        exact .inl ⟨outer, inside, outerElement, by omega⟩
  · rintro (⟨o, member, -, deep⟩ | ⟨o, member, -, next⟩)
    · exact ⟨o, member, deep⟩
    · exact ⟨o, member, by omega⟩

/-- Of a tree of sound elements, the elements left out for their depth are all that have no start
tag. -/
theorem starts_append_dropped {node : Node} (sound : ∀ o ∈ node.occurrences 0 false, o.Sound) :
    ((node.outline 0).filter Mark.isStart ++ node.dropped.map Element.startMark).Perm
      (node.elements.map Element.startMark) := by
  have rendered : (node.occurrences 0 false).filter Occurrence.isRendered =
      (node.occurrences 0 false).filter fun o => !o.isTooDeep := by
    apply List.filter_congr
    intro o member
    rw [Occurrence.isRendered, not_inVoid_of_sound sound o member, Bool.not_false,
      Bool.and_true, Occurrence.isTooDeep, ← decide_not]
    exact decide_eq_decide.mpr Nat.not_lt.symm
  have parts := List.filter_append_perm Occurrence.isTooDeep (node.occurrences 0 false)
  rw [outline_starts, Occurrence.renderedElements, rendered, ← List.map_append, dropped_eq,
    ← List.filterMap_append]
  exact ((List.perm_append_comm.trans parts).filterMap _).map _

/-- A tree of sound elements is refused for its depth just when a rendering leaves out one of its
elements for that, or some node that is no element has exactly one element too many around it.
What is left out for its depth is all of the tree that has no start tag in the rendering. -/
theorem validate_tooDeep_iff {node : Node} (sound : ∀ e ∈ node.elements, e.checkSelf = .ok ()) :
    (node.validate = .error .nestedTooDeeply ↔
      node.dropped ≠ [] ∨ ∃ o ∈ node.occurrences 0 false,
        o.node.toElement? = none ∧ o.depth = maxNestingDepth + 1) ∧
    ((node.outline 0).filter Mark.isStart ++ node.dropped.map Element.startMark).Perm
      (node.elements.map Element.startMark) := by
  have places := sound_of_elements sound
  refine ⟨?_, starts_append_dropped places⟩
  rw [← exists_tooDeep_iff, validate, check_of_sound 0 false node places]
  simp [Occurrence.isTooDeep]

section Boxes

/-- Elements in one another, one more than the number, with the given content. -/
def boxed : Nat → List Node → Node
  | 0, inner => .element "div" [] inner []
  | n + 1, inner => .element "div" [] [boxed n inner] []

theorem isVoidTag_box : isVoidTag "div" = false := by
  decide

theorem checkSelf_box (content : List Node) :
    Element.checkSelf ⟨"div", [], content, []⟩ = .ok () := by
  have tag : Text.NameRule.tagName.accepts "div" = true := by decide
  have full : isVoidTag "div" = true → content = [] := fun void => by
    rw [isVoidTag_box] at void
    contradiction
  exact Element.checkSelf_eq_ok_iff.mpr ⟨tag, nofun, nofun, full⟩

theorem check_boxed (inner : List Node) {n depth : Nat} (shallow : depth + n ≤ maxNestingDepth) :
    (boxed n inner).check depth = checkAll (depth + n + 1) inner := by
  induction n generalizing depth with
  | zero =>
    rw [boxed, check, if_neg (by omega), checkSelf_box]
    rfl
  | succ n ih =>
    have below : (boxed n inner).check (depth + 1) = checkAll (depth + (n + 1) + 1) inner := by
      rw [ih (by omega), Nat.add_right_comm depth 1 n, Nat.add_assoc depth n 1]
    rw [boxed, check, if_neg (by omega), checkSelf_box, checkAll, below]
    cases checkAll (depth + (n + 1) + 1) inner <;> rfl

theorem places_boxed (inner : List Node) {n depth : Nat} {o : Occurrence}
    (member : o ∈ (boxed n inner).occurrences depth false) :
    (∃ content, o.node = .element "div" [] content [] ∧ o.depth ≤ depth + n) ∨
      o ∈ listOccurrences (depth + n + 1) false inner := by
  induction n generalizing depth with
  | zero =>
    rw [boxed, occurrences, isVoidTag_box, List.mem_cons] at member
    obtain rfl | below := member
    · exact .inl ⟨inner, rfl, Nat.le_refl _⟩
    · exact .inr below
  | succ n ih =>
    rw [boxed, occurrences, isVoidTag_box, listOccurrences, listOccurrences, List.append_nil,
      List.mem_cons] at member
    obtain rfl | below := member
    · exact .inl ⟨[boxed n inner], rfl, Nat.le_add_right depth (n + 1)⟩
    · have same : depth + 1 + n + 1 = depth + (n + 1) + 1 := by omega
      obtain ⟨content, box, shallow⟩ | inside := ih below
      · exact .inl ⟨content, box, by omega⟩
      · exact .inr (same ▸ inside)

theorem sound_boxed_text (n : Nat) (s : String) :
    ∀ e ∈ (boxed n [.text s]).elements, e.checkSelf = .ok () := by
  intro e member
  obtain ⟨o, place, isElement⟩ := List.mem_filterMap.mp member
  obtain ⟨content, box, -⟩ | inside := places_boxed _ place
  · rw [box] at isElement
    obtain rfl := Option.some.inj isElement
    exact checkSelf_box content
  · obtain rfl : o = _ := List.mem_singleton.mp inside
    contradiction

theorem dropped_boxed_text {n : Nat} (shallow : n ≤ maxNestingDepth) (s : String) :
    (boxed n [.text s]).dropped = [] := by
  by_contra some
  obtain ⟨o, place, isElement, deep⟩ := dropped_ne_nil_iff.mp some
  obtain ⟨content, -, atMost⟩ | inside := places_boxed _ place
  · omega
  · obtain rfl : o = _ := List.mem_singleton.mp inside
    contradiction

end Boxes

theorem boxed_text_place :
    (∀ e ∈ (boxed 256 [.text "deep"]).elements, e.checkSelf = .ok ()) ∧
      ∃ o ∈ (boxed 256 [.text "deep"]).occurrences 0 false,
        o.node.toElement? = none ∧ o.depth = maxNestingDepth + 1 := by
  have sound := sound_boxed_text 256 "deep"
  have refused : (boxed 256 [.text "deep"]).validate = .error .nestedTooDeeply :=
    check_boxed _ (by decide)
  obtain some | place := (validate_tooDeep_iff sound).1.mp refused
  · exact absurd (dropped_boxed_text (by decide) "deep") some
  · exact ⟨sound, place⟩

/-- A text inside 257 sound elements is refused for its depth, although no element is left out. -/
theorem boxed_text_refused :
    (∀ e ∈ (boxed 256 [.text "deep"]).elements, e.checkSelf = .ok ()) ∧
      (boxed 256 [.text "deep"]).validate = .error .nestedTooDeeply ∧
      (boxed 256 [.text "deep"]).dropped = [] :=
  ⟨sound_boxed_text 256 "deep", check_boxed _ (by decide), dropped_boxed_text (by decide) "deep"⟩

end Node

end AtomicMarkup
