import AtomicMarkup.Outline

/-!
The nodes of a page tree in document order, each with the elements around it. Which elements are
rendered is read off their places: at most 256 elements are around them, and none of these is
void. The outline of a tree opens exactly these elements.
-/

namespace AtomicMarkup

/-- A node in its place: the number of elements around it, and whether one of them is void. -/
structure Occurrence where
  node : Node
  depth : Nat
  inVoid : Bool

def Occurrence.isRendered (o : Occurrence) : Bool :=
  decide (o.depth ≤ maxNestingDepth) && !o.inVoid

mutual

def Node.occurrences (depth : Nat) (inVoid : Bool) : Node → List Occurrence
  | element tag attributes children styles =>
    ⟨element tag attributes children styles, depth, inVoid⟩ ::
      Node.listOccurrences (depth + 1) (inVoid || isVoidTag tag) children
  | text s => [⟨text s, depth, inVoid⟩]
  | raw s => [⟨raw s, depth, inVoid⟩]
  | fragment items => ⟨fragment items, depth, inVoid⟩ :: Node.listOccurrences depth inVoid items

def Node.listOccurrences (depth : Nat) (inVoid : Bool) : List Node → List Occurrence
  | [] => []
  | node :: rest => node.occurrences depth inVoid ++ Node.listOccurrences depth inVoid rest

end

def Occurrence.renderedElements (places : List Occurrence) : List Element :=
  (places.filter isRendered).filterMap (fun o => o.node.toElement?)

def Node.renderedElements (node : Node) : List Element :=
  Occurrence.renderedElements (node.occurrences 0 false)

def Node.elements (node : Node) : List Element :=
  (node.occurrences 0 false).filterMap (fun o => o.node.toElement?)

def Element.startMark (e : Element) : Mark :=
  .start e.tag e.attributes (Declaration.effective e.styles)

def Mark.isStart : Mark → Bool
  | start .. => true
  | _ => false

namespace Occurrence

theorem renderedElements_append (before after : List Occurrence) :
    renderedElements (before ++ after) = renderedElements before ++ renderedElements after := by
  simp [renderedElements]

theorem renderedElements_cons (o : Occurrence) (rest : List Occurrence) :
    renderedElements (o :: rest) =
      (if o.isRendered then o.node.toElement?.toList else []) ++ renderedElements rest := by
  cases shown : o.isRendered <;> cases element : o.node.toElement? <;>
    simp [renderedElements, shown, element]

theorem renderedElements_eq_nil {places : List Occurrence}
    (hidden : ∀ o ∈ places, o.isRendered = false) : renderedElements places = [] := by
  have none : places.filter isRendered = [] := by
    rw [List.filter_eq_nil_iff]
    intro o inside
    simp [hidden o inside]
  rw [renderedElements, none, List.filterMap_nil]

end Occurrence

/-- The places right inside a place: of the children of an element, or of the items of a
fragment. -/
def Occurrence.items (o : Occurrence) : List Occurrence :=
  match o.node with
  | .element tag _ children _ =>
    children.map fun child => ⟨child, o.depth + 1, o.inVoid || isVoidTag tag⟩
  | .fragment items => items.map fun item => ⟨item, o.depth, o.inVoid⟩
  | _ => []

theorem Occurrence.mem_items {o inner : Occurrence} (inside : inner ∈ o.items) :
    (∃ e, o.node.toElement? = some e ∧ inner.node ∈ e.children ∧ inner.depth = o.depth + 1 ∧
        inner.inVoid = (o.inVoid || isVoidTag e.tag)) ∨
      inner.depth = o.depth ∧ inner.inVoid = o.inVoid := by
  obtain ⟨node, depth, inVoid⟩ := o
  cases node with
  | element tag attributes children styles =>
    obtain ⟨child, member, rfl⟩ := List.mem_map.mp inside
    exact .inl ⟨⟨tag, attributes, children, styles⟩, rfl, member, rfl, rfl⟩
  | text s => exact absurd inside List.not_mem_nil
  | raw s => exact absurd inside List.not_mem_nil
  | fragment items =>
    obtain ⟨item, -, rfl⟩ := List.mem_map.mp inside
    exact .inr ⟨rfl, rfl⟩

section Induction

variable {P : Occurrence → Prop}

mutual

/-- What holds of the place of a tree, and with a place of the places right inside it, holds of
every place in the tree. -/
theorem Node.occurrences_induction {depth : Nat} {inVoid : Bool} :
    (node : Node) → P ⟨node, depth, inVoid⟩ →
    (∀ o ∈ node.occurrences depth inVoid, P o → ∀ inner ∈ o.items, P inner) →
    ∀ o ∈ node.occurrences depth inVoid, P o
  | .element tag attributes children styles => by
    intro root step o member
    rw [occurrences] at step member
    obtain rfl | below := List.mem_cons.mp member
    · exact root
    · refine Node.listOccurrences_induction children ?_
        (fun o inside => step o (List.mem_cons_of_mem _ inside)) o below
      intro child inside
      exact step _ List.mem_cons_self root _ (List.mem_map_of_mem inside)
  | .text s => by
    intro root _ o member
    rw [occurrences, List.mem_singleton] at member
    exact member ▸ root
  | .raw s => by
    intro root _ o member
    rw [occurrences, List.mem_singleton] at member
    exact member ▸ root
  | .fragment items => by
    intro root step o member
    rw [occurrences] at step member
    obtain rfl | below := List.mem_cons.mp member
    · exact root
    · refine Node.listOccurrences_induction items ?_
        (fun o inside => step o (List.mem_cons_of_mem _ inside)) o below
      intro item inside
      exact step _ List.mem_cons_self root _ (List.mem_map_of_mem inside)

theorem Node.listOccurrences_induction {depth : Nat} {inVoid : Bool} :
    (nodes : List Node) → (∀ node ∈ nodes, P ⟨node, depth, inVoid⟩) →
    (∀ o ∈ Node.listOccurrences depth inVoid nodes, P o → ∀ inner ∈ o.items, P inner) →
    ∀ o ∈ Node.listOccurrences depth inVoid nodes, P o
  | [] => by
    intro _ _ o member
    rw [listOccurrences] at member
    exact absurd member List.not_mem_nil
  | node :: rest => by
    intro roots step o member
    rw [listOccurrences] at step member
    obtain first | later := List.mem_append.mp member
    · exact Node.occurrences_induction node (roots node List.mem_cons_self)
        (fun o inside => step o (List.mem_append_left _ inside)) o first
    · exact Node.listOccurrences_induction rest
        (fun other inside => roots other (List.mem_cons_of_mem _ inside))
        (fun o inside => step o (List.mem_append_right _ inside)) o later

end

end Induction

theorem Node.depth_le_of_mem_occurrences {depth : Nat} {inVoid : Bool} (node : Node) :
    ∀ o ∈ node.occurrences depth inVoid, depth ≤ o.depth := by
  refine occurrences_induction node (Nat.le_refl depth) ?_
  intro o _ deep inner inside
  obtain ⟨e, -, -, next, -⟩ | ⟨same, -⟩ := Occurrence.mem_items inside <;> omega

theorem Node.inVoid_of_mem_listOccurrences {depth : Nat} (nodes : List Node) :
    ∀ o ∈ Node.listOccurrences depth true nodes, o.inVoid = true := by
  refine listOccurrences_induction nodes (fun _ _ => rfl) ?_
  intro o _ void inner inside
  obtain ⟨e, -, -, -, next⟩ | ⟨-, same⟩ := Occurrence.mem_items inside
  · rw [next, void, Bool.true_or]
  · rw [same, void]

theorem Node.renderedElements_tooDeep {depth : Nat} (deep : maxNestingDepth < depth)
    (inVoid : Bool) (node : Node) :
    Occurrence.renderedElements (node.occurrences depth inVoid) = [] := by
  apply Occurrence.renderedElements_eq_nil
  intro o inside
  have deeper := node.depth_le_of_mem_occurrences o inside
  have tooDeep : ¬ o.depth ≤ maxNestingDepth := by omega
  simp [Occurrence.isRendered, tooDeep]

theorem Node.renderedElements_inVoid (depth : Nat) (nodes : List Node) :
    Occurrence.renderedElements (Node.listOccurrences depth true nodes) = [] := by
  apply Occurrence.renderedElements_eq_nil
  intro o inside
  have void := inVoid_of_mem_listOccurrences nodes o inside
  simp [Occurrence.isRendered, void]

mutual

/-- The outline opens the rendered elements, in document order. -/
theorem Node.outline_starts (depth : Nat) :
    (node : Node) → (node.outline depth).filter Mark.isStart =
      (Occurrence.renderedElements (node.occurrences depth false)).map Element.startMark
  | .element tag attributes children styles => by
    by_cases deep : maxNestingDepth < depth
    · rw [renderedElements_tooDeep deep]
      simp [outline, deep]
    · have shallow : depth ≤ maxNestingDepth := by omega
      have shown : Occurrence.isRendered
          ⟨element tag attributes children styles, depth, false⟩ = true := by
        simp [Occurrence.isRendered, shallow]
      rw [occurrences, Occurrence.renderedElements_cons, if_pos shown, outline, if_neg deep]
      cases void : isVoidTag tag with
      | true =>
        rw [Bool.or_true, renderedElements_inVoid]
        rfl
      | false =>
        have below := Node.listOutline_starts (depth + 1) children
        rw [if_neg Bool.false_ne_true, List.cons_append, List.filter_cons_of_pos rfl,
          List.filter_append, below]
        simp [toElement?, Element.startMark, Mark.isStart]
  | .text s => by
    rw [occurrences, Occurrence.renderedElements_cons]
    simp [outline, toElement?, Occurrence.renderedElements, Mark.isStart]
  | .raw s => by
    rw [occurrences, Occurrence.renderedElements_cons]
    simp [outline, toElement?, Occurrence.renderedElements, Mark.isStart]
  | .fragment items => by
    have below := Node.listOutline_starts depth items
    rw [outline, below, occurrences, Occurrence.renderedElements_cons]
    simp [toElement?]

theorem Node.listOutline_starts (depth : Nat) :
    (nodes : List Node) → (Node.listOutline depth nodes).filter Mark.isStart =
      (Occurrence.renderedElements (Node.listOccurrences depth false nodes)).map Element.startMark
  | [] => rfl
  | node :: rest => by
    have first := node.outline_starts depth
    have later := Node.listOutline_starts depth rest
    rw [listOutline, List.filter_append, first, later, listOccurrences,
      Occurrence.renderedElements_append, List.map_append]

end

end AtomicMarkup
