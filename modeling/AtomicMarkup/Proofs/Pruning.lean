import AtomicMarkup.Proofs.SharedClasses
import AtomicMarkup.Proofs.Validity

/-!
What a rendering leaves out of a page tree: an element with more than 256 elements around it,
with all that it contains, and whatever a void element contains. The rendering of a tree is that
of the rest, in its markup and in its stylesheet. Nothing is left out of an accepted tree.
-/

namespace AtomicMarkup

namespace Node

/-- Whether a node is an element that is left out for its depth. Other nodes never are. -/
def isCut (depth : Nat) (node : Node) : Bool :=
  node.toElement?.isSome && decide (maxNestingDepth < depth)

mutual

def pruned (depth : Nat) : Node → Node
  | element tag attributes children styles =>
    element tag attributes (if isVoidTag tag then [] else listPruned (depth + 1) children) styles
  | text s => text s
  | raw s => raw s
  | fragment items => fragment (listPruned depth items)

/-- The nodes of a list that are not left out themselves, each without the parts of it that are. -/
def listPruned (depth : Nat) : List Node → List Node
  | [] => []
  | node :: rest =>
    if node.isCut depth then listPruned depth rest
    else node.pruned depth :: listPruned depth rest

end

theorem isCut_eq_true_iff {depth : Nat} {node : Node} :
    node.isCut depth = true ↔ node.toElement?.isSome = true ∧ maxNestingDepth < depth := by
  rw [isCut, Bool.and_eq_true, decide_eq_true_eq]

theorem outline_of_isCut {depth : Nat} {node : Node} (cut : node.isCut depth = true) :
    node.outline depth = [] := by
  obtain ⟨isElement, deep⟩ := isCut_eq_true_iff.mp cut
  cases node with
  | element tag attributes children styles => rw [outline, if_pos deep]
  | _ => contradiction

mutual

/-- What is left out has no part in the outline. -/
theorem outline_pruned (depth : Nat) :
    (node : Node) → (node.pruned depth).outline depth = node.outline depth
  | .element tag attributes children styles => by
    have below := listOutline_listPruned (depth + 1) children
    rw [pruned, outline, outline]
    cases void : isVoidTag tag with
    | true => simp
    | false => simp [below]
  | .text s => by rw [pruned]
  | .raw s => by rw [pruned]
  | .fragment items => by rw [pruned, outline, outline, listOutline_listPruned depth items]

theorem listOutline_listPruned (depth : Nat) :
    (nodes : List Node) → listOutline depth (listPruned depth nodes) = listOutline depth nodes
  | [] => rfl
  | node :: rest => by
    have later := listOutline_listPruned depth rest
    rw [listPruned]
    cases cut : node.isCut depth with
    | true => rw [if_pos rfl, later, listOutline, outline_of_isCut cut, List.nil_append]
    | false =>
      rw [if_neg Bool.false_ne_true, listOutline, listOutline, outline_pruned depth node, later]

end

theorem mem_listPruned {depth : Nat} {nodes : List Node} {remaining : Node}
    (member : remaining ∈ listPruned depth nodes) :
    ∃ node : Node, node.isCut depth = false ∧ remaining = node.pruned depth := by
  induction nodes with
  | nil => exact absurd member List.not_mem_nil
  | cons node rest ih =>
    rw [listPruned] at member
    cases cut : node.isCut depth with
    | true =>
      rw [cut, if_pos rfl] at member
      exact ih member
    | false =>
      rw [cut, if_neg Bool.false_ne_true] at member
      obtain rfl | later := List.mem_cons.mp member
      · exact ⟨node, cut, rfl⟩
      · exact ih later

end Node

def Occurrence.Remains (o : Occurrence) : Prop :=
  o.inVoid = false ∧ ∃ node : Node, node.isCut o.depth = false ∧ o.node = node.pruned o.depth

theorem Occurrence.Remains.items {o inner : Occurrence} (remains : o.Remains)
    (inside : inner ∈ o.items) : inner.Remains := by
  obtain ⟨node, depth, inVoid⟩ := o
  obtain ⟨rfl, original, -, rfl⟩ : inVoid = false ∧ ∃ original : Node,
    original.isCut depth = false ∧ node = original.pruned depth := remains
  cases original with
  | element tag attributes children styles =>
    rw [Node.pruned] at inside
    obtain ⟨child, member, rfl⟩ := List.mem_map.mp inside
    cases void : isVoidTag tag with
    | true =>
      rw [void, if_pos rfl] at member
      exact absurd member List.not_mem_nil
    | false =>
      rw [void, if_neg Bool.false_ne_true] at member
      exact ⟨rfl, Node.mem_listPruned member⟩
  | text s =>
    rw [Node.pruned] at inside
    exact absurd inside List.not_mem_nil
  | raw s =>
    rw [Node.pruned] at inside
    exact absurd inside List.not_mem_nil
  | fragment items =>
    rw [Node.pruned] at inside
    obtain ⟨item, member, rfl⟩ := List.mem_map.mp inside
    exact ⟨rfl, Node.mem_listPruned member⟩

theorem Occurrence.Remains.isRendered {o : Occurrence} (remains : o.Remains)
    (isElement : o.node.toElement?.isSome = true) : o.isRendered = true := by
  obtain ⟨free, node, kept, same⟩ := remains
  rw [same] at isElement
  cases node with
  | element tag attributes children styles =>
    have shallow : o.depth ≤ maxNestingDepth := by simpa [Node.isCut, Node.toElement?] using kept
    simp [Occurrence.isRendered, free, shallow]
  | _ =>
    rw [Node.pruned] at isElement
    contradiction

namespace Node

theorem renderedElements_pruned (node : Node) :
    (node.pruned 0).renderedElements = (node.pruned 0).elements := by
  have kept : node.isCut 0 = false := by simp [isCut]
  have remaining : ∀ o ∈ (node.pruned 0).occurrences 0 false, o.Remains :=
    occurrences_induction _ ⟨rfl, node, kept, rfl⟩ fun _ _ remains _ => remains.items
  rw [renderedElements, elements, Occurrence.renderedElements, List.filterMap_filter]
  apply List.filterMap_congr
  intro o member
  cases isElement : o.node.toElement? with
  | none => simp
  | some e => simp [(remaining o member).isRendered (by rw [isElement]; rfl)]

theorem isCut_of_check {depth : Nat} {node : Node} (accepted : node.check depth = .ok ()) :
    node.isCut depth = false := by
  cases node with
  | element tag attributes children styles =>
    have shallow := (check_element_eq_ok_iff.mp accepted).1
    simpa [isCut, toElement?] using shallow
  | _ => rfl

mutual

theorem pruned_of_check (depth : Nat) :
    (node : Node) → node.check depth = .ok () → node.pruned depth = node
  | .element tag attributes children styles => by
    intro accepted
    obtain ⟨-, valid, below⟩ := check_element_eq_ok_iff.mp accepted
    have same := listPruned_of_check (depth + 1) children below
    rw [pruned]
    cases void : isVoidTag tag with
    | true =>
      have empty : children = [] := valid.void void
      rw [if_pos rfl, empty]
    | false => rw [if_neg Bool.false_ne_true, same]
  | .text s => fun _ => by rw [pruned]
  | .raw s => fun _ => by rw [pruned]
  | .fragment items => by
    intro accepted
    rw [pruned, listPruned_of_check depth items (check_fragment_eq_ok_iff.mp accepted).2]

theorem listPruned_of_check (depth : Nat) : (nodes : List Node) →
    (∀ node ∈ nodes, node.check depth = .ok ()) → listPruned depth nodes = nodes
  | [] => fun _ => rfl
  | node :: rest => by
    intro accepted
    have first := accepted node List.mem_cons_self
    have later := listPruned_of_check depth rest fun other member =>
      accepted other (List.mem_cons_of_mem node member)
    rw [listPruned, if_neg (by simp [isCut_of_check first]), pruned_of_check depth node first,
      later]

end

/-- The rendering of a tree is that of the tree without what is left out. Each element of the rest
is rendered, and the stylesheet belongs to these elements. Of an accepted tree nothing is left
out. -/
theorem render_pruned (node : Node) (options : RenderOptions) :
    node.render options = (node.pruned 0).render options ∧
      (node.outline 0).filter Mark.isStart = (node.pruned 0).elements.map Element.startMark ∧
      (node.render options).sheet.Serves (node.pruned 0).elements ∧
      (node.validate = .ok () → node.pruned 0 = node) := by
  have outlines := outline_pruned 0 node
  have same : node.render options = (node.pruned 0).render options := by
    simp only [render, Rendering.add, outlines]
  refine ⟨same, ?_, ?_, pruned_of_check 0 node⟩
  · rw [← outlines, outline_starts]
    exact congrArg _ (renderedElements_pruned node)
  · rw [same]
    apply Sheet.serves_of_declarations (render_wellFormed _ options)
    rw [render_declarations, renderedStyles_eq, renderedElements_pruned]

def ruled : Node :=
  .fragment [.text "a", .element "p" [⟨"hidden", .flag⟩]
    [.element "br" [] [] [.plain "color" "red"], .fragment [.text "b"]] []]

theorem render_pruned_ruled : ruled.validate = .ok () ∧ ruled.pruned 0 = ruled := by
  have accepted : ruled.validate = .ok () := rfl
  exact ⟨accepted, (render_pruned ruled .standard).2.2.2 accepted⟩

end Node

end AtomicMarkup
