import AtomicMarkup.Proofs.NestingLimit
import Mathlib.Order.Bounds.Basic

/-!
How deep accepted trees nest. Every element on the way to a node counts towards the limit, but a
fragment passes its own depth on to its items, so that any number of fragments can stand in one
another. What is bounded is the height between them: with at most `k` fragments directly in one
another, an accepted tree has at most 257 elements inside one another and `k` fragments around
each of them.
-/

namespace AtomicMarkup.Node

mutual

/-- The number of elements and fragments that stand inside one another, as many calls as a walk
over the tree nests. -/
def height : Node → Nat
  | element _ _ children _ => listHeight children + 1
  | text _ => 0
  | raw _ => 0
  | fragment items => listHeight items + 1

def listHeight : List Node → Nat
  | [] => 0
  | node :: rest => max node.height (listHeight rest)

end

mutual

/-- The greatest number of fragments directly in one another, when `run` of them stand directly
around the node. -/
def longestRun (run : Nat) : Node → Nat
  | element _ _ children _ => max run (listLongestRun 0 children)
  | text _ => run
  | raw _ => run
  | fragment items => listLongestRun (run + 1) items

def listLongestRun (run : Nat) : List Node → Nat
  | [] => run
  | node :: rest => max (node.longestRun run) (listLongestRun run rest)

end

def fragmentRun (node : Node) : Nat :=
  node.longestRun 0

section Upper

variable {k : Nat}

theorem le_listLongestRun (run : Nat) (nodes : List Node) : run ≤ listLongestRun run nodes := by
  induction nodes with
  | nil => rw [listLongestRun]
  | cons node rest ih =>
    rw [listLongestRun]
    exact Nat.le_trans ih (Nat.le_max_right _ _)

mutual

/-- Each level of elements has room for one element and `k` fragments. -/
theorem height_le (depth run : Nat) : (node : Node) → node.check depth = .ok () →
    node.longestRun run ≤ k → run + depth * (k + 1) ≤ (maxNestingDepth + 1) * (k + 1) →
    node.height + run + depth * (k + 1) ≤ (maxNestingDepth + 1) * (k + 1)
  | .element tag attributes children styles => by
    intro accepted short room
    obtain ⟨shallow, -, each⟩ := check_element_eq_ok_iff.mp accepted
    rw [longestRun, Nat.max_le] at short
    have levels : (depth + 1) * (k + 1) ≤ (maxNestingDepth + 1) * (k + 1) :=
      Nat.mul_le_mul_right _ (Nat.succ_le_succ shallow)
    have below := listHeight_le (depth + 1) 0 children each short.2 (by omega)
    rw [Nat.add_mul, Nat.one_mul] at below
    rw [height]
    omega
  | .text s => by
    intro _ _ room
    rw [height]
    omega
  | .raw s => by
    intro _ _ room
    rw [height]
    omega
  | .fragment items => by
    intro accepted short room
    obtain ⟨shallow, each⟩ := check_fragment_eq_ok_iff.mp accepted
    rw [longestRun] at short
    have inRun : run + 1 ≤ k := Nat.le_trans (le_listLongestRun _ _) short
    have levels : depth * (k + 1) ≤ maxNestingDepth * (k + 1) := Nat.mul_le_mul_right _ shallow
    have further : run + 1 + depth * (k + 1) ≤ (maxNestingDepth + 1) * (k + 1) := by
      rw [Nat.add_mul maxNestingDepth, Nat.one_mul]
      omega
    have below := listHeight_le depth (run + 1) items each short further
    rw [height]
    omega

theorem listHeight_le (depth run : Nat) : (nodes : List Node) →
    (∀ node ∈ nodes, node.check depth = .ok ()) → listLongestRun run nodes ≤ k →
    run + depth * (k + 1) ≤ (maxNestingDepth + 1) * (k + 1) →
    listHeight nodes + run + depth * (k + 1) ≤ (maxNestingDepth + 1) * (k + 1)
  | [] => by
    intro _ _ room
    rw [listHeight]
    omega
  | node :: rest => by
    intro each short room
    obtain ⟨first, later⟩ := List.forall_mem_cons.mp each
    rw [listLongestRun, Nat.max_le] at short
    have here := height_le depth run node first short.1 room
    have behind := listHeight_le depth run rest later short.2 room
    rw [listHeight]
    omega

end

mutual

theorem longestRun_le (run : Nat) : (node : Node) → node.longestRun run ≤ run + node.height
  | .element tag attributes children styles => by
    have below := listLongestRun_le 0 children
    rw [longestRun, height]
    omega
  | .text s => by rw [longestRun, height]; omega
  | .raw s => by rw [longestRun, height]; omega
  | .fragment items => by
    have below := listLongestRun_le (run + 1) items
    rw [longestRun, height]
    omega

theorem listLongestRun_le (run : Nat) :
    (nodes : List Node) → listLongestRun run nodes ≤ run + listHeight nodes
  | [] => by rw [listLongestRun, listHeight]; omega
  | node :: rest => by
    have first := longestRun_le run node
    have later := listLongestRun_le run rest
    rw [listLongestRun, listHeight]
    omega

end

end Upper

section Lower

def wrapped : Nat → Node → Node
  | 0, node => node
  | k + 1, node => .fragment [wrapped k node]

theorem check_wrapped (k depth : Nat) (node : Node) :
    (wrapped k node).check depth = node.check depth := by
  induction k with
  | zero => rfl
  | succ k ih =>
    by_cases deep : maxNestingDepth < depth
    · rw [check_deep deep, check_deep deep]
    · rw [wrapped, check, if_neg deep, checkAll, ih]
      cases node.check depth <;> rfl

theorem height_wrapped (k : Nat) (node : Node) : (wrapped k node).height = node.height + k := by
  induction k with
  | zero => rfl
  | succ k ih =>
    rw [wrapped, height, listHeight, listHeight, ih]
    omega

theorem longestRun_wrapped_element (k run : Nat) (tag : String) (attributes : List Attribute)
    (children : List Node) (styles : List Declaration) :
    (wrapped k (element tag attributes children styles)).longestRun run =
      max (run + k) (listLongestRun 0 children) := by
  induction k generalizing run with
  | zero => rw [wrapped, longestRun, Nat.add_zero]
  | succ k ih =>
    rw [wrapped, longestRun, listLongestRun, listLongestRun, ih]
    omega

/-- Elements in one another, one more than the number, each in `k` fragments. -/
def tower (k : Nat) : Nat → Node
  | 0 => wrapped k (element "div" [] [] [])
  | n + 1 => wrapped k (element "div" [] [tower k n] [])

theorem height_tower (k n : Nat) : (tower k n).height = (n + 1) * (k + 1) := by
  induction n with
  | zero =>
    rw [tower, height_wrapped, height, listHeight]
    omega
  | succ n ih =>
    rw [tower, height_wrapped, height, listHeight, listHeight, ih, Nat.add_mul (n + 1), Nat.one_mul]
    omega

theorem fragmentRun_tower (k n : Nat) : (tower k n).fragmentRun = k := by
  rw [fragmentRun]
  induction n with
  | zero =>
    rw [tower, longestRun_wrapped_element, listLongestRun]
    omega
  | succ n ih =>
    rw [tower, longestRun_wrapped_element, listLongestRun, listLongestRun, ih]
    omega

theorem check_tower (k : Nat) {n depth : Nat} (shallow : depth + n ≤ maxNestingDepth) :
    (tower k n).check depth = .ok () := by
  induction n generalizing depth with
  | zero =>
    rw [tower, check_wrapped, check, if_neg (by omega), checkSelf_box]
    rfl
  | succ n ih =>
    rw [tower, check_wrapped, check, if_neg (by omega), checkSelf_box, checkAll,
      ih (by omega)]
    rfl

end Lower

/-- Of any trees, the heights of the accepted ones are bounded just when the numbers of fragments
directly in one another are. Among all accepted trees with at most `k` fragments directly in one
another the greatest height is exactly 257 times `k + 1`. -/
theorem accepted_heights (trees : Set Node) :
    ((∃ bound, ∀ node ∈ trees, node.validate = .ok () → node.height ≤ bound) ↔
      ∃ bound, ∀ node ∈ trees, node.validate = .ok () → node.fragmentRun ≤ bound) ∧
    ∀ k, IsGreatest
      {h | ∃ node : Node, node.validate = .ok () ∧ node.fragmentRun ≤ k ∧ node.height = h}
      ((maxNestingDepth + 1) * (k + 1)) := by
  have most {k : Nat} {node : Node} (accepted : node.validate = .ok ())
      (short : node.fragmentRun ≤ k) : node.height ≤ (maxNestingDepth + 1) * (k + 1) := by
    have whole := height_le 0 0 node accepted short (by omega)
    omega
  refine ⟨⟨?_, ?_⟩, fun k => ⟨?_, ?_⟩⟩
  · rintro ⟨bound, low⟩
    refine ⟨bound, fun node member accepted => ?_⟩
    have inside := longestRun_le 0 node
    rw [Nat.zero_add] at inside
    exact inside.trans (low node member accepted)
  · rintro ⟨k, short⟩
    exact ⟨_, fun node member accepted => most accepted (short node member accepted)⟩
  · exact ⟨tower k maxNestingDepth, check_tower k (by omega), (fragmentRun_tower k _).le,
      height_tower k _⟩
  · rintro h ⟨node, accepted, short, rfl⟩
    exact most accepted short

/-- There is no bound for all accepted trees: fragments around a text are accepted in any
number. -/
theorem heights_unbounded :
    ¬ ∃ bound, ∀ node : Node, node.validate = .ok () → node.height ≤ bound := by
  rintro ⟨bound, low⟩
  have accepted : (wrapped (bound + 1) (.text "x")).validate = .ok () := check_wrapped _ 0 _
  have high := low _ accepted
  rw [height_wrapped, height] at high
  omega

end AtomicMarkup.Node
