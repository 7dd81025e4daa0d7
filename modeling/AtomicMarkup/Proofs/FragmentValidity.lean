import AtomicMarkup.Proofs.Fragments
import AtomicMarkup.Proofs.NestingLimit

/-!
Fragments in a validated tree. A fragment counts as a child, and its depth is checked like that of
any node. So replacing fragments by their items can be noticed in one way only: an element that
may have no children, since it is void or stands at the last allowed depth, had nothing but
fragments for children, and is left without any. In every other case the result is the same.
-/

namespace AtomicMarkup

/-- Whether an element has no room for children: it is void, or what it contains is too deep. -/
def barsChildren (depth : Nat) (tag : String) : Bool :=
  isVoidTag tag || depth == maxNestingDepth

mutual

/-- The number of elements with children that have no room for any. Elements that are too deep
themselves do not count. -/
def Node.overfull (depth : Nat) : Node → Nat
  | element tag _ children _ =>
    (if depth ≤ maxNestingDepth ∧ barsChildren depth tag ∧ children ≠ [] then 1 else 0) +
      Node.listOverfull (depth + 1) children
  | text _ => 0
  | raw _ => 0
  | fragment items => Node.listOverfull depth items

def Node.listOverfull (depth : Nat) : List Node → Nat
  | [] => 0
  | node :: rest => node.overfull depth + Node.listOverfull depth rest

end

def MarkupError.isPlacement : MarkupError → Bool
  | voidElementChildren _ | nestedTooDeeply => true
  | _ => false

theorem Element.checkSelf_eq_bind (e : Element) :
    e.checkSelf = ({ e with children := [] }.checkSelf >>= fun _ =>
      if isVoidTag e.tag && !e.children.isEmpty then .error (.voidElementChildren e.tag)
      else .ok ()) := by
  unfold checkSelf
  cases checkTag e.tag with
  | error refused => rfl
  | ok _ =>
    cases e.attributes.forM (checkAttribute e.tag) with
    | error refused => rfl
    | ok _ =>
      cases e.styles.forM (checkStyle e.tag) with
      | error refused => rfl
      | ok _ =>
        rw [List.isEmpty_nil, Bool.not_true, Bool.and_false]
        rfl

namespace Node

/-- The result of a check against that of another one, with the numbers of overfull elements.
There are no more of them in the other tree, and the results are the same, unless there are fewer
and the first tree is refused for a placement. -/
structure Agree (more less : Nat) (result other : Except MarkupError Unit) : Prop where
  le : less ≤ more
  result : result = other ∨
    less < more ∧ ∃ error, error.isPlacement = true ∧ result = .error error

def AgreeAt (depth : Nat) (node other : Node) : Prop :=
  Agree (node.overfull depth) (other.overfull depth) (node.check depth) (other.check depth)

/-- Results of lists agree only at depths that are allowed: an element of the last allowed depth
is itself the one that is emptied, and counted there. -/
structure ListAgreeAt (depth : Nat) (nodes others : List Node) : Prop where
  le : listOverfull depth others ≤ listOverfull depth nodes
  shallow : depth ≤ maxNestingDepth →
    Agree (listOverfull depth nodes) (listOverfull depth others) (checkAll depth nodes)
      (checkAll depth others)

namespace Agree

variable {more less further fewer : Nat} {first second third fourth : Except MarkupError Unit}

theorem of_eq (le : less ≤ more) (same : first = second) : Agree more less first second :=
  ⟨le, .inl same⟩

theorem bind (front : Agree more less first second) (back : Agree further fewer third fourth) :
    Agree (more + further) (less + fewer) (first >>= fun _ => third)
      (second >>= fun _ => fourth) := by
  refine ⟨Nat.add_le_add front.le back.le, ?_⟩
  obtain rfl | ⟨lost, error, placement, rfl⟩ := front.result
  · cases first with
    | error refused => exact .inl rfl
    | ok _ =>
      obtain rfl | ⟨lost, refused⟩ := back.result
      · exact .inl rfl
      · exact .inr ⟨Nat.add_lt_add_of_le_of_lt front.le lost, refused⟩
  · exact .inr ⟨Nat.add_lt_add_of_lt_of_le lost back.le, error, placement, rfl⟩

end Agree

theorem listOverfull_append (depth : Nat) (before after : List Node) :
    listOverfull depth (before ++ after) =
      listOverfull depth before + listOverfull depth after := by
  induction before with
  | nil => rw [List.nil_append, listOverfull, Nat.zero_add]
  | cons node rest ih => rw [List.cons_append, listOverfull, listOverfull, ih, Nat.add_assoc]

theorem ListUnwrapped.eq_nil {unwrapped : List Node} (unwraps : ListUnwrapped [] unwrapped) :
    unwrapped = [] := by
  cases unwraps
  rfl

theorem checkAll_deep {depth : Nat} (deep : maxNestingDepth < depth) {nodes : List Node}
    (some : nodes ≠ []) : checkAll depth nodes = .error .nestedTooDeeply := by
  cases nodes with
  | nil => contradiction
  | cons node rest =>
    rw [checkAll, check_deep deep]
    rfl

section Children

variable {depth : Nat} {tag : String} {attributes : List Attribute} {styles : List Declaration}
  {children unwrapped : List Node}

/-- An element that keeps a child, if it had any and has no room, is checked like before. -/
theorem agreeAt_kept (below : ListAgreeAt (depth + 1) children unwrapped)
    (kept : depth ≤ maxNestingDepth → barsChildren depth tag = true →
      (children = [] ↔ unwrapped = [])) :
    AgreeAt depth (element tag attributes children styles)
      (element tag attributes unwrapped styles) := by
  have own : (depth ≤ maxNestingDepth ∧ barsChildren depth tag ∧ children ≠ []) ↔
      (depth ≤ maxNestingDepth ∧ barsChildren depth tag ∧ unwrapped ≠ []) :=
    and_congr_right fun shallow => and_congr_right fun bars => not_congr (kept shallow bars)
  rw [AgreeAt, overfull, overfull, if_congr own rfl rfl]
  by_cases deep : maxNestingDepth < depth
  · rw [check_deep deep, check_deep deep]
    exact .of_eq (Nat.add_le_add_left below.le _) rfl
  · have shallow : depth ≤ maxNestingDepth := Nat.le_of_not_lt deep
    have self : Element.checkSelf ⟨tag, attributes, children, styles⟩ =
        Element.checkSelf ⟨tag, attributes, unwrapped, styles⟩ := by
      have void : (isVoidTag tag && !children.isEmpty) = (isVoidTag tag && !unwrapped.isEmpty) := by
        cases void : isVoidTag tag with
        | false => rfl
        | true =>
          have same := kept shallow (by rw [barsChildren, void, Bool.true_or])
          rw [Bool.eq_iff_iff]
          simp [same]
      rw [Element.checkSelf_eq_bind, Element.checkSelf_eq_bind ⟨tag, _, unwrapped, _⟩, void]
    have inside : Agree (listOverfull (depth + 1) children) (listOverfull (depth + 1) unwrapped)
        (checkAll (depth + 1) children) (checkAll (depth + 1) unwrapped) := by
      by_cases room : depth + 1 ≤ maxNestingDepth
      · exact below.shallow room
      · have last : depth = maxNestingDepth := by omega
        have same := kept shallow (by rw [barsChildren, last, beq_self_eq_true, Bool.or_true])
        apply Agree.of_eq below.le
        by_cases empty : children = []
        · rw [empty, same.mp empty]
        · rw [checkAll_deep (by omega) empty, checkAll_deep (by omega) (mt same.mpr empty)]
    rw [check, check, if_neg deep, if_neg deep, self]
    exact (Agree.of_eq (Nat.le_refl _) rfl).bind inside

/-- An element without room that loses all its children was refused for them, if for nothing
that comes first. -/
theorem agreeAt_emptied (shallow : depth ≤ maxNestingDepth) (bars : barsChildren depth tag = true)
    (some : children ≠ []) :
    AgreeAt depth (element tag attributes children styles) (element tag attributes [] styles) := by
  have notDeep : ¬ maxNestingDepth < depth := Nat.not_lt.mpr shallow
  have none : (element tag attributes [] styles).overfull depth = 0 := by
    simp [overfull, listOverfull]
  have lost : 0 < (element tag attributes children styles).overfull depth := by
    rw [overfull, if_pos ⟨shallow, bars, some⟩]
    omega
  rw [AgreeAt, none]
  refine ⟨Nat.zero_le _, ?_⟩
  rw [check, check, if_neg notDeep, if_neg notDeep,
    Element.checkSelf_eq_bind ⟨tag, attributes, children, styles⟩]
  cases names : Element.checkSelf ⟨tag, attributes, [], styles⟩ with
  | error refused => exact .inl rfl
  | ok _ =>
    apply Or.inr
    refine ⟨lost, ?_⟩
    cases void : isVoidTag tag with
    | true =>
      refine ⟨.voidElementChildren tag, rfl, ?_⟩
      simp [some, bind, Except.bind]
    | false =>
      have last : depth = maxNestingDepth := by simpa [barsChildren, void] using bars
      refine ⟨.nestedTooDeeply, rfl, ?_⟩
      rw [checkAll_deep (by omega) some]
      rfl

theorem agreeAt_element (unwraps : ListUnwrapped children unwrapped)
    (below : ListAgreeAt (depth + 1) children unwrapped) :
    AgreeAt depth (element tag attributes children styles)
      (element tag attributes unwrapped styles) := by
  by_cases emptied : depth ≤ maxNestingDepth ∧ barsChildren depth tag = true ∧ children ≠ [] ∧
      unwrapped = []
  · obtain ⟨shallow, bars, some, rfl⟩ := emptied
    exact agreeAt_emptied shallow bars some
  · apply agreeAt_kept below
    intro shallow bars
    constructor
    · rintro rfl
      exact unwraps.eq_nil
    · intro none
      by_contra some
      exact emptied ⟨shallow, bars, some, none⟩

end Children

mutual

theorem Unwrapped.agreeAt {node other : Node} (depth : Nat) :
    Unwrapped node other → AgreeAt depth node other
  | .element tag attributes styles inside => agreeAt_element inside (inside.agreeAt (depth + 1))
  | .text s => .of_eq (Nat.le_refl _) rfl
  | .raw s => .of_eq (Nat.le_refl _) rfl
  | .fragment inside => by
    have below := inside.agreeAt depth
    rw [AgreeAt, overfull, overfull]
    by_cases deep : maxNestingDepth < depth
    · rw [check_deep deep, check_deep deep]
      exact .of_eq below.le rfl
    · rw [check, check, if_neg deep, if_neg deep]
      exact below.shallow (Nat.le_of_not_lt deep)

theorem ListUnwrapped.agreeAt {nodes others : List Node} (depth : Nat) :
    ListUnwrapped nodes others → ListAgreeAt depth nodes others
  | .nil => ⟨Nat.le_refl _, fun _ => .of_eq (Nat.le_refl _) rfl⟩
  | .keep first later => by
    have front := first.agreeAt depth
    have back := later.agreeAt depth
    constructor
    · rw [listOverfull, listOverfull]
      exact Nat.add_le_add front.le back.le
    · intro shallow
      rw [listOverfull, listOverfull, checkAll, checkAll]
      exact front.bind (back.shallow shallow)
  -- The fragment itself is not too deep, so its items are all that is checked of it.
  | .unwrap inside later => by
    have front := inside.agreeAt depth
    have back := later.agreeAt depth
    constructor
    · rw [listOverfull, overfull, listOverfull_append]
      exact Nat.add_le_add front.le back.le
    · intro shallow
      rw [listOverfull, overfull, listOverfull_append, checkAll, check,
        if_neg (Nat.not_lt.mpr shallow), checkAll_append]
      exact (front.shallow shallow).bind (back.shallow shallow)

end

mutual

theorem overfull_of_check (depth : Nat) :
    (node : Node) → node.check depth = .ok () → node.overfull depth = 0
  | .element tag attributes children styles => by
    intro accepted
    obtain ⟨shallow, valid, each⟩ := check_element_eq_ok_iff.mp accepted
    have below := listOverfull_of_check (depth + 1) children each
    have room : ¬ (depth ≤ maxNestingDepth ∧ barsChildren depth tag ∧ children ≠ []) := by
      rintro ⟨-, bars, some⟩
      obtain void | last := Bool.or_eq_true_iff.mp bars
      · exact some (valid.void void)
      · obtain ⟨child, rest, rfl⟩ := List.exists_cons_of_ne_nil some
        have refused : child.check (depth + 1) = .error .nestedTooDeeply :=
          check_deep (by have := beq_iff_eq.mp last; omega) child
        rw [each child List.mem_cons_self] at refused
        contradiction
    rw [overfull, if_neg room, below]
  | .text s => fun _ => by rw [overfull]
  | .raw s => fun _ => by rw [overfull]
  | .fragment items => by
    intro accepted
    rw [overfull, listOverfull_of_check depth items (check_fragment_eq_ok_iff.mp accepted).2]

theorem listOverfull_of_check (depth : Nat) : (nodes : List Node) →
    (∀ node ∈ nodes, node.check depth = .ok ()) → listOverfull depth nodes = 0
  | [] => fun _ => by rw [listOverfull]
  | node :: rest => by
    intro each
    obtain ⟨first, later⟩ := List.forall_mem_cons.mp each
    rw [listOverfull, overfull_of_check depth node first, listOverfull_of_check depth rest later]

end

/-- Replacing fragments by their items leaves the result as it is, if as many elements as before
have children that they have no room for: if none of them was emptied by it. It makes a refused
tree an accepted one just when this was all that was wrong with it, never an accepted one a
refused one, and it takes no refusal away but that of an element for its children and that of a
node for its depth. -/
theorem validate_unwrapped {node other : Node} (unwrapped : node.Unwrapped other) :
    (other.overfull 0 = node.overfull 0 → node.validate = other.validate) ∧
      (node.validate = .ok () ↔
        other.validate = .ok () ∧ other.overfull 0 = node.overfull 0) ∧
      (node.validate ≠ other.validate →
        ∃ error, error.isPlacement = true ∧ node.validate = .error error) := by
  obtain ⟨fewer, result⟩ := unwrapped.agreeAt 0
  have kept (same : other.overfull 0 = node.overfull 0) : node.validate = other.validate := by
    obtain agree | ⟨lost, -⟩ := result
    · exact agree
    · omega
  refine ⟨kept, ⟨fun accepted => ?_, fun ⟨accepted, same⟩ => (kept same).trans accepted⟩, ?_⟩
  · have none : node.overfull 0 = 0 := overfull_of_check 0 node accepted
    have same : other.overfull 0 = node.overfull 0 := by omega
    exact ⟨(kept same).symm.trans accepted, same⟩
  · intro differ
    obtain agree | ⟨-, refused⟩ := result
    · exact absurd agree differ
    · exact refused

def filledBreak : Node :=
  .fragment [wrappedList, .element "br" [] [.fragment [.text "x"]] []]

def unwrappedBreak : Node :=
  .fragment [unwrappedList, .element "br" [] [.text "x"] []]

theorem validate_filledBreak :
    filledBreak.Unwrapped unwrappedBreak ∧ unwrappedBreak.overfull 0 = filledBreak.overfull 0 ∧
      filledBreak.validate = unwrappedBreak.validate ∧
      unwrappedBreak.validate = .error (.voidElementChildren "br") := by
  have text : ListUnwrapped [.fragment [.text "x"]] [.text "x"] :=
    .unwrap (.keep (.text "x") .nil) .nil
  have unwrapped : filledBreak.Unwrapped unwrappedBreak :=
    .fragment (.keep wrappedList_unwrapped (.keep (.element "br" [] [] text) .nil))
  have same : unwrappedBreak.overfull 0 = filledBreak.overfull 0 := by decide
  exact ⟨unwrapped, same, (validate_unwrapped unwrapped).1 same, rfl⟩

theorem unwrapped_boxed {inner unwrapped : List Node} (unwraps : ListUnwrapped inner unwrapped)
    (n : Nat) : Unwrapped (boxed n inner) (boxed n unwrapped) := by
  induction n with
  | zero => exact .element "div" [] [] unwraps
  | succ n ih => exact .element "div" [] [] (.keep ih .nil)

/-- An empty fragment is the child of a void element, or the node that is too deep. Without it
there is nothing to refuse. -/
theorem emptyFragment_refused :
    (Unwrapped (.element "br" [] [.fragment []] []) (.element "br" [] [] []) ∧
      (Node.element "br" [] [.fragment []] []).validate = .error (.voidElementChildren "br") ∧
      (Node.element "br" [] [] []).validate = .ok ()) ∧
    Unwrapped (boxed 256 [.fragment []]) (boxed 256 []) ∧
      (boxed 256 [.fragment []]).validate = .error .nestedTooDeeply ∧
      (boxed 256 []).validate = .ok () := by
  have nothing : ListUnwrapped [.fragment []] [] := .unwrap .nil .nil
  have empty : (boxed 256 []).validate = .ok () := check_boxed [] (by decide)
  have fragment : (boxed 256 [.fragment []]).validate = .error .nestedTooDeeply :=
    check_boxed _ (by decide)
  exact ⟨⟨.element "br" [] [] nothing, rfl, rfl⟩, unwrapped_boxed nothing 256, fragment, empty⟩

end Node

end AtomicMarkup
