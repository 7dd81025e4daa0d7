import AtomicMarkup.Validity

/-!
What an accepted page tree is: the places in it are shallow enough, names have the form of names,
and void elements are empty. Each check is turned into the condition that it decides; in front
stands what checks one after the other give.
-/

namespace AtomicMarkup

section Results

variable {ε α β : Type} {e : ε} {result : Except ε α} {f : α → β}

theorem toOption_eq_some_iff {value : α} : result.toOption = some value ↔ result = .ok value := by
  cases result with
  | error e => simp [Except.toOption]
  | ok found => simp [Except.toOption]

theorem guard_eq_ok_iff {refused : Prop} [Decidable refused] {value : α} :
    (if refused then .error e else result) = .ok value ↔ ¬ refused ∧ result = .ok value := by
  split <;> simp [*]

theorem bind_eq_ok_iff {first second : Except ε Unit} :
    (first >>= fun _ => second) = .ok () ↔ first = .ok () ∧ second = .ok () := by
  cases first with
  | error e => simp [bind, Except.bind]
  | ok u => simp [bind, Except.bind]

theorem bind_eq_error_iff {next : α → Except ε β} :
    (result >>= next) = .error e ↔
      result = .error e ∨ ∃ value, result = .ok value ∧ next value = .error e := by
  cases result with
  | error other => simp [bind, Except.bind]
  | ok value => simp [bind, Except.bind]

theorem bind_pure_eq_ok_iff {image : β} :
    (result >>= fun value => pure (f value)) = .ok image ↔
      ∃ value, result = .ok value ∧ f value = image := by
  cases result with
  | error e => simp [bind, Except.bind]
  | ok value => simp [bind, Except.bind, pure, Except.pure]

theorem bind_pure_eq_error_iff :
    (result >>= fun value => pure (f value)) = .error e ↔ result = .error e := by
  rw [bind_eq_error_iff]
  simp [pure, Except.pure]

theorem forM_eq_ok_iff {check : α → Except ε Unit} {items : List α} :
    items.forM check = .ok () ↔ ∀ item ∈ items, check item = .ok () := by
  induction items with
  | nil => simp [pure, Except.pure]
  | cons item rest ih =>
    change (check item >>= fun _ => rest.forM check) = .ok () ↔ _
    rw [bind_eq_ok_iff, ih, List.forall_mem_cons]

theorem forM_eq_error_iff {check : α → Except ε Unit} {items : List α} :
    items.forM check = .error e ↔ ∃ before item after, items = before ++ item :: after ∧
      (∀ passed ∈ before, check passed = .ok ()) ∧ check item = .error e := by
  induction items with
  | nil => simp [pure, Except.pure]
  | cons first rest ih =>
    change (check first >>= fun _ => rest.forM check) = .error e ↔ _
    rw [bind_eq_error_iff, ih]
    constructor
    · rintro (refused | ⟨_, accepted, before, item, after, rfl, passed, refused⟩)
      · exact ⟨[], first, rest, rfl, nofun, refused⟩
      · exact ⟨first :: before, item, after, rfl, List.forall_mem_cons.mpr ⟨accepted, passed⟩,
          refused⟩
    · rintro ⟨before, item, after, split, passed, refused⟩
      rcases List.cons_eq_append_iff.mp split with ⟨rfl, same⟩ | ⟨front, rfl, rfl⟩
      · obtain ⟨rfl, rfl⟩ := List.cons.inj same
        exact .inl refused
      · rw [List.forall_mem_cons] at passed
        exact .inr ⟨(), passed.1, front, item, after, rfl, passed.2, refused⟩

end Results

theorem checkTag_eq_ok_iff {tag : String} :
    checkTag tag = .ok () ↔ Text.NameRule.tagName.accepts tag = true := by
  unfold checkTag
  split <;> simp_all

theorem checkAttribute_eq_ok_iff {tag : String} {a : Attribute} :
    checkAttribute tag a = .ok () ↔ Text.NameRule.attributeName.accepts a.name = true := by
  unfold checkAttribute
  split <;> simp_all

theorem checkStyle_eq_ok_iff {tag : String} {d : Declaration} :
    checkStyle tag d = .ok () ↔
      ∀ selector ∈ d.selector, Text.NameRule.selectorTarget.accepts selector.target = true := by
  unfold checkStyle
  cases d.selector with
  | none => simp
  | some selector => simp

/-- An element that passes the checks of an element by itself. -/
structure Element.Valid (e : Element) : Prop where
  tag : Text.NameRule.tagName.accepts e.tag = true
  attributes : ∀ a ∈ e.attributes, Text.NameRule.attributeName.accepts a.name = true
  selectors : ∀ d ∈ e.styles, ∀ selector ∈ d.selector,
    Text.NameRule.selectorTarget.accepts selector.target = true
  void : isVoidTag e.tag = true → e.children = []

theorem Element.checkSelf_eq_ok_iff {e : Element} : e.checkSelf = .ok () ↔ e.Valid := by
  have emptyVoid : (if (isVoidTag e.tag && !e.children.isEmpty) = true then
        throw (.voidElementChildren e.tag) else pure PUnit.unit : Except MarkupError PUnit) =
          .ok () ↔ (isVoidTag e.tag = true → e.children = []) := by
    split <;> simp_all [throw, throwThe, MonadExceptOf.throw, pure, Except.pure]
  unfold checkSelf
  rw [bind_eq_ok_iff, bind_eq_ok_iff, bind_eq_ok_iff, emptyVoid, checkTag_eq_ok_iff,
    forM_eq_ok_iff, forM_eq_ok_iff]
  simp only [checkAttribute_eq_ok_iff, checkStyle_eq_ok_iff]
  exact ⟨fun ⟨tag, attributes, selectors, void⟩ => ⟨tag, attributes, selectors, void⟩,
    fun ⟨tag, attributes, selectors, void⟩ => ⟨tag, attributes, selectors, void⟩⟩

theorem Node.check_deep {depth : Nat} (deep : maxNestingDepth < depth) (node : Node) :
    node.check depth = .error .nestedTooDeeply := by
  cases node <;> rw [check, if_pos deep]

theorem Node.checkAll_eq_forM (depth : Nat) (nodes : List Node) :
    checkAll depth nodes = nodes.forM (check depth) := by
  induction nodes with
  | nil => rfl
  | cons node rest ih =>
    rw [checkAll, ih]
    rfl

theorem Node.checkAll_append (depth : Nat) (before after : List Node) :
    checkAll depth (before ++ after) =
      (checkAll depth before >>= fun _ => checkAll depth after) := by
  simp only [checkAll_eq_forM]
  exact List.forM_append

theorem Node.checkAll_eq_ok_iff {depth : Nat} {nodes : List Node} :
    Node.checkAll depth nodes = .ok () ↔ ∀ node ∈ nodes, node.check depth = .ok () := by
  rw [checkAll_eq_forM, forM_eq_ok_iff]

theorem Node.check_element_eq_ok_iff {depth : Nat} {tag : String} {attributes : List Attribute}
    {children : List Node} {styles : List Declaration} :
    (Node.element tag attributes children styles).check depth = .ok () ↔
      depth ≤ maxNestingDepth ∧ Element.Valid ⟨tag, attributes, children, styles⟩ ∧
        ∀ node ∈ children, node.check (depth + 1) = .ok () := by
  rw [check, guard_eq_ok_iff, Nat.not_lt, bind_eq_ok_iff, Element.checkSelf_eq_ok_iff,
    checkAll_eq_ok_iff]

theorem Node.check_fragment_eq_ok_iff {depth : Nat} {items : List Node} :
    (Node.fragment items).check depth = .ok () ↔
      depth ≤ maxNestingDepth ∧ ∀ node ∈ items, node.check depth = .ok () := by
  rw [check, guard_eq_ok_iff, Nat.not_lt, checkAll_eq_ok_iff]

end AtomicMarkup
