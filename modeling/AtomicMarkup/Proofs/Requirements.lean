import AtomicMarkup.Proofs.NameGrammar
import AtomicMarkup.Proofs.Occurrences
import AtomicMarkup.Proofs.Validity

/-!
What an accepted page tree is required to be, place by place in document order. A place comes
before the places inside it. Its depth is required first, and of an element then its tag, its
attributes, the selectors of its styles and its being empty if it is void. Validity is the verdict
on this list of requirements: the refusal of the first one that is not met.
-/

namespace AtomicMarkup

inductive Requirement where
  | shallow (depth : Nat)
  | tagNamed (tag : String)
  | attributeNamed (tag name : String)
  | selectorFormed (tag target : String)
  | emptyIfVoid (tag : String) (children : List Node)

namespace Requirement

def Met : Requirement → Prop
  | shallow depth => depth ≤ maxNestingDepth
  | tagNamed tag => tag.toList ∈ Text.tagNames
  | attributeNamed _ name => name.toList ∈ Text.attributeNames
  | selectorFormed _ target => target.toList ∈ Text.selectorTargets
  | emptyIfVoid tag children => tag ∈ voidTags → children = []

def refusal : Requirement → MarkupError
  | shallow _ => .nestedTooDeeply
  | tagNamed tag => .invalidTag tag
  | attributeNamed tag name => .invalidAttribute tag name
  | selectorFormed tag target => .invalidSelector tag target
  | emptyIfVoid tag _ => .voidElementChildren tag

instance : DecidablePred Met
  | shallow depth => inferInstanceAs (Decidable (depth ≤ maxNestingDepth))
  | tagNamed _ => decidable_of_iff _ Text.NameRule.tagName_accepts_iff
  | attributeNamed _ _ => decidable_of_iff _ Text.NameRule.attributeName_accepts_iff
  | selectorFormed _ _ => decidable_of_iff _ Text.NameRule.selectorTarget_accepts_iff
  | emptyIfVoid tag [] => .isTrue fun _ => rfl
  | emptyIfVoid tag (_ :: _) => decidable_of_iff (tag ∉ voidTags) (by simp [Met])

def verdict (requirements : List Requirement) : Except MarkupError Unit :=
  match requirements.find? fun r => !decide r.Met with
  | none => .ok ()
  | some r => .error r.refusal

theorem verdict_append (before after : List Requirement) :
    verdict (before ++ after) = (verdict before >>= fun _ => verdict after) := by
  unfold verdict
  rw [List.find?_append]
  cases before.find? fun r => !decide r.Met with
  | none => rfl
  | some r => rfl

theorem verdict_cons (r : Requirement) (rest : List Requirement) :
    verdict (r :: rest) = if r.Met then verdict rest else .error r.refusal := by
  unfold verdict
  by_cases met : r.Met <;> simp [met]

theorem verdict_shallow_cons (depth : Nat) (rest : List Requirement) :
    verdict (shallow depth :: rest) =
      if maxNestingDepth < depth then .error .nestedTooDeeply else verdict rest := by
  rw [verdict_cons, ← ite_not]
  exact if_congr Nat.not_le rfl rfl

theorem verdict_eq_ok_iff {requirements : List Requirement} :
    verdict requirements = .ok () ↔ ∀ r ∈ requirements, r.Met := by
  unfold verdict
  cases found : requirements.find? fun r => !decide r.Met with
  | none => simpa using List.find?_eq_none.mp found
  | some r =>
    have unmet := List.find?_some found
    have member := List.mem_of_find?_eq_some found
    simp only [reduceCtorEq, false_iff]
    intro all
    simp [all r member] at unmet

theorem verdict_eq_error_iff {requirements : List Requirement} {error : MarkupError} :
    verdict requirements = .error error ↔
      ∃ before r after, requirements = before ++ r :: after ∧ (∀ b ∈ before, b.Met) ∧ ¬ r.Met ∧
        r.refusal = error := by
  unfold verdict
  constructor
  · intro refused
    cases found : requirements.find? fun r => !decide r.Met with
    | none =>
      rw [found] at refused
      contradiction
    | some r =>
      rw [found] at refused
      obtain ⟨unmet, before, after, split, met⟩ := List.find?_eq_some_iff_append.mp found
      refine ⟨before, r, after, split, ?_, by simpa using unmet, Except.error.inj refused⟩
      exact fun b inside => by simpa using met b inside
  · rintro ⟨before, r, after, rfl, met, unmet, rfl⟩
    have found : (before ++ r :: after).find? (fun r => !decide r.Met) = some r := by
      rw [List.find?_eq_some_iff_append]
      exact ⟨by simpa using unmet, before, after, rfl, fun b inside => by simp [met b inside]⟩
    rw [found]

end Requirement

open Requirement

def Element.requirements (e : Element) : List Requirement :=
  tagNamed e.tag ::
    (e.attributes.map (fun a => attributeNamed e.tag a.name) ++
      ((e.styles.filterMap fun d => d.selector.map fun s => selectorFormed e.tag s.target) ++
        [emptyIfVoid e.tag e.children]))

def Occurrence.requirements (o : Occurrence) : List Requirement :=
  shallow o.depth :: o.node.toElement?.elim [] Element.requirements

def Node.requirements (node : Node) : List Requirement :=
  (node.occurrences 0 false).flatMap Occurrence.requirements

theorem forM_eq_verdict {α : Type} {check : α → Except MarkupError Unit}
    {requirements : α → List Requirement}
    (decided : ∀ item, check item = verdict (requirements item)) (items : List α) :
    items.forM check = verdict (items.flatMap requirements) := by
  induction items with
  | nil => rfl
  | cons item rest ih =>
    change (check item >>= fun _ => rest.forM check) = _
    rw [List.flatMap_cons, verdict_append, ih, decided]

theorem checkTag_eq_verdict (tag : String) : checkTag tag = verdict [tagNamed tag] := by
  rw [verdict_cons]
  exact if_congr Text.NameRule.tagName_accepts_iff rfl rfl

theorem checkAttribute_eq_verdict (tag : String) (a : Attribute) :
    checkAttribute tag a = verdict [attributeNamed tag a.name] := by
  rw [verdict_cons]
  exact if_congr Text.NameRule.attributeName_accepts_iff rfl rfl

theorem checkStyle_eq_verdict (tag : String) (d : Declaration) :
    checkStyle tag d =
      verdict (d.selector.map fun s => selectorFormed tag s.target).toList := by
  unfold checkStyle
  cases d.selector with
  | none => rfl
  | some selector =>
    rw [Option.map_some, Option.toList_some, verdict_cons]
    exact if_congr Text.NameRule.selectorTarget_accepts_iff rfl rfl

theorem Element.checkSelf_eq_verdict (e : Element) : e.checkSelf = verdict e.requirements := by
  have attributes : e.attributes.forM (checkAttribute e.tag) =
      verdict (e.attributes.map fun a => attributeNamed e.tag a.name) := by
    rw [List.map_eq_flatMap]
    exact forM_eq_verdict (checkAttribute_eq_verdict e.tag) e.attributes
  have selectors : e.styles.forM (checkStyle e.tag) =
      verdict (e.styles.filterMap fun d =>
        d.selector.map fun s => selectorFormed e.tag s.target) := by
    rw [List.filterMap_eq_flatMap_toList]
    exact forM_eq_verdict (checkStyle_eq_verdict e.tag) e.styles
  have unmet : (isVoidTag e.tag && !e.children.isEmpty) = true ↔
      ¬ (emptyIfVoid e.tag e.children).Met := by
    simp [Met, isVoidTag]
  have empty : (if (isVoidTag e.tag && !e.children.isEmpty) = true then
        throw (.voidElementChildren e.tag) else pure PUnit.unit : Except MarkupError PUnit) =
      verdict [emptyIfVoid e.tag e.children] := by
    rw [verdict_cons]
    exact (if_congr unmet rfl rfl).trans (ite_not _ _ _)
  rw [requirements, ← List.singleton_append, verdict_append, verdict_append, verdict_append,
    checkSelf, checkTag_eq_verdict, attributes, selectors, empty]

mutual

theorem Node.check_eq_verdict (depth : Nat) (inVoid : Bool) : (node : Node) →
    node.check depth = verdict ((node.occurrences depth inVoid).flatMap Occurrence.requirements)
  | .element tag attributes children styles => by
    have self := Element.checkSelf_eq_verdict ⟨tag, attributes, children, styles⟩
    have below := Node.checkAll_eq_verdict (depth + 1) (inVoid || isVoidTag tag) children
    rw [check, self, below, occurrences, List.flatMap_cons, Occurrence.requirements,
      List.cons_append, verdict_shallow_cons, verdict_append]
    rfl
  | .text s => by
    rw [check, occurrences, List.flatMap_singleton, Occurrence.requirements, verdict_shallow_cons]
    rfl
  | .raw s => by
    rw [check, occurrences, List.flatMap_singleton, Occurrence.requirements, verdict_shallow_cons]
    rfl
  | .fragment items => by
    have below := Node.checkAll_eq_verdict depth inVoid items
    rw [check, below, occurrences, List.flatMap_cons, Occurrence.requirements, List.cons_append,
      verdict_shallow_cons]
    rfl

theorem Node.checkAll_eq_verdict (depth : Nat) (inVoid : Bool) : (nodes : List Node) →
    Node.checkAll depth nodes =
      verdict ((Node.listOccurrences depth inVoid nodes).flatMap Occurrence.requirements)
  | [] => rfl
  | node :: rest => by
    have first := Node.check_eq_verdict depth inVoid node
    have later := Node.checkAll_eq_verdict depth inVoid rest
    rw [checkAll, first, later, listOccurrences, List.flatMap_append, verdict_append]

end

theorem Element.met_requirements_iff {e : Element} :
    (∀ r ∈ e.requirements, r.Met) ↔
      e.tag.toList ∈ Text.tagNames ∧
        (∀ a ∈ e.attributes, a.name.toList ∈ Text.attributeNames) ∧
        (∀ d ∈ e.styles, ∀ s ∈ d.selector, s.target.toList ∈ Text.selectorTargets) ∧
        (e.tag ∈ voidTags → e.children = []) := by
  rw [requirements, List.forall_mem_cons, List.forall_mem_append, List.forall_mem_append,
    List.forall_mem_singleton, List.forall_mem_map]
  have selectors : (∀ r ∈ e.styles.filterMap fun d =>
        d.selector.map fun s => selectorFormed e.tag s.target, r.Met) ↔
      ∀ d ∈ e.styles, ∀ s ∈ d.selector, s.target.toList ∈ Text.selectorTargets := by
    simp only [List.mem_filterMap, Option.map_eq_some_iff]
    constructor
    · intro each d member s selected
      exact each _ ⟨d, member, s, selected, rfl⟩
    · rintro each r ⟨d, member, s, selected, rfl⟩
      exact each d member s selected
  rw [selectors]
  exact Iff.rfl

theorem Occurrence.met_requirements_iff {o : Occurrence} :
    (∀ r ∈ o.requirements, r.Met) ↔
      o.depth ≤ maxNestingDepth ∧ ∀ e ∈ o.node.toElement?, ∀ r ∈ e.requirements, r.Met := by
  rw [requirements, List.forall_mem_cons]
  cases o.node.toElement? with
  | none => simp [Met]
  | some e => simp [Met]

/-- A tree is accepted just when every node of it is shallow enough and every element has the
names and selectors by their grammars, and no children if it is void. Otherwise it is refused for
the first requirement in document order that is not met. -/
theorem Node.validate_decides (node : Node) :
    (node.validate = .ok () ↔
      ∀ o ∈ node.occurrences 0 false, o.depth ≤ maxNestingDepth ∧
        ∀ e ∈ o.node.toElement?,
          e.tag.toList ∈ Text.tagNames ∧
            (∀ a ∈ e.attributes, a.name.toList ∈ Text.attributeNames) ∧
            (∀ d ∈ e.styles, ∀ s ∈ d.selector, s.target.toList ∈ Text.selectorTargets) ∧
            (e.tag ∈ voidTags → e.children = [])) ∧
    ∀ error, node.validate = .error error ↔
      ∃ before r after, node.requirements = before ++ r :: after ∧ (∀ b ∈ before, b.Met) ∧
        ¬ r.Met ∧ r.refusal = error := by
  have decided : node.validate = verdict node.requirements := node.check_eq_verdict 0 false
  rw [decided]
  refine ⟨?_, fun error => verdict_eq_error_iff⟩
  simp only [verdict_eq_ok_iff, Node.requirements, List.forall_mem_flatMap,
    Occurrence.met_requirements_iff, Element.met_requirements_iff]

-- The tag that is no name comes later than the attribute inside.
example : (Node.fragment [.element "p" [] [.element "br" [⟨"on click", .flag⟩] [.text "x"] []] [],
    .element "1" [] [] []]).validate = .error (.invalidAttribute "br" "on click") :=
  rfl

end AtomicMarkup
