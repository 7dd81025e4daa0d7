import AtomicMarkup.Proofs.BuiltStyles
import AtomicMarkup.Proofs.Effective
import AtomicMarkup.Style.Step

/-!
Names of custom properties on one element. A custom property is declared under its name without
capitals, whatever it begins with. In one scope, then, those properties replace one another whose
names differ in capitals only, and a property is found under the name it was given only if that
name has none.
-/

namespace AtomicMarkup

open Text

namespace Declaration

variable {scope : Scope}

theorem sameScope_declare_declare (scope : Scope) (property value otherProperty other : String) :
    (scope.declare property value).sameScope (scope.declare otherProperty other) =
      (property == otherProperty) := by
  rw [Bool.eq_iff_iff, sameScope_iff, beq_iff_eq]
  exact ⟨fun same => same.1, fun same => ⟨same, rfl, rfl, rfl⟩⟩

theorem effective_map_declare_iff {pairs : List (String × String)} :
    effective (pairs.map fun p => scope.declare p.1 p.2) =
        (pairs.map fun p => scope.declare p.1 p.2).reverse ↔ (pairs.map Prod.fst).Nodup := by
  have apart : (pairs.map fun p => scope.declare p.1 p.2).Pairwise
      (fun a b => a.sameScope b = false) ↔ (pairs.map Prod.fst).Nodup := by
    simp only [List.Nodup, List.pairwise_map, sameScope_declare_declare, beq_eq_false_iff_ne]
  rw [← apart]
  refine ⟨fun kept => ?_, effective_of_pairwise⟩
  have backwards := pairwise_effective (pairs.map fun p => scope.declare p.1 p.2)
  rw [kept, List.pairwise_reverse] at backwards
  refine backwards.imp fun {a b} other => ?_
  rw [Bool.eq_false_iff] at other ⊢
  exact fun same => other (sameScope_symm same)

theorem filter_effective_map_declare {pairs : List (String × String)} (property : String) :
    (effective (pairs.map fun p => scope.declare p.1 p.2)).filter (·.property == property) =
      ((pairs.filter (property == ·.1)).getLast?.map fun p => scope.declare p.1 p.2).toList := by
  have ofProperty : ∀ d ∈ pairs.map fun p => scope.declare p.1 p.2,
      (scope.declare property "").sameScope d = (d.property == property) := by
    rw [List.forall_mem_map]
    intro p _
    rw [sameScope_declare_declare]
    exact Bool.beq_comm
  have inEffect := filter_effective (pairs.map fun p => scope.declare p.1 p.2)
    (scope.declare property "")
  rw [List.filter_congr fun d kept => ofProperty d (mem_of_mem_effective kept), List.filter_map,
    List.getLast?_map] at inEffect
  rw [inEffect]
  simp only [Function.comp_def, sameScope_declare_declare]

end Declaration

namespace CustomProperty

variable {given : List (String × String)} {customs : List CustomProperty}

def listDeclarations (scope : Scope) (customs : List CustomProperty) : List Declaration :=
  StyleStep.listDeclarations scope (customs.map fun c => .property (.custom c))

theorem listDeclarations_eq (scope : Scope) (customs : List CustomProperty) :
    listDeclarations scope customs = customs.map fun c => scope.declare c.name c.value := by
  rw [listDeclarations, StyleStep.listDeclarations_eq_flatMap, List.flatMap_map,
    List.map_eq_flatMap]
  rfl

theorem listDeclarations_made (made : List.Forall₂ (fun p c => make p.1 p.2 = .ok c) given customs)
    (scope : Scope) :
    listDeclarations scope customs =
      (given.map fun p => (lowercase p.1, trim p.2)).map fun p => scope.declare p.1 p.2 := by
  rw [listDeclarations_eq]
  induction made with
  | nil => rfl
  | cons first _ ih =>
    obtain ⟨-, -, rfl⟩ := make_eq_ok_iff.mp first
    rw [List.map_cons, List.map_cons, List.map_cons, ih]

theorem inEffect_iff (made : List.Forall₂ (fun p c => make p.1 p.2 = .ok c) given customs)
    (different : (given.map Prod.fst).Nodup) (scope : Scope) :
    (∀ p ∈ given, scope.declare p.1 (trim p.2) ∈
        Declaration.effective (listDeclarations scope customs)) ↔
      ∀ p ∈ given, lowercase p.1 = p.1 := by
  rw [listDeclarations_made made]
  constructor
  · intro inEffect p member
    have declared := Declaration.mem_of_mem_effective (inEffect p member)
    obtain ⟨q, among, same⟩ := List.mem_map.mp (List.map_map ▸ declared)
    have name : lowercase q.1 = p.1 := congrArg Declaration.property same
    rw [← name, lowercase_lowercase]
  · intro small p member
    have names : (given.map fun p => (lowercase p.1, trim p.2)).map Prod.fst =
        given.map Prod.fst := by
      rw [List.map_map]
      exact List.map_congr_left small
    rw [← names] at different
    rw [Declaration.effective_map_declare_iff.mpr different, List.mem_reverse, List.map_map]
    exact List.mem_map.mpr ⟨p, member, by rw [Function.comp_apply, small p member]⟩

theorem allKept_iff (made : List.Forall₂ (fun p c => make p.1 p.2 = .ok c) given customs)
    (scope : Scope) :
    Declaration.effective (listDeclarations scope customs) =
        (listDeclarations scope customs).reverse ↔
      given.Pairwise fun p q => sameIgnoringCase p.1 q.1 = false := by
  rw [listDeclarations_made made, Declaration.effective_map_declare_iff]
  simp only [List.Nodup, List.pairwise_map, sameIgnoringCase, beq_eq_false_iff_ne]

theorem exists_last_kept (made : List.Forall₂ (fun p c => make p.1 p.2 = .ok c) given customs)
    (scope : Scope) {p : String × String} (member : p ∈ given) :
    ∃ last, (given.filter fun q => sameIgnoringCase p.1 q.1).getLast? = some last ∧
      (Declaration.effective (listDeclarations scope customs)).filter
          (·.property == lowercase p.1) =
        [scope.declare (lowercase p.1) (trim last.2)] := by
  have selected : (given.map fun q => (lowercase q.1, trim q.2)).filter (lowercase p.1 == ·.1) =
      (given.filter fun q => sameIgnoringCase p.1 q.1).map fun q => (lowercase q.1, trim q.2) :=
    List.filter_map
  have ofName : p ∈ given.filter fun q => sameIgnoringCase p.1 q.1 :=
    List.mem_filter.mpr ⟨member, beq_self_eq_true _⟩
  obtain ⟨q, last⟩ : ∃ q, (given.filter fun q => sameIgnoringCase p.1 q.1).getLast? = some q :=
    ⟨_, List.getLast?_eq_some_getLast (List.ne_nil_of_mem ofName)⟩
  have own : lowercase p.1 = lowercase q.1 :=
    beq_iff_eq.mp (List.mem_filter.mp (List.mem_of_getLast? last)).2
  refine ⟨q, last, ?_⟩
  rw [listDeclarations_made made, Declaration.filter_effective_map_declare, selected,
    List.getLast?_map, last, own]
  rfl

/-- Custom properties with different names, given in one scope: each is in effect under the name
it was given just when no name has a capital letter, and all of them are kept just when no two
names are the same in small letters. Names that are the same in small letters have one declaration
in effect, that of the last of them. -/
theorem kept_iff (made : List.Forall₂ (fun p c => make p.1 p.2 = .ok c) given customs)
    (different : (given.map Prod.fst).Nodup) (scope : Scope) :
    ((∀ p ∈ given, scope.declare p.1 (trim p.2) ∈
        Declaration.effective (listDeclarations scope customs)) ↔
      ∀ p ∈ given, lowercase p.1 = p.1) ∧
    (Declaration.effective (listDeclarations scope customs) =
        (listDeclarations scope customs).reverse ↔
      given.Pairwise fun p q => sameIgnoringCase p.1 q.1 = false) ∧
    ∀ p ∈ given, ∃ last, (given.filter fun q => sameIgnoringCase p.1 q.1).getLast? = some last ∧
      (Declaration.effective (listDeclarations scope customs)).filter
          (·.property == lowercase p.1) =
        [scope.declare (lowercase p.1) (trim last.2)] :=
  ⟨inEffect_iff made different scope, allKept_iff made scope,
    fun _ => exists_last_kept made scope⟩

theorem kept_hue_size :
    make "--hue" "210" = .ok ⟨"--hue", "210"⟩ ∧ make "--size" " 2px" = .ok ⟨"--size", "2px"⟩ ∧
      Declaration.effective (listDeclarations .root [⟨"--hue", "210"⟩, ⟨"--size", "2px"⟩]) =
        [.plain "--size" "2px", .plain "--hue" "210"] := by
  have hue : make "--hue" "210" = .ok ⟨"--hue", "210"⟩ :=
    make_eq_ok_iff.mpr ⟨by decide +kernel, by decide +kernel, by decide +kernel⟩
  have size : make "--size" " 2px" = .ok ⟨"--size", "2px"⟩ :=
    make_eq_ok_iff.mpr ⟨by decide +kernel, by decide +kernel, by decide +kernel⟩
  have made : List.Forall₂ (fun p c => make p.1 p.2 = .ok c) [("--hue", "210"), ("--size", " 2px")]
      [⟨"--hue", "210"⟩, ⟨"--size", "2px"⟩] := .cons hue (.cons size .nil)
  obtain ⟨-, all, -⟩ := kept_iff made (by decide) .root
  refine ⟨hue, size, ?_⟩
  rw [all.mpr (by decide +kernel)]
  decide +kernel

/-- Two sizes whose names differ in a capital letter. The second one replaces the first. -/
theorem sizes_conflated :
    make "--Size" "1px" = .ok ⟨"--size", "1px"⟩ ∧ make "--size" "2px" = .ok ⟨"--size", "2px"⟩ ∧
      Declaration.effective (listDeclarations .root [⟨"--size", "1px"⟩, ⟨"--size", "2px"⟩]) =
        [.plain "--size" "2px"] :=
  ⟨make_eq_ok_iff.mpr ⟨by decide +kernel, by decide +kernel, by decide +kernel⟩,
    make_eq_ok_iff.mpr ⟨by decide +kernel, by decide +kernel, by decide +kernel⟩,
    by decide +kernel⟩

end CustomProperty

end AtomicMarkup
