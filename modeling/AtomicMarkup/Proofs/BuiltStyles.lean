import AtomicMarkup.Element
import AtomicMarkup.Proofs.Delimited
import AtomicMarkup.Proofs.Words
import AtomicMarkup.Sheet.ClassTable

/-!
Styles that were built: typed properties, and custom ones that were checked, in scopes of any
depth. Whatever such a style declares, the property has a name behind its hyphens, which can be
the stem of a class.
-/

namespace AtomicMarkup

open Text

/-- A typed property, or a custom one that was checked. -/
def Property.Made : Property → Prop
  | .custom c => ∃ name value, CustomProperty.make name value = .ok c
  | _ => True

/-- A step with properties that were made, in any scopes. -/
inductive StyleStep.Made : StyleStep → Prop where
  | property {p : Property} (made : p.Made) : StyleStep.Made (.property p)
  | inside (scope : Scope) {steps : List StyleStep} (each : ∀ step ∈ steps, StyleStep.Made step) :
    StyleStep.Made (.inside scope steps)

def Element.Built (e : Element) : Prop :=
  ∃ steps, (∀ step ∈ steps, StyleStep.Made step) ∧
    e.styles = StyleStep.listDeclarations .root steps

theorem StyleStep.listDeclarations_eq_flatMap (outer : Scope) (steps : List StyleStep) :
    listDeclarations outer steps = steps.flatMap (declarations outer) :=
  eq_flatMap_of_cons rfl (fun _ _ => by rw [listDeclarations]) steps

namespace Element

theorem Built.edit {e : Element} (built : e.Built) {edit : Edit}
    (made : ∀ step, edit = .style step → step.Made) : (e.edit edit).Built := by
  obtain ⟨steps, each, styles⟩ := built
  -- Only a style adds declarations.
  cases edit with
  | style step =>
    refine ⟨steps ++ [step], ?_, ?_⟩
    · rw [List.forall_mem_append]
      exact ⟨each, List.forall_mem_singleton.mpr (made step rfl)⟩
    · rw [StyleStep.listDeclarations_eq_flatMap, List.flatMap_append, List.flatMap_singleton,
        ← StyleStep.listDeclarations_eq_flatMap, ← styles]
      rfl
  | flagIf name on =>
    cases on <;> exact ⟨steps, each, styles⟩
  | addClass classes =>
    refine ⟨steps, each, ?_⟩
    rw [← styles]
    simp only [Element.edit, addClass]
    split <;> rfl
  | _ => exact ⟨steps, each, styles⟩

theorem built_build {tag : String} {edits : List Edit}
    (made : ∀ step, .style step ∈ edits → step.Made) : ((bare tag).build edits).Built := by
  have fold (e : Element) (built : e.Built) : (edits.foldl Element.edit e).Built := by
    induction edits generalizing e with
    | nil => exact built
    | cons edit rest ih =>
      refine ih (fun step member => made step (List.mem_cons_of_mem _ member)) _ ?_
      exact built.edit fun step same => made step (same ▸ List.mem_cons_self)
  exact fold (bare tag) ⟨[], nofun, rfl⟩

end Element

/-- A declaration as scopes make them, with a name as the stem of its property. -/
def Declaration.Named (d : Declaration) : Prop :=
  NameRule.tagName.accepts (ClassTable.stem d.property) = true ∧
    ∃ scope : Scope, d.pseudo = Pseudo.suffix? scope.pseudos

theorem Scope.named_declare (scope : Scope) {property : String}
    (named : NameRule.tagName.accepts (ClassTable.stem property) = true) (value : String) :
    (scope.declare property value).Named :=
  ⟨named, scope, rfl⟩

theorem ClassTable.toList_stem {s : String} {hyphens name : List Char}
    (chars : s.toList = hyphens ++ name) (each : ∀ c ∈ hyphens, c = '-')
    (named : NameRule.tagName.acceptsChars name = true) :
    (stem s).toList = name := by
  have ahead : ∀ c ∈ hyphens, (c == '-') = true := fun c member => beq_iff_eq.mpr (each c member)
  have letter : ∀ c ∈ name.head?, (c == '-') = false := by
    cases name with
    | nil => nofun
    | cons c rest =>
      rw [NameRule.acceptsChars, Bool.and_eq_true] at named
      refine forall_head?_cons (beq_eq_false_iff_ne.mpr ?_)
      rintro rfl
      exact absurd named.1 (by decide)
  rw [stem, String.toList_ofList, chars, dropWhile_before ahead letter]

theorem CustomProperty.make_eq_ok_iff {name value : String} {c : CustomProperty} :
    make name value = .ok c ↔ isPropertyName name = true ∧
      (allBlank value || value.toList.any isForbidden) = false ∧
      c = ⟨lowercase name, trim value⟩ := by
  rw [make]
  cases isPropertyName name with
  | false => simp
  | true => cases allBlank value || value.toList.any isForbidden <;> simp [eq_comm]

theorem CustomProperty.accepts_stem {c : CustomProperty} {name value : String}
    (made : CustomProperty.make name value = .ok c) :
    NameRule.tagName.accepts (ClassTable.stem c.name) = true := by
  obtain ⟨accepted, -, rfl⟩ := make_eq_ok_iff.mp made
  obtain ⟨hyphens, letters, chars, each, named⟩ := exists_of_isPropertyName accepted
  have lowered : (lowercase name).toList =
      hyphens.map Char.toLower ++ letters.map Char.toLower := by
    rw [lowercase, String.toList_map, chars, List.map_append]
  have hyphensStay : ∀ c ∈ hyphens.map Char.toLower, c = '-' := by
    refine List.forall_mem_map.mpr fun c member => ?_
    rw [each c member]
    rfl
  rw [NameRule.accepts, ClassTable.toList_stem lowered hyphensStay (acceptsChars_toLower named)]
  exact acceptsChars_toLower named

theorem Border.accepts_stem (b : Border) :
    NameRule.tagName.accepts (ClassTable.stem b.property) = true ∧
      NameRule.tagName.accepts (ClassTable.stem (b.property ++ "-color")) = true := by
  unfold Border.property
  cases b.side with
  | none => decide
  | some side => cases side <;> decide

theorem SchemeColor.exists_of_mem_declarations {property : String} {c : SchemeColor}
    {scope : Scope} {d : Declaration} (member : d ∈ c.declarations property scope) :
    ∃ color : Color, d = scope.declare property color.css ∨
      d = scope.darkened.declare property color.css := by
  unfold declarations at member
  split at member
  · exact ⟨_, .inl (List.mem_singleton.mp member)⟩
  · rcases List.mem_cons.mp member with light | dark
    · exact ⟨_, .inl light⟩
    · split at dark
      · contradiction
      · exact ⟨_, .inr (List.mem_singleton.mp dark)⟩

theorem Border.exists_of_mem_declarations {b : Border} {scope : Scope} {d : Declaration}
    (member : d ∈ b.declarations scope) :
    d = scope.declare b.property (" ".intercalate (b.parts scope)) ∨
      ∃ color : Color, d = scope.darkened.declare (b.property ++ "-color") color.css := by
  unfold declarations at member
  split at member
  · contradiction
  · rcases List.mem_cons.mp member with whole | dark
    · exact .inl whole
    · unfold darkDeclarations at dark
      split at dark
      · contradiction
      · split at dark
        · contradiction
        · exact .inr ⟨_, List.mem_singleton.mp dark⟩

theorem Sides.exists_of_mem_declarations {property : String} {s : Sides} {scope : Scope}
    {d : Declaration} (member : d ∈ s.declarations property scope) :
    (∃ lengths : List Length,
        d = scope.declare property (" ".intercalate (lengths.map Length.css))) ∨
      ∃ side ∈ ["top", "right", "bottom", "left"], ∃ l : Length,
        d = scope.declare (property ++ "-" ++ side) l.css := by
  unfold declarations at member
  split at member
  · exact .inl ⟨_, List.mem_singleton.mp member⟩
  · obtain ⟨⟨side, length⟩, inside, declared⟩ := List.mem_filterMap.mp member
    obtain ⟨l, -, rfl⟩ := Option.map_eq_some_iff.mp declared
    exact .inr ⟨side, List.mem_map_of_mem (f := Prod.fst) inside, l, rfl⟩

theorem Border.named_declarations (b : Border) (scope : Scope) :
    ∀ d ∈ b.declarations scope, d.Named := by
  intro d member
  obtain rfl | ⟨color, rfl⟩ := exists_of_mem_declarations member
  · exact scope.named_declare b.accepts_stem.1 _
  · exact scope.darkened.named_declare b.accepts_stem.2 _

theorem SchemeColor.named_declarations {property : String}
    (accepted : NameRule.tagName.accepts (ClassTable.stem property) = true) (c : SchemeColor)
    (scope : Scope) : ∀ d ∈ c.declarations property scope, d.Named := by
  intro d member
  obtain ⟨color, rfl | rfl⟩ := exists_of_mem_declarations member
  · exact scope.named_declare accepted _
  · exact scope.darkened.named_declare accepted _

theorem Sides.named_declarations {property : String}
    (accepted : NameRule.tagName.accepts (ClassTable.stem property) = true)
    (each : ∀ side ∈ ["top", "right", "bottom", "left"],
      NameRule.tagName.accepts (ClassTable.stem (property ++ "-" ++ side)) = true)
    (s : Sides) (scope : Scope) : ∀ d ∈ s.declarations property scope, d.Named := by
  intro d member
  obtain ⟨lengths, rfl⟩ | ⟨side, known, l, rfl⟩ := exists_of_mem_declarations member
  · exact scope.named_declare accepted _
  · exact scope.named_declare (each side known) _

theorem Property.Made.named_declarations {p : Property} (made : p.Made) (scope : Scope) :
    ∀ d ∈ p.declarations scope, d.Named := by
  cases p with
  | length property value =>
    refine List.forall_mem_singleton.mpr (scope.named_declare ?_ _)
    cases property <;> decide
  | fontFamily stack =>
    cases stack with
    | nil => nofun
    | cons first rest => exact List.forall_mem_singleton.mpr (scope.named_declare (by decide) _)
  | color property value =>
    refine value.named_declarations ?_ scope
    cases property <;> decide
  | margin sides => exact sides.named_declarations (by decide) (by decide) scope
  | padding sides => exact sides.named_declarations (by decide) (by decide) scope
  | border value => exact value.named_declarations scope
  | custom property =>
    obtain ⟨name, value, accepted⟩ := made
    exact List.forall_mem_singleton.mpr
      (scope.named_declare (CustomProperty.accepts_stem accepted) _)
  | _ => exact List.forall_mem_singleton.mpr (scope.named_declare (by decide) _)

mutual

theorem StyleStep.Made.named_declarations (outer : Scope) :
    ∀ {step : StyleStep}, step.Made → ∀ d ∈ step.declarations outer, d.Named
  | .property _, .property made => made.named_declarations outer
  | .inside scope steps, .inside _ each =>
    StyleStep.named_listDeclarations (outer.merge scope) steps each

theorem StyleStep.named_listDeclarations (outer : Scope) :
    ∀ steps : List StyleStep, (∀ step ∈ steps, step.Made) →
      ∀ d ∈ StyleStep.listDeclarations outer steps, d.Named
  | [], _ => nofun
  | step :: rest, each => by
    rw [List.forall_mem_cons] at each
    rw [StyleStep.listDeclarations, List.forall_mem_append]
    exact ⟨each.1.named_declarations outer, StyleStep.named_listDeclarations outer rest each.2⟩

end

end AtomicMarkup
