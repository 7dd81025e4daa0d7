import AtomicMarkup.Input
import AtomicMarkup.Proofs.Editing
import AtomicMarkup.Proofs.Rounding

/-!
The bounds of numeric inputs. An input has each attribute of its kind once, behind its type and its
name. Rounding keeps the order of the bounds; it does not keep a step apart from zero.
-/

namespace AtomicMarkup

open Number (IsNearest cssText exactValue? numeralValue?)

namespace Element

def setAll (e : Element) (given : List (String × Option AttributeValue)) : Element :=
  given.foldl (fun e (key, value) => match value with
      | none => e
      | some v => e.set key v) e

theorem value?_set (e : Element) (key other : String) (v : AttributeValue) :
    (e.set key v).value? other = if key = other then some v else e.value? other :=
  valueIn?_setIn key other v e.attributes

theorem value?_setAll {given : List (String × Option AttributeValue)}
    (once : (given.map Prod.fst).Nodup) (e : Element) (key : String) :
    (e.setAll given).value? key = (given.lookup key).join.or (e.value? key) := by
  induction given generalizing e with
  | nil => rfl
  | cons pair rest ih =>
    obtain ⟨first, value⟩ := pair
    rw [List.map_cons, List.nodup_cons] at once
    have fresh : first ∉ rest.map Prod.fst := once.1
    have step : e.setAll ((first, value) :: rest) = (e.setAll [(first, value)]).setAll rest := rfl
    rw [step, ih once.2, List.lookup_cons]
    by_cases same : key = first
    · subst same
      have absent : rest.lookup key = none := by
        rw [List.lookup_eq_none_iff]
        intro pair member
        have other : key ≠ pair.1 := fun same => fresh (same ▸ List.mem_map_of_mem member)
        simpa using other
      cases value with
      | none => simp [absent, setAll]
      | some v => simp [absent, setAll, value?_set]
    · have other : (key == first) = false := by simpa using same
      cases value with
      | none => simp [other, setAll]
      | some v => simp [other, setAll, value?_set, Ne.symm same]

def number? (e : Element) (key : String) : Option ℚ :=
  (e.get? key).bind numeralValue?

end Element

namespace InputKind

theorem attributes_nodup (kind : InputKind) : (kind.attributes.map Prod.fst).Nodup := by
  cases kind <;> simp [attributes]

theorem value?_element (name : String) (kind : InputKind) {key : String} (other : key ≠ "type")
    (otherToo : key ≠ "name") :
    (kind.element name).value? key = (kind.attributes.lookup key).join := by
  have built : kind.element name = Element.setAll
      (((Element.bare "input").setText "type" kind.typeName).setText "name" name)
      kind.attributes := rfl
  have before : (((Element.bare "input").setText "type" kind.typeName).setText "name" name).value?
      key = none := by
    rw [Element.setText, Element.value?_set, if_neg otherToo.symm, Element.setText,
      Element.value?_set, if_neg other.symm]
    rfl
  rw [built, Element.value?_setAll kind.attributes_nodup, before, Option.or_none]

structure Scale where
  min : Option Float
  max : Option Float
  step : Option Float

def scale? : InputKind → Option Scale
  | number min max step => some ⟨min, max, step⟩
  | range min max step => some ⟨some min, some max, step⟩
  | _ => none

theorem get?_element (name : String) {kind : InputKind} {scale : Scale}
    (numeric : kind.scale? = some scale) :
    (kind.element name).get? "min" = scale.min.map cssText ∧
      (kind.element name).get? "max" = scale.max.map cssText ∧
      (kind.element name).get? "step" = scale.step.map cssText := by
  have content (v : Option Float) :
      (attributes.bound v).map AttributeValue.content = v.map cssText := by
    cases v <;> rfl
  simp only [Element.get?_eq]
  rw [value?_element name kind (by decide) (by decide),
    value?_element name kind (by decide) (by decide),
    value?_element name kind (by decide) (by decide)]
  cases kind with
  | number min max step =>
    obtain rfl := Option.some.inj numeric
    exact ⟨content min, content max, content step⟩
  | range min max step =>
    obtain rfl := Option.some.inj numeric
    exact ⟨content (some min), content (some max), content step⟩
  | _ => contradiction

/-- The bounds of a numeric input keep their order. Its step is never negative, and of the positive
ones those are written as zero that are half a ten-thousandth or less. -/
theorem element_bounds (name : String) {kind : InputKind} {scale : Scale}
    (numeric : kind.scale? = some scale) :
    (kind.element name).get? "min" = scale.min.map cssText ∧
      (kind.element name).get? "max" = scale.max.map cssText ∧
      (kind.element name).get? "step" = scale.step.map cssText ∧
      (∀ lo ∈ scale.min, ∀ hi ∈ scale.max, lo.isFinite = true → hi.isFinite = true → lo ≤ hi →
        ∃ p q, (kind.element name).number? "min" = some p ∧
          (kind.element name).number? "max" = some q ∧ p ≤ q) ∧
      ∀ s ∈ scale.step, s.isFinite = true → 0 < s →
        ∃ x q, exactValue? s = some x ∧ (kind.element name).number? "step" = some q ∧
          (∃ n : ℤ, q = n / 10000 ∧ IsNearest n (x * 10000)) ∧
          0 ≤ q ∧ (0 < q ↔ 1 / 20000 < x) := by
  obtain ⟨least, most, width⟩ := get?_element name numeric
  refine ⟨least, most, width, ?_, ?_⟩
  · intro lo first hi second finite finiteToo less
    rw [Element.number?, Element.number?, least, most, first, second]
    exact Number.numeralValue?_le finite finiteToo less
  · intro s given finite positive
    obtain ⟨x, denotes⟩ := Number.isFinite_iff.mp finite
    have zero : exactValue? 0 = some 0 := by decide +kernel
    have above : 0 < x := (Number.lt_iff zero denotes).mp positive
    have nearest := Number.isNearest_writtenUnits denotes
    have units : (0 : ℚ) ≤ Number.writtenUnits s := by
      exact_mod_cast nearest.nonneg (by positivity)
    refine ⟨x, Number.writtenUnits s / 10000, denotes, ?_, ⟨_, rfl, nearest⟩, by positivity, ?_⟩
    · rw [Element.number?, width, given]
      exact Number.numeralValue?_cssText s
    · calc (0 : ℚ) < Number.writtenUnits s / 10000
        _ ↔ 0 < Number.writtenUnits s := by
          rw [div_pos_iff_of_pos_right (by norm_num)]
          exact_mod_cast Iff.rfl
        _ ↔ 1 / 2 < x * 10000 := nearest.pos_iff
        _ ↔ 1 / 20000 < x := by
          constructor <;> intro large <;> linarith

theorem element_bounds_volume :
    scale? (range (-0.00004) 10 (some 0.00006)) = some ⟨some (-0.00004), some 10, some 0.00006⟩ ∧
      (∃ p q, ((range (-0.00004) 10 (some 0.00006)).element "volume").number? "min" = some p ∧
        ((range (-0.00004) 10 (some 0.00006)).element "volume").number? "max" = some q ∧ p ≤ q) ∧
      ∃ x q, exactValue? 0.00006 = some x ∧
        ((range (-0.00004) 10 (some 0.00006)).element "volume").number? "step" = some q ∧
        (0 < q ↔ 1 / 20000 < x) := by
  obtain ⟨-, -, -, ordered, width⟩ := element_bounds "volume"
    (rfl : scale? (range (-0.00004) 10 (some 0.00006)) = _)
  obtain ⟨x, q, denotes, read, -, -, positive⟩ :=
    width _ rfl (by decide +kernel) (by decide +kernel)
  exact ⟨rfl, ordered _ rfl _ rfl (by decide +kernel) (by decide +kernel) (by decide +kernel),
    x, q, denotes, read, positive⟩

/-- The step of one hundred-thousandth is positive, and the element has the step zero. -/
theorem step_written_zero :
    (0.00001 : Float).isFinite = true ∧ (0 : Float) < 0.00001 ∧
      ((number none none (some 0.00001)).element "s").get? "step" = some "0" ∧
      ((number none none (some 0.00001)).element "s").number? "step" = some 0 := by
  decide +kernel

end InputKind

end AtomicMarkup
