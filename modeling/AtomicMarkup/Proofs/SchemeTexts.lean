import AtomicMarkup.Proofs.DarkCounterpart
import AtomicMarkup.Proofs.Reapplied

/-!
Texts of values for both schemes. The schemes of a value are compared by the numbers they paint
with, but declared by their texts. So a value is declared twice with one text where its schemes are
spelled alike with opacities that differ, but are written alike: opacities that differ behind the
fourth place only, and opacities that are no number, which equal nothing.
-/

namespace AtomicMarkup.SchemeColor

/-- Both schemes are given, in one spelling, with opacities that are not equal and that are written
alike. -/
def Doubled (c : SchemeColor) : Prop :=
  ∃ channels x y, c.light = .rgba channels x ∧ c.dark = some (.rgba channels y) ∧
    (x == y) = false ∧ Number.writtenUnits x = Number.writtenUnits y

/-- A counterpart keeps the opacity of a colour that is spelled with one as it is, or is spelled
without one. -/
theorem opacity_of_darkCounterpart_eq {channels mirrored : Channels} {x y : Float}
    (spelled : (Color.rgba channels x).darkCounterpart = .rgba mirrored y) :
    x = y ∧ (x == y) = true := by
  by_cases below : x < 1.0
  · rw [Color.darkCounterpart_of_lt rfl below, Color.rgba.injEq] at spelled
    obtain ⟨-, rfl⟩ := spelled
    refine ⟨rfl, Float.beq_self_iff.mpr ?_⟩
    rintro rfl
    exact absurd below (by decide)
  · rw [Color.darkCounterpart_of_not_lt rfl below] at spelled
    contradiction

theorem doubled_iff {c : SchemeColor} :
    c.Doubled ↔ c.isUniform = false ∧ c.light.css = c.resolvedDark.css := by
  constructor
  · rintro ⟨channels, x, y, light, dark, apart, written⟩
    have resolved : c.resolvedDark = .rgba channels y := by
      rw [resolvedDark, dark, Option.getD_some]
    rw [isUniform, resolved, light]
    exact ⟨by simp [Color.paintsLike, Color.channels?, apart],
      Color.css_rgba_eq_iff.mpr ⟨rfl, Number.cssText_eq_iff.mpr written⟩⟩
  · rintro ⟨apart, text⟩
    have spelled : ∃ channels x y, c.light = .rgba channels x ∧
        c.resolvedDark = .rgba channels y ∧ Number.writtenUnits x = Number.writtenUnits y := by
      obtain same | spelled := Color.css_eq_iff.mp text
      · -- A colour that does not paint like itself is spelled with an opacity.
        rw [isUniform, ← same, Bool.eq_false_iff, ne_eq, Color.paintsLike_self_iff] at apart
        simp only [not_forall, not_not] at apart
        obtain ⟨channels, light⟩ := apart
        exact ⟨channels, _, _, light, same ▸ light, rfl⟩
      · exact spelled
    obtain ⟨channels, x, y, light, resolved, written⟩ := spelled
    have differ : (x == y) = false := by
      rw [isUniform, light, resolved] at apart
      simpa [Color.paintsLike, Color.channels?] using apart
    refine ⟨channels, x, y, light, ?_, differ, written⟩
    cases given : c.dark with
    | some dark => rw [← resolved, resolvedDark, given, Option.getD_some]
    | none =>
      rw [resolvedDark, given, Option.getD_none, light] at resolved
      rw [(opacity_of_darkCounterpart_eq resolved).2] at differ
      contradiction

theorem map_value_declareSchemes (scope : Scope) (name value darkName : String)
    (dark : Option String) :
    (scope.declareSchemes name value darkName dark).map Declaration.value =
      value :: dark.toList := by
  cases dark <;> rfl

/-- No two declarations of a value for both schemes have one text just when the scope is inside a
scheme or the value is not given by two opacities that differ and are written alike. A colour that
is the same in both schemes is declared once, unless its opacity is no number. -/
theorem values_nodup_iff (property : String) (scope : Scope) :
    (∀ c : SchemeColor, ((c.declarations property scope).map Declaration.value).Nodup ↔
        scope.isDark = true ∨ scope.isLight = true ∨ ¬ c.Doubled) ∧
      ∀ color, ((fixed color).declarations property scope).length = 1 ↔
        scope.isDark = true ∨ scope.isLight = true ∨
          ∀ channels, color ≠ .rgba channels Float.nan := by
  constructor
  · intro c
    rw [declarations_eq, map_value_declareSchemes, doubled_iff]
    cases isDark : scope.isDark <;> cases isLight : scope.isLight <;>
      cases uniform : c.isUniform <;> simp [darkText?, isDark, isLight, uniform]
  · intro color
    have uniform : (fixed color).isUniform = true ↔ ∀ channels, color ≠ .rgba channels Float.nan :=
      Color.paintsLike_self_iff
    rw [← uniform, declarations_eq, ← List.length_map, map_value_declareSchemes]
    cases isDark : scope.isDark <;> cases isLight : scope.isLight <;>
      cases uniform : (fixed color).isUniform <;> simp [darkText?, isDark, isLight, uniform]

/-- A black whose opacity is no number, fixed for both schemes. -/
theorem fixed_nan_declared_twice :
    ((fixed (.withAlpha ⟨0, 0, 0⟩ Float.nan)).declarations "color" .root).map Declaration.value =
      ["rgba(0,0,0,0)", "rgba(0,0,0,0)"] := by
  decide +kernel

end AtomicMarkup.SchemeColor
