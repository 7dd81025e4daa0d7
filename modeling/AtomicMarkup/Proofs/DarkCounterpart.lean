import AtomicMarkup.Color.Dark
import AtomicMarkup.Proofs.ColorText
import AtomicMarkup.Proofs.ExactValue
import AtomicMarkup.Proofs.Words
import Mathlib

/-!
Dark counterparts and the opacity they paint with. Colours that paint alike have counterparts that
paint alike, however they are spelled. An opacity below one is kept. Any other is given up, so
that the text of a counterpart shows another opacity where the colour itself is not written with
one: for opacities far enough above one, and for those that are no number. How channels are
mirrored plays no part here. What is used of NaN stands in Batteries, and no part of Mathlib but the
whole brings it in.
-/

namespace AtomicMarkup

namespace Number

open Float.Model (UnpackedFloat)

theorem eq_nan_of_unpack {x : Float} (none : x.toModel.unpack = .notANumber) : x = Float.nan := by
  refine Float.beq_self_eq_false_iff.mp (Bool.eq_false_iff.mpr fun same => ?_)
  rw [beq_iff_compare, none] at same
  contradiction

theorem unpack_one : ∃ mantissa exponent positive,
    (1.0 : Float).toModel.unpack = .finite .positive mantissa exponent positive :=
  ⟨2 ^ 52, -52, by decide, by rfl⟩

theorem eq_one_of_beq {x : Float} (same : (x == 1.0) = true) : x = 1.0 := by
  obtain ⟨-, -, equal | ⟨-, zero⟩ | ⟨-, zero⟩⟩ := Float.beq_iff_ne_nan_and_eq.mp same
  · exact equal
  · exact absurd zero (by decide)
  · exact absurd zero (by decide)

theorem lt_or_lt_or_eq_one {x : Float} (number : x ≠ Float.nan) :
    x < 1.0 ∨ 1.0 < x ∨ x = 1.0 := by
  obtain ⟨n, f, positive, one⟩ := unpack_one
  have compared : x.toModel.unpack.compare (.finite .positive n f positive) = some .lt ∨
      UnpackedFloat.compare (.finite .positive n f positive) x.toModel.unpack = some .lt ∨
      x.toModel.unpack.compare (.finite .positive n f positive) = some .eq := by
    cases unpacked : x.toModel.unpack with
    | notANumber => exact absurd (eq_nan_of_unpack unpacked) number
    | infinity sign => cases sign <;> simp [UnpackedFloat.compare]
    | zero sign => simp [UnpackedFloat.compare]
    | finite sign m e =>
      cases sign with
      | negative => simp [UnpackedFloat.compare]
      | positive =>
        -- Exponents come first, and mantissas count where the exponents are equal.
        simp only [UnpackedFloat.compare, Option.some.injEq, Ordering.then_eq_lt,
          Ordering.then_eq_eq, compare_lt_iff_lt, compare_eq_iff_eq]
        omega
  rw [← one, ← lt_iff_compare, ← lt_iff_compare, ← beq_iff_compare] at compared
  exact compared.imp_right (.imp_right eq_one_of_beq)

theorem writtenUnits_one : writtenUnits 1.0 = 10000 := by
  decide +kernel

/-- An opacity in the interval from zero to one is below one or written as one, unless it is no
number. -/
theorem clampUnit_lt_one_or_written_iff {x : Float} :
    clampUnit x < 1.0 ∨ writtenUnits (clampUnit x) = 10000 ↔ x ≠ Float.nan := by
  constructor
  · rintro whole rfl
    exact absurd whole (by decide +kernel)
  · intro number
    unfold clampUnit
    split_ifs with negative above
    · exact .inl (by decide)
    · exact .inr writtenUnits_one
    · obtain below | exceeds | rfl := lt_or_lt_or_eq_one number
      · exact .inl below
      · exact absurd exceeds above
      · exact .inr writtenUnits_one

theorem lt_one_iff_of_beq {x y : Float} (same : (x == y) = true) : x < 1.0 ↔ y < 1.0 := by
  rw [lt_iff_compare, lt_iff_compare, compare_congr (beq_iff_compare.mp same)]

end Number

namespace Color

theorem paintsLike_iff {a b : Color} : a.paintsLike b = true ↔
    (∃ c x y, a.channels? = some (c, x) ∧ b.channels? = some (c, y) ∧ (x == y) = true) ∨
      (a.channels? = none ∧ a = b) := by
  unfold paintsLike
  cases first : a.channels? with
  | none =>
    cases second : b.channels? with
    | none => simp
    | some d =>
      have apart : a ≠ b := by
        rintro rfl
        rw [first] at second
        contradiction
      simp [apart]
  | some c =>
    cases second : b.channels? with
    | none => simp
    | some d =>
      obtain ⟨channels, x⟩ := c
      obtain ⟨other, y⟩ := d
      simp [@eq_comm _ other channels]

theorem paintsLike_symm {a b : Color} (alike : a.paintsLike b = true) :
    b.paintsLike a = true := by
  obtain ⟨c, x, y, first, second, same⟩ | ⟨none, rfl⟩ := paintsLike_iff.mp alike
  · exact paintsLike_iff.mpr (.inl ⟨c, y, x, second, first, BEq.symm same⟩)
  · exact alike

theorem paintsLike_trans {a b c : Color} (front : a.paintsLike b = true)
    (back : b.paintsLike c = true) : a.paintsLike c = true := by
  obtain ⟨d, x, y, first, middle, same⟩ | ⟨none, rfl⟩ := paintsLike_iff.mp front
  · obtain ⟨e, z, w, other, last, equal⟩ | ⟨missing, -⟩ := paintsLike_iff.mp back
    · obtain ⟨rfl, rfl⟩ := Prod.mk.inj (Option.some.inj (middle.symm.trans other))
      exact paintsLike_iff.mpr (.inl ⟨d, x, w, first, last, BEq.trans same equal⟩)
    · rw [missing] at middle
      contradiction
  · exact back

theorem paintsLike_congr_left {a b : Color} (alike : a.paintsLike b = true) (c : Color) :
    a.paintsLike c = b.paintsLike c :=
  Bool.eq_iff_iff.mpr ⟨paintsLike_trans (paintsLike_symm alike), paintsLike_trans alike⟩

theorem paintsLike_congr_right {a b : Color} (alike : a.paintsLike b = true) (c : Color) :
    c.paintsLike a = c.paintsLike b :=
  Bool.eq_iff_iff.mpr ⟨fun first => paintsLike_trans first alike,
    fun second => paintsLike_trans second (paintsLike_symm alike)⟩

/-- The only colours that do not paint like themselves have an opacity that is no number. -/
theorem paintsLike_self_iff {c : Color} :
    c.paintsLike c = true ↔ ∀ channels, c ≠ rgba channels Float.nan := by
  have one : ((1.0 : Float) == 1.0) = true := by decide
  cases c with
  | rgba channels alpha =>
    simp [paintsLike, channels?, Float.beq_self_iff]
  | _ => simp [paintsLike, channels?, one]

theorem darkCounterpart_of_lt {a : Color} {c : Channels} {alpha : Float}
    (channels : a.channels? = some (c, alpha)) (below : alpha < 1.0) :
    a.darkCounterpart = rgba c.mirrored alpha := by
  simp [darkCounterpart, channels, below]

theorem darkCounterpart_of_not_lt {a : Color} {c : Channels} {alpha : Float}
    (channels : a.channels? = some (c, alpha)) (notBelow : ¬ alpha < 1.0) :
    a.darkCounterpart = rgb c.mirrored := by
  simp [darkCounterpart, channels, notBelow]

theorem darkCounterpart_of_none {a : Color} (none : a.channels? = none) :
    a.darkCounterpart = a := by
  simp [darkCounterpart, none]

theorem paintsLike_darkCounterpart {a b : Color} (alike : a.paintsLike b = true) :
    a.darkCounterpart.paintsLike b.darkCounterpart = true := by
  obtain ⟨c, x, y, first, second, same⟩ | ⟨none, rfl⟩ := paintsLike_iff.mp alike
  · have both := Number.lt_one_iff_of_beq same
    by_cases below : x < 1.0
    · rw [darkCounterpart_of_lt first below, darkCounterpart_of_lt second (both.mp below)]
      exact paintsLike_iff.mpr (.inl ⟨c.mirrored, x, y, rfl, rfl, same⟩)
    · rw [darkCounterpart_of_not_lt first below,
        darkCounterpart_of_not_lt second (mt both.mpr below)]
      exact paintsLike_self_iff.mpr nofun
  · rw [darkCounterpart_of_none none]
    exact alike

/-- The opacity in the text of a colour: the fourth of its fields, or one where there is none. -/
def opacityText (text : String) : String :=
  match Text.fields (· == ',') text.toList with
  | [_, _, _, last] => String.ofList last.dropLast
  | _ => "1"

theorem opacityText_rgba (c : Channels) (alpha : Float) :
    opacityText (rgba c alpha).css = Number.cssText alpha := by
  have channel (b : UInt8) : ',' ∉ (Number.decimal b.toNat).toList :=
    Number.not_mem_decimal (by decide) b.toNat
  have red : ',' ∉ "rgba(".toList ++ (Number.decimal c.red.toNat).toList := by
    simpa using channel c.red
  have last : ',' ∉ (Number.cssText alpha).toList ++ [')'] := by
    simpa using Number.not_mem_cssText (by decide) alpha
  rw [opacityText, toList_css_rgba, ← List.append_assoc, Text.fields_eq_splitOnP,
    List.splitOnP_append_cons_of_forall_mem (beq_mark_eq_false red) ',' rfl,
    List.splitOnP_append_cons_of_forall_mem (beq_mark_eq_false (channel c.green)) ',' rfl,
    List.splitOnP_append_cons_of_forall_mem (beq_mark_eq_false (channel c.blue)) ',' rfl,
    List.splitOnP_eq_singleton (beq_mark_eq_false last)]
  simp

theorem opacityText_words : ∀ c ∈ words, opacityText c.css = "1" := by
  decide +kernel

theorem opacityText_of_ne_rgba {c : Color} (other : ∀ channels alpha, c ≠ rgba channels alpha) :
    opacityText c.css = "1" := by
  obtain ⟨channels, rfl⟩ | ⟨channels, alpha, rfl⟩ | word := c.forms
  · have plain : ∀ b, ',' ∉ Number.hexByte b := Number.not_mem_hexByte (by decide)
    have free : ',' ∉ (hexCss channels).toList := by simp [toList_hexCss, plain]
    rw [opacityText, css, Text.fields_eq_splitOnP,
      List.splitOnP_eq_singleton (beq_mark_eq_false free)]
  · exact absurd rfl (other channels alpha)
  · exact opacityText_words c word

theorem opacityText_rgb (c : Channels) : opacityText (rgb c).css = "1" :=
  opacityText_of_ne_rgba (by simp)

theorem opacityText_darkCounterpart_rgba (c : Channels) (alpha : Float) :
    opacityText (rgba c alpha).darkCounterpart.css = opacityText (rgba c alpha).css ↔
      alpha < 1.0 ∨ Number.writtenUnits alpha = 10000 := by
  have one : Number.cssText 1.0 = "1" := by decide +kernel
  by_cases below : alpha < 1.0
  · rw [darkCounterpart_of_lt rfl below, opacityText_rgba, opacityText_rgba]
    exact iff_of_true rfl (.inl below)
  · rw [darkCounterpart_of_not_lt rfl below, opacityText_rgb, opacityText_rgba,
      ← one, Number.cssText_eq_iff, Number.writtenUnits_one, eq_comm, or_iff_right below]

theorem opacityText_darkCounterpart {c : Color}
    (other : ∀ channels alpha, c ≠ rgba channels alpha) :
    opacityText c.darkCounterpart.css = opacityText c.css := by
  have kept (channels : Channels) : opacityText (rgb channels).css = opacityText c.css := by
    rw [opacityText_rgb, opacityText_of_ne_rgba other]
  cases c with
  | rgb channels => exact kept channels.mirrored
  | rgba channels alpha => exact absurd rfl (other channels alpha)
  | named name => exact kept name.channels.mirrored
  | transparent => rfl
  | currentColor => rfl

/-- The text of a dark counterpart shows the opacity of the colour just when that is below one or
written as one; an opacity that was moved into the interval from zero to one is so unless it is no
number. Colours that paint alike have counterparts that paint alike, and values for the two
schemes that are made of them are alike in both schemes together. -/
theorem opacity_darkCounterpart (c : Color) :
    (opacityText c.darkCounterpart.css = opacityText c.css ↔
        ∀ channels alpha, c = rgba channels alpha →
          alpha < 1.0 ∨ Number.writtenUnits alpha = 10000) ∧
      (∀ channels alpha, c = withAlpha channels alpha →
        (opacityText c.darkCounterpart.css = opacityText c.css ↔ alpha ≠ Float.nan)) ∧
      ∀ d, c.paintsLike d = true →
        c.darkCounterpart.paintsLike d.darkCounterpart = true ∧
        (SchemeColor.ofColor c).isUniform = (SchemeColor.ofColor d).isUniform ∧
        (SchemeColor.fixed c).isUniform = (SchemeColor.fixed d).isUniform ∧
        ∀ e, (SchemeColor.mk c (some e)).isUniform = (SchemeColor.mk d (some e)).isUniform ∧
          (SchemeColor.mk e (some c)).isUniform = (SchemeColor.mk e (some d)).isUniform := by
  refine ⟨?_, ?_, fun d alike => ?_⟩
  · by_cases spelled : ∃ channels alpha, c = rgba channels alpha
    · obtain ⟨channels, alpha, rfl⟩ := spelled
      rw [opacityText_darkCounterpart_rgba]
      refine ⟨?_, fun each => each channels alpha rfl⟩
      rintro whole _ _ ⟨⟩
      exact whole
    · have other : ∀ channels alpha, c ≠ rgba channels alpha :=
        fun channels alpha same => spelled ⟨channels, alpha, same⟩
      exact iff_of_true (opacityText_darkCounterpart other)
        fun channels alpha same => absurd same (other channels alpha)
  · rintro channels alpha rfl
    exact (opacityText_darkCounterpart_rgba _ _).trans Number.clampUnit_lt_one_or_written_iff
  · have dark := paintsLike_darkCounterpart alike
    have uniform {a b : Color} (light : c.paintsLike d = true) (same : a.paintsLike b = true) :
        c.paintsLike a = d.paintsLike b :=
      (paintsLike_congr_left light a).trans (paintsLike_congr_right same d)
    exact ⟨dark, uniform alike dark, uniform alike alike, fun e =>
      ⟨paintsLike_congr_left alike e, paintsLike_congr_right alike e⟩⟩

theorem opacity_darkCounterpart_red :
    (named .red).paintsLike (rgb ⟨255, 0, 0⟩) = true ∧
      (named .red).darkCounterpart.paintsLike (rgb ⟨255, 0, 0⟩).darkCounterpart = true :=
  ⟨by decide, ((opacity_darkCounterpart (named .red)).2.2 (rgb ⟨255, 0, 0⟩) (by decide)).1⟩

/-- An opacity that is no number is written as zero, and the counterpart is opaque. -/
theorem opacity_nan_lost :
    opacityText (withAlpha ⟨0, 0, 0⟩ Float.nan).darkCounterpart.css ≠
      opacityText (withAlpha ⟨0, 0, 0⟩ Float.nan).css := by
  have above : ¬ Number.clampUnit Float.nan < 1.0 := by decide
  have zero : Number.cssText (Number.clampUnit Float.nan) = "0" := by decide +kernel
  rw [withAlpha, darkCounterpart_of_not_lt rfl above, opacityText_rgb, opacityText_rgba, zero]
  decide

end Color

end AtomicMarkup
