import AtomicMarkup.Proofs.ExactValue
import AtomicMarkup.Proofs.WrittenNumber
import Mathlib.Algebra.Order.Ring.Abs
import Mathlib.Data.Int.Cast.Lemmas
import Mathlib.Tactic.Linarith

/-!
Rounding to whole numbers. A nearest one is unique, because of two that are equally near the even
one is taken, and it grows with the number. A number is written as the nearest whole number of
ten-thousandths of its exact value.
-/

namespace AtomicMarkup.Number

structure IsNearest (n : ℤ) (x : ℚ) : Prop where
  near : |x - n| ≤ 1 / 2
  tie : |x - n| = 1 / 2 → Even n

namespace IsNearest

variable {m n : ℤ} {x y : ℚ}

theorem neg (nearest : IsNearest n x) : IsNearest (-n) (-x) := by
  have distance : |-x - ((-n : ℤ) : ℚ)| = |x - n| := by
    rw [Int.cast_neg, neg_sub_neg, abs_sub_comm]
  exact ⟨distance ▸ nearest.near, fun half => (nearest.tie (distance ▸ half)).neg⟩

theorem le_of_le (first : IsNearest m x) (second : IsNearest n y) (less : x ≤ y) : m ≤ n := by
  by_contra! more
  have step : (n : ℚ) + 1 ≤ m := by exact_mod_cast more
  obtain ⟨below, -⟩ := abs_le.mp first.near
  obtain ⟨-, above⟩ := abs_le.mp second.near
  -- Only the middle of two neighbours could be nearest to both of them, and one of them is odd.
  have middle : x - m = -(1 / 2) := by linarith
  have middleToo : y - n = 1 / 2 := by linarith
  have neighbours : m = n + 1 := by
    have same : (m : ℚ) = n + 1 := by linarith
    exact_mod_cast same
  have even : Even m := first.tie (by rw [middle]; norm_num)
  have evenToo : Even n := second.tie (by rw [middleToo]; norm_num)
  rw [neighbours] at even
  exact Int.not_even_iff_odd.mpr evenToo.add_one even

theorem unique (first : IsNearest m x) (second : IsNearest n x) : m = n :=
  le_antisymm (first.le_of_le second le_rfl) (second.le_of_le first le_rfl)

theorem intCast (n : ℤ) : IsNearest n n := by
  constructor <;> norm_num

theorem half : IsNearest 0 (1 / 2) := by
  constructor <;> norm_num

/-- One half is rounded down, and all that is above it up. -/
theorem pos_iff (nearest : IsNearest n x) : 0 < n ↔ 1 / 2 < x := by
  constructor
  · contrapose!
    exact nearest.le_of_le half
  · contrapose!
    intro below
    have whole : (n : ℚ) ≤ 0 := by exact_mod_cast below
    obtain ⟨-, above⟩ := abs_le.mp nearest.near
    linarith

theorem nonneg (nearest : IsNearest n x) (positive : 0 ≤ x) : 0 ≤ n := by
  apply IsNearest.le_of_le (intCast 0) nearest
  exact_mod_cast positive

end IsNearest

theorem isNearest_roundHalfEven (num : ℕ) {den : ℕ} (positive : 0 < den) :
    IsNearest (roundHalfEven num den) (num / den) := by
  have divides : (0 : ℚ) < den := by exact_mod_cast positive
  have parts : (num / den : ℚ) = (num / den : ℕ) + (num % den : ℕ) / den := by
    rw [div_eq_iff divides.ne', add_mul, div_mul_cancel₀ _ divides.ne']
    exact_mod_cast (Nat.div_add_mod' num den).symm
  have least : (0 : ℚ) ≤ (num % den : ℕ) / den := by positivity
  have most : ((num % den : ℕ) / den : ℚ) < 1 := by
    rw [div_lt_one divides]
    exact_mod_cast Nat.mod_lt num positive
  have below : ((num % den : ℕ) / den : ℚ) < 1 / 2 ↔ 2 * (num % den) < den := by
    rw [div_lt_div_iff₀ divides two_pos, one_mul, mul_comm]
    exact_mod_cast Iff.rfl
  have above : (1 / 2 : ℚ) < (num % den : ℕ) / den ↔ den < 2 * (num % den) := by
    rw [div_lt_div_iff₀ two_pos divides, one_mul, mul_comm]
    exact_mod_cast Iff.rfl
  rw [parts, roundHalfEven]
  generalize (num % den : ℕ) / (den : ℚ) = fraction at *
  generalize num / den = whole
  split_ifs with low high
  · have distance : |(whole : ℚ) + fraction - ((whole : ℕ) : ℤ)| = fraction := by
      rw [Int.cast_natCast, add_sub_cancel_left, abs_of_nonneg least]
    have small := below.mpr low
    exact ⟨distance.trans_le small.le, fun half => absurd (distance.symm.trans half) small.ne⟩
  · have distance : |(whole : ℚ) + fraction - ((whole + 1 : ℕ) : ℤ)| = 1 - fraction := by
      rw [Int.cast_natCast, Nat.cast_add, Nat.cast_one, add_sub_add_left_eq_sub, abs_sub_comm,
        abs_of_pos (by linarith)]
    have large := above.mpr high
    exact ⟨by linarith, fun half => by linarith⟩
  · have half : fraction = 1 / 2 :=
      le_antisymm (not_lt.mp (mt above.mp high)) (not_lt.mp (mt below.mp low))
    rcases Nat.mod_two_eq_zero_or_one whole with even | odd
    · rw [even, Nat.add_zero, half]
      refine ⟨by norm_num, fun _ => ?_⟩
      exact_mod_cast Nat.even_iff.mpr even
    · rw [odd, half]
      refine ⟨?_, fun _ => ?_⟩
      · push_cast
        norm_num
      · exact_mod_cast (Nat.odd_iff.mpr odd).add_one

theorem isNearest_writtenUnits {v : Float} {x : ℚ} (denotes : exactValue? v = some x) :
    IsNearest (writtenUnits v) (x * 10000) := by
  obtain ⟨b, parts, rfl⟩ := Option.map_eq_some_iff.mp denotes
  have nearest := isNearest_roundHalfEven (b.numerator * 10000) b.denominator_pos
  have scaled : ((b.numerator * 10000 : ℕ) / b.denominator : ℚ) =
      b.numerator / b.denominator * 10000 := by
    push_cast
    ring
  rw [scaled] at nearest
  rw [writtenUnits, parts, b.value_eq]
  cases sign : b.negative with
  | false => simpa [sign] using nearest
  | true => simpa [sign] using nearest.neg

theorem writtenUnits_of_whole {v : Float} {k : ℤ} (denotes : exactValue? v = some (k : ℚ)) :
    writtenUnits v = k * 10000 := by
  apply (isNearest_writtenUnits denotes).unique
  exact_mod_cast IsNearest.intCast (k * 10000)

def Scientific.toRat (s : Scientific) : ℚ :=
  (if s.negative then -1 else 1) * (s.value * 10 ^ s.exponent)

def numeralValue? (numeral : String) : Option ℚ :=
  (Scientific.read? numeral.toList).map Scientific.toRat

theorem numeralValue?_cssText (v : Float) :
    numeralValue? (cssText v) = some ((writtenUnits v : ℚ) / 10000) := by
  obtain ⟨s, read, negative, least, -, units⟩ := read?_cssText v
  have power : (10 ^ s.exponent : ℚ) = 10 ^ (4 + s.exponent).toNat / 10000 := by
    rw [eq_div_iff (by norm_num), ← zpow_natCast, Int.toNat_of_nonneg (by omega),
      zpow_add₀ (by norm_num)]
    norm_num
    ring
  have size : (s.value * 10 ^ s.exponent : ℚ) = ((writtenUnits v).natAbs : ℚ) / 10000 := by
    rw [power, ← units]
    push_cast
    ring
  rw [numeralValue?, read, Option.map_some, Scientific.toRat, negative, size, Nat.cast_natAbs]
  by_cases below : writtenUnits v < 0
  · simp [below, abs_of_neg, neg_div]
  · simp [below, abs_of_nonneg (not_lt.mp below)]

theorem numeralValue?_le {v w : Float} (finite : v.isFinite = true) (finiteToo : w.isFinite = true)
    (less : v ≤ w) :
    ∃ p q, numeralValue? (cssText v) = some p ∧ numeralValue? (cssText w) = some q ∧ p ≤ q := by
  obtain ⟨x, denotes⟩ := isFinite_iff.mp finite
  obtain ⟨y, denotesToo⟩ := isFinite_iff.mp finiteToo
  refine ⟨_, _, numeralValue?_cssText v, numeralValue?_cssText w, ?_⟩
  have units : writtenUnits v ≤ writtenUnits w := by
    apply (isNearest_writtenUnits denotes).le_of_le (isNearest_writtenUnits denotesToo)
    linarith [(le_iff denotes denotesToo).mp less]
  gcongr

end AtomicMarkup.Number
