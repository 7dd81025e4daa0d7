import AtomicMarkup.Number.Binary
import Mathlib.Algebra.Order.Field.Power
import Mathlib.Algebra.Order.Field.Rat
import Mathlib.Data.Rat.Cast.Order
import Mathlib.Tactic.GCongr
import Mathlib.Tactic.NormNum
import Mathlib.Tactic.Positivity
import Mathlib.Tactic.Ring

/-!
The exact values of floating-point numbers. A finite number stands for a rational, and finite
numbers are in the order of their rationals. Their exponents are compared before their significands,
which is right because a significand has all its digits unless the exponent is the least one.
-/

namespace AtomicMarkup.Number

open Float.Model (UnpackedFloat Format)

namespace Binary

def value (b : Binary) : ℚ :=
  (if b.negative then -1 else 1) * (b.significand * 2 ^ b.exponent)

theorem denominator_pos (b : Binary) : 0 < b.denominator := by
  rw [denominator, Nat.one_shiftLeft]
  exact Nat.two_pow_pos _

theorem value_eq (b : Binary) :
    b.value = (if b.negative then -1 else 1) * (b.numerator / b.denominator) := by
  have power : (2 ^ b.exponent : ℚ) = 2 ^ b.exponent.toNat / 2 ^ (-b.exponent).toNat := by
    rw [← zpow_natCast, ← zpow_natCast, ← zpow_sub₀ two_ne_zero, Int.toNat_sub_toNat_neg]
  rw [value, power, numerator, denominator, Nat.one_shiftLeft, Nat.shiftLeft_eq]
  push_cast
  ring

end Binary

def exactValue? (v : Float) : Option ℚ :=
  (Binary.ofFloat? v).map Binary.value

theorem isFinite_iff {v : Float} : v.isFinite = true ↔ ∃ x, exactValue? v = some x := by
  rw [Float.isFinite, Float.Model.isFinite, exactValue?, Binary.ofFloat?]
  cases v.toModel.unpack with
  | notANumber => exact ⟨nofun, nofun⟩
  | infinity sign => exact ⟨nofun, nofun⟩
  | zero sign => cases sign <;> exact ⟨fun _ => ⟨_, rfl⟩, fun _ => rfl⟩
  | finite sign m e => cases sign <;> exact ⟨fun _ => ⟨_, rfl⟩, fun _ => rfl⟩

/-- Significands of double precision have 53 digits, unless the exponent is the least one. -/
structure Canonical (m : ℕ) (e : ℤ) : Prop where
  bound : m < 2 ^ 53
  full : 2 ^ 52 ≤ m ∨ e = -1074
  least : -1074 ≤ e

theorem canonical_of_unpack {bits : BitVec Format.binary64.numBits} {sign m e positive}
    (unpacked : UnpackedFloat.unpack .binary64 bits = .finite sign m e positive) :
    Canonical m e := by
  have fraction := (UnpackedFloat.unpackMantissa bits).isLt
  have bias : Format.binary64.exponentBias = 1023 := by decide
  delta UnpackedFloat.unpack at unpacked
  dsimp only at unpacked fraction
  rw [ite_eq_iff, ite_eq_iff, ite_eq_iff, dite_eq_iff] at unpacked
  obtain ⟨-, ⟨-, infinite⟩ | ⟨-, nothing⟩⟩ |
    ⟨-, ⟨small, ⟨_, zero⟩ | ⟨_, unpacked⟩⟩ | ⟨small, unpacked⟩⟩ := unpacked
  · contradiction
  · contradiction
  · contradiction
  · obtain ⟨-, rfl, rfl⟩ := UnpackedFloat.finite.inj unpacked
    rw [small, bias]
    exact ⟨fraction.trans (by decide), .inr rfl, by decide⟩
  · obtain ⟨-, rfl, rfl⟩ := UnpackedFloat.finite.inj unpacked
    -- The leading digit is not stored.
    have leading : (1#1 ++ UnpackedFloat.unpackMantissa bits).toNat =
        2 ^ 52 + (UnpackedFloat.unpackMantissa bits).toNat := by
      rw [BitVec.toNat_append]
      exact (Nat.two_pow_add_eq_or_of_lt fraction 1).symm
    have nonzero : (UnpackedFloat.unpackExponent bits).toNat ≠ 0 :=
      fun zero => small (BitVec.eq_of_toNat_eq zero)
    rw [bias]
    exact ⟨by omega, .inl (by omega), by omega⟩

namespace Canonical

variable {m n : ℕ} {e f : ℤ}

theorem lt_of_exponent_lt (first : Canonical m e) (second : Canonical n f) (less : e < f) :
    (m : ℚ) * 2 ^ e < n * 2 ^ f := by
  have full : 2 ^ 52 ≤ n := by
    apply second.full.resolve_right
    have least := first.least
    omega
  have bound : (m : ℚ) < 2 ^ 53 := by exact_mod_cast first.bound
  have digits : (2 ^ 52 : ℚ) ≤ n := by exact_mod_cast full
  have one : (1 : ℚ) ≤ 2 := by norm_num
  calc (m : ℚ) * 2 ^ e
    _ < 2 ^ 53 * 2 ^ e := by gcongr
    _ = 2 ^ 52 * 2 ^ (e + 1) := by
      rw [zpow_add_one₀ two_ne_zero]
      ring
    _ ≤ n * 2 ^ f := by
      gcongr
      omega

theorem compare_eq (first : Canonical m e) (second : Canonical n f) :
    (compare e f).then (compare m n) = compare ((m : ℚ) * 2 ^ e) (n * 2 ^ f) := by
  obtain less | rfl | more := lt_trichotomy e f
  · rw [compare_lt_iff_lt.mpr less, compare_lt_iff_lt.mpr (first.lt_of_exponent_lt second less)]
    rfl
  · have power : (0 : ℚ) < 2 ^ e := by positivity
    rw [compare_eq_iff_eq.mpr rfl, Ordering.eq_then, ← cmp_eq_compare, ← cmp_eq_compare,
      cmp_mul_pos_right power, Nat.strictMono_cast.cmp_map_eq]
  · rw [compare_gt_iff_gt.mpr more, compare_gt_iff_gt.mpr (second.lt_of_exponent_lt first more)]
    rfl

end Canonical

/-- A finite number is a zero, or it has a sign, a significand and an exponent. -/
theorem exactValue?_cases {v : Float} {x : ℚ} (denotes : exactValue? v = some x) :
    (∃ sign, v.toModel.unpack = .zero sign ∧ x = 0) ∨
      ∃ m e positive, Canonical m e ∧
        (v.toModel.unpack = .finite .positive m e positive ∧ x = m * 2 ^ e ∨
          v.toModel.unpack = .finite .negative m e positive ∧ x = -(m * 2 ^ e)) := by
  rw [exactValue?, Binary.ofFloat?] at denotes
  cases unpacked : v.toModel.unpack with
  | notANumber =>
    rw [unpacked] at denotes
    contradiction
  | infinity sign =>
    rw [unpacked] at denotes
    contradiction
  | zero sign =>
    rw [unpacked] at denotes
    refine .inl ⟨sign, rfl, ?_⟩
    cases sign <;> rw [← Option.some.inj denotes] <;> simp [Binary.value]
  | finite sign m e positive =>
    rw [unpacked] at denotes
    refine .inr ⟨m, e, positive, canonical_of_unpack unpacked, ?_⟩
    cases sign with
    | positive =>
      obtain rfl := Option.some.inj denotes
      exact .inl ⟨rfl, one_mul _⟩
    | negative =>
      obtain rfl := Option.some.inj denotes
      exact .inr ⟨rfl, neg_one_mul _⟩

/-- Numbers that compare equal are one number, or zeros of whatever signs. -/
theorem eq_or_zeros_of_compare {u v : UnpackedFloat} (same : u.compare v = some .eq) :
    u = v ∨ ∃ sign other, u = .zero sign ∧ v = .zero other := by
  have below : some Ordering.lt ≠ some .eq := by decide
  have above : some Ordering.gt ≠ some .eq := by decide
  have parts {m n : ℕ} {e f : ℤ} (same : (compare e f).then (compare m n) = .eq) :
      e = f ∧ m = n := by
    rwa [Ordering.then_eq_eq, compare_eq_iff_eq, compare_eq_iff_eq] at same
  -- The order of different kinds of numbers is told by the sign of one of them.
  rcases u with (_ | _) | _ | sign | ⟨_ | _, m, e, positive⟩ <;>
  rcases v with (_ | _) | _ | other | ⟨_ | _, n, f, positive'⟩ <;>
  first
    | exact absurd same below
    | exact absurd same above
    | contradiction
    | exact .inl rfl
    | exact .inr ⟨sign, other, rfl, rfl⟩
    | skip
  · obtain ⟨rfl, rfl⟩ := parts (Ordering.swap_inj.mp (Option.some.inj same))
    exact .inl rfl
  · obtain ⟨rfl, rfl⟩ := parts (Option.some.inj same)
    exact .inl rfl

theorem compare_zero (sign other : UnpackedFloat.Sign) (w : UnpackedFloat) :
    (UnpackedFloat.zero sign).compare w = (UnpackedFloat.zero other).compare w := by
  cases w with
  | notANumber | zero => rfl
  | infinity s => cases s <;> rfl
  | finite s => cases s <;> rfl

theorem compare_congr {u v : UnpackedFloat} (same : u.compare v = some .eq) (w : UnpackedFloat) :
    u.compare w = v.compare w := by
  obtain rfl | ⟨sign, other, rfl, rfl⟩ := eq_or_zeros_of_compare same
  · rfl
  · exact compare_zero sign other w

section Order

variable {v w : Float} {x y : ℚ}

theorem compare_unpack (first : exactValue? v = some x) (second : exactValue? w = some y) :
    v.toModel.unpack.compare w.toModel.unpack = some (compare x y) := by
  have size (m : ℕ) (e : ℤ) (positive : 0 < m) : 0 < (m * 2 ^ e : ℚ) := by positivity
  obtain ⟨sign, unpacked, rfl⟩ | ⟨m, e, hm, canonical, ⟨unpacked, rfl⟩ | ⟨unpacked, rfl⟩⟩ :=
    exactValue?_cases first <;>
  obtain ⟨sign', unpacked', rfl⟩ | ⟨n, f, hn, canonical', ⟨unpacked', rfl⟩ | ⟨unpacked', rfl⟩⟩ :=
    exactValue?_cases second <;>
  rw [unpacked, unpacked'] <;>
  apply congrArg some
  -- Zero, positive and negative on the left, and within each the same on the right.
  · exact (compare_eq_iff_eq.mpr rfl).symm
  · exact (compare_lt_iff_lt.mpr (size n f hn)).symm
  · exact (compare_gt_iff_gt.mpr (neg_lt_zero.mpr (size n f hn))).symm
  · exact (compare_gt_iff_gt.mpr (size m e hm)).symm
  · exact canonical.compare_eq canonical'
  · exact (compare_gt_iff_gt.mpr ((neg_lt_zero.mpr (size n f hn)).trans (size m e hm))).symm
  · exact (compare_lt_iff_lt.mpr (neg_lt_zero.mpr (size m e hm))).symm
  · exact (compare_lt_iff_lt.mpr ((neg_lt_zero.mpr (size m e hm)).trans (size n f hn))).symm
  · refine (congrArg Ordering.swap (canonical.compare_eq canonical')).trans ?_
    rw [← cmp_eq_compare, ← cmp_eq_compare, cmp_swap]
    exact (strictMono_id.neg.cmp_map_eq _ _).symm

theorem le_iff_compare :
    v ≤ w ↔ (v.toModel.unpack.compare w.toModel.unpack).any Ordering.isLE = true := by
  change decide (v.toModel ≤ w.toModel) = true ↔ _
  exact decide_eq_true_iff

theorem lt_iff_compare : v < w ↔ v.toModel.unpack.compare w.toModel.unpack = some .lt := by
  change decide (v.toModel < w.toModel) = true ↔ _
  exact decide_eq_true_iff.trans beq_iff_eq

theorem beq_iff_compare :
    (v == w) = true ↔ v.toModel.unpack.compare w.toModel.unpack = some .eq :=
  @beq_iff_eq _ _ _ (v.toModel.unpack.compare w.toModel.unpack) (some .eq)

theorem beq_symm (same : (v == w) = true) : (w == v) = true := by
  rw [beq_iff_compare] at same ⊢
  obtain equal | ⟨sign, other, left, right⟩ := eq_or_zeros_of_compare same
  · rwa [equal] at same ⊢
  · rw [left, right]
    rfl

theorem beq_trans {u : Float} (first : (u == v) = true) (second : (v == w) = true) :
    (u == w) = true := by
  rw [beq_iff_compare] at first second ⊢
  rw [compare_congr first, second]

theorem le_iff (first : exactValue? v = some x) (second : exactValue? w = some y) :
    v ≤ w ↔ x ≤ y := by
  rw [le_iff_compare, compare_unpack first second, Option.any_some, Ordering.isLE_iff_ne_gt,
    compare_gt_iff_gt, not_lt]

theorem lt_iff (first : exactValue? v = some x) (second : exactValue? w = some y) :
    v < w ↔ x < y := by
  rw [lt_iff_compare, compare_unpack first second, Option.some.injEq, compare_lt_iff_lt]

end Order

end AtomicMarkup.Number
