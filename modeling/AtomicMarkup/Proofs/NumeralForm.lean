import AtomicMarkup.Proofs.NameGrammar
import AtomicMarkup.Proofs.Rounding
import AtomicMarkup.Text.Blank
import Mathlib.Data.List.DropRight

/-!
The form in which numbers are written. The numeral of a number denotes the nearest whole number of
ten-thousandths and has no digit that it could do without. It is what is left of the numeral with
all four places when the zeros at its end are dropped, and a whole number has its decimal one.
-/

namespace AtomicMarkup.Number

open Computability
open Text (oneOf digitChars)

def leadingChars : Set Char :=
  {c | '1' ≤ c ∧ c ≤ '9'}

/-- `-?(0|[1-9][0-9]*)(\.[0-9]{0,3}[1-9])?` -/
def numerals : Language Char :=
  ({[], ['-']} : Language Char) *
    (({['0']} : Language Char) + oneOf leadingChars * (oneOf digitChars)∗) *
    (1 + ({['.']} : Language Char) * ((1 + oneOf digitChars) ^ 3 * oneOf leadingChars))

theorem digit_mem_digitChars {d : ℕ} (bound : d < 10) : digit d ∈ digitChars := by
  have each : ∀ d < 10, '0' ≤ digit d ∧ digit d ≤ '9' := by decide
  exact each d bound

theorem digit_mem_leadingChars {d : ℕ} (nonzero : d ≠ 0) (bound : d < 10) :
    digit d ∈ leadingChars := by
  have each : ∀ d < 10, d ≠ 0 → '1' ≤ digit d ∧ digit d ≤ '9' := by decide
  exact each d bound nonzero

theorem digits_zero : digits 10 0 = ['0'] := by
  rw [digits, if_neg (by omega)]
  rfl

theorem digits_mem (n : ℕ) :
    digits 10 n ∈ ({['0']} : Language Char) + oneOf leadingChars * (oneOf digitChars)∗ := by
  rw [Language.mem_add]
  by_cases zero : n = 0
  · rw [zero, digits_zero]
    exact .inl rfl
  · right
    induction n using digits.induct 10 with
    | case1 n more ih =>
      rw [digits, if_pos more]
      rw [Text.mem_name_iff] at ih ⊢
      obtain ⟨c, cs, front, leading, plain⟩ := ih (by omega)
      refine ⟨c, cs ++ [digit (n % 10)], by rw [front, List.cons_append], leading, ?_⟩
      rw [List.forall_mem_append, List.forall_mem_singleton]
      exact ⟨plain, digit_mem_digitChars (Nat.mod_lt n (by omega))⟩
    | case2 n last =>
      rw [digits, if_neg last, Text.mem_name_iff]
      exact ⟨digit n, [], rfl, digit_mem_leadingChars zero (by omega), List.forall_mem_nil _⟩

theorem mem_optional_pow {chars : Set Char} {n : ℕ} {text : List Char} (short : text.length ≤ n)
    (each : ∀ c ∈ text, c ∈ chars) : text ∈ (1 + oneOf chars) ^ n := by
  induction n generalizing text with
  | zero =>
    rw [List.length_eq_zero_iff.mp (Nat.le_zero.mp short), pow_zero]
    exact Language.nil_mem_one
  | succ n ih =>
    rw [pow_succ']
    cases text with
    | nil => exact ⟨[], .inl rfl, [], ih (Nat.zero_le n) nofun, rfl⟩
    | cons c text =>
      obtain ⟨first, rest⟩ := List.forall_mem_cons.mp each
      exact ⟨[c], .inr ⟨c, first, rfl⟩, text, ih (Nat.le_of_succ_le_succ short) rest, rfl⟩

theorem fractionDigits_cases (units : ℕ) :
    fractionDigits units = [] ∨ ∃ (front : List ℕ) (last : ℕ),
      fractionDigits units = front.map digit ++ [digit last] ∧ front.length ≤ 3 ∧
        (∀ d ∈ front, d < 10) ∧ last ≠ 0 ∧ last < 10 := by
  have kept : (places units).reverse.dropWhile (· == 0) <:+ (places units).reverse :=
    List.dropWhile_suffix _
  have written : fractionDigits units =
      ((places units).reverse.dropWhile (· == 0)).reverse.map digit := rfl
  cases shown : (places units).reverse.dropWhile (· == 0) with
  | nil => exact .inl (by rw [written, shown]; rfl)
  | cons last front =>
    rw [shown] at kept
    have place : ∀ d ∈ last :: front, d < 10 := fun d member =>
      lt_of_mem_places (List.mem_reverse.mp (kept.subset member))
    obtain ⟨bound, bounds⟩ := List.forall_mem_cons.mp place
    have nonzero := List.head?_dropWhile_not (· == 0) (places units).reverse
    rw [shown] at nonzero
    refine .inr ⟨front.reverse, last, ?_, ?_, ?_, by simpa using nonzero, bound⟩
    · rw [written, shown, List.reverse_cons, List.map_append]
      rfl
    · simpa [places, Nat.lt_succ_iff] using kept.length_le
    · exact fun d member => bounds d (List.mem_reverse.mp member)

theorem pointText_append_singleton (places : List Char) (last : Char) :
    pointText (places ++ [last]) = '.' :: (places ++ [last]) := by
  cases places <;> rfl

theorem pointText_mem (units : ℕ) : pointText (fractionDigits units) ∈
    1 + ({['.']} : Language Char) * ((1 + oneOf digitChars) ^ 3 * oneOf leadingChars) := by
  rw [Language.mem_add]
  obtain none | ⟨front, last, shown, short, each, nonzero, bound⟩ := fractionDigits_cases units
  · rw [none]
    exact .inl Language.nil_mem_one
  · have plain : ∀ c ∈ front.map digit, c ∈ digitChars :=
      List.forall_mem_map.mpr fun d member => digit_mem_digitChars (each d member)
    rw [shown, pointText_append_singleton]
    refine .inr (Language.append_mem_mul (a := ['.']) rfl (Language.append_mem_mul ?_ ?_))
    · exact mem_optional_pow (by rwa [List.length_map]) plain
    · exact ⟨digit last, digit_mem_leadingChars nonzero bound, rfl⟩

theorem cssText_mem_numerals (v : Float) : (cssText v).toList ∈ numerals := by
  rw [cssText_eq_tenThousandths, toList_tenThousandths, ← List.append_assoc]
  refine Language.append_mem_mul (Language.append_mem_mul ?_ (digits_mem _)) (pointText_mem _)
  split
  · exact .inr rfl
  · exact .inl rfl

theorem cssText_ne_minusZero (v : Float) : cssText v ≠ "-0" := by
  intro minus
  obtain ⟨s, read, negative, -, -, units⟩ := read?_cssText v
  have zero : Scientific.read? "-0".toList = some ⟨true, 0, 0⟩ := by decide
  rw [minus, zero, Option.some.injEq] at read
  subst read
  have below : writtenUnits v < 0 := of_decide_eq_true negative.symm
  rw [Nat.zero_mul] at units
  omega

theorem fractionDigits_whole (n : ℕ) : fractionDigits (n * 10000) = [] := by
  have zeros : places (n * 10000) = [0, 0, 0, 0] := by
    simp only [places, List.cons.injEq, and_true]
    omega
  change ((places (n * 10000)).reverse.dropWhile (· == 0)).reverse.map digit = []
  rw [zeros]
  rfl

theorem cssText_of_whole {v : Float} {k : ℤ} (denotes : exactValue? v = some (k : ℚ)) :
    cssText v = signedDecimal k := by
  have size : (k * 10000).natAbs = k.natAbs * 10000 := Int.natAbs_mul k 10000
  have sign : decide (k * 10000 < 0) = decide (k < 0) := decide_eq_decide.mpr (by omega)
  have zero : (k.natAbs * 10000 != 0) = decide (k ≠ 0) := by
    rw [bne, beq_eq_decide, ← decide_not]
    exact decide_eq_decide.mpr (by omega)
  rw [cssText_eq_tenThousandths, writtenUnits_of_whole denotes, size, sign, tenThousandths,
    fractionDigits_whole, zero, Nat.mul_div_cancel _ (by omega), signedDecimal]
  by_cases negative : k < 0
  · have nonzero : k ≠ 0 := negative.ne
    simp [negative, nonzero]
  · simp [negative]

/-- The numeral with all four places. It has the sign of the number, also where the number is
rounded to zero. -/
def Binary.fourPlaces (b : Binary) : List Char :=
  let units := roundHalfEven (b.numerator * 10000) b.denominator
  (if b.negative then ['-'] else []) ++
    (digits 10 (units / 10000) ++ '.' :: (places units).map digit)

def trimmed (numeral : List Char) : List Char :=
  let short := Text.dropTail (· == '.') (Text.dropTail (· == '0') numeral)
  if short = ['-', '0'] then ['0'] else short

theorem dropTail_append {p : Char → Bool} {tail : List Char} (front : List Char)
    (dropped : ∀ d ∈ tail, p d = true) :
    Text.dropTail p (front ++ tail) = Text.dropTail p front := by
  rw [Text.dropTail, Text.dropTail, List.reverse_append,
    List.dropWhile_append_of_pos fun d member => dropped d (List.mem_reverse.mp member)]

theorem dropTail_concat (p : Char → Bool) {c : Char} (front : List Char) (kept : p c = false) :
    Text.dropTail p (front ++ [c]) = front ++ [c] :=
  List.rdropWhile_concat_neg p front c (by simp [kept])

theorem dropTail_places (front : List Char) (whole units : ℕ) :
    Text.dropTail (· == '.') (Text.dropTail (· == '0')
        (front ++ (digits 10 whole ++ '.' :: (places units).map digit))) =
      front ++ (digits 10 whole ++ pointText (fractionDigits units)) := by
  obtain ⟨zeros, written⟩ := exists_zeros units
  have dropped : ∀ d ∈ List.replicate zeros '0', (d == '0') = true :=
    fun d member => beq_iff_eq.mpr (List.eq_of_mem_replicate member)
  have noPoint : ∀ d < 10, (digit d == '.') = false := by decide
  obtain none | ⟨ds, last, shown, -, -, nonzero, bound⟩ := fractionDigits_cases units
  · -- The point is dropped too, and a digit stands in front of it.
    obtain ⟨ds, last, numeral⟩ := (List.eq_nil_or_concat' (digits 10 whole)).resolve_left
      (digits_ne_nil 10 whole)
    obtain ⟨d, bound, rfl⟩ : ∃ d < 10, last = digit d := by
      apply exists_digit_of_mem_digits (by omega)
      rw [numeral]
      exact List.mem_append_right _ List.mem_cons_self
    have text : front ++ (digits 10 whole ++ '.' :: (places units).map digit) =
        front ++ ds ++ [digit d] ++ ['.'] ++ List.replicate zeros '0' := by
      simp [written, none, numeral]
    rw [text, dropTail_append _ dropped, dropTail_concat _ _ rfl,
      dropTail_append _ (List.forall_mem_singleton.mpr rfl),
      dropTail_concat (· == '.') _ (noPoint d bound), none, numeral, pointText, List.append_nil,
      List.append_assoc]
  · have noZero : (digit last == '0') = false := by
      have each : ∀ d < 10, d ≠ 0 → (digit d == '0') = false := by decide
      exact each last bound nonzero
    have text : front ++ (digits 10 whole ++ '.' :: (places units).map digit) =
        front ++ digits 10 whole ++ '.' :: ds.map digit ++ [digit last] ++
          List.replicate zeros '0' := by
      simp [written, shown]
    rw [text, dropTail_append _ dropped, dropTail_concat (· == '0') _ noZero,
      dropTail_concat (· == '.') _ (noPoint last bound), shown, pointText_append_singleton]
    simp

theorem cssText_eq_trimmed {v : Float} {b : Binary} (parts : Binary.ofFloat? v = some b) :
    (cssText v).toList = trimmed b.fourPlaces := by
  have written : cssText v =
      tenThousandths b.negative (roundHalfEven (b.numerator * 10000) b.denominator) := by
    rw [cssText, parts]
  have apart := cssText_ne_minusZero v
  rw [trimmed, Binary.fourPlaces, dropTail_places]
  rw [written, ne_eq, ← String.toList_inj, toList_tenThousandths] at apart
  rw [written, toList_tenThousandths]
  generalize roundHalfEven (b.numerator * 10000) b.denominator = units at *
  by_cases zero : units = 0
  · have none : fractionDigits 0 = [] := fractionDigits_whole 0
    rw [zero, none, Nat.zero_div, digits_zero]
    cases b.negative <;> rfl
  · have sign : (b.negative && units != 0) = b.negative := by simp [zero]
    rw [sign] at apart ⊢
    exact (if_neg apart).symm

/-- A finite number is written as the numeral of the nearest multiple of a ten-thousandth, the even
one of two: in the shortest form, without the sign of a zero, by trimming all four places, and as
its decimal numeral where it is whole. The numerals are in the order of the numbers. -/
theorem cssText_nearest {v : Float} (finite : v.isFinite = true) :
    ∃ x y : ℚ, exactValue? v = some x ∧ numeralValue? (cssText v) = some y ∧
      (∃ n : ℤ, y = n / 10000 ∧ IsNearest n (x * 10000)) ∧ |y - x| ≤ 1 / 20000 ∧
      (∀ k : ℤ, x = k → y = x ∧ cssText v = signedDecimal k) ∧
      (cssText v).toList ∈ numerals ∧ cssText v ≠ "-0" ∧
      (∀ b, Binary.ofFloat? v = some b → (cssText v).toList = trimmed b.fourPlaces) ∧
      ∀ w, w.isFinite = true → v ≤ w → ∃ z, numeralValue? (cssText w) = some z ∧ y ≤ z := by
  obtain ⟨x, denotes⟩ := isFinite_iff.mp finite
  have nearest := isNearest_writtenUnits denotes
  refine ⟨x, (writtenUnits v : ℚ) / 10000, denotes, numeralValue?_cssText v,
    ⟨_, rfl, nearest⟩, ?_, ?_, cssText_mem_numerals v, cssText_ne_minusZero v,
    fun _ => cssText_eq_trimmed, ?_⟩
  · obtain ⟨below, above⟩ := abs_le.mp nearest.near
    rw [abs_le]
    constructor <;> linarith
  · intro k whole
    rw [whole] at denotes
    refine ⟨?_, cssText_of_whole denotes⟩
    rw [writtenUnits_of_whole denotes, whole]
    push_cast
    ring
  · intro w finiteToo less
    obtain ⟨p, q, first, second, ordered⟩ := numeralValue?_le finite finiteToo less
    rw [numeralValue?_cssText] at first
    obtain rfl := Option.some.inj first
    exact ⟨q, second, ordered⟩

theorem cssText_nearest_tie :
    (0.03125 : Float).isFinite = true ∧ cssText 0.03125 = "0.0312" ∧
      ∃ x y : ℚ, exactValue? 0.03125 = some x ∧ numeralValue? (cssText 0.03125) = some y ∧
        |y - x| ≤ 1 / 20000 := by
  have finite : (0.03125 : Float).isFinite = true := by decide +kernel
  obtain ⟨x, y, denotes, read, -, near, -⟩ := cssText_nearest finite
  exact ⟨finite, by decide +kernel, x, y, denotes, read, near⟩

end AtomicMarkup.Number
