import AtomicMarkup.Number.Reading
import AtomicMarkup.Proofs.Delimited
import AtomicMarkup.Proofs.Numeral
import Mathlib.Data.List.TakeWhile
import Mathlib.Tactic.Ring

/-!
Numbers as a stylesheet writes them. The numeral of a number is read back as a whole number of
ten-thousandths, the nearest one. So two numbers have one text just when they are nearest to the
same one; numbers that are not finite count as zero.
-/

namespace AtomicMarkup.Number

namespace Scientific

theorem foldl_digits (n : Nat) (ds : List Char) :
    ds.foldl (fun n c => 10 * n + (c.toNat - 48)) n = n * 10 ^ ds.length + ofDigits ds := by
  induction ds generalizing n with
  | nil => simp [ofDigits]
  | cons d ds ih =>
    have front : ofDigits (d :: ds) = (d.toNat - 48) * 10 ^ ds.length + ofDigits ds := by
      rw [ofDigits, List.foldl_cons, ih, Nat.mul_zero, Nat.zero_add]
    rw [List.foldl_cons, ih, front, List.length_cons, Nat.pow_succ]
    ring

theorem ofDigits_append (front back : List Char) :
    ofDigits (front ++ back) = ofDigits front * 10 ^ back.length + ofDigits back := by
  rw [ofDigits, List.foldl_append, foldl_digits, ← ofDigits]

theorem ofDigits_zeros (n : Nat) : ofDigits (List.replicate n '0') = 0 := by
  induction n with
  | zero => rfl
  | succ n ih =>
    rw [List.replicate_succ', ofDigits_append, ih]
    rfl

theorem ofDigits_digit {d : Nat} (bound : d < 10) : ofDigits [digit d] = d := by
  rw [ofDigits, List.foldl_cons, List.foldl_nil, digit_toNat (by omega), if_pos bound]
  omega

theorem ofDigits_digits (n : Nat) : ofDigits (digits 10 n) = n := by
  induction n using digits.induct 10 with
  | case1 n more ih =>
    rw [digits, if_pos more, ofDigits_append, ih, ofDigits_digit (Nat.mod_lt n (by omega))]
    exact Nat.div_add_mod' n 10
  | case2 n last =>
    rw [digits, if_neg last, ofDigits_digit (by omega)]

end Scientific

theorem isDigit_digit {d : Nat} (bound : d < 10) : (digit d).isDigit = true := by
  have each : ∀ d < 10, (digit d).isDigit = true := by decide
  exact each d bound

theorem isDigit_of_mem_digits {n : Nat} {c : Char} (member : c ∈ digits 10 n) :
    c.isDigit = true := by
  obtain ⟨d, bound, rfl⟩ := exists_digit_of_mem_digits (by omega) member
  exact isDigit_digit bound

theorem digits_ne_nil (base n : Nat) : digits base n ≠ [] := by
  rw [digits]
  split <;> simp

def places (units : Nat) : List Nat :=
  [units / 1000 % 10, units / 100 % 10, units / 10 % 10, units % 10]

theorem lt_of_mem_places {units d : Nat} (member : d ∈ places units) : d < 10 := by
  simp only [places, List.mem_cons, List.not_mem_nil, or_false] at member
  omega

theorem ofDigits_places (units : Nat) :
    Scientific.ofDigits ((places units).map digit) = units % 10000 := by
  have split : (places units).map digit = [digit (units / 1000 % 10)] ++
      ([digit (units / 100 % 10)] ++ ([digit (units / 10 % 10)] ++ [digit (units % 10)])) := rfl
  rw [split, Scientific.ofDigits_append, Scientific.ofDigits_append, Scientific.ofDigits_append]
  simp only [Scientific.ofDigits_digit (Nat.mod_lt _ (show 0 < 10 by omega)), List.length_append,
    List.length_singleton]
  omega

/-- Trailing zeros are the only places that a fraction is written without. -/
theorem exists_zeros (units : Nat) :
    ∃ zeros, (places units).map digit = fractionDigits units ++ List.replicate zeros '0' := by
  let ds := (places units).reverse
  have zero : ∀ d ∈ ds.takeWhile (· == 0), d = 0 :=
    fun d member => beq_iff_eq.mp (List.all_eq_true.mp List.all_takeWhile d member)
  refine ⟨(ds.takeWhile (· == 0)).length, ?_⟩
  have whole : places units = (ds.dropWhile (· == 0)).reverse ++
      List.replicate (ds.takeWhile (· == 0)).length 0 := by
    rw [← List.reverse_inj, List.reverse_append, List.reverse_reverse, List.reverse_replicate,
      ← List.eq_replicate_iff.mpr ⟨rfl, zero⟩, List.takeWhile_append_dropWhile]
  have written := congrArg (List.map digit) whole
  rw [List.map_append, List.map_replicate] at written
  exact written

theorem isDigit_of_mem_fractionDigits {units : Nat} {c : Char}
    (member : c ∈ fractionDigits units) : c.isDigit = true := by
  obtain ⟨zeros, written⟩ := exists_zeros units
  have inside : c ∈ (places units).map digit := written ▸ List.mem_append_left _ member
  obtain ⟨d, among, rfl⟩ := List.mem_map.mp inside
  exact isDigit_digit (lt_of_mem_places among)

theorem length_fractionDigits_le (units : Nat) : (fractionDigits units).length ≤ 4 := by
  obtain ⟨zeros, written⟩ := exists_zeros units
  have lengths := congrArg List.length written
  simp only [places, List.map_cons, List.map_nil, List.length_cons, List.length_nil,
    List.length_append, List.length_replicate] at lengths
  omega

theorem ofDigits_fractionDigits (units : Nat) :
    Scientific.ofDigits (fractionDigits units) * 10 ^ (4 - (fractionDigits units).length) =
      units % 10000 := by
  obtain ⟨zeros, written⟩ := exists_zeros units
  have lengths := congrArg List.length written
  simp only [places, List.map_cons, List.map_nil, List.length_cons, List.length_nil,
    List.length_append, List.length_replicate] at lengths
  have rest : 4 - (fractionDigits units).length = zeros := by omega
  rw [← ofDigits_places, written, Scientific.ofDigits_append, Scientific.ofDigits_zeros,
    List.length_replicate, rest, Nat.add_zero]

def pointText : List Char → List Char
  | [] => []
  | places => '.' :: places

theorem toList_tenThousandths (negative : Bool) (units : Nat) :
    (tenThousandths negative units).toList = (if negative && units != 0 then ['-'] else []) ++
      (digits 10 (units / 10000) ++ pointText (fractionDigits units)) := by
  unfold tenThousandths
  cases fractionDigits units <;> cases negative && units != 0 <;> simp [decimal, pointText]

theorem splitSign_digits {ds rest : List Char} (nonempty : ds ≠ [])
    (plain : ∀ c ∈ ds, c.isDigit = true) :
    Scientific.splitSign (ds ++ rest) = (false, ds ++ rest) := by
  cases ds with
  | nil => contradiction
  | cons d ds =>
    have digit := plain d List.mem_cons_self
    rw [List.cons_append, Scientific.splitSign]
    · intro cs same
      obtain ⟨rfl, -⟩ := List.cons_eq_cons.mp same
      contradiction
    · intro cs same
      obtain ⟨rfl, -⟩ := List.cons_eq_cons.mp same
      contradiction

theorem read?_numeral (negative : Bool) {whole places : List Char} (nonempty : whole ≠ [])
    (plain : ∀ c ∈ whole, c.isDigit = true) (more : ∀ c ∈ places, c.isDigit = true) :
    Scientific.read? ((if negative then ['-'] else []) ++ (whole ++ pointText places)) =
      some ⟨negative, Scientific.ofDigits (whole ++ places), -(places.length : Int)⟩ := by
  have sign : Scientific.splitSign ((if negative then ['-'] else []) ++
      (whole ++ pointText places)) = (negative, whole ++ pointText places) := by
    cases negative with
    | false => exact @splitSign_digits whole (pointText places) nonempty plain
    | true => rfl
  have stop : ∀ c ∈ (pointText places).head?, c.isDigit = false := by
    cases places with
    | nil => nofun
    | cons p ps => exact forall_head?_cons rfl
  have unfinished : whole.isEmpty = false := by simpa using nonempty
  have inside : places.takeWhile Char.isDigit = places := List.takeWhile_eq_self_iff.mpr more
  have behind : places.dropWhile Char.isDigit = [] := List.dropWhile_eq_nil_iff.mpr more
  rw [Scientific.read?, sign]
  simp only [takeWhile_before plain stop, dropWhile_before plain stop, unfinished,
    Bool.false_and]
  cases places with
  | nil => simp [pointText, Scientific.readExponent?]
  | cons p ps => simp [pointText, inside, behind, Scientific.readExponent?]

def writtenUnits (v : Float) : Int :=
  match Binary.ofFloat? v with
  | none => 0
  | some b =>
    let units := roundHalfEven (b.numerator * 10000) b.denominator
    if b.negative then -units else units

theorem tenThousandths_signed (negative : Bool) (units : Nat) :
    tenThousandths negative units =
      tenThousandths ((if negative then -units else units : Int) < 0)
        (if negative then -units else units : Int).natAbs := by
  have size : (if negative then -units else units : Int).natAbs = units := by
    cases negative <;> simp
  -- The sign counts only where the number is not zero.
  have sign : (negative && units != 0) =
      (decide ((if negative then -units else units : Int) < 0) && units != 0) := by
    cases negative with
    | false => simp
    | true =>
      cases units
      · rfl
      · simp
        omega
  rw [size, tenThousandths, sign, ← tenThousandths]

theorem cssText_eq_tenThousandths (v : Float) :
    cssText v = tenThousandths (writtenUnits v < 0) (writtenUnits v).natAbs := by
  unfold cssText writtenUnits
  cases Binary.ofFloat? v with
  | none => decide +kernel
  | some b => exact tenThousandths_signed _ _

/-- A written number is read back as its number of ten-thousandths. -/
theorem read?_cssText (v : Float) :
    ∃ s, Scientific.read? (cssText v).toList = some s ∧ s.negative = decide (writtenUnits v < 0) ∧
      -4 ≤ s.exponent ∧ s.exponent ≤ 0 ∧
      s.value * 10 ^ (4 + s.exponent).toNat = (writtenUnits v).natAbs := by
  let units := (writtenUnits v).natAbs
  have short := length_fractionDigits_le units
  have sign : (decide (writtenUnits v < 0) && units != 0) = decide (writtenUnits v < 0) := by
    by_cases negative : writtenUnits v < 0
    · simp [negative, units]
      omega
    · simp [negative]
  let numeral := digits 10 (units / 10000) ++ fractionDigits units
  refine ⟨⟨writtenUnits v < 0, Scientific.ofDigits numeral, -((fractionDigits units).length : Int)⟩,
    ?_, rfl, ?_, ?_, ?_⟩
  · rw [cssText_eq_tenThousandths, toList_tenThousandths, sign]
    exact read?_numeral _ (digits_ne_nil _ _) (fun _ => isDigit_of_mem_digits)
      fun _ => isDigit_of_mem_fractionDigits
  · dsimp only
    omega
  · dsimp only
    omega
  · have power : (4 + -((fractionDigits units).length : Int)).toNat =
        4 - (fractionDigits units).length := by omega
    have whole : 10 ^ (fractionDigits units).length * 10 ^ (4 - (fractionDigits units).length) =
        10000 := by
      rw [← Nat.pow_add, Nat.add_sub_cancel' short]
    calc Scientific.ofDigits numeral * 10 ^ _
      _ = units / 10000 * (10 ^ (fractionDigits units).length *
            10 ^ (4 - (fractionDigits units).length)) +
          Scientific.ofDigits (fractionDigits units) *
            10 ^ (4 - (fractionDigits units).length) := by
        rw [Scientific.ofDigits_append, Scientific.ofDigits_digits, power]
        ring
      _ = units := by
        rw [whole, ofDigits_fractionDigits]
        exact Nat.div_add_mod' units 10000

/-- Two numbers have one text just when they are written as the same number of
ten-thousandths. -/
theorem cssText_eq_iff {v w : Float} : cssText v = cssText w ↔ writtenUnits v = writtenUnits w := by
  constructor
  · intro same
    obtain ⟨s, first, negative, -, -, units⟩ := read?_cssText v
    obtain ⟨t, second, negativeToo, -, -, unitsToo⟩ := read?_cssText w
    rw [same, second, Option.some.injEq] at first
    subst first
    rw [negative] at negativeToo
    have signs := decide_eq_decide.mp negativeToo
    omega
  · intro same
    rw [cssText_eq_tenThousandths, same, ← cssText_eq_tenThousandths]

end AtomicMarkup.Number
