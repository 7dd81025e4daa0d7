import AtomicMarkup.Number.Numeral

/-!
Numerals denote their numbers: the digits of a number, read in its base, give the number again.
Numerals of two numbers are therefore different texts. A digit is no mark of punctuation, so that
a numeral has none but its sign and its point.
-/

namespace AtomicMarkup.Number

def digitValue (c : Char) : Nat :=
  if c.toNat < 58 then c.toNat - 48 else c.toNat - 87

def value (base : Nat) (ds : List Char) : Nat :=
  ds.foldl (fun n c => base * n + digitValue c) 0

theorem toNat_ofNat_of_lt {n : Nat} (small : n < 128) : (Char.ofNat n).toNat = n := by
  have valid : n.isValidChar := Or.inl (by omega)
  rw [Char.ofNat, dif_pos valid]
  rfl

theorem digit_toNat {d : Nat} (bound : d < 36) :
    (digit d).toNat = if d < 10 then 48 + d else 87 + d := by
  unfold digit
  apply toNat_ofNat_of_lt
  split <;> omega

theorem digitValue_digit {d : Nat} (bound : d < 36) : digitValue (digit d) = d := by
  rw [digitValue, digit_toNat bound]
  split <;> split at * <;> omega

theorem digit_ne {c : Char} (low : c.toNat < 48) {d : Nat} (bound : d < 36) : digit d ≠ c := by
  rintro rfl
  rw [digit_toNat bound] at low
  split at low <;> omega

theorem value_append (base : Nat) (ds : List Char) (c : Char) :
    value base (ds ++ [c]) = base * value base ds + digitValue c := by
  simp [value, List.foldl_append]

/-- Reading in the base undoes writing in it. -/
theorem value_digits {base : Nat} (least : 2 ≤ base) (most : base ≤ 36) (n : Nat) :
    value base (digits base n) = n := by
  induction n using digits.induct base with
  | case1 n more ih =>
    have bound : n % base < 36 := Nat.lt_of_lt_of_le (Nat.mod_lt n (by omega)) most
    rw [digits, if_pos more, value_append, ih, digitValue_digit bound]
    exact Nat.div_add_mod n base
  | case2 n last =>
    have bound : n < 36 := by omega
    rw [digits, if_neg last]
    simp [value, digitValue_digit bound]

theorem digits_injective {base : Nat} (least : 2 ≤ base) (most : base ≤ 36) {m n : Nat}
    (same : digits base m = digits base n) : m = n := by
  rw [← value_digits least most m, same, value_digits least most n]

theorem exists_digit_of_mem_digits {base : Nat} (least : 2 ≤ base) {n : Nat} {c : Char}
    (member : c ∈ digits base n) : ∃ d < base, c = digit d := by
  induction n using digits.induct base with
  | case1 n more ih =>
    rw [digits, if_pos more, List.mem_append, List.mem_singleton] at member
    rcases member with inside | last
    · exact ih inside
    · exact ⟨_, Nat.mod_lt n (by omega), last⟩
  | case2 n last =>
    rw [digits, if_neg last, List.mem_singleton] at member
    exact ⟨n, by omega, member⟩

theorem not_mem_digits {c : Char} (low : c.toNat < 48) {base : Nat} (least : 2 ≤ base)
    (most : base ≤ 36) (n : Nat) : c ∉ digits base n := by
  intro member
  obtain ⟨d, bound, same⟩ := exists_digit_of_mem_digits least member
  exact digit_ne low (by omega) same.symm

theorem isAlphanum_of_mem_digits {base : Nat} (least : 2 ≤ base) (most : base ≤ 36) {n : Nat}
    {c : Char} (member : c ∈ digits base n) : c.isAlphanum = true := by
  have each : ∀ d < 36, (digit d).isAlphanum = true := by decide
  obtain ⟨d, bound, rfl⟩ := exists_digit_of_mem_digits least member
  exact each d (by omega)

def isNumeralChar (c : Char) : Bool :=
  c.isDigit || c == '-' || c == '.'

theorem isNumeralChar_digit {d : Nat} (bound : d < 10) : isNumeralChar (digit d) = true := by
  have each : ∀ d < 10, isNumeralChar (digit d) = true := by decide
  exact each d bound

theorem isNumeralChar_of_mem_decimal {n : Nat} {c : Char} (member : c ∈ (decimal n).toList) :
    isNumeralChar c = true := by
  rw [decimal, String.toList_ofList] at member
  obtain ⟨d, bound, rfl⟩ := exists_digit_of_mem_digits (by omega) member
  exact isNumeralChar_digit bound

theorem isNumeralChar_of_mem_fractionDigits {units : Nat} {c : Char}
    (member : c ∈ fractionDigits units) : isNumeralChar c = true := by
  obtain ⟨d, kept, rfl⟩ := List.mem_map.mp member
  have place : d ∈ [units / 1000 % 10, units / 100 % 10, units / 10 % 10, units % 10] :=
    List.mem_reverse.mp ((List.dropWhile_sublist _).subset (List.mem_reverse.mp kept))
  simp only [List.mem_cons, List.not_mem_nil, or_false] at place
  exact isNumeralChar_digit (by omega)

theorem isNumeralChar_of_mem_tenThousandths {negative : Bool} {units : Nat} {c : Char}
    (member : c ∈ (tenThousandths negative units).toList) : isNumeralChar c = true := by
  have sign : ∀ c ∈ (if negative && units != 0 then "-" else "").toList,
      isNumeralChar c = true := by
    split
    · exact List.forall_mem_singleton.mpr rfl
    · nofun
  unfold tenThousandths at member
  dsimp only at member
  split at member
  · rw [String.toList_append, List.mem_append] at member
    rcases member with lead | whole
    · exact sign c lead
    · exact isNumeralChar_of_mem_decimal whole
  · simp only [String.toList_append, List.mem_append, String.toList_ofList] at member
    rcases member with ((lead | whole) | point) | places
    · exact sign c lead
    · exact isNumeralChar_of_mem_decimal whole
    · obtain rfl := List.mem_singleton.mp point
      rfl
    · exact isNumeralChar_of_mem_fractionDigits places

theorem isNumeralChar_of_mem_cssText {v : Float} {c : Char} (member : c ∈ (cssText v).toList) :
    isNumeralChar c = true := by
  unfold cssText at member
  split at member
  · obtain rfl := List.mem_singleton.mp member
    rfl
  · exact isNumeralChar_of_mem_tenThousandths member

theorem not_mem_cssText {c : Char} (low : c.toNat < 45) (v : Float) : c ∉ (cssText v).toList := by
  intro member
  have mark := isNumeralChar_of_mem_cssText member
  have known : 45 ≤ c.toNat := by
    simp only [isNumeralChar, Bool.or_eq_true, beq_iff_eq] at mark
    rcases mark with (digit | rfl) | rfl
    · rw [Char.isDigit, Bool.and_eq_true] at digit
      have least : 48 ≤ c.toNat := UInt32.le_iff_toNat_le.mp (of_decide_eq_true digit.1)
      omega
    · decide
    · decide
  omega

theorem base36_injective {m n : Nat} (same : base36 m = base36 n) : m = n :=
  digits_injective (by omega) (by omega) (String.ofList_injective same)

end AtomicMarkup.Number
