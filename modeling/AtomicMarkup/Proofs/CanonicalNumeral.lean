import AtomicMarkup.Proofs.WrittenNumber
import Mathlib.Data.List.Shortlex
import Mathlib.Logic.Function.Iterate

/-!
Numerals are canonical. None but that of zero begins with a zero, and in the order by length, and
by the dictionary among texts of one length, numerals stand as their numbers do. A numeral in base
36 can also be written from its end: the last digit of what is left of the number is pushed to a
buffer of bytes until nothing is left, and the buffer is turned around and read as a text. This
ends for every number, and the text is always there and is the numeral.
-/

namespace AtomicMarkup.Number

theorem digit_lt_digit {d e : Nat} (bound : e < 36) (less : d < e) : digit d < digit e := by
  rw [Char.lt_def, UInt32.lt_iff_toNat_lt]
  have first := digit_toNat (less.trans bound)
  have second := digit_toNat bound
  rw [Char.toNat] at first second
  rw [first, second]
  split <;> split <;> omega

theorem digit_eq_zero_iff {d : Nat} (bound : d < 36) : digit d = '0' ↔ d = 0 := by
  constructor
  · intro zero
    rw [← digitValue_digit bound, zero]
    rfl
  · rintro rfl
    rfl

theorem lex_append {s t : List Char} (ordered : List.Lex (· < ·) s t) (same : s.length = t.length)
    (front back : List Char) : List.Lex (· < ·) (s ++ front) (t ++ back) := by
  induction ordered with
  | nil => contradiction
  | rel less => exact .rel less
  | cons _ ih => exact .cons (ih (Nat.succ.inj same))

theorem shortlex_concat {s t : List Char} (ordered : List.Shortlex (· < ·) s t) (c d : Char) :
    List.Shortlex (· < ·) (s ++ [c]) (t ++ [d]) := by
  obtain shorter | ⟨same, less⟩ := List.shortlex_def.mp ordered
  · apply List.Shortlex.of_length_lt
    simpa using shorter
  · apply List.Shortlex.of_lex
    · simpa using same
    · exact lex_append less same [c] [d]

theorem length_pos_digits (base n : Nat) : 0 < (digits base n).length :=
  List.length_pos_iff.mpr (digits_ne_nil base n)

/-- The numeral of a smaller number is shorter, or as long and first in the dictionary. -/
theorem digits_shortlex {base : Nat} (least : 2 ≤ base) (most : base ≤ 36) {m n : Nat}
    (less : m < n) : List.Shortlex (· < ·) (digits base m) (digits base n) := by
  induction n using digits.induct base generalizing m with
  | case1 n more ih =>
    have last : n % base < 36 := (Nat.mod_lt n (by omega)).trans_le most
    rw [digits.eq_1 base n, if_pos more]
    by_cases single : base ≤ m
    · rw [digits, if_pos ⟨least, single⟩]
      -- The numbers differ in front of their last digit, or in that digit alone.
      obtain front | front := Nat.lt_or_eq_of_le (Nat.div_le_div_right (c := base) less.le)
      · exact shortlex_concat (ih front) _ _
      · rw [front]
        apply List.Shortlex.append_left
        rw [List.shortlex_singleton_iff]
        apply digit_lt_digit last
        have whole := Nat.div_add_mod m base
        have wholeToo := Nat.div_add_mod n base
        rw [front] at whole
        omega
    · apply List.Shortlex.of_length_lt
      rw [digits, if_neg (fun both => single both.2), List.length_append]
      have front := length_pos_digits base (n / base)
      simpa using front
  | case2 n last =>
    rw [digits, if_neg (by omega), digits, if_neg last, List.shortlex_singleton_iff]
    exact digit_lt_digit (by omega) less

theorem shortlex_digits_iff {base : Nat} (least : 2 ≤ base) (most : base ≤ 36) {m n : Nat} :
    List.Shortlex (· < ·) (digits base m) (digits base n) ↔ m < n := by
  refine ⟨fun ordered => ?_, digits_shortlex least most⟩
  obtain less | rfl | more := Nat.lt_trichotomy m n
  · exact less
  · exact absurd ordered (asymm ordered)
  · exact absurd (digits_shortlex least most more) (asymm ordered)

theorem head?_digits_eq_zero_iff {base : Nat} (least : 2 ≤ base) (most : base ≤ 36) (n : Nat) :
    (digits base n).head? = some '0' ↔ n = 0 := by
  induction n using digits.induct base with
  | case1 n more ih =>
    rw [digits, if_pos more, List.head?_append_of_ne_nil _ (digits_ne_nil _ _), ih,
      Nat.div_eq_zero_iff]
    omega
  | case2 n last =>
    rw [digits, if_neg last, List.head?_cons, Option.some_inj]
    exact digit_eq_zero_iff (by omega)

def alphabet : Vector Char 36 :=
  ⟨"0123456789abcdefghijklmnopqrstuvwxyz".toList.toArray, by decide⟩

theorem alphabet_getElem : ∀ d : Fin 36, alphabet[d] = digit d := by
  decide

/-- A numeral in base 36 while it is written: what is left of the number, and the digits so far,
the last one first. -/
structure Draft where
  rest : Nat
  bytes : Array UInt8

namespace Draft

def ofNat (n : Nat) : Draft :=
  ⟨n, #[]⟩

def turn (s : Draft) : Draft :=
  ⟨s.rest / 36, s.bytes.push alphabet[s.rest % 36].toUInt8⟩

def finish (s : Draft) : Draft :=
  if 0 < s.rest then s.turn.finish else s
termination_by s.rest
decreasing_by exact Nat.div_lt_self ‹0 < s.rest› (by omega)

def text? (s : Draft) : Option String :=
  String.fromUTF8? ⟨s.bytes.reverse⟩

/-- The bytes of the whole numeral: those of what is left and those that are written. -/
def numeral (s : Draft) : List UInt8 :=
  (if 0 < s.rest then (digits 36 s.rest).map Char.toUInt8 else []) ++ s.bytes.toList.reverse

variable {s : Draft}

theorem numeral_turn (left : 0 < s.rest) : s.turn.numeral = s.numeral := by
  have last : alphabet[s.rest % 36] = digit (s.rest % 36) :=
    alphabet_getElem (Fin.ofNat 36 s.rest)
  rw [numeral, numeral, if_pos left, turn, last, Array.toList_push, List.reverse_append,
    List.reverse_singleton, ← List.append_assoc]
  congr 1
  dsimp only
  -- A number of one digit leaves nothing.
  by_cases more : 36 ≤ s.rest
  · rw [if_pos (by omega), digits.eq_1 36 s.rest, if_pos ⟨by omega, more⟩, List.map_append]
    rfl
  · rw [if_neg (by omega), digits, if_neg (by omega), Nat.mod_eq_of_lt (by omega)]
    rfl

theorem numeral_finish (s : Draft) : s.finish.numeral = s.numeral := by
  induction s using finish.induct with
  | case1 s left ih => rw [finish, if_pos left, ih, numeral_turn left]
  | case2 s nothing => rw [finish, if_neg nothing]

theorem rest_finish (s : Draft) : s.finish.rest = 0 := by
  induction s using finish.induct with
  | case1 s left ih => rw [finish, if_pos left, ih]
  | case2 s nothing => rw [finish, if_neg nothing]; omega

theorem exists_turns (s : Draft) :
    ∃ turns, turn^[turns] s = s.finish ∧ s.finish.bytes.size = s.bytes.size + turns ∧
      ∀ k < turns, 0 < (turn^[k] s).rest := by
  induction s using finish.induct with
  | case1 s left ih =>
    obtain ⟨turns, last, size, before⟩ := ih
    have pushed : s.turn.bytes.size = s.bytes.size + 1 := Array.size_push _
    rw [finish, if_pos left]
    refine ⟨turns + 1, last, by omega, ?_⟩
    intro k earlier
    cases k with
    | zero => exact left
    | succ k => exact before k (Nat.lt_of_succ_lt_succ earlier)
  | case2 s nothing =>
    rw [finish, if_neg nothing]
    exact ⟨0, rfl, rfl, nofun⟩

theorem bytes_finish {n : Nat} (positive : 0 < n) :
    (ofNat n).finish.bytes.toList.reverse = (digits 36 n).map Char.toUInt8 := by
  have same := numeral_finish (ofNat n)
  have started : (ofNat n).numeral = (digits 36 n).map Char.toUInt8 := by
    rw [numeral, if_pos (show 0 < (ofNat n).rest from positive)]
    exact List.append_nil _
  rwa [numeral, rest_finish, if_neg (by omega), List.nil_append, started] at same

end Draft

theorem utf8EncodeChar_of_mem_digits {n : Nat} {c : Char} (member : c ∈ digits 36 n) :
    String.utf8EncodeChar c = [c.toUInt8] := by
  have each : ∀ d < 36, String.utf8EncodeChar (digit d) = [(digit d).toUInt8] := by decide
  obtain ⟨d, bound, rfl⟩ := exists_digit_of_mem_digits (by omega) member
  exact each d bound

theorem utf8Encode_digits (n : Nat) :
    (digits 36 n).utf8Encode = ((digits 36 n).map Char.toUInt8).toByteArray := by
  have bytes : (digits 36 n).flatMap String.utf8EncodeChar =
      (digits 36 n).flatMap fun c => [c.toUInt8] :=
    List.flatMap_congr fun c member => utf8EncodeChar_of_mem_digits member
  rw [List.utf8Encode, bytes, List.map_eq_flatMap]

theorem fromUTF8?_toByteArray (s : String) : String.fromUTF8? s.toByteArray = some s := by
  rw [String.fromUTF8?, dif_pos s.isValidUTF8]
  rfl

/-- Bytes written from the end are the numeral, so that they are a text. -/
theorem Draft.text?_finish {n : Nat} (positive : 0 < n) :
    (ofNat n).finish.text? = some (base36 n) := by
  have bytes : (⟨(ofNat n).finish.bytes.reverse⟩ : ByteArray) = (base36 n).toByteArray := by
    apply ByteArray.ext
    rw [base36, String.toByteArray_ofList, utf8Encode_digits, List.data_toByteArray,
      ← bytes_finish positive, ← Array.toList_reverse]
  rw [text?, bytes, fromUTF8?_toByteArray]

/-- The numeral as it is written from the end. Zero has no digit to begin with and is written
apart. -/
def written? (n : Nat) : Option String :=
  if n = 0 then some "0" else (Draft.ofNat n).finish.text?

theorem written?_eq (n : Nat) : written? n = some (base36 n) := by
  rw [written?]
  split
  · next zero =>
    rw [zero, base36, digits, if_neg (by omega)]
    rfl
  · next nonzero => exact Draft.text?_finish (Nat.pos_of_ne_zero nonzero)

theorem mem_alphabet_of_mem_digits {n : Nat} {c : Char} (member : c ∈ digits 36 n) :
    c ∈ alphabet := by
  obtain ⟨d, bound, rfl⟩ := exists_digit_of_mem_digits (by omega) member
  rw [← alphabet_getElem ⟨d, bound⟩]
  exact Vector.getElem_mem bound

/-- The numeral of a number in base 36 is not empty, has digits and small letters alone, denotes
the number, and has no leading zero but for the number zero. Written from its end it is finished
after as many turns as it has digits, none for zero, and is always a text. Numbers are ordered as
their numerals are by length and then by the dictionary. -/
theorem base36_canonical (n : Nat) :
    base36 n ≠ "" ∧ (∀ c ∈ (base36 n).toList, c ∈ alphabet) ∧ value 36 (base36 n).toList = n ∧
      ((base36 n).toList.head? = some '0' ↔ n = 0) ∧
      written? n = some (base36 n) ∧
      (∃ turns, Draft.turn^[turns] (.ofNat n) = (Draft.ofNat n).finish ∧
        (Draft.ofNat n).finish.rest = 0 ∧
        (∀ k < turns, 0 < (Draft.turn^[k] (.ofNat n)).rest) ∧
        turns = if n = 0 then 0 else (base36 n).length) ∧
      ∀ m, m < n ↔ (base36 m).length < (base36 n).length ∨
        (base36 m).length = (base36 n).length ∧ base36 m < base36 n := by
  have chars (k : Nat) : (base36 k).toList = digits 36 k := String.toList_ofList
  have length (k : Nat) : (base36 k).length = (digits 36 k).length := by
    rw [← String.length_toList, chars]
  refine ⟨?_, ?_, ?_, ?_, written?_eq n, ?_, ?_⟩
  · intro empty
    apply digits_ne_nil 36 n
    rw [← chars, empty]
    rfl
  · rw [chars]
    exact fun c member => mem_alphabet_of_mem_digits member
  · rw [chars, value_digits (by omega) (by omega)]
  · rw [chars, head?_digits_eq_zero_iff (by omega) (by omega)]
  · obtain ⟨turns, last, size, before⟩ := Draft.exists_turns (.ofNat n)
    refine ⟨turns, last, Draft.rest_finish _, before, ?_⟩
    split
    · next zero =>
      by_contra some
      have first := before 0 (by omega)
      rw [zero] at first
      exact absurd first (Nat.lt_irrefl 0)
    · next nonzero =>
      have bytes := congrArg List.length (Draft.bytes_finish (Nat.pos_of_ne_zero nonzero))
      simp only [List.length_reverse, Array.length_toList, List.length_map] at bytes
      have started : (Draft.ofNat n).bytes.size = 0 := rfl
      rw [length, ← bytes, size, started, Nat.zero_add]
  · intro m
    rw [← shortlex_digits_iff (show 2 ≤ 36 by omega) (by omega), List.shortlex_def, length, length,
      String.lt_iff, chars, chars]
    rfl

end AtomicMarkup.Number
