import AtomicMarkup.Color.Reading
import AtomicMarkup.Proofs.ColorText
import AtomicMarkup.Proofs.Words
import Mathlib.Data.List.Forall2
import Mathlib.Data.Nat.Digits.Defs

/-!
The grammar of colour texts. A colour is read from the texts that spell it between blanks, in any
case, and from no others; whatever is refused is shown in the message as it was given. All colours
without an opacity are read from their own texts.
-/

namespace AtomicMarkup

namespace Text

theorem isBlank_toLower (c : Char) : isBlank c.toLower = isBlank c :=
  apply_toLower (by decide +kernel) c

theorem lowercase_trim (s : String) : lowercase (trim s) = trim (lowercase s) := by
  have same : isBlank ∘ Char.toLower = isBlank := funext isBlank_toLower
  rw [← String.toList_inj, lowercase, lowercase, trim, trim, dropTail, dropTail]
  simp only [String.toList_map, String.toList_ofList, List.dropWhile_map, ← List.map_reverse, same]

theorem trim_of_noBlank {s : String} (visible : ∀ c ∈ s.toList, isBlank c = false) :
    trim s = s := by
  have kept {cs : List Char} (visible : ∀ c ∈ cs, isBlank c = false) :
      cs.dropWhile isBlank = cs := by
    cases cs with
    | nil => rfl
    | cons c cs =>
      exact List.dropWhile_cons_of_neg (by simp [visible c List.mem_cons_self])
  rw [trim, kept visible, dropTail, kept fun c member => visible c (List.mem_reverse.mp member),
    List.reverse_reverse, String.ofList_toList]

end Text

namespace Number

def hexAlphabet : List Char :=
  ['0', '1', '2', '3', '4', '5', '6', '7', '8', '9', 'a', 'b', 'c', 'd', 'e', 'f']

def HexDigit (c : Char) (d : ℕ) : Prop :=
  hexAlphabet[d]? = some c.toLower

theorem HexDigit.lt {c : Char} {d : ℕ} (written : HexDigit c d) : d < 16 :=
  (List.getElem?_eq_some_iff.mp written).1

theorem HexDigit.digit {d : ℕ} (bound : d < 16) : HexDigit (Number.digit d) d := by
  have each : ∀ d < 16, hexAlphabet[d]? = some (Number.digit d).toLower := by decide +kernel
  exact each d bound

theorem hexValue?_toLower (c : Char) : hexValue? c.toLower = hexValue? c :=
  Text.apply_toLower (by decide +kernel) c

theorem toNat_lt_of_hexValue? {c : Char} {d : ℕ} (read : hexValue? c = some d) :
    c.toNat < 103 := by
  rw [hexValue?] at read
  split_ifs at read with decimal small capital
  · simp only [Char.isDigit, Bool.and_eq_true, decide_eq_true_eq] at decimal
    exact Nat.lt_succ_of_le (decimal.2.trans (by decide))
  · simp only [Bool.and_eq_true, decide_eq_true_eq] at small
    exact Nat.lt_succ_of_le small.2
  · simp only [Bool.and_eq_true, decide_eq_true_eq] at capital
    exact Nat.lt_succ_of_le (le_trans (α := ℕ) capital.2 (by decide))

theorem hexValue?_eq_some_iff {c : Char} {d : ℕ} : hexValue? c = some d ↔ HexDigit c d := by
  constructor
  · intro read
    have each : ∀ n < 103, ∀ d ∈ hexValue? (Char.ofNat n),
        hexAlphabet[d]? = some (Char.ofNat n).toLower := by decide +kernel
    have own := each c.toNat (toNat_lt_of_hexValue? read) d
    rw [Char.ofNat_toNat] at own
    exact own read
  · intro written
    have each : ∀ d < 16, hexAlphabet[d]?.bind hexValue? = some d := by decide +kernel
    have own := each d written.lt
    rw [written, Option.bind_some] at own
    rw [← hexValue?_toLower, own]

theorem HexDigit.isBlank {c : Char} {d : ℕ} (written : HexDigit c d) :
    Text.isBlank c = false := by
  have each : ∀ d < 16, hexAlphabet[d]?.map Text.isBlank = some false := by decide +kernel
  have own := each d written.lt
  rw [written, Option.map_some, Text.isBlank_toLower] at own
  exact Option.some.inj own

end Number

namespace Color

open Number (HexDigit)
open Text (lowercase sameIgnoringCase)

variable {s t : String} {c : Color} {cs : List Char} {ds : List ℕ}

inductive Spells (t : String) : Color → Prop where
  | transparent (word : sameIgnoringCase t "transparent" = true) : Spells t .transparent
  | currentColor (word : sameIgnoringCase t "currentcolor" = true) : Spells t .currentColor
  | named (name : NamedColor) (word : sameIgnoringCase t (Keyword.word name) = true) :
    Spells t (.named name)
  | short {cs : List Char} {x y z : ℕ} (numeral : t.toList = '#' :: cs)
      (digits : List.Forall₂ HexDigit cs [x, y, z]) :
    Spells t (.rgb ⟨.ofNat (17 * x), .ofNat (17 * y), .ofNat (17 * z)⟩)
  | long {cs : List Char} {x x' y y' z z' : ℕ} (numeral : t.toList = '#' :: cs)
      (digits : List.Forall₂ HexDigit cs [x, x', y, y', z, z']) :
    Spells t (.rgb ⟨.ofNat (16 * x + x'), .ofNat (16 * y + y'), .ofNat (16 * z + z')⟩)

/-- The error for a text that spells nothing. -/
inductive Refuses (s : String) : MarkupError → Prop where
  | word (other : (Text.trim s).toList.head? ≠ some '#') : Refuses s (.colorExpected s)
  | digit {cs : List Char} {c : Char} (numeral : (Text.trim s).toList = '#' :: cs)
      (member : c ∈ cs) (other : ∀ d, ¬ HexDigit c d) : Refuses s (.invalidHexDigits s)
  | length {cs : List Char} {ds : List ℕ} (numeral : (Text.trim s).toList = '#' :: cs)
      (digits : List.Forall₂ HexDigit cs ds) (notThree : cs.length ≠ 3) (notSix : cs.length ≠ 6) :
    Refuses s (.invalidHexLength s)

theorem Refuses.message {e : MarkupError} (refuses : Refuses s e) :
    ∃ reason, e.message = MarkupError.colorMessage s reason := by
  cases refuses with
  | word => exact ⟨_, rfl⟩
  | digit => exact ⟨_, rfl⟩
  | length => exact ⟨_, rfl⟩

theorem ofWord?_congr (same : lowercase s = lowercase t) : ofWord? s = ofWord? t := by
  unfold ofWord? sameIgnoringCase
  rw [same]

theorem ofWord?_word (name : NamedColor) : ofWord? (Keyword.word name) = some (.named name) := by
  cases name <;> decide +kernel

theorem spells_of_ofWord? (read : ofWord? t = some c) : Spells t c := by
  rw [ofWord?] at read
  split_ifs at read with nothing current
  · obtain rfl := Option.some.inj read
    exact .transparent nothing
  · obtain rfl := Option.some.inj read
    exact .currentColor current
  · obtain ⟨name, found, rfl⟩ := Option.map_eq_some_iff.mp read
    have same := List.find?_some found
    rw [sameIgnoringCase, beq_iff_eq] at same
    exact .named name (beq_iff_eq.mpr same.symm)

theorem ofWord?_numeral (numeral : t.toList = '#' :: cs) : ofWord? t = none := by
  have first : (lowercase t).toList.head? = some '#' := by
    rw [lowercase, String.toList_map, numeral]
    rfl
  have other {word : String} (letter : (lowercase word).toList.head? ≠ some '#') :
      lowercase word ≠ lowercase t := fun same => letter (same ▸ first)
  have letter (name : NamedColor) : (lowercase (Keyword.word name)).toList.head? ≠ some '#' := by
    cases name <;> decide +kernel
  have noName : (Keyword.all (α := NamedColor)).find?
      (fun name => sameIgnoringCase (Keyword.word name) t) = none := by
    rw [List.find?_eq_none]
    intro name _
    rw [sameIgnoringCase, beq_iff_eq]
    exact other (letter name)
  rw [ofWord?, noName, sameIgnoringCase, sameIgnoringCase,
    beq_eq_false_iff_ne.mpr (other (by decide +kernel)).symm,
    beq_eq_false_iff_ne.mpr (other (by decide +kernel)).symm]
  rfl

theorem mapM_hexValue?_iff : cs.mapM Number.hexValue? = some ds ↔ List.Forall₂ HexDigit cs ds := by
  rw [mapM_eq_some_iff]
  simp only [Number.hexValue?_eq_some_iff]

theorem mapM_hexValue?_eq_none (refused : cs.mapM Number.hexValue? = none) :
    ∃ c ∈ cs, ∀ d, ¬ HexDigit c d := by
  induction cs with
  | nil => contradiction
  | cons c cs ih =>
    cases own : Number.hexValue? c with
    | none =>
      refine ⟨c, List.mem_cons_self, fun d written => ?_⟩
      rw [Number.hexValue?_eq_some_iff.mpr written] at own
      contradiction
    | some d =>
      cases rest : cs.mapM Number.hexValue? with
      | none =>
        obtain ⟨other, member, none⟩ := ih rest
        exact ⟨other, List.mem_cons_of_mem c member, none⟩
      | some ds => simp [own, rest] at refused

theorem exists_of_length_six (six : ds.length = 6) :
    ∃ x x' y y' z z', ds = [x, x', y, y', z, z'] := by
  match ds, six with
  | [x, x', y, y', z, z'], _ => exact ⟨x, x', y, y', z, z', rfl⟩

theorem length_of_channelsOfDigits? (none : channelsOfDigits? ds = none) :
    ds.length ≠ 3 ∧ ds.length ≠ 6 := by
  constructor
  · intro three
    obtain ⟨x, y, z, rfl⟩ := List.length_eq_three.mp three
    contradiction
  · intro six
    obtain ⟨x, x', y, y', z, z', rfl⟩ := exists_of_length_six six
    contradiction

theorem lt_of_digits (digits : List.Forall₂ HexDigit cs ds) : ∀ d ∈ ds, d < 16 := by
  induction digits with
  | nil => nofun
  | cons first _ ih => exact List.forall_mem_cons.mpr ⟨first.lt, ih⟩

theorem byteOfDigits_self (x : ℕ) : byteOfDigits x x = UInt8.ofNat (17 * x) := by
  rw [byteOfDigits, ← Nat.succ_mul]

theorem spells_of_channelsOfDigits? {channels : Channels} (numeral : t.toList = '#' :: cs)
    (digits : List.Forall₂ HexDigit cs ds) (given : channelsOfDigits? ds = some channels) :
    Spells t (.rgb channels) := by
  rw [channelsOfDigits?.eq_def] at given
  split at given
  · rw [byteOfDigits_self, byteOfDigits_self, byteOfDigits_self] at given
    obtain rfl := Option.some.inj given
    exact .short numeral digits
  · obtain rfl := Option.some.inj given
    exact .long numeral digits
  · contradiction

theorem ofHex_digits {x x' y y' z z' : ℕ} (bounds : ∀ d ∈ [x, x', y, y', z, z'], d < 16) :
    ofHex (UInt32.ofNat (Nat.ofDigits 16 [z', z, y', y, x', x])) =
      .rgb ⟨.ofNat (16 * x + x'), .ofNat (16 * y + y'), .ofNat (16 * z + z')⟩ := by
  simp only [List.forall_mem_cons, List.not_mem_nil, IsEmpty.forall_iff, implies_true,
    and_true] at bounds
  obtain ⟨hx, hx', hy, hy', hz, hz'⟩ := bounds
  have number : Nat.ofDigits 16 [z', z, y', y, x', x] =
      65536 * (16 * x + x') + 256 * (16 * y + y') + (16 * z + z') := by
    simp only [Nat.ofDigits_cons, Nat.ofDigits_nil]
    ring
  rw [number, ofHex]
  congr 2 <;> rw [← UInt8.toNat_inj] <;> simp [Nat.shiftRight_eq_div_pow] <;> omega

theorem read_word (word : ofWord? (Text.trim s) = some c) : read s = .ok c := by
  rw [read]
  simp only [word]

theorem read_numeral (numeral : (Text.trim s).toList = '#' :: cs)
    (digits : List.Forall₂ HexDigit cs ds) {channels : Channels}
    (given : channelsOfDigits? ds = some channels) : read s = .ok (.rgb channels) := by
  rw [read]
  simp only [ofWord?_numeral numeral, numeral, mapM_hexValue?_iff.mpr digits, given]

theorem read_of_spells (spells : Spells (Text.trim s) c) : read s = .ok c := by
  cases spells with
  | transparent word =>
    apply read_word
    rw [ofWord?_congr (beq_iff_eq.mp word)]
    decide +kernel
  | currentColor word =>
    apply read_word
    rw [ofWord?_congr (beq_iff_eq.mp word)]
    decide +kernel
  | named name word =>
    apply read_word
    rw [ofWord?_congr (beq_iff_eq.mp word)]
    exact ofWord?_word name
  | short numeral digits =>
    apply read_numeral numeral digits
    rw [channelsOfDigits?, byteOfDigits_self, byteOfDigits_self, byteOfDigits_self]
  | long numeral digits => exact read_numeral numeral digits rfl

theorem read_cases (s : String) :
    (∃ c, read s = .ok c ∧ Spells (Text.trim s) c) ∨ ∃ e, read s = .error e ∧ Refuses s e := by
  cases word : ofWord? (Text.trim s) with
  | some c => exact .inl ⟨c, read_word word, spells_of_ofWord? word⟩
  | none =>
    by_cases mark : (Text.trim s).toList.head? = some '#'
    · obtain ⟨cs, numeral⟩ := List.head?_eq_some_iff.mp mark
      cases values : cs.mapM Number.hexValue? with
      | none =>
        obtain ⟨c, member, other⟩ := mapM_hexValue?_eq_none values
        refine .inr ⟨_, ?_, .digit numeral member other⟩
        rw [read]
        simp only [word, numeral, values]
      | some ds =>
        have digits := mapM_hexValue?_iff.mp values
        cases given : channelsOfDigits? ds with
        | none =>
          obtain ⟨notThree, notSix⟩ := length_of_channelsOfDigits? given
          rw [← digits.length_eq] at notThree notSix
          refine .inr ⟨_, ?_, .length numeral digits notThree notSix⟩
          rw [read]
          simp only [word, numeral, values, given]
        | some channels =>
          have spells := spells_of_channelsOfDigits? numeral digits given
          exact .inl ⟨_, read_of_spells spells, spells⟩
    · refine .inr ⟨_, ?_, .word mark⟩
      rw [read]
      simp only [word]
      split
      · next cs numeral => simp [numeral] at mark
      · rfl

theorem read_eq_ok_iff : read s = .ok c ↔ Spells (Text.trim s) c := by
  constructor
  · intro accepted
    obtain ⟨d, other, spells⟩ | ⟨e, refused, -⟩ := read_cases s
    · rw [accepted] at other
      exact Except.ok.inj other ▸ spells
    · rw [accepted] at refused
      contradiction
  · exact read_of_spells

theorem numeral_congr (same : lowercase s = lowercase t) (numeral : s.toList = '#' :: cs) :
    ∃ cs', t.toList = '#' :: cs' ∧ cs.map Char.toLower = cs'.map Char.toLower := by
  have mark (c : Char) : (c.toLower == '#') = (c == '#') :=
    Text.apply_toLower (f := (· == '#')) (by decide +kernel) c
  have chars := congrArg String.toList same
  rw [lowercase, lowercase, String.toList_map, String.toList_map, numeral] at chars
  obtain ⟨c, cs', shown, first, rest⟩ := List.map_eq_cons_iff.mp chars.symm
  have hash : c = '#' := by
    rw [← beq_iff_eq, ← mark, first]
    rfl
  exact ⟨cs', hash ▸ shown, rest.symm⟩

theorem digits_congr {cs' : List Char} (same : cs.map Char.toLower = cs'.map Char.toLower)
    (digits : List.Forall₂ HexDigit cs ds) : List.Forall₂ HexDigit cs' ds := by
  have small (cs : List Char) :
      List.Forall₂ (fun c d => Number.hexAlphabet[d]? = some c) (cs.map Char.toLower) ds ↔
        List.Forall₂ HexDigit cs ds := List.forall₂_map_left_iff
  rw [← small, ← same, small]
  exact digits

theorem Spells.congr (spells : Spells s c) (same : lowercase s = lowercase t) : Spells t c := by
  have word {w : String} (written : sameIgnoringCase s w = true) :
      sameIgnoringCase t w = true := by
    rw [sameIgnoringCase, ← same]
    exact written
  cases spells with
  | transparent written => exact .transparent (word written)
  | currentColor written => exact .currentColor (word written)
  | named name written => exact .named name (word written)
  | short numeral digits =>
    obtain ⟨cs', shown, alike⟩ := numeral_congr same numeral
    exact .short shown (digits_congr alike digits)
  | long numeral digits =>
    obtain ⟨cs', shown, alike⟩ := numeral_congr same numeral
    exact .long shown (digits_congr alike digits)

theorem trim_numeral (numeral : s.toList = '#' :: cs) (digits : List.Forall₂ HexDigit cs ds) :
    Text.trim s = s := by
  apply Text.trim_of_noBlank
  rw [numeral, List.forall_mem_cons]
  refine ⟨by decide, ?_⟩
  clear numeral
  induction digits with
  | nil => nofun
  | cons first _ ih => exact List.forall_mem_cons.mpr ⟨first.isBlank, ih⟩

theorem read_digits (digits : List.Forall₂ HexDigit cs ds) {channels : Channels}
    (given : channelsOfDigits? ds = some channels) :
    read (String.ofList ('#' :: cs)) = .ok (.rgb channels) := by
  have numeral : (String.ofList ('#' :: cs)).toList = '#' :: cs := String.toList_ofList
  refine read_numeral ?_ digits given
  rw [trim_numeral numeral digits, numeral]

theorem read_hexCss (channels : Channels) : read (hexCss channels) = .ok (.rgb channels) := by
  have digits (b : UInt8) :
      List.Forall₂ HexDigit (Number.hexByte b) [b.toNat / 16, b.toNat % 16] := by
    have bound := b.toNat_lt
    exact .cons (.digit (by omega)) (.cons (.digit (by omega)) .nil)
  have byte (b : UInt8) : byteOfDigits (b.toNat / 16) (b.toNat % 16) = b := by
    rw [byteOfDigits, Nat.div_add_mod, UInt8.ofNat_toNat]
  have all := List.rel_append (digits channels.red)
    (List.rel_append (digits channels.green) (digits channels.blue))
  have numeral := toList_hexCss channels
  refine read_numeral ((trim_numeral numeral all).symm ▸ numeral) all ?_
  simp only [List.cons_append, List.nil_append, channelsOfDigits?, byte]

theorem read_css (noAlpha : ∀ channels alpha, c ≠ .rgba channels alpha) : read c.css = .ok c := by
  have own (visible : c.css.toList.any Text.isBlank = false) (spells : Spells c.css c) :
      read c.css = .ok c := by
    have trimmed : Text.trim c.css = c.css := Text.trim_of_noBlank (by simpa using visible)
    apply read_of_spells
    rw [trimmed]
    exact spells
  cases c with
  | rgb channels => exact read_hexCss channels
  | rgba channels alpha => exact absurd rfl (noAlpha channels alpha)
  | named name =>
    apply own
    · cases name <;> decide +kernel
    · exact .named name (beq_self_eq_true _)
  | transparent => exact own (by decide +kernel) (.transparent (beq_self_eq_true _))
  | currentColor =>
    have word : lowercase "currentColor" = lowercase "currentcolor" := by
      rw [← String.toList_inj, lowercase, lowercase, String.toList_map, String.toList_map]
      decide +kernel
    exact own (by decide +kernel) (.currentColor (beq_iff_eq.mpr word))

/-- A colour is read from the texts that spell it, and every other text is refused with a message
that shows it. Case does not count, three digits stand for six, and six are the number that the
channels are made of. The colours without an opacity are read from their own texts. -/
theorem read_grammar :
    (∀ s c, read s = .ok c ↔ Spells (Text.trim s) c) ∧
      (∀ s, (∀ c, ¬ Spells (Text.trim s) c) →
        ∃ e reason, read s = .error e ∧ Refuses s e ∧ e.message =
          MarkupError.colorMessage s reason) ∧
      (∀ s t c, sameIgnoringCase s t = true → (read s = .ok c ↔ read t = .ok c)) ∧
      (∀ r g b x y z, HexDigit r x → HexDigit g y → HexDigit b z →
        ∃ channels, read (String.ofList ['#', r, g, b]) = .ok (.rgb channels) ∧
          read (String.ofList ['#', r, r, g, g, b, b]) = .ok (.rgb channels)) ∧
      (∀ cs ds, List.Forall₂ HexDigit cs ds → cs.length = 6 →
        read (String.ofList ('#' :: cs)) =
          .ok (ofHex (UInt32.ofNat (Nat.ofDigits 16 ds.reverse)))) ∧
      ∀ c, (∀ channels alpha, c ≠ .rgba channels alpha) → read c.css = .ok c := by
  refine ⟨fun s c => read_eq_ok_iff, ?_, ?_, ?_, ?_, fun c => read_css⟩
  · intro s nothing
    obtain ⟨c, -, spells⟩ | ⟨e, refused, refuses⟩ := read_cases s
    · exact absurd spells (nothing c)
    · obtain ⟨reason, message⟩ := refuses.message
      exact ⟨e, reason, refused, refuses, message⟩
  · intro s t c same
    have trimmed : lowercase (Text.trim s) = lowercase (Text.trim t) := by
      rw [Text.lowercase_trim, beq_iff_eq.mp same, Text.lowercase_trim]
    rw [read_eq_ok_iff, read_eq_ok_iff]
    exact ⟨fun spells => spells.congr trimmed, fun spells => spells.congr trimmed.symm⟩
  · intro r g b x y z red green blue
    have three : List.Forall₂ HexDigit [r, g, b] [x, y, z] :=
      .cons red (.cons green (.cons blue .nil))
    have six : List.Forall₂ HexDigit [r, r, g, g, b, b] [x, x, y, y, z, z] :=
      .cons red (.cons red (.cons green (.cons green (.cons blue (.cons blue .nil)))))
    exact ⟨_, read_digits three rfl, read_digits six rfl⟩
  · intro cs ds digits six
    rw [digits.length_eq] at six
    obtain ⟨x, x', y, y', z, z', rfl⟩ := exists_of_length_six six
    rw [read_digits digits rfl]
    exact congrArg Except.ok (ofHex_digits (lt_of_digits digits)).symm

end Color

end AtomicMarkup
