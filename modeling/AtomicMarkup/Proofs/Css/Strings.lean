import AtomicMarkup.Proofs.Css.Tokens
import Mathlib.Algebra.Ring.Parity
import Mathlib.Data.List.DropRight

/-!
What may stand between two double quotes. Backslashes take one another in pairs, so what counts is
the number of those right in front of a character: a newline has to have an odd one, and the
closing quote an even one.
-/

namespace AtomicMarkup.Css

def backslashes (cs : List Char) : Nat :=
  (cs.rtakeWhile (· == '\x5c')).length

theorem backslashes_concat (cs : List Char) (c : Char) :
    backslashes (cs ++ [c]) = if c = '\x5c' then backslashes cs + 1 else 0 := by
  rw [backslashes, List.rtakeWhile_concat]
  by_cases backslash : c = '\x5c' <;> simp [backslash, backslashes]

def LinesEscaped (cs : List Char) : Prop :=
  ∀ front c back, cs = front ++ c :: back → isNewline c = true → Odd (backslashes front)

/-- A text that is a string when it is put between double quotes. -/
structure Quotable (cs : List Char) : Prop where
  lines : LinesEscaped cs
  ending : Even (backslashes cs)

theorem linesEscaped_concat {cs : List Char} {c : Char} : LinesEscaped (cs ++ [c]) ↔
    LinesEscaped cs ∧ (isNewline c = true → Odd (backslashes cs)) := by
  constructor
  · intro escaped
    refine ⟨fun front d back eq => escaped front d (back ++ [c]) (by simp [eq]), ?_⟩
    exact escaped cs c [] rfl
  · rintro ⟨before, last⟩ front d back eq newline
    cases back using List.reverseRecOn with
    | nil =>
      obtain ⟨rfl, rfl⟩ : cs = front ∧ c = d := by simpa using eq
      exact last newline
    | append_singleton back e =>
      obtain ⟨rfl, rfl⟩ : cs = front ++ d :: back ∧ c = e := by
        rw [← List.cons_append, ← List.append_assoc] at eq
        exact List.append_inj' eq rfl |>.imp_right (List.singleton_inj.mp ·)
      exact before front d back rfl newline

section DoubleQuoted

variable {cs : List Char} {awaited : List Char}

def opened (awaited : List Char) : Place :=
  ⟨.string '\x22', awaited⟩

theorem run_opened (free : '\x22' ∉ cs) (lines : LinesEscaped cs) :
    (opened awaited).run cs =
      if Even (backslashes cs) then opened awaited else ⟨.stringEscape '\x22', awaited⟩ := by
  induction cs using List.reverseRecOn with
  | nil => rfl
  | append_singleton cs c ih =>
    rw [List.mem_append, List.mem_singleton, not_or] at free
    obtain ⟨before, last⟩ := linesEscaped_concat.mp lines
    rw [Place.run_append, ih free.1 before, backslashes_concat]
    by_cases even : Even (backslashes cs)
    · have line : isNewline c = false := by
        rw [Bool.eq_false_iff]
        exact fun newline => Nat.not_odd_iff_even.mpr even (last newline)
      by_cases backslash : c = '\x5c'
      · simp [even, backslash, opened, Place.step, Place.readString, Nat.even_add_one]
      · simp [even, backslash, opened, Place.step, Place.readString, line, Ne.symm free.2]
    · by_cases backslash : c = '\x5c' <;>
        simp [even, backslash, opened, Place.step, Nat.even_add_one]

/-- A text is read inside a string to its end just when its newlines are escaped. -/
theorem staysInString_iff (free : '\x22' ∉ cs) :
    staysInString (opened awaited) cs = true ∧ ((opened awaited).run cs).inString = true ↔
      LinesEscaped cs := by
  induction cs using List.reverseRecOn with
  | nil => simp [staysInString, opened, Place.inString, LinesEscaped]
  | append_singleton cs c ih =>
    rw [List.mem_append, List.mem_singleton, not_or] at free
    rw [linesEscaped_concat, ← ih free.1, staysInString_append, Place.run_append]
    simp only [staysInString, Bool.and_true, Bool.and_eq_true, Place.run_cons, Place.run_nil]
    refine and_congr_right fun inside => ?_
    have placed := @run_opened cs awaited free.1 ((ih free.1).mp inside)
    rw [placed]
    by_cases even : Even (backslashes cs)
    · rw [if_pos even, ← Nat.not_even_iff_odd]
      change (Place.readString '\x22' awaited c).inString = true ↔ _
      rw [Place.readString, if_neg (Ne.symm free.2)]
      split_ifs with backslash newline
      · simp [Place.inString, even, backslash, isNewline]
      · simp [Place.inString, even, newline]
      · simp [Place.inString, newline]
    · simp [even, Nat.not_even_iff_odd.mp even, Place.step, Place.inString]

/-- A text without double quotes is one string between them just when it is quotable. -/
theorem isString_iff (free : '\x22' ∉ cs) :
    isString ('\x22' :: (cs ++ ['\x22'])) = true ↔ Quotable cs := by
  have quote : Place.start.step '\x22' = opened [] := rfl
  have last : ('\x22' :: (cs ++ ['\x22'])).getLast? = some '\x22' := by
    rw [← List.cons_append, List.getLast?_concat]
  have inside : isString ('\x22' :: (cs ++ ['\x22'])) = true ↔
      LinesEscaped cs ∧ (opened []).run (cs ++ ['\x22']) = Place.start := by
    rw [← @staysInString_iff cs [] free, isString, last, List.tail_cons, quote,
      staysInString_append, Place.run_cons, quote]
    simp [staysInString]
  rw [inside]
  constructor
  · rintro ⟨lines, closed⟩
    refine ⟨lines, ?_⟩
    by_contra odd
    rw [Place.run_append, run_opened free lines, if_neg odd] at closed
    contradiction
  · rintro ⟨lines, even⟩
    refine ⟨lines, ?_⟩
    rw [Place.run_append, run_opened free lines, if_pos even]
    rfl

theorem exists_body (string : isString cs = true) : ∃ body, cs = '\x22' :: (body ++ ['\x22']) := by
  rw [isString, Bool.and_eq_true, Bool.and_eq_true, Bool.and_eq_true, beq_iff_eq, beq_iff_eq,
    beq_iff_eq] at string
  obtain ⟨⟨⟨opens, closes⟩, -⟩, closed⟩ := string
  cases cs with
  | nil => contradiction
  | cons c rest =>
    obtain rfl : c = '\x22' := Option.some.inj opens
    cases rest using List.reverseRecOn with
    | nil => exact absurd closed (by decide)
    | append_singleton body d =>
      rw [← List.cons_append, List.getLast?_concat, Option.some.injEq] at closes
      exact ⟨body, by rw [closes]⟩

end DoubleQuoted

end AtomicMarkup.Css
