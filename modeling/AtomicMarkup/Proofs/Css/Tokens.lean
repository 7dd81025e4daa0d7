import AtomicMarkup.Proofs.Delimited
import Mathlib.Data.List.Basic

/-!
Stylesheet text character by character. A text is read at a place: in plain text, in a string or in
a comment, behind a character that changes the next one, and with the closing brackets that are
awaited. At the top level nothing is open, and only there a character separates or ends what a rule
consists of. A backslash takes the next character with it, and a string that a line ends in is
given up. Addresses without quotes are read as text in parentheses.
-/

namespace AtomicMarkup.Css

inductive Mode where
  | text
  | slash
  | escape
  | string (quote : Char)
  | stringEscape (quote : Char)
  | comment
  | star
  deriving DecidableEq

structure Place where
  mode : Mode
  awaited : List Char
  deriving DecidableEq

def isNewline (c : Char) : Bool :=
  ['\n', '\r', '\x0c'].contains c

def isQuote (c : Char) : Bool :=
  ['\x22', '\x27'].contains c

def closing? : Char → Option Char
  | '(' => some ')'
  | '[' => some ']'
  | '\x7b' => some '\x7d'
  | _ => none

def isClosing (c : Char) : Bool :=
  [')', ']', '\x7d'].contains c

def special : List Char :=
  ['/', '\x5c', '\x22', '\x27', '(', '[', '\x7b', ')', ']', '\x7d', '\n', '\r', '\x0c']

def isOrdinary (c : Char) : Bool :=
  !special.contains c

namespace Place

def start : Place :=
  ⟨.text, []⟩

/-- The brackets that are awaited behind a character. One that is not awaited closes nothing. -/
def nested (awaited : List Char) (c : Char) : List Char :=
  match closing? c with
  | some d => d :: awaited
  | none => if isClosing c && awaited.head? == some c then awaited.tail else awaited

def readText (awaited : List Char) (c : Char) : Place :=
  if c = '/' then ⟨.slash, awaited⟩
  else if c = '\x5c' then ⟨.escape, awaited⟩
  else if isQuote c then ⟨.string c, awaited⟩
  else ⟨.text, nested awaited c⟩

def readString (quote : Char) (awaited : List Char) (c : Char) : Place :=
  if c = quote then ⟨.text, awaited⟩
  else if c = '\x5c' then ⟨.stringEscape quote, awaited⟩
  else if isNewline c then ⟨.text, awaited⟩
  else ⟨.string quote, awaited⟩

def step (p : Place) (c : Char) : Place :=
  match p.mode with
  | .text => readText p.awaited c
  | .slash => if c = '*' then ⟨.comment, p.awaited⟩ else readText p.awaited c
  | .escape => ⟨.text, p.awaited⟩
  | .string quote => readString quote p.awaited c
  | .stringEscape quote => ⟨.string quote, p.awaited⟩
  | .comment => if c = '*' then ⟨.star, p.awaited⟩ else p
  | .star =>
    if c = '/' then ⟨.text, p.awaited⟩ else if c = '*' then p else ⟨.comment, p.awaited⟩

def run (p : Place) (cs : List Char) : Place :=
  cs.foldl step p

def isTop (p : Place) : Bool :=
  p.awaited.isEmpty && (p.mode == .text || p.mode == .slash)

def inString (p : Place) : Bool :=
  match p.mode with
  | .string _ | .stringEscape _ => true
  | _ => false

end Place

def upTo? (stop : Char → Bool) (p : Place) : List Char → Option (List Char × List Char)
  | [] => none
  | c :: cs =>
    if p.isTop && stop c then some ([], cs)
    else (upTo? stop (p.step c) cs).map fun (front, back) => (c :: front, back)

def topFields (separator : Char → Bool) (p : Place) : List Char → List (List Char)
  | [] => [[]]
  | c :: cs =>
    if p.isTop && separator c then [] :: topFields separator (p.step c) cs
    else match topFields separator (p.step c) cs with
      | [] => [[c]]
      | field :: rest => (c :: field) :: rest

def passes (stop : Char → Bool) (p : Place) : List Char → Bool
  | [] => true
  | c :: cs => !(p.isTop && stop c) && passes stop (p.step c) cs

/-- Every character is read inside a string. -/
def staysInString (p : Place) : List Char → Bool
  | [] => true
  | c :: cs => p.inString && staysInString (p.step c) cs

/-- A text that leaves nothing open. -/
def IsWhole (cs : List Char) : Prop :=
  (Place.start.run cs).isTop = true

instance (cs : List Char) : Decidable (IsWhole cs) :=
  inferInstanceAs (Decidable (_ = true))

/-- One string in double quotes: it is opened by the first character and closed by the last one,
and not before. -/
def isString (cs : List Char) : Bool :=
  cs.head? == some '\x22' && cs.getLast? == some '\x22' &&
    staysInString (Place.start.step '\x22') cs.tail && Place.start.run cs == Place.start

/-- The first rule of a text: its selector, its block, and what stands behind it. -/
def readRule? (cs : List Char) : Option (List Char × List Char × List Char) := do
  let (selector, rest) ← upTo? (· == '\x7b') .start cs
  let (block, rest) ← upTo? (· == '\x7d') .start rest
  return (selector, block, rest)

theorem isOrdinary_of {allowed : Char → Bool}
    (none : special.all (fun d => !allowed d) = true) {c : Char} (member : allowed c = true) :
    isOrdinary c = true := by
  rw [isOrdinary, Bool.not_eq_true', List.contains_eq_mem, decide_eq_false_iff_not]
  exact not_mem_of_forall (List.all_eq_true.mp none) (by rw [member]; rfl)

namespace Place

theorem run_append (p : Place) (front back : List Char) :
    p.run (front ++ back) = (p.run front).run back :=
  List.foldl_append

@[simp]
theorem run_nil (p : Place) : p.run [] = p :=
  rfl

@[simp]
theorem run_cons (p : Place) (c : Char) (cs : List Char) : p.run (c :: cs) = (p.step c).run cs :=
  rfl

def Plain (p : Place) : Prop :=
  p.mode = .text ∨ ∃ quote, isQuote quote = true ∧ p.mode = .string quote

theorem plain_start : start.Plain :=
  .inl rfl

theorem Plain.step {p : Place} (plain : p.Plain) {c : Char} (slash : c ≠ '/')
    (backslash : c ≠ '\x5c') : (p.step c).Plain := by
  obtain ⟨mode, awaited⟩ := p
  obtain rfl | ⟨quote, quoted, rfl⟩ := plain
  · simp only [Place.step, readText, if_neg slash, if_neg backslash]
    split_ifs with opens
    · exact .inr ⟨c, opens, rfl⟩
    · exact .inl rfl
  · simp only [Place.step, readString, if_neg backslash]
    split_ifs
    · exact .inl rfl
    · exact .inl rfl
    · exact .inr ⟨quote, quoted, rfl⟩

theorem Plain.run {p : Place} (plain : p.Plain) {cs : List Char} (slash : '/' ∉ cs)
    (backslash : '\x5c' ∉ cs) : (p.run cs).Plain := by
  induction cs generalizing p with
  | nil => exact plain
  | cons c cs ih =>
    rw [List.mem_cons, not_or] at slash backslash
    exact ih (plain.step (Ne.symm slash.1) (Ne.symm backslash.1)) slash.2 backslash.2

theorem not_contains_of_ordinary {c : Char} (ordinary : isOrdinary c = true) {cs : List Char}
    (listed : cs.all special.contains = true) : cs.contains c = false := by
  rw [isOrdinary, Bool.not_eq_true'] at ordinary
  rw [List.contains_eq_mem, decide_eq_false_iff_not]
  exact not_mem_of_forall (List.all_eq_true.mp listed) ordinary

theorem Plain.step_of_ordinary {p : Place} (plain : p.Plain) {c : Char}
    (ordinary : isOrdinary c = true) : p.step c = p := by
  have other {special : Char} (listed : isOrdinary special = false) : c ≠ special := by
    rintro rfl
    rw [listed] at ordinary
    contradiction
  have slash : c ≠ '/' := other (by decide)
  have backslash : c ≠ '\x5c' := other (by decide)
  have quote : isQuote c = false := not_contains_of_ordinary ordinary (by decide)
  obtain ⟨mode, awaited⟩ := p
  obtain rfl | ⟨mark, quoted, rfl⟩ := plain
  · have opening : closing? c = none := by
      unfold closing?
      split <;> first | exact absurd rfl (other (by decide)) | rfl
    have closing : isClosing c = false := not_contains_of_ordinary ordinary (by decide)
    simp [Place.step, readText, nested, slash, backslash, quote, opening, closing]
  · have newline : isNewline c = false := not_contains_of_ordinary ordinary (by decide)
    have within : c ≠ mark := by
      rintro rfl
      rw [quoted] at quote
      contradiction
    simp [Place.step, readString, backslash, newline, within]

theorem Plain.run_of_ordinary {p : Place} (plain : p.Plain) {cs : List Char}
    (ordinary : cs.all isOrdinary = true) : p.run cs = p := by
  induction cs with
  | nil => rfl
  | cons c cs ih =>
    rw [List.all_cons, Bool.and_eq_true] at ordinary
    rw [run_cons, plain.step_of_ordinary ordinary.1, ih ordinary.2]

/-- A text that neither text nor a string is changed by. -/
def Neutral (cs : List Char) : Prop :=
  ∀ p : Place, p.Plain → p.run cs = p

theorem neutral_of_ordinary {cs : List Char} (ordinary : cs.all isOrdinary = true) : Neutral cs :=
  fun _ plain => plain.run_of_ordinary ordinary

theorem Neutral.append {front back : List Char} (first : Neutral front) (second : Neutral back) :
    Neutral (front ++ back) := by
  intro p plain
  rw [run_append, first p plain, second p plain]

theorem Neutral.parenthesized {cs : List Char} (inside : Neutral cs) :
    Neutral ('(' :: (cs ++ [')'])) := by
  intro p plain
  have string {quote : Char} (quoted : isQuote quote = true) (c : Char) (mark : isQuote c = false)
      (text : c ≠ '\x5c') (line : isNewline c = false) (awaited : List Char) :
      Place.step ⟨.string quote, awaited⟩ c = ⟨.string quote, awaited⟩ := by
    have other : c ≠ quote := by
      rintro rfl
      rw [quoted] at mark
      contradiction
    simp [Place.step, readString, other, text, line]
  obtain ⟨mode, awaited⟩ := p
  obtain rfl | ⟨quote, quoted, rfl⟩ := plain
  · rw [run_cons, run_append]
    change ((Place.mk .text (')' :: awaited)).run cs).run [')'] = _
    rw [inside _ (.inl rfl)]
    rfl
  · rw [run_cons, run_append, string quoted '(' rfl (by decide) rfl,
      inside _ (.inr ⟨quote, quoted, rfl⟩), run_cons, string quoted ')' rfl (by decide) rfl,
      run_nil]

end Place

section Stops

variable {stop : Char → Bool} {p : Place}

theorem passes_append {front back : List Char} :
    passes stop p (front ++ back) = (passes stop p front && passes stop (p.run front) back) := by
  induction front generalizing p with
  | nil => rfl
  | cons c front ih => rw [List.cons_append, passes, passes, ih, Bool.and_assoc, Place.run_cons]

theorem passes_of_free {cs : List Char} (free : ∀ c ∈ cs, stop c = false) :
    passes stop p cs = true := by
  induction cs generalizing p with
  | nil => rfl
  | cons c cs ih =>
    obtain ⟨first, later⟩ := List.forall_mem_cons.mp free
    rw [passes, first, Bool.and_false, ih later]
    rfl

theorem passes_of_staysInString {cs : List Char} (stays : staysInString p cs = true) :
    passes stop p cs = true := by
  induction cs generalizing p with
  | nil => rfl
  | cons c cs ih =>
    obtain ⟨inside, later⟩ := Bool.and_eq_true_iff.mp stays
    have low : p.isTop = false := by
      obtain ⟨mode, awaited⟩ := p
      cases mode <;> first | contradiction | simp [Place.isTop]
    rw [passes, low, Bool.false_and, ih later]
    rfl

theorem staysInString_append {front back : List Char} : staysInString p (front ++ back) =
    (staysInString p front && staysInString (p.run front) back) := by
  induction front generalizing p with
  | nil => rfl
  | cons c front ih =>
    rw [List.cons_append, staysInString, staysInString, ih, Bool.and_assoc, Place.run_cons]

theorem upTo?_of_passes {front back : List Char} {c : Char} (through : passes stop p front = true)
    (top : (p.run front).isTop = true) (stops : stop c = true) :
    upTo? stop p (front ++ c :: back) = some (front, back) := by
  induction front generalizing p with
  | nil =>
    rw [Place.run_nil] at top
    rw [List.nil_append, upTo?, top, stops]
    rfl
  | cons d front ih =>
    rw [passes, Bool.and_eq_true_iff, Bool.not_eq_true'] at through
    rw [List.cons_append, upTo?, through.1, ih through.2 top]
    rfl

theorem exists_of_upTo? {cs front back : List Char}
    (found : upTo? stop p cs = some (front, back)) :
    ∃ c, stop c = true ∧ cs = front ++ c :: back ∧ (p.run front).isTop = true := by
  induction cs generalizing p front with
  | nil => contradiction
  | cons c cs ih =>
    rw [upTo?] at found
    split_ifs at found with here
    · obtain ⟨rfl, rfl⟩ := Prod.mk.inj (Option.some.inj found)
      obtain ⟨top, stops⟩ := Bool.and_eq_true_iff.mp here
      exact ⟨c, stops, rfl, top⟩
    · obtain ⟨⟨rest, behind⟩, later, eq⟩ := Option.map_eq_some_iff.mp found
      obtain ⟨rfl, rfl⟩ := Prod.mk.inj eq
      obtain ⟨d, stops, rfl, top⟩ := ih later
      exact ⟨d, stops, rfl, top⟩

theorem topFields_of_passes {cs : List Char} (through : passes stop p cs = true) :
    topFields stop p cs = [cs] := by
  induction cs generalizing p with
  | nil => rfl
  | cons c cs ih =>
    rw [passes, Bool.and_eq_true_iff, Bool.not_eq_true'] at through
    rw [topFields, through.1, ih through.2]
    rfl

theorem topFields_append_cons {front back : List Char} {c : Char}
    (through : passes stop p front = true) (top : (p.run front).isTop = true)
    (stops : stop c = true) : topFields stop p (front ++ c :: back) =
      front :: topFields stop ((p.run front).step c) back := by
  induction front generalizing p with
  | nil =>
    rw [Place.run_nil] at top
    rw [List.nil_append, topFields, top, stops]
    rfl
  | cons d front ih =>
    rw [passes, Bool.and_eq_true_iff, Bool.not_eq_true'] at through
    rw [List.cons_append, topFields, through.1, ih through.2 top]
    rfl

theorem topFields_eq_cons {cs field : List Char} {fields : List (List Char)}
    (read : topFields stop p cs = field :: fields) : ∃ rest, cs = field ++ rest := by
  induction cs generalizing p field with
  | nil =>
    obtain ⟨rfl, -⟩ := List.cons_eq_cons.mp read
    exact ⟨[], rfl⟩
  | cons c cs ih =>
    rw [topFields] at read
    split_ifs at read
    · obtain ⟨rfl, -⟩ := List.cons_eq_cons.mp read
      exact ⟨c :: cs, rfl⟩
    · split at read
      · obtain ⟨rfl, -⟩ := List.cons_eq_cons.mp read
        exact ⟨cs, rfl⟩
      · next first others later =>
        obtain ⟨rfl, rfl⟩ := List.cons_eq_cons.mp read
        obtain ⟨rest, text⟩ := ih later
        exact ⟨rest, by rw [text, List.cons_append]⟩

/-- Only separators are lost between the stretches of a text. -/
theorem count_flatten_topFields {c : Char} (kept : stop c = false) (cs : List Char) :
    (topFields stop p cs).flatten.count c = cs.count c := by
  induction cs generalizing p with
  | nil => rfl
  | cons d cs ih =>
    rw [topFields]
    split_ifs with separates
    · have other : d ≠ c := by
        rintro rfl
        rw [kept, Bool.and_false] at separates
        contradiction
      rw [List.flatten_cons, List.nil_append, ih, List.count_cons_of_ne other]
    · rw [List.count_cons, ← @ih (p.step d)]
      split
      · next none => rw [none, List.flatten_singleton, List.count_cons, List.flatten_nil]
      · next first others later =>
        rw [later, List.flatten_cons, List.cons_append, List.count_cons, List.flatten_cons]

end Stops

theorem exists_of_readRule? {cs selector block rest : List Char}
    (read : readRule? cs = some (selector, block, rest)) :
    cs = selector ++ '\x7b' :: (block ++ '\x7d' :: rest) ∧ IsWhole selector ∧ IsWhole block := by
  simp only [readRule?, Option.bind_eq_bind, Option.bind_eq_some_iff] at read
  obtain ⟨⟨front, behind⟩, first, ⟨middle, after⟩, second, eq⟩ := read
  obtain ⟨rfl, rfl, rfl⟩ : front = selector ∧ middle = block ∧ after = rest := by
    simpa using eq
  obtain ⟨c, opens, rfl, whole⟩ := exists_of_upTo? first
  obtain ⟨d, closes, rfl, closed⟩ := exists_of_upTo? second
  rw [eq_of_beq opens, eq_of_beq closes]
  exact ⟨rfl, whole, closed⟩

/-- A rule is read as it was written just when neither its selector nor its block leaves anything
open. -/
theorem readRule?_eq_some_iff {selector block rest : List Char} (noOpening : '\x7b' ∉ selector)
    (noClosing : '\x7d' ∉ block) :
    readRule? (selector ++ '\x7b' :: (block ++ '\x7d' :: rest)) = some (selector, block, rest) ↔
      IsWhole selector ∧ IsWhole block := by
  constructor
  · exact fun read => (exists_of_readRule? read).2
  · rintro ⟨whole, closed⟩
    have first := @upTo?_of_passes _ Place.start _ (block ++ '\x7d' :: rest) _
      (passes_of_free (beq_mark_eq_false noOpening)) whole (beq_self_eq_true '\x7b')
    have second := @upTo?_of_passes _ Place.start _ rest _
      (passes_of_free (beq_mark_eq_false noClosing)) closed (beq_self_eq_true '\x7d')
    simp [readRule?, first, second]

example : readRule? ".a\x7bcontent:'\x7d' /*'*/\x7d.b\x7b\x7d".toList =
    some (".a".toList, "content:'\x7d' /*'*/".toList, ".b\x7b\x7d".toList) := by
  decide

end AtomicMarkup.Css
