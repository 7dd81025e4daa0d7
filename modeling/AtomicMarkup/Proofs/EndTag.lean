/-!
The end tags of style elements in a text. They are counted piece by piece: most pieces of a page
make no difference to what follows them, and at most borders no end tag goes on.
-/

namespace AtomicMarkup

def endTag : List Char :=
  ['<', '/', 's', 't', 'y', 'l', 'e', '>']

def styleEnds : List Char → Nat
  | [] => 0
  | c :: cs => (if endTag.isPrefixOf (c :: cs) then 1 else 0) + styleEnds cs

/-- A text that makes no difference to the end tags in what follows it. -/
def Quiet (cs : List Char) : Prop :=
  ∀ rest, styleEnds (cs ++ rest) = styleEnds rest

/-- Whether no end tag begins in a text, not even one that goes on behind it. -/
def hasNoStart : List Char → Bool
  | [] => true
  | c :: cs => !(c :: cs).isPrefixOf endTag && !endTag.isPrefixOf (c :: cs) && hasNoStart cs

theorem isPrefixOf_append {pattern cs rest : List Char} (nonempty : cs ≠ [])
    (border : ∀ c ∈ rest.head?, c ∉ pattern.tail) :
    pattern.isPrefixOf (cs ++ rest) = pattern.isPrefixOf cs := by
  induction cs generalizing pattern with
  | nil => exact absurd rfl nonempty
  | cons c cs ih =>
    cases pattern with
    | nil => rfl
    | cons p pattern =>
      rw [List.cons_append, List.isPrefixOf_cons_cons, List.isPrefixOf_cons_cons]
      cases cs with
      | nil =>
        cases pattern with
        | nil => rfl
        | cons q pattern =>
          cases rest with
          | nil => rfl
          | cons r rest =>
            have stop : q ≠ r := by
              rintro rfl
              exact border q rfl List.mem_cons_self
            rw [List.nil_append, List.isPrefixOf_cons_cons, beq_false_of_ne stop]
            rfl
      | cons d cs =>
        rw [ih (List.cons_ne_nil d cs)]
        intro r first inside
        exact border r first (List.mem_of_mem_tail inside)

/-- Behind a border that cannot stand inside an end tag, end tags are counted anew. -/
theorem styleEnds_append {cs rest : List Char} (border : ∀ c ∈ rest.head?, c ∉ endTag.tail) :
    styleEnds (cs ++ rest) = styleEnds cs + styleEnds rest := by
  induction cs with
  | nil => rw [List.nil_append, styleEnds, Nat.zero_add]
  | cons c cs ih =>
    have whole := isPrefixOf_append (List.cons_ne_nil c cs) border
    rw [List.cons_append] at whole
    rw [List.cons_append, styleEnds, styleEnds, ih, whole, Nat.add_assoc]

theorem Quiet.nil : Quiet [] :=
  fun _ => rfl

theorem Quiet.append {first second : List Char} (one : Quiet first) (two : Quiet second) :
    Quiet (first ++ second) := by
  intro rest
  rw [List.append_assoc, one, two]

theorem quiet_of_hasNoStart {cs : List Char} (none : hasNoStart cs = true) : Quiet cs := by
  intro rest
  induction cs with
  | nil => rfl
  | cons c cs ih =>
    rw [hasNoStart, Bool.and_eq_true, Bool.and_eq_true, Bool.not_eq_true',
      Bool.not_eq_true'] at none
    obtain ⟨⟨notPart, notWhole⟩, later⟩ := none
    have other : endTag.isPrefixOf (c :: cs ++ rest) = false := by
      rw [Bool.eq_false_iff] at notPart notWhole ⊢
      intro found
      -- Two beginnings of one text: the end tag lies in the given part or goes on behind it.
      have both := List.prefix_or_prefix_of_prefix (List.isPrefixOf_iff_prefix.mp found)
        (List.prefix_append (c :: cs) rest)
      rcases both with whole | part
      · exact notWhole (List.isPrefixOf_iff_prefix.mpr whole)
      · exact notPart (List.isPrefixOf_iff_prefix.mpr part)
    rw [List.cons_append] at other
    rw [List.cons_append, styleEnds, other, ih later]
    simp

theorem quiet_of_not_mem {cs : List Char} (free : '<' ∉ cs) : Quiet cs := by
  apply quiet_of_hasNoStart
  induction cs with
  | nil => rfl
  | cons c cs ih =>
    rw [List.mem_cons, not_or] at free
    rw [hasNoStart, endTag, List.isPrefixOf_cons_cons, List.isPrefixOf_cons_cons,
      beq_false_of_ne free.1, beq_false_of_ne (Ne.symm free.1), ih free.2]
    rfl

theorem Quiet.styleEnds {cs : List Char} (quiet : Quiet cs) : styleEnds cs = 0 := by
  rw [← List.append_nil cs, quiet]
  rfl

end AtomicMarkup
