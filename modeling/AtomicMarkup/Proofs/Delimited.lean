import Mathlib.Data.List.Forall2

/-!
Texts and their borders. A stretch of characters of one kind, before the end or a character of
another kind, is found again whatever comes behind it. Texts that can be told from what follows
them are found again in a sequence of them that is written as one text. In front stands what is
put together piece by piece, be it of characters or of anything else.
-/

namespace AtomicMarkup

section Pieces

variable {α β : Type}

theorem eq_flatMap_of_cons {listed : List α → List β} {piece : α → List β} (nil : listed [] = [])
    (cons : ∀ item rest, listed (item :: rest) = piece item ++ listed rest) (items : List α) :
    listed items = items.flatMap piece := by
  induction items with
  | nil => exact nil
  | cons item rest ih => rw [cons, ih, List.flatMap_cons]

theorem flatMap_of_append (holds : List β → Prop) (nil : holds [])
    (append : ∀ {first second}, holds first → holds second → holds (first ++ second))
    {items : List α} {piece : α → List β} (each : ∀ item ∈ items, holds (piece item)) :
    holds (items.flatMap piece) := by
  induction items with
  | nil => exact nil
  | cons item rest ih =>
    obtain ⟨first, later⟩ := List.forall_mem_cons.mp each
    exact append first (ih later)

end Pieces

section Stretches

variable {p : Char → Bool}

theorem takeWhile_before {cs rest : List Char} (all : ∀ c ∈ cs, p c = true)
    (stop : ∀ c ∈ rest.head?, p c = false) : (cs ++ rest).takeWhile p = cs := by
  rw [List.takeWhile_append_of_pos all]
  cases rest with
  | nil => simp
  | cons c rest => simp [stop c rfl]

theorem dropWhile_before {cs rest : List Char} (all : ∀ c ∈ cs, p c = true)
    (stop : ∀ c ∈ rest.head?, p c = false) : (cs ++ rest).dropWhile p = rest := by
  rw [List.dropWhile_append_of_pos all]
  cases rest with
  | nil => simp
  | cons c rest => simp [stop c rfl]

theorem forall_head?_cons {P : Char → Prop} {c : Char} {cs : List Char} (ok : P c) :
    ∀ d ∈ (c :: cs).head?, P d := by
  intro d first
  cases first
  exact ok

theorem not_mem_of_forall {c : Char} {cs : List Char} (all : ∀ d ∈ cs, p d = true)
    (other : p c = false) : c ∉ cs := by
  intro member
  rw [all c member] at other
  contradiction

theorem beq_mark_eq_false {mark : Char} {cs : List Char} (free : mark ∉ cs) :
    ∀ c ∈ cs, (c == mark) = false :=
  fun _ member => beq_eq_false_iff_ne.mpr fun equal => free (equal ▸ member)

theorem stretch_eq {cs ds after behind : List Char} (all : ∀ c ∈ cs, p c = true)
    (each : ∀ d ∈ ds, p d = true) (stop : ∀ c ∈ after.head?, p c = false)
    (halt : ∀ d ∈ behind.head?, p d = false) (same : cs ++ after = ds ++ behind) : cs = ds := by
  rw [← takeWhile_before all stop, same, takeWhile_before each halt]

theorem eq_before_mark {mark : Char} {cs ds after behind : List Char} (free : mark ∉ cs)
    (clear : mark ∉ ds) (stop : ∀ c ∈ after.head?, c = mark) (halt : ∀ d ∈ behind.head?, d = mark)
    (same : cs ++ after = ds ++ behind) : cs = ds := by
  have unmarked {cs : List Char} (free : mark ∉ cs) : ∀ c ∈ cs, (c != mark) = true :=
    fun c member => bne_iff_ne.mpr fun equal => free (equal ▸ member)
  have marked {cs : List Char} (stop : ∀ c ∈ cs.head?, c = mark) :
      ∀ c ∈ cs.head?, (c != mark) = false :=
    fun c first => bne_eq_false_iff_eq.mpr (stop c first)
  exact stretch_eq (unmarked free) (unmarked clear) (marked stop) (marked halt) same

theorem eq_at_mark {mark : Char} {cs ds after behind : List Char} (free : mark ∉ cs)
    (clear : mark ∉ ds) (same : cs ++ mark :: after = ds ++ mark :: behind) :
    cs = ds ∧ after = behind := by
  have fronts := eq_before_mark free clear (forall_head?_cons rfl) (forall_head?_cons rfl) same
  rw [fronts] at same
  exact ⟨fronts, (List.cons_inj_right mark).mp (List.append_cancel_left same)⟩

end Stretches

section Sequences

/-- Texts of a kind are told from what follows them, be it nothing or a text that begins with the
border. -/
def Delimited (border : Char) (kind : List Char → Prop) : Prop :=
  ∀ t u after behind, kind t → kind u → (∀ c ∈ after.head?, c = border) →
    (∀ c ∈ behind.head?, c = border) → t ++ after = u ++ behind → t = u

variable {border : Char} {kind : List Char → Prop} {separator : List Char}

theorem head?_flatMap_append (opens : ∀ t, kind t → (separator ++ t).head? = some border)
    {texts : List (List Char)} (kinds : ∀ t ∈ texts, kind t) :
    ∀ c ∈ (texts.flatMap (separator ++ ·)).head?, c = border := by
  cases texts with
  | nil => nofun
  | cons t rest =>
    intro c first
    have head := opens t (kinds t List.mem_cons_self)
    rw [List.flatMap_cons, List.head?_append, head] at first
    exact (Option.some.inj first).symm

/-- A sequence of delimited texts is found again in the text that they make with a separator in
front of each. -/
theorem Delimited.eq_of_flatMap_eq (delimited : Delimited border kind)
    (opens : ∀ t, kind t → (separator ++ t).head? = some border)
    {texts others : List (List Char)} (kinds : ∀ t ∈ texts, kind t)
    (otherKinds : ∀ u ∈ others, kind u)
    (same : texts.flatMap (separator ++ ·) = others.flatMap (separator ++ ·)) :
    texts = others := by
  induction texts generalizing others with
  | nil =>
    cases others with
    | nil => rfl
    | cons u more =>
      have head := opens u (otherKinds u List.mem_cons_self)
      rw [List.flatMap_nil, List.flatMap_cons] at same
      rw [(List.append_eq_nil_iff.mp same.symm).1] at head
      contradiction
  | cons t rest ih =>
    have first := kinds t List.mem_cons_self
    cases others with
    | nil =>
      have head := opens t first
      rw [List.flatMap_nil, List.flatMap_cons] at same
      rw [(List.append_eq_nil_iff.mp same).1] at head
      contradiction
    | cons u more =>
      have restKinds : ∀ t ∈ rest, kind t := fun t member => kinds t (List.mem_cons_of_mem _ member)
      have moreKinds : ∀ u ∈ more, kind u :=
        fun u member => otherKinds u (List.mem_cons_of_mem _ member)
      rw [List.flatMap_cons, List.flatMap_cons, List.append_assoc, List.append_assoc] at same
      have behind := List.append_cancel_left same
      obtain rfl := delimited t u _ _ first (otherKinds u List.mem_cons_self)
        (head?_flatMap_append opens restKinds) (head?_flatMap_append opens moreKinds) behind
      rw [ih restKinds moreKinds (List.append_cancel_left behind)]

theorem intercalate_cons_eq (separator first : List Char) (rest : List (List Char)) :
    separator.intercalate (first :: rest) = first ++ rest.flatMap (separator ++ ·) := by
  induction rest generalizing first with
  | nil => simp
  | cons second rest ih =>
    rw [List.intercalate_cons_cons, ih, List.flatMap_cons, List.append_assoc, List.append_assoc]

theorem intercalate_concat (separator last : List Char) {texts : List (List Char)}
    (nonempty : texts ≠ []) :
    separator.intercalate (texts ++ [last]) =
      separator.intercalate texts ++ (separator ++ last) := by
  cases texts with
  | nil => contradiction
  | cons first rest =>
    rw [List.cons_append, intercalate_cons_eq, intercalate_cons_eq]
    simp

theorem not_mem_intercalate {c : Char} {separator : List Char} {texts : List (List Char)}
    (apart : c ∉ separator) (each : ∀ text ∈ texts, c ∉ text) :
    c ∉ separator.intercalate texts := by
  induction texts with
  | nil => exact List.not_mem_nil
  | cons first rest ih =>
    have later := ih fun text member => each text (List.mem_cons_of_mem first member)
    cases rest with
    | nil => simpa using each
    | cons second rest =>
      rw [List.intercalate_cons_cons, List.mem_append, List.mem_append, not_or, not_or]
      exact ⟨⟨each first List.mem_cons_self, apart⟩, later⟩

theorem subset_intercalate {separator text : List Char} {texts : List (List Char)}
    (member : text ∈ texts) : text ⊆ separator.intercalate texts := by
  obtain ⟨i, found⟩ := List.mem_iff_getElem?.mp member
  have placed : (texts.intersperse separator)[2 * i]? = some text := by
    rw [List.getElem?_intersperse_two_mul, found]
  exact fun c inside => List.mem_flatten.mpr ⟨text, List.mem_of_getElem? placed, inside⟩

theorem mapM_eq_some_iff {α β : Type} {read : α → Option β} {items : List α} {values : List β} :
    items.mapM read = some values ↔ List.Forall₂ (fun x y => read x = some y) items values := by
  induction items generalizing values with
  | nil => simp [eq_comm]
  | cons item rest ih =>
    rw [List.mapM_cons, List.forall₂_cons_left_iff]
    simp only [← ih]
    cases read item <;> cases rest.mapM read <;> simp [eq_comm]

theorem exists_of_mem_right {α β : Type} {R : α → β → Prop} {items : List α} {values : List β}
    (all : List.Forall₂ R items values) : ∀ y ∈ values, ∃ x ∈ items, R x y := by
  induction all with
  | nil => nofun
  | cons first _ ih =>
    rw [List.forall_mem_cons]
    refine ⟨⟨_, List.mem_cons_self, first⟩, fun y member => ?_⟩
    obtain ⟨x, inside, own⟩ := ih y member
    exact ⟨x, List.mem_cons_of_mem _ inside, own⟩

theorem mapM_map_eq_some {α β : Type} {write : α → β} {read : β → Option α} {items : List α}
    (back : ∀ item ∈ items, read (write item) = some item) :
    (items.map write).mapM read = some items :=
  mapM_eq_some_iff.mpr (List.forall₂_map_left_iff.mpr (List.forall₂_same.mpr back))

theorem Delimited.eq_of_intercalate_eq (delimited : Delimited border kind)
    (opens : separator.head? = some border) {first second : List Char}
    {texts others : List (List Char)} (kinds : ∀ t ∈ first :: texts, kind t)
    (otherKinds : ∀ u ∈ second :: others, kind u)
    (same : separator.intercalate (first :: texts) = separator.intercalate (second :: others)) :
    first :: texts = second :: others := by
  have opened (t : List Char) (_ : kind t) : (separator ++ t).head? = some border := by
    rw [List.head?_append, opens]
    rfl
  obtain ⟨firstKind, restKinds⟩ := List.forall_mem_cons.mp kinds
  obtain ⟨secondKind, otherRest⟩ := List.forall_mem_cons.mp otherKinds
  rw [intercalate_cons_eq, intercalate_cons_eq] at same
  obtain rfl := delimited _ _ _ _ firstKind secondKind (head?_flatMap_append opened restKinds)
    (head?_flatMap_append opened otherRest) same
  rw [delimited.eq_of_flatMap_eq opened restKinds otherRest (List.append_cancel_left same)]

end Sequences

end AtomicMarkup
