import AtomicMarkup.Text.Escape

/-!
What escaped text cannot contain: the characters that would end the place it stands in.
-/

namespace AtomicMarkup.Text

theorem not_mem_contentChar (c : Char) : '<' ∉ contentChar c := by
  unfold contentChar
  split
  · simp
  · simp
  · simp
  · next other _ => simpa [eq_comm] using other

theorem not_mem_attributeChar {stop : Char} (stops : stop = '<' ∨ stop = '\x22') (c : Char) :
    stop ∉ attributeChar c := by
  unfold attributeChar
  split
  · rcases stops with rfl | rfl <;> simp
  · rcases stops with rfl | rfl <;> simp
  · rcases stops with rfl | rfl <;> simp
  · rcases stops with rfl | rfl <;> simp
  · rcases stops with rfl | rfl <;> simp
  · next noLess _ noQuote _ =>
    rcases stops with rfl | rfl
    · simpa [eq_comm] using noLess
    · simpa [eq_comm] using noQuote

theorem not_mem_styleChar (c : Char) : '<' ∉ styleChar c := by
  unfold styleChar
  split
  · simp
  · next other => simpa [eq_comm] using other

theorem not_mem_flatMap {escape : Char → List Char} {stop : Char}
    (each : ∀ c, stop ∉ escape c) (cs : List Char) : stop ∉ cs.flatMap escape := by
  rw [List.mem_flatMap]
  rintro ⟨c, -, member⟩
  exact each c member

theorem not_mem_escapeContent (s : String) : '<' ∉ (escapeContent s).toList := by
  rw [escapeContent, String.toList_ofList]
  exact not_mem_flatMap not_mem_contentChar _

theorem not_mem_escapeAttribute {stop : Char} (stops : stop = '<' ∨ stop = '\x22') (s : String) :
    stop ∉ (escapeAttribute s).toList := by
  rw [escapeAttribute, String.toList_ofList]
  exact not_mem_flatMap (not_mem_attributeChar stops) _

theorem not_mem_escapeStyle (s : String) : '<' ∉ (escapeStyle s).toList := by
  rw [escapeStyle, String.toList_ofList]
  exact not_mem_flatMap not_mem_styleChar _

theorem ofList_flatMap_eq_self {escape : Char → List Char} {s : String}
    (alone : ∀ c ∈ s.toList, escape c = [c]) : String.ofList (s.toList.flatMap escape) = s := by
  rw [List.flatMap_def, List.map_congr_left alone, ← List.flatMap_def, List.flatMap_singleton',
    String.ofList_toList]

theorem escapeStyle_of_not_mem {s : String} (free : '<' ∉ s.toList) : escapeStyle s = s := by
  apply ofList_flatMap_eq_self
  intro c member
  unfold styleChar
  split
  · exact absurd member free
  · rfl

theorem escapeAttribute_append (s t : String) :
    escapeAttribute (s ++ t) = escapeAttribute s ++ escapeAttribute t := by
  simp [escapeAttribute]

theorem escapeStyle_append (s t : String) :
    escapeStyle (s ++ t) = escapeStyle s ++ escapeStyle t := by
  simp [escapeStyle]

theorem escapeAttribute_intercalate (texts : List String) :
    escapeAttribute (" ".intercalate texts) = " ".intercalate (texts.map escapeAttribute) := by
  induction texts with
  | nil => rfl
  | cons first rest ih =>
    cases rest with
    | nil => simp
    | cons second rest =>
      have blank : escapeAttribute " " = " " := rfl
      rw [List.map_cons] at ih
      rw [String.intercalate_cons_cons, escapeAttribute_append, escapeAttribute_append, ih, blank,
        List.map_cons, List.map_cons, String.intercalate_cons_cons]

end AtomicMarkup.Text
