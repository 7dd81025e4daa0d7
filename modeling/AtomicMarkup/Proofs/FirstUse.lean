import Mathlib.Data.List.Induction
import Mathlib.Data.List.Nodup

/-!
Lists of first occurrences, as class tables and groups of rules keep them: one more member is
appended when it is new, and there are no repeats. That a member stands before another is said by
the pair of them as a sublist.
-/

namespace AtomicMarkup

variable {α : Type} [DecidableEq α]

theorem eraseDups_concat (xs : List α) (x : α) :
    (xs ++ [x]).eraseDups = if x ∈ xs then xs.eraseDups else xs.eraseDups ++ [x] := by
  rw [List.eraseDups_append]
  by_cases known : x ∈ xs <;> simp [List.removeAll, List.eraseDups_cons, known]

theorem nodup_eraseDups (xs : List α) : xs.eraseDups.Nodup := by
  match xs with
  | [] => exact List.nodup_nil
  | x :: rest =>
    rw [List.eraseDups_cons, List.nodup_cons]
    exact ⟨by simp [List.mem_eraseDups], nodup_eraseDups _⟩
termination_by xs.length
decreasing_by exact Nat.lt_succ_of_le (List.length_filter_le _ _)

theorem eraseDups_eq_self {xs : List α} (once : xs.Nodup) : xs.eraseDups = xs := by
  induction xs using List.reverseRecOn with
  | nil => rfl
  | append_singleton seen x ih =>
    obtain ⟨seenOnce, -, apart⟩ := List.nodup_append.mp once
    have new : x ∉ seen := fun inside => apart x inside x List.mem_cons_self rfl
    rw [eraseDups_concat, if_neg new, ih seenOnce]

/-- Of blocks that repeat one member each, the first occurrences are these members. -/
theorem eraseDups_flatMap {xs : List α} (once : xs.Nodup) {block : α → List α}
    (each : ∀ x ∈ xs, block x ≠ [] ∧ ∀ y ∈ block x, y = x) : (xs.flatMap block).eraseDups = xs := by
  induction xs using List.reverseRecOn with
  | nil => rfl
  | append_singleton seen x ih =>
    obtain ⟨seenOnce, -, apart⟩ := List.nodup_append.mp once
    obtain ⟨seenEach, last⟩ := List.forall_mem_append.mp each
    obtain ⟨filled, same⟩ := List.forall_mem_singleton.mp last
    have new : (block x).removeAll (seen.flatMap block) = block x := by
      rw [List.removeAll, List.filter_eq_self]
      intro y inside
      obtain rfl := same y inside
      have free : y ∉ seen.flatMap block := by
        intro earlier
        obtain ⟨z, member, inBlock⟩ := List.mem_flatMap.mp earlier
        exact apart z member y List.mem_cons_self ((seenEach z member).2 y inBlock).symm
      simpa using free
    have alone : (block x).eraseDups = [x] := by
      obtain ⟨y, rest, split⟩ := List.exists_cons_of_ne_nil filled
      rw [split] at same ⊢
      obtain ⟨rfl, others⟩ := List.forall_mem_cons.mp same
      rw [List.eraseDups_cons, List.filter_eq_nil_iff.mpr (by simpa using others)]
      rfl
    rw [List.flatMap_append, List.flatMap_singleton, List.eraseDups_append, ih seenOnce seenEach,
      new, alone]

omit [DecidableEq α] in
theorem not_sublist_swap {xs : List α} (once : xs.Nodup) {a b : α} (pair : [a, b].Sublist xs) :
    ¬ [b, a].Sublist xs := by
  intro swapped
  obtain ⟨front, back, rfl, inFront, inBack⟩ := List.cons_sublist_iff.mp pair
  have apart := (List.nodup_append.mp once).2.2
  have b_mem := List.singleton_sublist.mp inBack
  obtain ⟨first, second, split, left, right⟩ := List.sublist_append_iff.mp swapped
  cases first with
  | nil =>
    rw [List.nil_append] at split
    subst split
    have a_mem : a ∈ back := right.subset (by simp)
    exact apart a inFront a a_mem rfl
  | cons c rest =>
    obtain ⟨rfl, -⟩ := List.cons_eq_cons.mp split
    exact apart b (left.subset List.mem_cons_self) b b_mem rfl

omit [DecidableEq α] in
theorem sublist_or_swap {xs : List α} {a b : α} (first : a ∈ xs) (second : b ∈ xs)
    (distinct : a ≠ b) : [a, b].Sublist xs ∨ [b, a].Sublist xs := by
  obtain ⟨front, back, rfl⟩ := List.append_of_mem first
  rcases List.mem_append.mp second with before | after
  · have a_last : [a].Sublist (a :: back) := List.singleton_sublist.mpr List.mem_cons_self
    exact .inr ((List.singleton_sublist.mpr before).append a_last)
  · have b_later : b ∈ back := (List.mem_cons.mp after).resolve_left (Ne.symm distinct)
    have both : [a, b].Sublist (a :: back) := (List.singleton_sublist.mpr b_later).cons_cons a
    exact .inl (both.trans (List.sublist_append_right front _))

omit [DecidableEq α] in
theorem pair_sublist_concat {xs : List α} {a b x : α} (pair : [a, b].Sublist (xs ++ [x])) :
    [a, b].Sublist xs ∨ a ∈ xs ∧ b = x := by
  obtain ⟨first, second, split, left, right⟩ := List.sublist_append_iff.mp pair
  rcases List.sublist_singleton.mp right with rfl | rfl
  · rw [List.append_nil] at split
    exact .inl (split ▸ left)
  · obtain ⟨rfl, same⟩ := List.append_inj' (show [a] ++ [b] = first ++ [x] from split) rfl
    obtain rfl := List.singleton_inj.mp same
    exact .inr ⟨List.singleton_sublist.mp left, rfl⟩

theorem first_of_sublist_eraseDups {xs : List α} {a b : α} (pair : [a, b].Sublist xs.eraseDups) :
    ∃ before after, xs = before ++ a :: after ∧ b ∉ before := by
  induction xs using List.reverseRecOn with
  | nil => simp at pair
  | append_singleton seen x ih =>
    rw [eraseDups_concat] at pair
    by_cases known : x ∈ seen
    · rw [if_pos known] at pair
      obtain ⟨before, after, rfl, new⟩ := ih pair
      exact ⟨before, after ++ [x], by simp, new⟩
    · rw [if_neg known] at pair
      rcases pair_sublist_concat pair with both | ⟨inside, rfl⟩
      · obtain ⟨before, after, rfl, new⟩ := ih both
        exact ⟨before, after ++ [x], by simp, new⟩
      · -- The second member is the new one, so it has not occurred before.
        obtain ⟨before, after, rfl⟩ := List.append_of_mem (List.mem_eraseDups.mp inside)
        refine ⟨before, after ++ [b], by simp, ?_⟩
        exact fun earlier => known (List.mem_append_left _ earlier)

end AtomicMarkup
