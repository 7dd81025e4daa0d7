import AtomicMarkup.Style.Declaration

/-!
The declarations that take effect on an element. Of every scope the element declares in, exactly
the last declaration is kept, whatever stands between it and the end of the list. What is kept
stands in the order of decreasing positions, as if it were collected from the end.
-/

namespace AtomicMarkup.Declaration

theorem sameScope_iff {a b : Declaration} :
    a.sameScope b = true ↔
      a.property = b.property ∧ a.media = b.media ∧ a.selector = b.selector ∧
        a.pseudo = b.pseudo := by
  simp [sameScope, and_assoc]

@[simp] theorem sameScope_self (d : Declaration) : d.sameScope d = true :=
  sameScope_iff.mpr ⟨rfl, rfl, rfl, rfl⟩

theorem sameScope_symm {a b : Declaration} (same : a.sameScope b = true) :
    b.sameScope a = true := by
  obtain ⟨property, media, selector, pseudo⟩ := sameScope_iff.mp same
  exact sameScope_iff.mpr ⟨property.symm, media.symm, selector.symm, pseudo.symm⟩

theorem sameScope_trans {a b c : Declaration} (first : a.sameScope b = true)
    (second : b.sameScope c = true) : a.sameScope c = true := by
  obtain ⟨p, m, s, q⟩ := sameScope_iff.mp first
  obtain ⟨p', m', s', q'⟩ := sameScope_iff.mp second
  exact sameScope_iff.mpr ⟨p.trans p', m.trans m', s.trans s', q.trans q'⟩

theorem filter_effective (ds : List Declaration) (d : Declaration) :
    (effective ds).filter d.sameScope = (ds.filter d.sameScope).getLast?.toList := by
  induction ds with
  | nil => rfl
  | cons a later ih =>
    rw [effective]
    by_cases replaced : later.any a.sameScope = true
    · rw [if_pos replaced, ih]
      by_cases inScope : d.sameScope a = true
      · -- What replaces `a` is in the scope of `d` too, so the last member stays.
        obtain ⟨b, inside, same⟩ := List.any_eq_true.mp replaced
        have nonempty : later.filter d.sameScope ≠ [] := by
          intro empty
          exact List.filter_eq_nil_iff.mp empty b inside (sameScope_trans inScope same)
        rw [List.filter_cons_of_pos inScope, List.getLast?_cons_of_ne_nil nonempty]
      · rw [List.filter_cons_of_neg inScope]
    · rw [if_neg replaced, List.filter_append, ih]
      by_cases inScope : d.sameScope a = true
      · have alone : later.filter d.sameScope = [] := by
          rw [List.filter_eq_nil_iff]
          intro b inside same
          exact replaced (List.any_eq_true.mpr
            ⟨b, inside, sameScope_trans (sameScope_symm inScope) same⟩)
        simp [inScope, alone]
      · simp [inScope]

theorem mem_effective_iff {ds : List Declaration} {d : Declaration} :
    d ∈ effective ds ↔ (ds.filter d.sameScope).getLast? = some d := by
  constructor
  · intro member
    have kept : d ∈ (effective ds).filter d.sameScope :=
      List.mem_filter.mpr ⟨member, sameScope_self d⟩
    rw [filter_effective] at kept
    exact Option.mem_toList.mp kept
  · intro last
    have kept : d ∈ (effective ds).filter d.sameScope := by
      rw [filter_effective, last]
      simp
    exact (List.mem_filter.mp kept).1

theorem exists_last_of_mem {ds : List Declaration} {d : Declaration} (member : d ∈ ds) :
    ∃ last, (ds.filter d.sameScope).getLast? = some last ∧
      (effective ds).filter d.sameScope = [last] := by
  have nonempty : ds.filter d.sameScope ≠ [] :=
    List.ne_nil_of_mem (List.mem_filter.mpr ⟨member, sameScope_self d⟩)
  have found := List.getLast?_eq_some_getLast nonempty
  exact ⟨_, found, by rw [filter_effective, found]; rfl⟩

theorem effective_append (first second : List Declaration) :
    effective (first ++ second) =
      effective second ++ (effective first).filter fun d => !second.any d.sameScope := by
  induction first with
  | nil => simp [effective]
  | cons d later ih =>
    rw [List.cons_append, effective, effective, List.any_append, ih]
    by_cases replaced : later.any d.sameScope = true
    · simp only [replaced, Bool.true_or, if_true]
    · by_cases covered : second.any d.sameScope = true
      · simp [replaced, covered]
      · simp [replaced, covered, List.append_assoc]

theorem mem_of_mem_effective {ds : List Declaration} {d : Declaration} (kept : d ∈ effective ds) :
    d ∈ ds :=
  (List.mem_filter.mp (List.mem_of_getLast? (mem_effective_iff.mp kept))).1

theorem any_effective (ds : List Declaration) (d : Declaration) :
    (effective ds).any d.sameScope = ds.any d.sameScope := by
  rw [Bool.eq_iff_iff, List.any_eq_true, List.any_eq_true]
  constructor
  · rintro ⟨a, kept, same⟩
    exact ⟨a, mem_of_mem_effective kept, same⟩
  · rintro ⟨a, member, same⟩
    obtain ⟨last, -, ofScope⟩ := exists_last_of_mem member
    have kept : last ∈ (effective ds).filter a.sameScope := by
      rw [ofScope]
      exact List.mem_singleton_self last
    obtain ⟨inside, sameAsLast⟩ := List.mem_filter.mp kept
    exact ⟨last, inside, sameScope_trans same sameAsLast⟩

theorem effective_eq_foldl_reverse (ds : List Declaration) :
    effective ds = ds.reverse.foldl
      (fun kept d => if kept.any d.sameScope then kept else kept ++ [d]) [] := by
  rw [List.foldl_reverse]
  induction ds with
  | nil => rfl
  | cons d later ih => rw [List.foldr_cons, ← ih, any_effective, effective]

theorem pairwise_effective (ds : List Declaration) :
    (effective ds).Pairwise fun a b => a.sameScope b = false := by
  induction ds with
  | nil => exact List.Pairwise.nil
  | cons d later ih =>
    rw [effective]
    split
    · exact ih
    · next free =>
      rw [List.pairwise_append]
      refine ⟨ih, List.pairwise_singleton _ _, ?_⟩
      intro a kept b last
      obtain rfl := List.mem_singleton.mp last
      rw [Bool.eq_false_iff]
      intro same
      apply free
      exact List.any_eq_true.mpr ⟨a, mem_of_mem_effective kept, sameScope_symm same⟩

theorem effective_of_pairwise {ds : List Declaration}
    (apart : ds.Pairwise fun a b => a.sameScope b = false) : effective ds = ds.reverse := by
  induction ds with
  | nil => rfl
  | cons d later ih =>
    obtain ⟨other, apart⟩ := List.pairwise_cons.mp apart
    have kept : ¬ later.any d.sameScope = true := by
      rw [Bool.not_eq_true, List.any_eq_false]
      intro a member
      rw [other a member]
      exact Bool.false_ne_true
    rw [effective, if_neg kept, ih apart, List.reverse_cons]

section Positions

/-- No declaration behind this position has the scope of the one in it. -/
def IsLastAt (ds : List Declaration) (i : Fin ds.length) : Prop :=
  ∀ j, i < j → ds[i].sameScope ds[j] = false

instance (ds : List Declaration) : DecidablePred (IsLastAt ds) :=
  fun i => inferInstanceAs (Decidable (∀ j, i < j → ds[i].sameScope ds[j] = false))

def lastPositions (ds : List Declaration) : List (Fin ds.length) :=
  (List.finRange ds.length).filter (IsLastAt ds ·)

variable {d : Declaration} {later : List Declaration}

theorem isLastAt_zero_iff :
    IsLastAt (d :: later) (0 : Fin (later.length + 1)) ↔ ¬ later.any d.sameScope = true := by
  rw [List.any_eq_true]
  constructor
  · rintro last ⟨a, member, same⟩
    obtain ⟨j, bound, rfl⟩ := List.mem_iff_getElem.mp member
    have other : d.sameScope later[j] = false := last (Fin.succ ⟨j, bound⟩) (Fin.succ_pos _)
    rw [other] at same
    contradiction
  · intro none j behind
    cases j using Fin.cases with
    | zero => exact absurd behind (Fin.lt_irrefl _)
    | succ k =>
      rw [Bool.eq_false_iff]
      exact fun same => none ⟨later[k], List.getElem_mem k.isLt, same⟩

theorem isLastAt_succ_iff {i : Fin later.length} :
    IsLastAt (d :: later) (i.succ : Fin (later.length + 1)) ↔ IsLastAt later i := by
  constructor
  · intro last j behind
    exact last j.succ (Fin.succ_lt_succ_iff.mpr behind)
  · intro last j behind
    cases j using Fin.cases with
    | zero => exact absurd behind (Nat.not_lt_zero _)
    | succ k => exact last k (Fin.succ_lt_succ_iff.mp behind)

theorem lastPositions_cons :
    lastPositions (d :: later) =
      (if later.any d.sameScope then [] else [(0 : Fin (later.length + 1))]) ++
        (lastPositions later).map Fin.succ := by
  have behind : ((List.finRange later.length).map Fin.succ).filter (IsLastAt (d :: later) ·) =
      (lastPositions later).map Fin.succ := by
    rw [List.filter_map, lastPositions]
    congr 2
    funext i
    exact decide_eq_decide.mpr isLastAt_succ_iff
  have all : List.finRange (d :: later).length =
      (0 : Fin (later.length + 1)) :: (List.finRange later.length).map Fin.succ :=
    List.finRange_succ
  rw [lastPositions, all, List.filter_cons, behind]
  simp only [decide_eq_true_eq, isLastAt_zero_iff]
  by_cases replaced : later.any d.sameScope = true <;> simp [replaced]

theorem effective_eq_map_lastPositions (ds : List Declaration) :
    effective ds = (lastPositions ds).reverse.map fun i => ds[i] := by
  induction ds with
  | nil => rfl
  | cons d later ih =>
    have behind : ((lastPositions later).map Fin.succ).reverse.map
        (fun i : Fin (d :: later).length => (d :: later)[i]) = effective later := by
      rw [ih, ← List.map_reverse, List.map_map]
      rfl
    rw [lastPositions_cons, List.reverse_append, List.map_append, effective]
    by_cases replaced : later.any d.sameScope = true
    · rw [if_pos replaced, if_pos replaced]
      exact behind.symm.trans (List.append_nil _).symm
    · rw [if_neg replaced, if_neg replaced]
      exact congrArg (· ++ [d]) behind.symm

end Positions

/-- In effect are the declarations in exactly those positions behind which their scope is not
declared again, from the last position to the first: what a loop from the end collects that skips
the scopes it has met. No two of them share a scope, and each scope has its last declaration. What
is declared later stands first, and of the rest it leaves what is in no scope of its own. -/
theorem effective_last_wins (ds : List Declaration) :
    effective ds = ((List.finRange ds.length).filter (IsLastAt ds ·)).reverse.map (fun i => ds[i]) ∧
      effective ds = ds.reverse.foldl
        (fun kept d => if kept.any d.sameScope then kept else kept ++ [d]) [] ∧
      (effective ds).Pairwise (fun a b => a.sameScope b = false) ∧
      (∀ d ∈ ds, ∃ last, (ds.filter d.sameScope).getLast? = some last ∧
        (effective ds).filter d.sameScope = [last]) ∧
      ∀ later, effective (ds ++ later) =
        effective later ++ (effective ds).filter fun d => !later.any d.sameScope :=
  ⟨effective_eq_map_lastPositions ds, effective_eq_foldl_reverse ds, pairwise_effective ds,
    fun _ => exists_last_of_mem, effective_append ds⟩

example : effective [plain "color" "red", plain "gap" "1px", plain "color" "blue"] =
    [plain "color" "blue", plain "gap" "1px"] := by
  decide

end AtomicMarkup.Declaration
