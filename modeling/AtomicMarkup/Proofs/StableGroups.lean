import AtomicMarkup.Proofs.Grouping

/-!
Grouping as a stable partition. Every rule stands in one group, with the other rules of its query
and in their order, and the groups stand in the order in which the rules first ask for their
queries, behind the plain rules. Rules that were grouped before are grouped in the same way again.
-/

namespace AtomicMarkup.RuleGroup

/-- The position of the first rule under a query, or of the first plain rule. -/
def firstUse (rules : List Rule) (media : Option String) : Nat :=
  rules.findIdx fun rule => rule.media == media

/-- How one group of some rules stands before another: the second has a query, and the first has
none or one that is used earlier. -/
def Precedes (rules : List Rule) (g h : RuleGroup) : Prop :=
  h.media ≠ none ∧ (g.media = none ∨ firstUse rules g.media < firstUse rules h.media)

def regrouped (rules : List Rule) : List Rule :=
  (ofRules rules).flatMap fun g => g.rules

theorem Precedes.media_ne {rules : List Rule} {g h : RuleGroup} (order : Precedes rules g h) :
    g.media ≠ h.media := by
  intro same
  obtain ⟨asked, plain | earlier⟩ := order
  · exact asked (same ▸ plain)
  · rw [same] at earlier
    exact Nat.lt_irrefl _ earlier

theorem firstUse_lt_length {rules : List Rule} {query : String} (used : query ∈ queries rules) :
    firstUse rules (some query) < rules.length := by
  obtain ⟨rule, inside, asked⟩ := mem_queries_iff.mp used
  exact List.findIdx_lt_length.mpr ⟨rule, inside, by simp [asked]⟩

/-- Rules that come later do not change where a query is used first. -/
theorem firstUse_append {rules : List Rule} {query : String} (used : query ∈ queries rules)
    (later : List Rule) : firstUse (rules ++ later) (some query) = firstUse rules (some query) := by
  have before := firstUse_lt_length used
  rw [firstUse] at before ⊢
  rw [List.findIdx_append, if_pos before]
  rfl

theorem firstUse_snoc_new {rules : List Rule} {rule : Rule} {query : String}
    (asked : rule.media = some query) (new : query ∉ queries rules) :
    firstUse (rules ++ [rule]) (some query) = rules.length := by
  have none : rules.findIdx (fun r => r.media == some query) = rules.length := by
    rw [List.findIdx_eq_length]
    intro r inside
    rw [beq_eq_false_iff_ne]
    exact fun same => new (mem_queries_iff.mpr ⟨r, inside, same⟩)
  rw [firstUse, List.findIdx_append, none, if_neg (Nat.lt_irrefl _)]
  simp [asked]

theorem pairwise_queries (rules : List Rule) :
    (queries rules).Pairwise fun first second =>
      firstUse rules (some first) < firstUse rules (some second) := by
  induction rules using List.reverseRecOn with
  | nil => exact List.Pairwise.nil
  | append_singleton seen rule ih =>
    have kept : (queries seen).Pairwise fun first second =>
        firstUse (seen ++ [rule]) (some first) < firstUse (seen ++ [rule]) (some second) := by
      refine ih.imp_of_mem fun inFirst inSecond earlier => ?_
      rwa [firstUse_append inFirst, firstUse_append inSecond]
    cases asked : rule.media with
    | none =>
      rw [queries_snoc_plain asked]
      exact kept
    | some query =>
      rw [queries_snoc asked]
      split
      · exact kept
      · next new =>
        refine List.pairwise_append.mpr ⟨kept, List.pairwise_singleton _ _, ?_⟩
        intro first known second last
        obtain rfl := List.mem_singleton.mp last
        rw [firstUse_append known, firstUse_snoc_new asked new]
        exact firstUse_lt_length known

theorem pairwise_ofRules (rules : List Rule) : (ofRules rules).Pairwise (Precedes rules) := by
  have asked : ((queries rules).map (under rules)).Pairwise (Precedes rules) := by
    rw [List.pairwise_map]
    exact (pairwise_queries rules).imp fun earlier => ⟨Option.some_ne_none _, .inr earlier⟩
  rw [ofRules_eq]
  cases rules.filter fun rule => rule.media.isNone with
  | nil => exact asked
  | cons first rest =>
    refine List.pairwise_cons.mpr ⟨?_, asked⟩
    intro g member
    obtain ⟨query, -, rfl⟩ := List.mem_map.mp member
    exact ⟨Option.some_ne_none query, .inl rfl⟩

theorem filter_filter_of_ne (rules : List Rule) {first second : Option String}
    (distinct : first ≠ second) :
    (rules.filter fun rule => rule.media == first).filter (fun rule => rule.media == second) =
      [] := by
  rw [List.filter_eq_nil_iff]
  intro rule inside
  have same := eq_of_beq (List.mem_filter.mp inside).2
  simp [same, distinct]

theorem filter_blocks_of_ne (rules : List Rule) {known : List String} {media : Option String}
    (apart : ∀ k ∈ known, some k ≠ media) :
    (known.flatMap fun k => (rules.filter fun rule => rule.media == some k).filter
      fun rule => rule.media == media) = [] :=
  List.flatMap_eq_nil_iff.mpr fun k inside => filter_filter_of_ne rules (apart k inside)

theorem filter_regrouped (rules : List Rule) (media : Option String) :
    (regrouped rules).filter (fun rule => rule.media == media) =
      rules.filter fun rule => rule.media == media := by
  have own (first : Option String) :
      (rules.filter fun rule => rule.media == first).filter (fun rule => rule.media == first) =
        rules.filter fun rule => rule.media == first := by
    simp
  rw [regrouped, flatMap_rules_ofRules, plain_eq, List.filter_append, List.filter_flatMap]
  cases media with
  | none =>
    rw [own, filter_blocks_of_ne rules fun k _ => Option.some_ne_none k, List.append_nil]
  | some query =>
    have others {known : List String} (apart : query ∉ known) : ∀ k ∈ known, some k ≠ some query :=
      fun k inside same => apart (Option.some.inj same ▸ inside)
    rw [filter_filter_of_ne rules (Option.some_ne_none query).symm, List.nil_append]
    by_cases used : query ∈ queries rules
    · have once := nodup_eraseDups (rules.filterMap fun rule => rule.media)
      rw [← queries] at once
      -- The block of the query is the only one that counts.
      obtain ⟨before, after, split⟩ := List.append_of_mem used
      rw [split] at once ⊢
      obtain ⟨-, later, apart⟩ := List.nodup_append.mp once
      have notBefore : query ∉ before :=
        fun inside => apart query inside query List.mem_cons_self rfl
      have notAfter : query ∉ after := (List.nodup_cons.mp later).1
      rw [List.flatMap_append, List.flatMap_cons, filter_blocks_of_ne rules (others notBefore), own,
        filter_blocks_of_ne rules (others notAfter), List.nil_append, List.append_nil]
    · rw [filter_blocks_of_ne rules (others used)]
      exact (not_not.mp (mt mem_queries_iff_ne_nil.mpr used)).symm

theorem regrouped_perm (rules : List Rule) : (regrouped rules).Perm rules := by
  rw [List.perm_iff_count]
  intro rule
  let alike : Rule → Bool := fun r => r.media == rule.media
  have own : alike rule = true := beq_self_eq_true rule.media
  calc (regrouped rules).count rule = ((regrouped rules).filter alike).count rule :=
        (List.count_filter own).symm
    _ = (rules.filter alike).count rule := by rw [filter_regrouped]
    _ = rules.count rule := List.count_filter own

theorem queries_regrouped (rules : List Rule) : queries (regrouped rules) = queries rules := by
  have plain : ((rules.filter fun rule => rule.media.isNone).filterMap fun rule => rule.media) =
      [] := by
    rw [List.filterMap_eq_nil_iff]
    intro rule inside
    simpa using (List.mem_filter.mp inside).2
  rw [queries, regrouped, flatMap_rules_ofRules, List.filterMap_append, plain, List.nil_append,
    List.filterMap_flatMap]
  apply eraseDups_flatMap (nodup_eraseDups _)
  intro query used
  obtain ⟨rule, inside, asked⟩ := mem_queries_iff.mp used
  constructor
  · apply List.ne_nil_of_mem (a := query)
    exact List.mem_filterMap.mpr ⟨rule, List.mem_filter.mpr ⟨inside, by simp [asked]⟩, asked⟩
  · intro other member
    obtain ⟨r, among, same⟩ := List.mem_filterMap.mp member
    have known := eq_of_beq (List.mem_filter.mp among).2
    exact Option.some.inj (same.symm.trans known)

theorem ofRules_regrouped (rules : List Rule) : ofRules (regrouped rules) = ofRules rules := by
  have groups : under (regrouped rules) = under rules := by
    funext query
    rw [under, filter_regrouped, under]
  rw [ofRules_eq, ofRules_eq, plain_eq, plain_eq, filter_regrouped, queries_regrouped, groups]

/-- Grouping is a stable partition. The groups are just the nonempty lists of all rules under one
query, or under none, each in the order of the rules. No two of them have one query; the plain
group stands first, and the others stand in the order in which the rules first ask for their
queries. The groups hold every rule as often as it was given, and grouping their rules again
gives the same groups. -/
theorem ofRules_partition (rules : List Rule) :
    (∀ g, g ∈ ofRules rules ↔
      g.rules ≠ [] ∧ g.rules = rules.filter fun rule => rule.media == g.media) ∧
    ((ofRules rules).map fun g => g.media).Nodup ∧
    (ofRules rules).Pairwise (Precedes rules) ∧
    ((ofRules rules).flatMap fun g => g.rules).Perm rules ∧
    ofRules ((ofRules rules).flatMap fun g => g.rules) = ofRules rules := by
  have order := pairwise_ofRules rules
  have distinct : ((ofRules rules).map fun g => g.media).Nodup :=
    List.pairwise_map.mpr (order.imp Precedes.media_ne)
  exact ⟨fun _ => mem_ofRules_iff, distinct, order, regrouped_perm rules, ofRules_regrouped rules⟩

end AtomicMarkup.RuleGroup
