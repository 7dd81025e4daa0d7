import AtomicMarkup.Proofs.FirstUse
import AtomicMarkup.Sheet.Rule

/-!
The groups of a stylesheet. Grouping a list of rules gives one group for each media query, in the
order in which the queries are first met, with the rules of the query in their order.
-/

namespace AtomicMarkup.RuleGroup

/-- The media queries of some rules, each once, in the order of first use. -/
def queries (rules : List Rule) : List String :=
  (rules.filterMap fun rule => rule.media).eraseDups

def under (rules : List Rule) (query : String) : RuleGroup :=
  ⟨some query, rules.filter fun rule => rule.media == some query⟩

theorem mem_queries_iff {rules : List Rule} {query : String} :
    query ∈ queries rules ↔ ∃ rule ∈ rules, rule.media = some query := by
  rw [queries, List.mem_eraseDups, List.mem_filterMap]

theorem queries_snoc_plain {rules : List Rule} {rule : Rule} (plain : rule.media = none) :
    queries (rules ++ [rule]) = queries rules := by
  rw [queries, List.filterMap_append, List.filterMap_cons_none plain, List.filterMap_nil,
    List.append_nil, queries]

theorem queries_snoc {rules : List Rule} {rule : Rule} {query : String}
    (asked : rule.media = some query) :
    queries (rules ++ [rule]) =
      if query ∈ queries rules then queries rules else queries rules ++ [query] := by
  rw [queries, List.filterMap_append, List.filterMap_cons_some asked, List.filterMap_nil,
    eraseDups_concat, queries]
  simp only [List.mem_eraseDups]

theorem under_snoc_same {rules : List Rule} {rule : Rule} {query : String}
    (asked : rule.media = some query) :
    under (rules ++ [rule]) query =
      { under rules query with rules := (under rules query).rules ++ [rule] } := by
  simp [under, asked]

theorem under_snoc_other {rules : List Rule} {rule : Rule} {query : String}
    (other : rule.media ≠ some query) : under (rules ++ [rule]) query = under rules query := by
  simp [under, other]

theorem place_known {rules : List Rule} {rule : Rule} {query : String}
    (asked : rule.media = some query) {known : List String} (once : known.Nodup)
    (member : query ∈ known) :
    place rule query (known.map (under rules)) = known.map (under (rules ++ [rule])) := by
  induction known with
  | nil => contradiction
  | cons k rest ih =>
    rw [List.nodup_cons] at once
    rw [List.map_cons, List.map_cons, place]
    by_cases same : k = query
    · subst same
      -- Queries are not repeated, so no group behind this one takes the rule.
      have later : rest.map (under rules) = rest.map (under (rules ++ [rule])) := by
        apply List.map_congr_left
        intro other inside
        refine (under_snoc_other ?_).symm
        rw [asked]
        exact fun equal => once.1 (Option.some.inj equal ▸ inside)
      rw [if_pos (by simp [under]), under_snoc_same asked, later]
    · have other : rule.media ≠ some k := by
        rw [asked]
        exact fun equal => same (Option.some.inj equal).symm
      have inside : query ∈ rest := by
        rcases List.mem_cons.mp member with equal | inside
        · exact absurd equal.symm same
        · exact inside
      rw [if_neg (by simp [under, same]), under_snoc_other other, ih once.2 inside]

theorem place_new {rules : List Rule} {rule : Rule} {query : String}
    (asked : rule.media = some query) (unused : ∀ r ∈ rules, r.media ≠ some query)
    {known : List String} (new : query ∉ known) :
    place rule query (known.map (under rules)) =
      (known ++ [query]).map (under (rules ++ [rule])) := by
  induction known with
  | nil =>
    have alone : rules.filter (fun r => r.media == some query) = [] := by
      rw [List.filter_eq_nil_iff]
      intro r inside
      simpa using unused r inside
    simp [place, under, asked, alone]
  | cons k rest ih =>
    rw [List.mem_cons, not_or] at new
    have other : rule.media ≠ some k := by
      rw [asked]
      exact fun equal => new.1 (Option.some.inj equal)
    rw [List.map_cons, place, if_neg (by simpa [under] using Ne.symm new.1), ih new.2,
      List.cons_append, List.map_cons, under_snoc_other other]

theorem placed_snoc (rules : List Rule) (rule : Rule) :
    (match rule.media with
      | none => (queries rules).map (under rules)
      | some query => place rule query ((queries rules).map (under rules))) =
      (queries (rules ++ [rule])).map (under (rules ++ [rule])) := by
  cases asked : rule.media with
  | none =>
    rw [queries_snoc_plain asked]
    apply List.map_congr_left
    intro query _
    exact (under_snoc_other (by simp [asked])).symm
  | some query =>
    rw [queries_snoc asked]
    by_cases known : query ∈ queries rules
    · rw [if_pos known]
      exact place_known asked (nodup_eraseDups _) known
    · rw [if_neg known]
      refine place_new asked ?_ known
      intro r inside used
      exact known (mem_queries_iff.mpr ⟨r, inside, used⟩)

theorem byQuery_eq (rules : List Rule) : byQuery rules = (queries rules).map (under rules) := by
  -- The rules are taken one by one; `seen` are those that were taken before.
  have fold (rest seen : List Rule) : rest.foldl
      (fun groups rule => match rule.media with
        | none => groups
        | some query => place rule query groups) ((queries seen).map (under seen)) =
      (queries (seen ++ rest)).map (under (seen ++ rest)) := by
    induction rest generalizing seen with
    | nil => rw [List.foldl_nil, List.append_nil]
    | cons rule rest ih =>
      rw [List.foldl_cons, placed_snoc, ih, List.append_assoc, List.singleton_append]
  exact fold rules []

theorem ofRules_eq (rules : List Rule) :
    ofRules rules =
      (match rules.filter fun rule => rule.media.isNone with
        | [] => []
        | plain => [⟨none, plain⟩]) ++ (queries rules).map (under rules) := by
  rw [ofRules, byQuery_eq]
  cases rules.filter fun rule => rule.media.isNone with
  | nil => rfl
  | cons first rest => rfl

theorem filterMap_media_ofRules (rules : List Rule) :
    (ofRules rules).filterMap (fun g => g.media) = queries rules := by
  have asked : ((queries rules).map (under rules)).filterMap (fun g => g.media) =
      queries rules := by
    rw [List.filterMap_map]
    exact List.filterMap_some
  rw [ofRules_eq, List.filterMap_append, asked]
  split <;> simp

theorem plain_eq (rules : List Rule) :
    (rules.filter fun rule => rule.media.isNone) = rules.filter fun rule => rule.media == none := by
  apply List.filter_congr
  intro rule _
  cases rule.media <;> rfl

theorem mem_queries_iff_ne_nil {rules : List Rule} {query : String} :
    query ∈ queries rules ↔ (rules.filter fun rule => rule.media == some query) ≠ [] := by
  rw [mem_queries_iff, ne_eq, List.filter_eq_nil_iff]
  simp

theorem mem_ofRules_iff {rules : List Rule} {g : RuleGroup} :
    g ∈ ofRules rules ↔
      g.rules ≠ [] ∧ g.rules = rules.filter fun rule => rule.media == g.media := by
  obtain ⟨media, inside⟩ := g
  rw [ofRules_eq, plain_eq, List.mem_append]
  cases media with
  | none =>
    have asked : (⟨none, inside⟩ : RuleGroup) ∉ (queries rules).map (under rules) := by
      simp [under]
    cases rules.filter fun rule => rule.media == none with
    | nil => simp [asked]
    | cons first rest => simp +contextual [asked]
  | some query =>
    constructor
    · rintro (plain | asked)
      · split at plain <;> simp at plain
      · obtain ⟨known, member, same⟩ := List.mem_map.mp asked
        obtain ⟨equal, rfl⟩ := RuleGroup.mk.inj same
        obtain rfl := Option.some.inj equal
        exact ⟨mem_queries_iff_ne_nil.mp member, rfl⟩
    · rintro ⟨filled, same⟩
      dsimp only at filled same
      subst same
      exact .inr (List.mem_map.mpr ⟨query, mem_queries_iff_ne_nil.mpr filled, rfl⟩)

theorem mem_rules_iff {rules : List Rule} {g : RuleGroup} (member : g ∈ ofRules rules)
    {rule : Rule} : rule ∈ g.rules ↔ rule ∈ rules ∧ rule.media = g.media := by
  rw [(mem_ofRules_iff.mp member).2, List.mem_filter, beq_iff_eq]

theorem flatMap_rules_ofRules (rules : List Rule) :
    (ofRules rules).flatMap (fun g => g.rules) =
      (rules.filter fun rule => rule.media.isNone) ++
        (queries rules).flatMap fun query =>
          rules.filter fun rule => rule.media == some query := by
  have asked : ((queries rules).map (under rules)).flatMap (fun g => g.rules) =
      (queries rules).flatMap fun query =>
        rules.filter fun rule => rule.media == some query := by
    rw [List.flatMap_map]
    rfl
  rw [ofRules_eq, List.flatMap_append, asked]
  cases rules.filter fun rule => rule.media.isNone with
  | nil => rfl
  | cons first rest => simp

end AtomicMarkup.RuleGroup
