import AtomicMarkup.Element
import AtomicMarkup.Proofs.DarkOrder

/-!
The order of an element's rules, against the order in which its styles were given. Rules without a
query come first. Apart from that the last style comes first: it is the first rule under its
query, and the block of its query is the first one. A style that was given later is therefore
written later only from outside a query into one, or under another query that lost its turn to a
style given later still.
-/

namespace AtomicMarkup

namespace Declaration

/-- Two declarations in effect, the first of which was given before the second. -/
def GivenBefore (styles : List Declaration) (d e : Declaration) : Prop :=
  ∃ front between back, styles = front ++ d :: (between ++ e :: back) ∧
    (∀ x ∈ between ++ e :: back, d.sameScope x = false) ∧ ∀ x ∈ back, e.sameScope x = false

theorem effective_cons_of_last {d : Declaration} {later : List Declaration}
    (last : ∀ x ∈ later, d.sameScope x = false) :
    effective (d :: later) = effective later ++ [d] := by
  have free : ¬ later.any d.sameScope = true := by
    rw [List.any_eq_true]
    rintro ⟨x, inside, same⟩
    rw [last x inside] at same
    contradiction
  rw [effective, if_neg free]

theorem nodup_effective (ds : List Declaration) : (effective ds).Nodup := by
  refine (pairwise_effective ds).imp ?_
  rintro d e apart rfl
  rw [sameScope_self] at apart
  contradiction

theorem exists_split_of_mem_effective {ds : List Declaration} {e : Declaration}
    (kept : e ∈ effective ds) :
    ∃ front back, ds = front ++ e :: back ∧ ∀ x ∈ back, e.sameScope x = false := by
  induction ds with
  | nil => simp [effective] at kept
  | cons d later ih =>
    rw [effective] at kept
    split at kept
    · obtain ⟨front, back, rfl, last⟩ := ih kept
      exact ⟨d :: front, back, rfl, last⟩
    · next free =>
      rcases List.mem_append.mp kept with earlier | new
      · obtain ⟨front, back, rfl, last⟩ := ih earlier
        exact ⟨d :: front, back, rfl, last⟩
      · obtain rfl := List.mem_singleton.mp new
        exact ⟨[], later, rfl, by simpa using free⟩

theorem givenBefore_iff {styles : List Declaration} {d e : Declaration} :
    GivenBefore styles d e ↔ [e, d].Sublist (effective styles) := by
  constructor
  · rintro ⟨front, between, back, rfl, lastOfFirst, lastOfSecond⟩
    have e_mem : e ∈ effective (between ++ e :: back) := by
      rw [effective_append, effective_cons_of_last lastOfSecond]
      simp
    rw [effective_append, effective_cons_of_last lastOfFirst]
    exact ((List.singleton_sublist.mpr e_mem).append (.refl [d])).trans
      (List.sublist_append_left _ _)
  · intro pair
    induction styles with
    | nil => simp [effective] at pair
    | cons a later ih =>
      have extended (given : GivenBefore later d e) : GivenBefore (a :: later) d e := by
        obtain ⟨front, between, back, rfl, lastOfFirst, lastOfSecond⟩ := given
        exact ⟨a :: front, between, back, rfl, lastOfFirst, lastOfSecond⟩
      rw [effective] at pair
      split at pair
      · exact extended (ih pair)
      · next free =>
        have free : ∀ x ∈ later, a.sameScope x = false := by simpa using free
        rcases pair_sublist_concat pair with both | ⟨inside, rfl⟩
        · exact extended (ih both)
        · obtain ⟨between, back, rfl, last⟩ := exists_split_of_mem_effective inside
          exact ⟨[], between, back, rfl, free, last⟩

instance (styles : List Declaration) (d e : Declaration) : Decidable (GivenBefore styles d e) :=
  decidable_of_iff _ givenBefore_iff.symm

/-- Declarations in the order of their rules: those without a query, then query by query. -/
def inBlocks (kept : List Declaration) : List Declaration :=
  (kept.filter fun d => d.media.isNone) ++
    (kept.filterMap fun d => d.media).eraseDups.flatMap fun query =>
      kept.filter fun d => d.media == some query

theorem mem_inBlocks_iff {kept : List Declaration} {d : Declaration} :
    d ∈ inBlocks kept ↔ d ∈ kept := by
  simp only [inBlocks, List.mem_append, List.mem_filter, List.mem_flatMap, List.mem_eraseDups,
    List.mem_filterMap]
  constructor
  · rintro (⟨inside, -⟩ | ⟨-, -, inside, -⟩) <;> exact inside
  · intro inside
    cases media : d.media with
    | none => exact .inl ⟨inside, rfl⟩
    | some query => exact .inr ⟨query, ⟨d, inside, media⟩, inside, by simp⟩

/-- How two declarations come to stand in this order in their blocks. -/
inductive BlockOrder (kept : List Declaration) (d e : Declaration) : Prop where
  | intoQuery (plain : d.media = none) (asked : e.media ≠ none)
  | sameBlock (same : d.media = e.media) (pair : [d, e].Sublist kept)
  | otherBlock {first second : String} (asked : d.media = some first)
      (askedLater : e.media = some second)
      (queries : [first, second].Sublist (kept.filterMap fun d => d.media).eraseDups)

theorem pairwise_inBlocks (kept : List Declaration) :
    (inBlocks kept).Pairwise (BlockOrder kept) := by
  -- Inside a block declarations keep their order.
  have block (p : Declaration → Bool) (media : Option String)
      (same : ∀ d ∈ kept.filter p, d.media = media) :
      (kept.filter p).Pairwise (BlockOrder kept) := by
    rw [List.pairwise_iff_forall_sublist]
    intro d e pair
    have d_media := same d (pair.subset List.mem_cons_self)
    have e_media := same e (pair.subset (List.mem_cons_of_mem d List.mem_cons_self))
    exact .sameBlock (d_media.trans e_media.symm) (pair.trans List.filter_sublist)
  refine List.pairwise_append.mpr ⟨?_, List.pairwise_flatMap.mpr ⟨?_, ?_⟩, ?_⟩
  · apply block _ none
    intro d inside
    simpa using (List.mem_filter.mp inside).2
  · intro query _
    apply block _ (some query)
    intro d inside
    simpa using (List.mem_filter.mp inside).2
  · rw [List.pairwise_iff_forall_sublist]
    intro first second pair d inFirst e inSecond
    have asked := (List.mem_filter.mp inFirst).2
    have askedLater := (List.mem_filter.mp inSecond).2
    exact .otherBlock (by simpa using asked) (by simpa using askedLater) pair
  · intro d plain e inQuery
    obtain ⟨query, -, inside⟩ := List.mem_flatMap.mp inQuery
    have asked : e.media = some query := by simpa using (List.mem_filter.mp inside).2
    have alone : d.media = none := by simpa using (List.mem_filter.mp plain).2
    exact .intoQuery alone (by simp [asked])

theorem exists_before_of_queries {kept : List Declaration} {first second : String}
    (pair : [first, second].Sublist (kept.filterMap fun d => d.media).eraseDups) :
    ∃ x ∈ kept, x.media = some first ∧
      ∀ y ∈ kept, y.media = some second → [x, y].Sublist kept := by
  have distinct : first ≠ second := by
    rintro rfl
    exact List.nodup_iff_sublist.mp (nodup_eraseDups _) first pair
  obtain ⟨before, after, split, new⟩ := first_of_sublist_eraseDups pair
  obtain ⟨front, back, rfl, rfl, tail⟩ := List.filterMap_eq_append_iff.mp split
  obtain ⟨plain, x, back, rfl, noQuery, asked, -⟩ := List.filterMap_eq_cons_iff.mp tail
  refine ⟨x, by simp, asked, ?_⟩
  intro y inside askedLater
  have y_ne : y ≠ x := by
    rintro rfl
    exact distinct (Option.some.inj (asked.symm.trans askedLater))
  have y_back : y ∈ back := by
    simp only [List.mem_append, List.mem_cons, y_ne, false_or] at inside
    rcases inside with inFront | inPlain | inBack
    · exact absurd (List.mem_filterMap.mpr ⟨y, inFront, askedLater⟩) new
    · simp [noQuery y inPlain] at askedLater
    · exact inBack
  have both : [x, y].Sublist (x :: back) := (List.singleton_sublist.mpr y_back).cons_cons x
  exact both.trans ((List.sublist_append_right _ _).trans (List.sublist_append_right _ _))

/-- Whether the later of two declarations in effect has its rule behind that of the earlier one:
it alone is under a query, or the query of the earlier one has a declaration that was given after
all those under the query of the later one. -/
def KeepsTurn (styles : List Declaration) (d e : Declaration) : Prop :=
  (d.media = none ∧ e.media ≠ none) ∨
    (d.media ≠ none ∧ e.media ≠ none ∧ ∃ x ∈ effective styles, x.media = d.media ∧
      ∀ y ∈ effective styles, y.media = e.media → GivenBefore styles y x)

theorem not_givenBefore_self (styles : List Declaration) (d : Declaration) :
    ¬ GivenBefore styles d d := by
  rw [givenBefore_iff]
  exact List.nodup_iff_sublist.mp (nodup_effective styles) d

theorem keepsTurn_of_blockOrder {styles : List Declaration} {d e : Declaration}
    (given : GivenBefore styles d e) (order : BlockOrder (effective styles) d e) :
    KeepsTurn styles d e := by
  cases order with
  | intoQuery plain asked => exact .inl ⟨plain, asked⟩
  | sameBlock same inOrder =>
    exact absurd (givenBefore_iff.mp given) (not_sublist_swap (nodup_effective styles) inOrder)
  | otherBlock asked askedLater queries =>
    obtain ⟨x, kept, same, first⟩ := exists_before_of_queries queries
    refine .inr ⟨by simp [asked], by simp [askedLater], x, kept, same.trans asked.symm, ?_⟩
    intro y inside sameLater
    exact givenBefore_iff.mpr (first y inside (sameLater.trans askedLater))

theorem not_keepsTurn_of_blockOrder {styles : List Declaration} {d e : Declaration}
    (order : BlockOrder (effective styles) e d) : ¬ KeepsTurn styles d e := by
  cases order with
  | intoQuery plain asked => simp [KeepsTurn, plain]
  | sameBlock same inOrder =>
    rintro (⟨plain, asked⟩ | ⟨-, -, x, kept, own, all⟩)
    · exact asked (same.trans plain)
    · exact not_givenBefore_self styles x (all x kept (own.trans same.symm))
  | otherBlock asked askedLater queries =>
    obtain ⟨x, kept, own, first⟩ := exists_before_of_queries queries
    rintro (⟨plain, -⟩ | ⟨-, -, y, inside, same, all⟩)
    · simp [plain] at askedLater
    · have later := givenBefore_iff.mp (all x kept (own.trans asked.symm))
      exact not_sublist_swap (nodup_effective styles) later
        (first y inside (same.trans askedLater))

theorem inBlocks_order {styles : List Declaration} {d e : Declaration}
    (given : GivenBefore styles d e) :
    ([d, e].Sublist (inBlocks (effective styles)) ↔ KeepsTurn styles d e) ∧
      ([e, d].Sublist (inBlocks (effective styles)) ↔ ¬ KeepsTurn styles d e) := by
  have ordered := pairwise_inBlocks (effective styles)
  rw [List.pairwise_iff_forall_sublist] at ordered
  have follows (pair : [d, e].Sublist (inBlocks (effective styles))) : KeepsTurn styles d e :=
    keepsTurn_of_blockOrder given (ordered pair)
  have precedes (pair : [e, d].Sublist (inBlocks (effective styles))) : ¬ KeepsTurn styles d e :=
    not_keepsTurn_of_blockOrder (ordered pair)
  have either : [d, e].Sublist (inBlocks (effective styles)) ∨
      [e, d].Sublist (inBlocks (effective styles)) := by
    have reversed := givenBefore_iff.mp given
    apply sublist_or_swap
    · exact mem_inBlocks_iff.mpr (reversed.subset (by simp))
    · exact mem_inBlocks_iff.mpr (reversed.subset (by simp))
    · rintro rfl
      exact not_givenBefore_self styles d given
  constructor
  · exact ⟨follows, fun turn => either.resolve_right fun pair => precedes pair turn⟩
  · exact ⟨precedes, fun lost => either.resolve_left fun pair => lost (follows pair)⟩

end Declaration

def Rule.text (layout : Layout) (r : Rule) : String :=
  r.css (if r.media.isNone then "" else "  ") layout

namespace RuleGroup

theorem css_pieces {g : RuleGroup} (own : ∀ r ∈ g.rules, r.media = g.media) (layout : Layout) :
    ∃ pieces, g.css layout = String.join pieces ∧
      (g.rules.map (Rule.text layout)).Sublist pieces := by
  have texts : g.rules.map (Rule.text layout) =
      g.rules.map fun rule => rule.css (if g.media.isNone then "" else "  ") layout := by
    apply List.map_congr_left
    intro r inside
    rw [Rule.text, own r inside]
  rw [texts, css]
  cases g.media with
  | none => exact ⟨_, rfl, .refl _⟩
  | some query =>
    cases layout with
    | compact =>
      refine ⟨("@media " ++ query ++ "\x7b") :: (g.rules.map fun rule => rule.css "  " .compact) ++
        ["\x7d"], ?_, ?_⟩
      · simp [String.join_append, String.join_cons, String.append_assoc]
      · exact ((List.Sublist.refl _).cons _).trans (List.sublist_append_left _ _)
    | indented =>
      refine ⟨("@media " ++ query ++ " \x7b\n") ::
        (g.rules.map fun rule => rule.css "  " .indented) ++ ["\x7d\n"], ?_, ?_⟩
      · simp [String.join_append, String.join_cons, String.append_assoc]
      · exact ((List.Sublist.refl _).cons _).trans (List.sublist_append_left _ _)

theorem listCss_pieces {groups : List RuleGroup}
    (own : ∀ g ∈ groups, ∀ r ∈ g.rules, r.media = g.media) (layout : Layout) :
    ∃ pieces, listCss layout groups = String.join pieces ∧
      ((groups.flatMap fun g => g.rules).map (Rule.text layout)).Sublist pieces := by
  induction groups with
  | nil => exact ⟨[], rfl, .refl _⟩
  | cons g rest ih =>
    obtain ⟨first, text, inFirst⟩ := css_pieces (own g List.mem_cons_self) layout
    obtain ⟨later, texts, inLater⟩ := ih fun g' member => own g' (List.mem_cons_of_mem g member)
    refine ⟨first ++ later, ?_, ?_⟩
    · rw [String.join_append, ← text, ← texts, listCss, List.map_cons, String.join_cons]
      rfl
    · rw [List.flatMap_cons, List.map_append]
      exact inFirst.append inLater

end RuleGroup

namespace Sheet

def writtenEntries (s : Sheet) : List ClassEntry :=
  (s.table.entries.filter fun entry => entry.declaration.media.isNone) ++
    (s.table.declarations.filterMap fun d => d.media).eraseDups.flatMap fun query =>
      s.table.entries.filter fun entry => entry.declaration.media == some query

def WritesBefore (s : Sheet) (d e : Declaration) : Prop :=
  [d, e].Sublist (s.writtenEntries.map fun entry => entry.declaration)

theorem written_eq (s : Sheet) :
    s.written =
      s.writtenEntries.map fun entry => .ofClass entry.name entry.declaration s.layout := by
  have media (entry : ClassEntry) :
      (Rule.ofClass entry.name entry.declaration s.layout).media = entry.declaration.media := rfl
  have queries : RuleGroup.queries s.rules =
      (s.table.declarations.filterMap fun d => d.media).eraseDups := by
    rw [RuleGroup.queries, rules, List.filterMap_map, ClassTable.declarations,
      List.filterMap_map]
    rfl
  rw [written, groups, RuleGroup.flatMap_rules_ofRules, queries, writtenEntries, List.map_append,
    List.map_flatMap, rules]
  simp only [List.filter_map, Function.comp_def, media]

theorem map_declaration_writtenEntries (s : Sheet) :
    (s.writtenEntries.map fun entry => entry.declaration) =
      Declaration.inBlocks s.table.declarations := by
  rw [writtenEntries, Declaration.inBlocks, List.map_append, List.map_flatMap,
    ClassTable.declarations]
  simp only [List.filter_map, Function.comp_def]

theorem css_of_writesBefore {s : Sheet} (wf : s.table.WellFormed) {d e : Declaration}
    (order : s.WritesBefore d e) :
    ∃ dClass eClass before between after,
      s.table.classOf? d = some dClass ∧ s.table.classOf? e = some eClass ∧
      s.css = before ++ (Rule.ofClass dClass d s.layout).text s.layout ++ between ++
        (Rule.ofClass eClass e s.layout).text s.layout ++ after := by
  obtain ⟨entries, pair, same⟩ := List.sublist_map_iff.mp order
  obtain ⟨x, tail, rfl, rfl, rest⟩ := List.map_eq_cons_iff.mp same.symm
  obtain ⟨y, none, rfl, rfl, nil⟩ := List.map_eq_cons_iff.mp rest
  obtain rfl := List.map_eq_nil_iff.mp nil
  have known (entry : ClassEntry) (member : entry ∈ s.writtenEntries) :
      s.table.classOf? entry.declaration = some entry.name := by
    apply wf.classOf?_of_mem
    rw [writtenEntries, List.mem_append, List.mem_flatMap] at member
    rcases member with plain | ⟨query, -, asked⟩
    · exact (List.mem_filter.mp plain).1
    · exact (List.mem_filter.mp asked).1
  have own : ∀ g ∈ s.groups, ∀ r ∈ g.rules, r.media = g.media :=
    fun g member r inside => ((RuleGroup.mem_rules_iff member).mp inside).2
  obtain ⟨pieces, text, inOrder⟩ := RuleGroup.listCss_pieces own s.layout
  have written : s.groups.flatMap (fun g => g.rules) = s.writtenEntries.map _ := s.written_eq
  rw [written, List.map_map] at inOrder
  obtain ⟨front, back, rfl, inFront, inBack⟩ :=
    List.cons_sublist_iff.mp ((pair.map _).trans inOrder)
  obtain ⟨before, between, rfl⟩ := List.append_of_mem inFront
  obtain ⟨between', after, rfl⟩ := List.append_of_mem (List.singleton_sublist.mp inBack)
  refine ⟨x.name, y.name, String.join before, String.join (between ++ between'),
    String.join after, known x (pair.subset (by simp)), known y (pair.subset (by simp)), ?_⟩
  rw [css, text]
  simp [String.join_append, String.join_cons, String.append_assoc]

end Sheet

namespace Element

def alone (e : Element) : Node :=
  { e with children := [] }.toNode

theorem render_alone_sheet (e : Element) (options : RenderOptions) :
    (e.alone.render options).sheet = Sheet.collect options [e.styles] := by
  rw [Node.render_sheet]
  rfl

/-- The order of the rules of an element that is rendered by itself, for declarations in effect
on it of which one was given before the other. -/
theorem rule_order (options : RenderOptions) (element : Element) {d e : Declaration}
    (given : Declaration.GivenBefore element.styles d e) :
    let sheet := (element.alone.render options).sheet
    (sheet.WritesBefore d e ↔ Declaration.KeepsTurn element.styles d e) ∧
      (sheet.WritesBefore e d ↔ ¬ Declaration.KeepsTurn element.styles d e) ∧
      ∀ first second, sheet.WritesBefore first second →
        ∃ firstClass secondClass before between after,
          sheet.table.classOf? first = some firstClass ∧
          sheet.table.classOf? second = some secondClass ∧
          sheet.css = before ++ (Rule.ofClass firstClass first sheet.layout).text sheet.layout ++
            between ++ (Rule.ofClass secondClass second sheet.layout).text sheet.layout ++
            after := by
  intro sheet
  have declarations : sheet.table.declarations = Declaration.effective element.styles := by
    have once := Declaration.nodup_effective element.styles
    have listed := Sheet.collect_declarations options [element.styles]
    rw [← render_alone_sheet] at listed
    simpa [eraseDups_eq_self once] using listed
  have order := Declaration.inBlocks_order given
  refine ⟨?_, ?_, ?_⟩
  · rw [Sheet.WritesBefore, Sheet.map_declaration_writtenEntries, declarations]
    exact order.1
  · rw [Sheet.WritesBefore, Sheet.map_declaration_writtenEntries, declarations]
    exact order.2
  · intro first second pair
    exact Sheet.css_of_writesBefore (element.alone.render_wellFormed options) pair

def responsive : Element :=
  (bare "p").build [
    .style (.property (.length .width (.px 5.0))),
    .style (.property (.margin (.all (.px 4.0)))),
    .style (.property (.margin { Sides.unset with left := some (.px 8.0) })),
    .style (.fromBreakpoint .md [.property (.length .width (.px 10.0))]),
    .style (.fromBreakpoint .lg [.property (.length .width (.px 20.0))])]

theorem responsive_width_kept :
    Declaration.GivenBefore responsive.styles (.plain "width" "5px")
        ⟨"width", "20px", some "(min-width: 64rem)", none, none⟩ ∧
      (responsive.alone.render .standard).sheet.WritesBefore (.plain "width" "5px")
        ⟨"width", "20px", some "(min-width: 64rem)", none, none⟩ := by
  have given : Declaration.GivenBefore responsive.styles (.plain "width" "5px")
      ⟨"width", "20px", some "(min-width: 64rem)", none, none⟩ := by decide +kernel
  have intoQuery : Declaration.KeepsTurn responsive.styles (.plain "width" "5px")
      ⟨"width", "20px", some "(min-width: 64rem)", none, none⟩ := .inl ⟨rfl, nofun⟩
  exact ⟨given, (rule_order .standard responsive given).1.mpr intoQuery⟩

/-- The wider range and the margin on the left are given last and written first, so the narrower
range and the margin of all sides take effect. -/
theorem responsive_css :
    Declaration.GivenBefore responsive.styles (.plain "margin" "4px")
        (.plain "margin-left" "8px") ∧
      Declaration.GivenBefore responsive.styles
        ⟨"width", "10px", some "(min-width: 48rem)", none, none⟩
        ⟨"width", "20px", some "(min-width: 64rem)", none, none⟩ ∧
      (responsive.alone.render .standard).sheet.css =
        ".margin-left-0\x7bmargin-left:8px\x7d.margin-0\x7bmargin:4px\x7d" ++
          ".width-2\x7bwidth:5px\x7d" ++
          "@media (min-width: 64rem)\x7b.width-0\x7bwidth:20px\x7d\x7d" ++
          "@media (min-width: 48rem)\x7b.width-1\x7bwidth:10px\x7d\x7d" := by
  decide +kernel

end Element

end AtomicMarkup
