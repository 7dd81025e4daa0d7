import AtomicMarkup.Proofs.Css.Reader
import AtomicMarkup.Proofs.Delimited
import AtomicMarkup.Proofs.Grouping
import Mathlib.Data.List.Basic

/-!
What is written of the groups of a stylesheet is read back, in each layout. The texts in it may
not have the marks that the layout itself writes between them.
-/

namespace AtomicMarkup

namespace Css

def Unmarked (s : String) : Prop :=
  '\x7b' ∉ s.toList ∧ '\x7d' ∉ s.toList ∧ ';' ∉ s.toList

instance (s : String) : Decidable (Unmarked s) :=
  inferInstanceAs (Decidable (_ ∧ _ ∧ _))

theorem Unmarked.noBrace {s : String} (unmarked : Unmarked s) :
    ∀ brace ∈ ['\x7b', '\x7d'], brace ∉ s.toList := by
  obtain ⟨noOpening, noClosing, -⟩ := unmarked
  exact List.forall_mem_cons.mpr ⟨noOpening, List.forall_mem_singleton.mpr noClosing⟩

end Css

/-- A rule whose texts have no mark of a stylesheet in them, and whose selector does not begin as
a media query does. -/
structure Rule.Plain (rule : Rule) : Prop where
  selector : Css.Unmarked rule.selector
  noWord : rule.selector.toList.head? ≠ some '@'
  properties : ∀ pair ∈ rule.declarations, Css.Unmarked pair.1 ∧ ':' ∉ pair.1.toList
  values : ∀ pair ∈ rule.declarations, Css.Unmarked pair.2
  media : ∀ query ∈ rule.media, Css.Unmarked query

instance (rule : Rule) : Decidable rule.Plain :=
  decidable_of_iff
    (Css.Unmarked rule.selector ∧ rule.selector.toList.head? ≠ some '@' ∧
      (∀ pair ∈ rule.declarations, Css.Unmarked pair.1 ∧ ':' ∉ pair.1.toList) ∧
      (∀ pair ∈ rule.declarations, Css.Unmarked pair.2) ∧
      ∀ query ∈ rule.media, Css.Unmarked query)
    ⟨fun ⟨selector, noWord, properties, values, media⟩ =>
        ⟨selector, noWord, properties, values, media⟩,
      fun plain => ⟨plain.selector, plain.noWord, plain.properties, plain.values, plain.media⟩⟩

namespace Css

section Pairs

theorem between_append (first middle last : List Char) :
    between first last (first ++ (middle ++ last)) = some middle := by
  rw [between, List.isPrefixOf?_eq_some_iff_append_eq.mpr rfl, Option.bind_some,
    List.isSuffixOf?_eq_some_iff_append_eq]

def pairText (layout : Layout) (pair : String × String) : List Char :=
  pair.1.toList ++ ':' :: (gap layout ++ pair.2.toList)

theorem readPair_pairText (layout : Layout) {pair : String × String}
    (noColon : ':' ∉ pair.1.toList) : readPair layout (pairText layout pair) = some pair := by
  have ahead : ∀ c ∈ pair.1.toList, (c != ':') = true :=
    fun c member => bne_iff_ne.mpr fun equal => noColon (equal ▸ member)
  have colon : ∀ c ∈ (':' :: (gap layout ++ pair.2.toList)).head?, (c != ':') = false :=
    forall_head?_cons rfl
  have value := between_append (gap layout) pair.2.toList []
  rw [List.append_nil] at value
  rw [readPair, pairText, dropWhile_before ahead colon, takeWhile_before ahead colon]
  simp [value]

def pairsText (layout : Layout) (media : Option String) (pairs : List (String × String)) :
    List Char :=
  match layout with
  | .compact => [';'].intercalate (pairs.map (pairText layout))
  | .indented =>
    (pairs.map fun pair =>
      margin layout media ++ indentation layout ++ pairText layout pair).flatMap (· ++ [';']) ++
      margin layout media

theorem splitOn_flatMap_append {mark : Char} {texts : List (List Char)} {last : List Char}
    (free : ∀ text ∈ texts, mark ∉ text) (lastFree : mark ∉ last) :
    (texts.flatMap (· ++ [mark]) ++ last).splitOn mark = texts ++ [last] := by
  induction texts with
  | nil => exact List.splitOn_eq_singleton lastFree
  | cons text rest ih =>
    rw [List.forall_mem_cons] at free
    rw [List.flatMap_cons, List.append_assoc, List.append_assoc, List.singleton_append,
      List.splitOn_append_cons_self_of_not_mem free.1, ih free.2, List.cons_append]

theorem not_mem_gap {mark : Char} (noSpace : mark ≠ ' ') (layout : Layout) :
    mark ∉ gap layout := by
  cases layout <;> simp [gap, noSpace]

theorem not_mem_margin {mark : Char} (noSpace : mark ≠ ' ') (noEnd : mark ≠ '\n') (layout : Layout)
    (media : Option String) : mark ∉ margin layout media ++ indentation layout := by
  cases media <;> cases layout <;> simp [margin, newline, indentation, noSpace, noEnd]

theorem not_mem_pairText {mark : Char} (noSpace : mark ≠ ' ') (noColon : mark ≠ ':')
    (layout : Layout) {pair : String × String} (first : mark ∉ pair.1.toList)
    (second : mark ∉ pair.2.toList) : mark ∉ pairText layout pair := by
  simp [pairText, noColon, not_mem_gap noSpace, first, second]

theorem readPairs_pairsText (layout : Layout) {rule : Rule} (plain : rule.Plain) :
    readPairs layout rule.media (pairsText layout rule.media rule.declarations) =
      some rule.declarations := by
  have back : ∀ pair ∈ rule.declarations, readPair layout (pairText layout pair) = some pair :=
    fun pair member => readPair_pairText layout (plain.properties pair member).2
  have free : ∀ pair ∈ rule.declarations, ';' ∉ pairText layout pair :=
    fun pair member => not_mem_pairText (by decide) (by decide) layout
      (plain.properties pair member).1.2.2 (plain.values pair member).2.2
  cases layout with
  | compact =>
    rw [readPairs, pairsText]
    cases pairs : rule.declarations with
    | nil => rfl
    | cons first rest =>
      rw [pairs] at back free
      have texts : ∀ text ∈ (first :: rest).map (pairText .compact), ';' ∉ text :=
        List.forall_mem_map.mpr free
      rw [List.splitOn_intercalate ';' texts (by simp), mapM_map_eq_some back, if_neg]
      simp [intercalate_cons_eq, pairText]
  | indented =>
    have noMark : ';' ∉ margin .indented rule.media ++ indentation .indented :=
      not_mem_margin (by decide) (by decide) _ _
    have texts : ∀ text ∈ rule.declarations.map (fun pair =>
        margin .indented rule.media ++ indentation .indented ++ pairText .indented pair),
        ';' ∉ text := by
      intro text member
      obtain ⟨pair, inside, rfl⟩ := List.mem_map.mp member
      rw [List.mem_append, not_or]
      exact ⟨noMark, free pair inside⟩
    -- Behind the last semicolon there is the margin of the closing brace.
    have last : ';' ∉ margin .indented rule.media :=
      fun member => noMark (List.mem_append_left _ member)
    have lines : ∀ pair ∈ rule.declarations,
        (between (margin .indented rule.media ++ indentation .indented) []
          (margin .indented rule.media ++ indentation .indented ++ pairText .indented pair)).bind
            (readPair .indented) = some pair := by
      intro pair member
      have inner := between_append (margin .indented rule.media ++ indentation .indented)
        (pairText .indented pair) []
      rw [List.append_nil] at inner
      rw [inner, Option.bind_some, back pair member]
    rw [readPairs, pairsText, splitOn_flatMap_append texts last, List.getLast?_concat,
      List.dropLast_concat, mapM_map_eq_some lines]
    simp

end Pairs

section Rules

theorem append_flatMap_append (separator : List Char) (texts : List (List Char)) :
    separator ++ texts.flatMap (· ++ separator) = texts.flatMap (separator ++ ·) ++ separator := by
  induction texts with
  | nil => simp
  | cons text rest ih =>
    rw [List.flatMap_cons, List.flatMap_cons, List.append_assoc, ih]
    simp only [List.append_assoc]

theorem newline_append_css (layout : Layout) (rule : Rule) :
    newline layout ++ (rule.css (if rule.media.isSome then "  " else "") layout).toList =
      margin layout rule.media ++ (rule.selector.toList ++ gap layout) ++
        '\x7b' :: (pairsText layout rule.media rule.declarations ++ '\x7d' :: newline layout) := by
  -- In indented text the ends of the lines move from behind each line to the front of the next.
  cases layout with
  | compact =>
    have texts : rule.declarations.map (fun pair => (pair.1 ++ ":" ++ pair.2).toList) =
        rule.declarations.map (pairText .compact) := by
      apply List.map_congr_left
      intro pair _
      simp [pairText, gap]
    cases rule.media <;>
      simp [Rule.css, newline, margin, gap, indentation, pairsText, String.toList_intercalate,
        Function.comp_def, ← texts]
  | indented =>
    have shifted (inner : List Char) := append_flatMap_append ['\n']
      (rule.declarations.map fun pair => inner ++ (pairText .indented pair ++ [';']))
    cases rule.media with
    | none =>
      have lines := congrArg (· ++ ['\x7d', '\n']) (shifted [' ', ' '])
      simpa [Rule.css, newline, margin, gap, indentation, pairsText, pairText, List.flatMap_map,
        String.toList_join] using lines
    | some query =>
      have lines := congrArg (· ++ [' ', ' ', '\x7d', '\n']) (shifted [' ', ' ', ' ', ' '])
      simpa [Rule.css, newline, margin, gap, indentation, pairsText, pairText, List.flatMap_map,
        String.toList_join] using lines

end Rules

section Runs

variable (layout : Layout)

theorem run_append {cs rest : List Char} (p : Progress) (stretch : List Char)
    (free : ∀ brace ∈ ['\x7b', '\x7d'], brace ∉ cs) :
    p.run layout stretch (cs ++ rest) = p.run layout (stretch ++ cs) rest := by
  induction cs generalizing stretch with
  | nil => simp
  | cons c cs ih =>
    have noOpening : c ≠ '\x7b' :=
      fun equal => free '\x7b' (by decide) (equal ▸ List.mem_cons_self)
    have noClosing : c ≠ '\x7d' :=
      fun equal => free '\x7d' (by decide) (equal ▸ List.mem_cons_self)
    rw [List.cons_append, Progress.run, if_neg noOpening, if_neg noClosing,
      ih _ fun brace either inside => free brace either (List.mem_cons_of_mem c inside),
      List.append_assoc, List.singleton_append]

theorem run_opening {cs rest : List Char} (p : Progress)
    (free : ∀ brace ∈ ['\x7b', '\x7d'], brace ∉ cs) :
    p.run layout [] (cs ++ '\x7b' :: rest) =
      (p.openBrace layout cs).bind fun p => p.run layout [] rest := by
  rw [run_append layout p [] free, List.nil_append, Progress.run, if_pos rfl]

theorem run_closing {cs rest : List Char} (p : Progress)
    (free : ∀ brace ∈ ['\x7b', '\x7d'], brace ∉ cs) :
    p.run layout [] (cs ++ '\x7d' :: rest) =
      (p.closeBrace layout cs).bind fun p => p.run layout [] rest := by
  rw [run_append layout p [] free, List.nil_append, Progress.run, if_neg (by decide), if_pos rfl]

theorem openBrace_selector {p : Progress} (idle : p.selector = none) {selector : String}
    (noWord : selector.toList.head? ≠ some '@') :
    p.openBrace layout (margin layout p.media ++ (selector.toList ++ gap layout)) =
      some { p with selector := some selector } := by
  have other : mediaWord.isPrefixOf? selector.toList = none := by
    cases chars : selector.toList with
    | nil => rfl
    | cons c cs =>
      rw [chars] at noWord
      have distinct : ('@' == c) = false :=
        beq_eq_false_iff_ne.mpr fun equal => noWord (by rw [equal]; rfl)
      simp [mediaWord, List.isPrefixOf?, distinct]
  rw [Progress.openBrace, idle, between_append]
  simp only [other, String.ofList_toList]
  cases p.media <;> rfl

theorem openBrace_media {p : Progress} (idle : p.selector = none) (outside : p.media = none)
    (query : String) :
    p.openBrace layout (margin layout none ++ (mediaWord ++ query.toList ++ gap layout)) =
      some ⟨⟨some query, []⟩ :: p.groups, some query, none⟩ := by
  have word : mediaWord.isPrefixOf? (mediaWord ++ query.toList) = some query.toList :=
    List.isPrefixOf?_eq_some_iff_append_eq.mpr rfl
  rw [Progress.openBrace, idle, outside, between_append]
  simp only [word, String.ofList_toList]

theorem brace_ne_blank : ∀ brace ∈ ['\x7b', '\x7d'], brace ≠ ' ' ∧ brace ≠ '\n' := by
  simp

theorem brace_not_mem_newline : ∀ brace ∈ ['\x7b', '\x7d'], brace ∉ newline layout := by
  cases layout <;> simp [newline]

theorem brace_not_mem_pairsText {rule : Rule} (plain : rule.Plain) :
    ∀ brace ∈ ['\x7b', '\x7d'], brace ∉ pairsText layout rule.media rule.declarations := by
  intro brace either
  obtain ⟨noSpace, noEnd⟩ := brace_ne_blank brace either
  have apart : ∀ brace ∈ ['\x7b', '\x7d'], brace ≠ ':' ∧ brace ∉ [';'] := by simp
  obtain ⟨noColon, noSemicolon⟩ := apart brace either
  have pairs : ∀ pair ∈ rule.declarations, brace ∉ pairText layout pair :=
    fun pair member => not_mem_pairText noSpace noColon layout
      ((plain.properties pair member).1.noBrace brace either)
      ((plain.values pair member).noBrace brace either)
  cases layout with
  | compact => exact not_mem_intercalate noSemicolon (List.forall_mem_map.mpr pairs)
  | indented =>
    have space := not_mem_margin noSpace noEnd .indented rule.media
    rw [pairsText, List.mem_append, List.flatMap_map, List.mem_flatMap]
    rintro (⟨pair, member, inside⟩ | behind)
    · rw [List.mem_append, List.mem_append] at inside
      rcases inside with (inFront | inPair) | inEnd
      · exact space inFront
      · exact pairs pair member inPair
      · exact noSemicolon inEnd
    · exact space (List.mem_append_left _ behind)

theorem closeBrace_rule {p : Progress} {rule : Rule} (plain : rule.Plain)
    (opened : p.selector = some rule.selector) (same : p.media = rule.media) :
    p.closeBrace layout (pairsText layout rule.media rule.declarations) =
      some (({ p with selector := none } : Progress).add rule) := by
  rw [Progress.closeBrace, opened, same]
  simp only [readPairs_pairsText layout plain, Option.map_some]

@[simp] theorem add_media (p : Progress) (rule : Rule) : (p.add rule).media = p.media := by
  unfold Progress.add
  split
  · rfl
  · split <;> rfl

@[simp] theorem add_selector (p : Progress) (rule : Rule) :
    (p.add rule).selector = p.selector := by
  unfold Progress.add
  split
  · rfl
  · split <;> rfl

theorem run_rule {p : Progress} (idle : p.selector = none) {rule : Rule} (plain : rule.Plain)
    (same : p.media = rule.media) (rest : List Char) :
    p.run layout [] (newline layout ++
        ((rule.css (if rule.media.isSome then "  " else "") layout).toList ++ rest)) =
      (p.add rule).run layout [] (newline layout ++ rest) := by
  have head : ∀ brace ∈ ['\x7b', '\x7d'],
      brace ∉ margin layout rule.media ++ (rule.selector.toList ++ gap layout) := by
    intro brace either
    obtain ⟨noSpace, noEnd⟩ := brace_ne_blank brace either
    have space := not_mem_margin noSpace noEnd layout rule.media
    rw [List.mem_append, not_or] at space
    simp [space.1, not_mem_gap noSpace, plain.selector.noBrace brace either]
  have text := congrArg (· ++ rest) (newline_append_css layout rule)
  simp only [List.append_assoc _ _ rest, List.cons_append] at text
  obtain ⟨groups, media, selector⟩ := p
  obtain rfl : selector = none := idle
  obtain rfl : media = rule.media := same
  rw [text, run_opening layout _ head,
    openBrace_selector layout (p := ⟨groups, rule.media, none⟩) rfl plain.noWord, Option.bind_some,
    run_closing layout _ (brace_not_mem_pairsText layout plain),
    closeBrace_rule layout plain rfl rfl, Option.bind_some]

theorem run_rules {p : Progress} (idle : p.selector = none) {rules : List Rule}
    (plain : ∀ rule ∈ rules, rule.Plain) (same : ∀ rule ∈ rules, rule.media = p.media)
    (rest : List Char) :
    p.run layout [] (newline layout ++ ((String.join (rules.map fun rule =>
        rule.css (if p.media.isSome then "  " else "") layout)).toList ++ rest)) =
      (rules.foldl Progress.add p).run layout [] (newline layout ++ rest) := by
  -- A rule leaves open what was open, so that the next one is read in the same block.
  induction rules generalizing p with
  | nil => rfl
  | cons rule others ih =>
    rw [List.forall_mem_cons] at plain same
    have first := run_rule layout idle plain.1 same.1.symm
      ((String.join (others.map fun rule =>
        rule.css (if p.media.isSome then "  " else "") layout)).toList ++ rest)
    rw [same.1] at first
    have later := ih (p := p.add rule) (by rw [add_selector, idle]) plain.2
      (by rw [add_media]; exact same.2)
    rw [add_media] at later
    rw [List.map_cons, String.join_cons, String.toList_append, List.append_assoc, first, later,
      List.foldl_cons]

theorem foldl_add {p : Progress} {g : RuleGroup} {earlier : List RuleGroup}
    (last : p.groups = g :: earlier) {rules : List Rule}
    (same : ∀ rule ∈ rules, rule.media = g.media) :
    rules.foldl Progress.add p =
      { p with groups := { g with rules := g.rules ++ rules } :: earlier } := by
  induction rules generalizing p g with
  | nil =>
    rw [List.foldl_nil, List.append_nil, ← last]
  | cons rule others ih =>
    rw [List.forall_mem_cons] at same
    have step : p.add rule =
        { p with groups := { g with rules := g.rules ++ [rule] } :: earlier } := by
      simp [Progress.add, last, same.1]
    rw [List.foldl_cons, step, ih (g := { g with rules := g.rules ++ [rule] }) rfl same.2,
      List.append_assoc, List.singleton_append]

theorem run_block {g : RuleGroup} {query : String} (asked : g.media = some query)
    (plain : ∀ rule ∈ g.rules, rule.Plain) (same : ∀ rule ∈ g.rules, rule.media = some query)
    (unmarked : Unmarked query) (earlier : List RuleGroup) (rest : List Char) :
    Progress.run layout ⟨earlier, none, none⟩ []
        (newline layout ++ ((g.css layout).toList ++ rest)) =
      Progress.run layout ⟨g :: earlier, none, none⟩ [] (newline layout ++ rest) := by
  have head : ∀ brace ∈ ['\x7b', '\x7d'],
      brace ∉ margin layout none ++ (mediaWord ++ query.toList ++ gap layout) := by
    have noWord : ∀ brace ∈ ['\x7b', '\x7d'], brace ∉ mediaWord := by simp [mediaWord]
    intro brace either
    simp [margin, brace_not_mem_newline layout brace either, noWord brace either,
      not_mem_gap (brace_ne_blank brace either).1, unmarked.noBrace brace either]
  have text : newline layout ++ ((g.css layout).toList ++ rest) =
      margin layout none ++ (mediaWord ++ query.toList ++ gap layout) ++
        '\x7b' :: (newline layout ++
          ((String.join (g.rules.map fun rule => rule.css "  " layout)).toList ++
            '\x7d' :: (newline layout ++ rest))) := by
    cases layout <;> simp [RuleGroup.css, asked, newline, margin, gap, mediaWord]
  -- The block begins as an empty group, which takes the rules up to the closing brace.
  have rules := run_rules layout (p := ⟨⟨some query, []⟩ :: earlier, some query, none⟩)
    rfl plain same ('\x7d' :: (newline layout ++ rest))
  rw [text, run_opening layout _ head, openBrace_media layout rfl rfl, Option.bind_some]
  rw [Option.isSome_some, if_pos rfl] at rules
  rw [rules, foldl_add rfl same, run_closing layout _ (brace_not_mem_newline layout)]
  simp [Progress.closeBrace, ← asked]

theorem run_blocks {groups : List RuleGroup}
    (asked : ∀ g ∈ groups, ∃ query, g.media = some query ∧ Unmarked query ∧
      ∀ rule ∈ g.rules, rule.Plain ∧ rule.media = some query)
    (earlier : List RuleGroup) :
    Progress.run layout ⟨earlier, none, none⟩ []
        (newline layout ++ (RuleGroup.listCss layout groups).toList) =
      some ⟨groups.reverse ++ earlier, none, none⟩ := by
  induction groups generalizing earlier with
  | nil =>
    rw [run_append layout _ _ (brace_not_mem_newline layout)]
    simp [RuleGroup.listCss, Progress.run]
  | cons g rest ih =>
    rw [List.forall_mem_cons] at asked
    obtain ⟨⟨query, media, unmarked, rules⟩, later⟩ := asked
    have text : (RuleGroup.listCss layout (g :: rest)).toList =
        (g.css layout).toList ++ (RuleGroup.listCss layout rest).toList := by
      simp [RuleGroup.listCss]
    rw [text, run_block layout media (fun rule member => (rules rule member).1)
      (fun rule member => (rules rule member).2) unmarked, ih later]
    simp

/-- Rules without a query, with which a stylesheet begins, are read as one group. -/
theorem run_plain {rules : List Rule} (nonempty : rules ≠ [])
    (plain : ∀ rule ∈ rules, rule.Plain) (unasked : ∀ rule ∈ rules, rule.media = none)
    (rest : List Char) :
    Progress.start.run layout [] (newline layout ++
        (((⟨none, rules⟩ : RuleGroup).css layout).toList ++ rest)) =
      Progress.run layout ⟨[⟨none, rules⟩], none, none⟩ [] (newline layout ++ rest) := by
  have read := run_rules layout (p := .start) rfl plain unasked rest
  obtain ⟨first, others, rfl⟩ := List.exists_cons_of_ne_nil nonempty
  rw [List.forall_mem_cons] at unasked
  -- There is no group yet, so that the first rule opens one.
  have opened : Progress.start.add first = ⟨[⟨none, [first]⟩], none, none⟩ := by
    simp [Progress.add, Progress.start, unasked.1]
  rw [List.foldl_cons, opened, foldl_add (g := ⟨none, [first]⟩) rfl unasked.2] at read
  exact read

end Runs

end Css

/-- The groups of rules are read back from their text: the same blocks with the same rules and
pairs in the same order, and nothing else. -/
theorem RuleGroup.read_listCss {rules : List Rule} (plain : ∀ rule ∈ rules, rule.Plain)
    (layout : Layout) :
    Css.read layout (listCss layout (ofRules rules)) = some (ofRules rules) := by
  have asked : ∀ g ∈ (queries rules).map (under rules), ∃ query, g.media = some query ∧
      Css.Unmarked query ∧ ∀ rule ∈ g.rules, rule.Plain ∧ rule.media = some query := by
    intro g member
    obtain ⟨query, known, rfl⟩ := List.mem_map.mp member
    obtain ⟨rule, inside, media⟩ := mem_queries_iff.mp known
    refine ⟨query, rfl, (plain rule inside).media query media, ?_⟩
    intro other under
    obtain ⟨member, same⟩ := List.mem_filter.mp under
    exact ⟨plain other member, eq_of_beq same⟩
  have blocks := Css.run_blocks layout asked
  rw [ofRules_eq, Css.read]
  cases unasked : rules.filter fun rule => rule.media.isNone with
  | nil => simp [Css.Progress.start, blocks]
  | cons first rest =>
    have fromRules : ∀ rule ∈ first :: rest, rule ∈ rules ∧ rule.media = none := by
      intro rule member
      rw [← unasked, List.mem_filter, Option.isNone_iff_eq_none] at member
      exact member
    have text :
        (listCss layout ([⟨none, first :: rest⟩] ++ (queries rules).map (under rules))).toList =
          ((⟨none, first :: rest⟩ : RuleGroup).css layout).toList ++
            (listCss layout ((queries rules).map (under rules))).toList := by
      simp [listCss]
    simp only [text]
    rw [Css.run_plain layout (List.cons_ne_nil first rest)
      (fun rule member => plain rule (fromRules rule member).1)
      (fun rule member => (fromRules rule member).2), blocks]
    simp

def Rule.alternating : List Rule :=
  [⟨".a", [("color", "#fff")], some "print"⟩,
    ⟨".b", [("padding", " 16px"), ("margin", "")], none⟩,
    ⟨".c:hover", [], some "(prefers-color-scheme: dark)"⟩,
    ⟨".d", [("color", "a:b")], some "print"⟩]

theorem RuleGroup.read_alternating :
    (∀ rule ∈ Rule.alternating, rule.Plain) ∧
      listCss .compact (ofRules Rule.alternating) =
        ".b\x7bpadding: 16px;margin:\x7d" ++
          "@media print\x7b.a\x7bcolor:#fff\x7d.d\x7bcolor:a:b\x7d\x7d" ++
          "@media (prefers-color-scheme: dark)\x7b.c:hover\x7b\x7d\x7d" ∧
      Css.read .compact (listCss .compact (ofRules Rule.alternating)) =
        some (ofRules Rule.alternating) ∧
      Css.read .indented (listCss .indented (ofRules Rule.alternating)) =
        some (ofRules Rule.alternating) := by
  have plain : ∀ rule ∈ Rule.alternating, rule.Plain := by decide
  exact ⟨plain, by decide +kernel, read_listCss plain .compact, read_listCss plain .indented⟩

end AtomicMarkup
