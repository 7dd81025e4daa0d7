import AtomicMarkup.Document
import AtomicMarkup.Proofs.Delimited
import AtomicMarkup.Proofs.EndTag
import AtomicMarkup.Proofs.Escape
import AtomicMarkup.Proofs.Grouping
import AtomicMarkup.Proofs.SharedClasses

/-!
Where the style element of a page ends. Selectors, properties and values are escaped when a rule
is made and cannot end it. The text of a media query is written as it stands, so an end tag in it
ends the element. Nothing is claimed of end tags that the body itself has.
-/

namespace AtomicMarkup

/-- The media queries of the declarations that take effect on some elements. -/
def Declaration.mediaTexts (steps : List (List Declaration)) : List String :=
  (steps.flatMap effective).filterMap fun d => d.media

section Rules

def Rule.Escaped (r : Rule) : Prop :=
  '<' ∉ r.selector.toList ∧
    ∀ pair ∈ r.declarations, '<' ∉ pair.1.toList ∧ '<' ∉ pair.2.toList

theorem Rule.escaped_ofClass (name : String) (d : Declaration) (layout : Layout) :
    (Rule.ofClass name d layout).Escaped := by
  refine ⟨Text.not_mem_escapeStyle _, ?_⟩
  intro pair member
  rw [List.mem_singleton.mp member]
  exact ⟨Text.not_mem_escapeStyle _, Text.not_mem_escapeStyle _⟩

theorem Rule.Escaped.css {r : Rule} (escaped : r.Escaped) {indent : String}
    (plain : '<' ∉ indent.toList) (layout : Layout) : '<' ∉ (r.css indent layout).toList := by
  obtain ⟨selector, pairs⟩ := escaped
  cases layout with
  | compact =>
    have body : '<' ∉ [';'].intercalate
        (r.declarations.map fun pair => (pair.1 ++ ":" ++ pair.2).toList) := by
      apply not_mem_intercalate (by decide)
      intro text member
      obtain ⟨pair, inside, rfl⟩ := List.mem_map.mp member
      simpa using pairs pair inside
    simpa [Rule.css, selector, Function.comp_def] using body
  | indented => simpa [Rule.css, selector, plain] using pairs

namespace RuleGroup

theorem toList_css {g : RuleGroup} (escaped : ∀ r ∈ g.rules, r.Escaped) (layout : Layout) :
    ∃ rest, '<' ∉ rest ∧
      match g.media with
      | none => (g.css layout).toList = rest
      | some query => ∃ c, c ∉ endTag ∧
        (g.css layout).toList = "@media ".toList ++ query.toList ++ c :: rest := by
  have rules (indent : String) (plain : '<' ∉ indent.toList) :
      '<' ∉ (String.join (g.rules.map fun rule => rule.css indent layout)).toList := by
    rw [String.toList_join, List.flatMap_map, List.mem_flatMap]
    rintro ⟨r, member, inside⟩
    exact (escaped r member).css plain layout inside
  unfold RuleGroup.css
  cases g.media with
  | none => exact ⟨_, rules "" (by decide), rfl⟩
  | some query =>
    have body := rules "  " (by decide)
    cases layout with
    | compact =>
      refine ⟨(String.join (g.rules.map fun rule => rule.css "  " .compact)).toList ++ ['\x7d'],
        ?_, '\x7b', by decide, ?_⟩
      · simpa using body
      · simp
    | indented =>
      refine ⟨'\x7b' :: '\n' ::
        (String.join (g.rules.map fun rule => rule.css "  " .indented)).toList ++ ['\x7d', '\n'],
        ?_, ' ', by decide, ?_⟩
      · simpa using body
      · simp

variable {g : RuleGroup} {groups : List RuleGroup} {layout : Layout}

theorem mem_css_iff (escaped : ∀ r ∈ g.rules, r.Escaped) :
    '<' ∈ (g.css layout).toList ↔ ∃ query ∈ g.media, '<' ∈ query.toList := by
  obtain ⟨rest, free, text⟩ := toList_css escaped layout
  cases media : g.media with
  | none =>
    rw [media] at text
    rw [show (g.css layout).toList = rest from text]
    simp [free]
  | some query =>
    rw [media] at text
    obtain ⟨c, apart, text⟩ := text
    have ordinary : '<' ≠ c := by rintro rfl; exact apart (by decide)
    rw [text]
    simp [free, ordinary]

theorem styleEnds_css (escaped : ∀ r ∈ g.rules, r.Escaped) (after : List Char) :
    styleEnds ((g.css layout).toList ++ after) =
      (g.media.map fun query => styleEnds query.toList).getD 0 + styleEnds after := by
  obtain ⟨rest, free, text⟩ := toList_css escaped layout
  cases media : g.media with
  | none =>
    rw [media] at text
    rw [show (g.css layout).toList = rest from text, quiet_of_not_mem free]
    simp
  | some query =>
    rw [media] at text
    obtain ⟨c, apart, text⟩ := text
    have front : Quiet "@media ".toList := quiet_of_not_mem (by decide)
    have back : Quiet (c :: rest) := by
      apply quiet_of_not_mem
      rw [List.mem_cons, not_or]
      exact ⟨by rintro rfl; exact apart (by decide), free⟩
    have border : ∀ d ∈ (c :: rest ++ after).head?, d ∉ endTag.tail := by
      intro d first inside
      cases first
      exact apart (List.mem_of_mem_tail inside)
    rw [text, List.append_assoc, List.append_assoc, front, styleEnds_append border, back]
    simp

theorem mem_listCss_iff (escaped : ∀ g ∈ groups, ∀ r ∈ g.rules, r.Escaped) :
    '<' ∈ (listCss layout groups).toList ↔
      ∃ query ∈ groups.filterMap fun g => g.media, '<' ∈ query.toList := by
  rw [listCss, String.toList_join, List.flatMap_map, List.mem_flatMap]
  constructor
  · rintro ⟨g, member, inside⟩
    obtain ⟨query, asked, sign⟩ := (mem_css_iff (escaped g member)).mp inside
    exact ⟨query, List.mem_filterMap.mpr ⟨g, member, asked⟩, sign⟩
  · rintro ⟨query, member, sign⟩
    obtain ⟨g, inside, asked⟩ := List.mem_filterMap.mp member
    exact ⟨g, inside, (mem_css_iff (escaped g inside)).mpr ⟨query, asked, sign⟩⟩

theorem styleEnds_listCss_eq_zero_iff (escaped : ∀ g ∈ groups, ∀ r ∈ g.rules, r.Escaped) :
    styleEnds (listCss layout groups).toList = 0 ↔
      ∀ query ∈ groups.filterMap fun g => g.media, styleEnds query.toList = 0 := by
  rw [listCss, String.toList_join, List.flatMap_map]
  induction groups with
  | nil => simp [styleEnds]
  | cons g rest ih =>
    have later := ih fun other member => escaped other (List.mem_cons_of_mem g member)
    rw [List.flatMap_cons, styleEnds_css (escaped g List.mem_cons_self), Nat.add_eq_zero_iff, later]
    cases media : g.media with
    | none => rw [List.filterMap_cons_none media]; simp
    | some query => rw [List.filterMap_cons_some media]; simp

end RuleGroup

end Rules

namespace Sheet

theorem escaped_groups (s : Sheet) : ∀ g ∈ s.groups, ∀ r ∈ g.rules, r.Escaped := by
  intro g member r inside
  obtain ⟨entry, -, rfl⟩ := List.mem_map.mp ((RuleGroup.mem_rules_iff member).mp inside).1
  exact Rule.escaped_ofClass _ _ _

theorem mem_queries_iff (s : Sheet) (query : String) :
    query ∈ RuleGroup.queries s.rules ↔ ∃ d ∈ s.table.declarations, d.media = some query := by
  rw [RuleGroup.mem_queries_iff]
  constructor
  · rintro ⟨rule, member, asked⟩
    obtain ⟨entry, inside, rfl⟩ := List.mem_map.mp member
    exact ⟨entry.declaration, List.mem_map_of_mem inside, asked⟩
  · rintro ⟨d, member, asked⟩
    obtain ⟨entry, inside, rfl⟩ := List.mem_map.mp member
    exact ⟨_, List.mem_map_of_mem inside, asked⟩

theorem mem_queries_collect_iff (options : RenderOptions) (steps : List (List Declaration))
    (query : String) :
    query ∈ RuleGroup.queries (collect options steps).rules ↔
      query ∈ Declaration.mediaTexts steps := by
  rw [mem_queries_iff, collect_declarations, Declaration.mediaTexts, List.mem_filterMap]
  simp only [List.mem_eraseDups]

/-- A stylesheet has a less-than sign just when one of its media queries has. -/
theorem mem_css_collect_iff (options : RenderOptions) (steps : List (List Declaration)) :
    '<' ∈ (collect options steps).css.toList ↔
      ∃ query ∈ Declaration.mediaTexts steps, '<' ∈ query.toList := by
  rw [css, RuleGroup.mem_listCss_iff (escaped_groups _), groups,
    RuleGroup.filterMap_media_ofRules]
  simp only [mem_queries_collect_iff]

theorem styleEnds_css_collect_iff (options : RenderOptions) (steps : List (List Declaration)) :
    styleEnds (collect options steps).css.toList = 0 ↔
      ∀ query ∈ Declaration.mediaTexts steps, styleEnds query.toList = 0 := by
  rw [css, RuleGroup.styleEnds_listCss_eq_zero_iff (escaped_groups _), groups,
    RuleGroup.filterMap_media_ofRules]
  simp only [mem_queries_collect_iff]

end Sheet

section Documents

theorem Quiet.concat {first second : String} (one : Quiet first.toList)
    (two : Quiet second.toList) : Quiet (first ++ second).toList := by
  rw [String.toList_append]
  exact one.append two

theorem quiet_escapeAttribute (s : String) : Quiet (Text.escapeAttribute s).toList :=
  quiet_of_not_mem (Text.not_mem_escapeAttribute (.inl rfl) s)

theorem quiet_metaText (name content : String) : Quiet (Head.metaText name content).toList := by
  have opening : Quiet "<meta name=\x22".toList := quiet_of_hasNoStart (by decide)
  have middle : Quiet "\x22 content=\x22".toList := quiet_of_hasNoStart (by decide)
  have closing : Quiet "\x22>".toList := quiet_of_hasNoStart (by decide)
  exact (((opening.concat (quiet_escapeAttribute name)).concat middle).concat
    (quiet_escapeAttribute content)).concat closing

theorem quiet_stylesheetText (href : String) : Quiet (Head.stylesheetText href).toList := by
  have opening : Quiet "<link rel=\x22stylesheet\x22 href=\x22".toList :=
    quiet_of_hasNoStart (by decide)
  have closing : Quiet "\x22>".toList := quiet_of_hasNoStart (by decide)
  exact (opening.concat (quiet_escapeAttribute href)).concat closing

theorem quiet_optionText {α : Type} {text : α → String} (quiet : ∀ x, Quiet (text x).toList)
    (x : Option α) : Quiet (Head.optionText text x).toList := by
  cases x with
  | none => exact .nil
  | some x => exact quiet x

theorem styleEnds_headHtml (h : Head) (css : String) :
    styleEnds (h.html css).toList =
      styleEnds css.toList + if css.isEmpty then 0 else 1 := by
  have charset := quiet_escapeAttribute h.charset
  have title := quiet_of_not_mem (Text.not_mem_escapeContent h.title)
  have viewport := quiet_optionText (quiet_metaText "viewport") h.viewport
  have description := quiet_optionText (quiet_metaText "description") h.description
  have author := quiet_optionText (quiet_metaText "author") h.author
  have metaTags : Quiet (h.metaTags.flatMap fun m => (Head.metaText m.name m.content).toList) :=
    flatMap_of_append Quiet .nil .append fun m _ => quiet_metaText m.name m.content
  have fonts := quiet_optionText quiet_stylesheetText h.fontsUrl?
  have sheets : Quiet (h.stylesheets.flatMap fun href => (Head.stylesheetText href).toList) :=
    flatMap_of_append Quiet .nil .append fun href _ => quiet_stylesheetText href
  have charsetStart : Quiet "<meta charset=\x22".toList := quiet_of_hasNoStart (by decide)
  have charsetEnd : Quiet "\x22>".toList := quiet_of_hasNoStart (by decide)
  have titleStart : Quiet "<title>".toList := quiet_of_hasNoStart (by decide)
  have titleEnd : Quiet "</title>".toList := quiet_of_hasNoStart (by decide)
  have text : styleEnds (h.html css).toList =
      styleEnds (if css.isEmpty then "" else "<style>" ++ css ++ "</style>").toList := by
    simp only [Head.html, String.toList_join, List.flatMap_cons, List.flatMap_nil,
      List.append_nil, List.flatMap_map]
    rw [charsetStart, charset, charsetEnd, viewport, titleStart, title, titleEnd, description,
      author, metaTags, fonts, sheets]
  rw [text]
  split
  · next empty =>
    rw [String.isEmpty_iff.mp empty]
    rfl
  · have opening : Quiet "<style>".toList := quiet_of_hasNoStart (by decide)
    have border : ∀ c ∈ "</style>".toList.head?, c ∉ endTag.tail := by
      intro c first
      cases first
      decide
    rw [String.toList_append, String.toList_append, List.append_assoc, opening,
      styleEnds_append border]
    rfl

theorem styleEnds_render (d : Document) (options : RenderOptions) :
    styleEnds (d.render options).toList =
      styleEnds (d.head.html (d.body.toNode.render options).sheet.css).toList +
        styleEnds (d.body.toNode.render options).html.toList := by
  have doctype : Quiet (if options.doctype then "<!doctype html>" else "").toList := by
    split
    · exact quiet_of_hasNoStart (by decide)
    · exact .nil
  have language : Quiet (Head.optionText (Mark.quotedAttribute "lang") d.language).toList := by
    apply quiet_optionText
    intro value
    have opening : Quiet (" " ++ "lang" ++ "=\x22").toList := quiet_of_hasNoStart (by decide)
    have closing : Quiet "\x22".toList := quiet_of_hasNoStart (by decide)
    exact (opening.concat (quiet_escapeAttribute value)).concat closing
  have html : Quiet "<html".toList := quiet_of_hasNoStart (by decide)
  have head : Quiet "><head>".toList := quiet_of_hasNoStart (by decide)
  have headEnd : Quiet "</head>".toList := quiet_of_hasNoStart (by decide)
  have htmlEnd : Quiet "</html>".toList := quiet_of_hasNoStart (by decide)
  have headBorder (rest : List Char) :
      ∀ c ∈ ("</head>".toList ++ rest).head?, c ∉ endTag.tail := by
    intro c first
    cases first
    decide
  have htmlBorder : ∀ c ∈ "</html>".toList.head?, c ∉ endTag.tail := by
    intro c first
    cases first
    decide
  simp only [Document.render, String.toList_join, List.flatMap_cons, List.flatMap_nil,
    List.append_nil]
  rw [doctype, html, language, head, styleEnds_append (headBorder _), headEnd,
    styleEnds_append htmlBorder, htmlEnd.styleEnds, Nat.add_zero]

end Documents

/-- Which stylesheets are kept inside their style element. No less-than sign reaches the text of a
stylesheet but from a media query, and a document has one end tag for its own stylesheet, beside
those of its body, just when no media query in effect has an end tag. -/
theorem Document.style_kept_iff (options : RenderOptions) (steps : List (List Declaration))
    (d : Document) :
    ('<' ∉ (Sheet.collect options steps).css.toList ↔
      ∀ query ∈ Declaration.mediaTexts steps, '<' ∉ query.toList) ∧
    (styleEnds (d.render options).toList =
        (if (d.body.toNode.render options).sheet.css.isEmpty then 0 else 1) +
          styleEnds (d.body.toNode.render options).html.toList ↔
      ∀ query ∈ Declaration.mediaTexts (d.body.toNode.renderedElements.map fun e => e.styles),
        styleEnds query.toList = 0) := by
  constructor
  · rw [Sheet.mem_css_collect_iff]
    simp
  · rw [← Sheet.styleEnds_css_collect_iff options, ← Node.render_sheet, styleEnds_render,
      styleEnds_headHtml]
    omega

def Document.leaking : Document :=
  ⟨none, .titled "Notes", ⟨"body", [], [], [⟨"color", "red", some "</style>", none, none⟩]⟩⟩

theorem Document.leaking_accepted :
    ∃ text, leaking.renderChecked .standard = .ok text ∧
      '<' ∈ (leaking.body.toNode.render .standard).sheet.css.toList ∧
      styleEnds text.toList = 2 ∧
      styleEnds (leaking.body.toNode.render .standard).html.toList = 0 := by
  refine ⟨leaking.render .standard, ?_, ?_, ?_, ?_⟩
  · have accepted : leaking.validate = .ok () := by decide +kernel
    rw [renderChecked, accepted]
    rfl
  · decide +kernel
  · rw [styleEnds_render, styleEnds_headHtml]
    decide +kernel
  · decide +kernel

end AtomicMarkup
