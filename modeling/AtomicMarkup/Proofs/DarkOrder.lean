import AtomicMarkup.Proofs.Grouping
import AtomicMarkup.Proofs.ScopeText
import AtomicMarkup.Style.Property

/-!
The order of the two rules of a colour that differs between the schemes. They have one selector
and the dark one has one condition more, so in the dark scheme the rule that is written last takes
effect. Declarations reach the stylesheet last applied first, and only rules without a query are
moved to the front: the dark rule is written last just when the other one has no query.
-/

namespace AtomicMarkup

namespace MediaQuery

theorem combine_dark {q : MediaQuery} (notDark : q.isDark = false) :
    q.combine dark = ⟨q.conditions ++ [.prefersColorScheme .dark]⟩ := by
  have added : q.combine dark = q.add (.prefersColorScheme .dark) := rfl
  have new : ¬ q.holds (.prefersColorScheme .dark) = true := by
    rw [isDark] at notDark
    rw [notDark]
    exact Bool.false_ne_true
  rw [added, add, if_neg new]

theorem css_concat (conditions : List MediaCondition) {c : MediaCondition}
    (feature : c.isMediaType = false) :
    css ⟨conditions ++ [c]⟩ =
      if conditions.isEmpty then c.css else css ⟨conditions⟩ ++ " and " ++ c.css := by
  have last : ordered ⟨conditions ++ [c]⟩ = ordered ⟨conditions⟩ ++ [c] := by
    simp [ordered, feature]
  rw [css, last, List.map_append]
  cases conditions with
  | nil => rfl
  | cons first rest =>
    have nonempty : (ordered ⟨first :: rest⟩).map MediaCondition.css ≠ [] := by
      rw [ne_eq, List.map_eq_nil_iff]
      exact List.ne_nil_of_mem ((ordered_perm _).mem_iff.mpr List.mem_cons_self)
    rw [List.map_singleton,
      String.intercalate_append_of_ne_nil nonempty (List.cons_ne_nil c.css []),
      String.intercalate_singleton]
    rfl

end MediaQuery

namespace Scope

theorem mediaText?_darkened {s : Scope} (notDark : s.isDark = false) :
    s.darkened.mediaText? = some ((s.mediaText?.map fun text => text ++ " and ").getD "" ++
      "(prefers-color-scheme: dark)") := by
  have condition : MediaCondition.css (.prefersColorScheme .dark) =
      "(prefers-color-scheme: dark)" := rfl
  obtain ⟨media, pseudos, selector⟩ := s
  cases media with
  | none => rfl
  | some q =>
    have notDark : q.isDark = false := notDark
    have joined : Scope.mediaText? (darkened ⟨some q, pseudos, selector⟩) =
        some (MediaQuery.css ⟨q.conditions ++ [.prefersColorScheme .dark]⟩) := by
      have media : (darkened ⟨some q, pseudos, selector⟩).media =
          some ⟨q.conditions ++ [.prefersColorScheme .dark]⟩ := by
        rw [← MediaQuery.combine_dark notDark]
        rfl
      simp [mediaText?, media, Option.filter, MediaQuery.isEmpty]
    rw [joined, MediaQuery.css_concat _ rfl, condition]
    cases empty : q.conditions.isEmpty with
    | true => simp [mediaText?, Option.filter, MediaQuery.isEmpty, empty]
    | false => simp [mediaText?, Option.filter, MediaQuery.isEmpty, empty]

theorem mediaText?_darkened_ne {s : Scope} (notDark : s.isDark = false) :
    s.darkened.mediaText? ≠ s.mediaText? := by
  rw [mediaText?_darkened notDark]
  cases s.mediaText? with
  | none => simp
  | some text =>
    intro same
    have lengths := congrArg String.length (Option.some.inj same)
    have separator : " and ".length = 5 := rfl
    simp only [Option.map_some, Option.getD_some, String.length_append, separator] at lengths
    omega

end Scope

def Property.schemeColor? : Property → Option SchemeColor
  | color _ c => some c
  | border b => b.color
  | _ => none

/-- The declarations of a colour for every scheme and for the dark one: they differ in their
values and in one condition. -/
structure SchemePair (c : SchemeColor) (scope : Scope) (light dark : Declaration) : Prop where
  lightValue : c.light.css.toList <:+ light.value.toList
  darkValue : dark.value = c.resolvedDark.css
  selector : dark.selector = light.selector
  pseudo : dark.pseudo = light.pseudo
  lightMedia : light.media = scope.mediaText?
  darkMedia : dark.media = some ((scope.mediaText?.map fun text => text ++ " and ").getD "" ++
    "(prefers-color-scheme: dark)")

theorem schemePair_declare {c : SchemeColor} {scope : Scope} (notDark : scope.isDark = false)
    {name value darkName : String} (light : c.light.css.toList <:+ value.toList) :
    SchemePair c scope (scope.declare name value)
      (scope.darkened.declare darkName c.resolvedDark.css) :=
  ⟨light, rfl, rfl, rfl, rfl, Scope.mediaText?_darkened notDark⟩

theorem suffix_intercalate (separator : String) (front : List String) (last : String) :
    last.toList <:+ (separator.intercalate (front ++ [last])).toList := by
  cases front with
  | nil => simp only [List.nil_append, String.intercalate_singleton, List.suffix_refl]
  | cons first rest =>
    rw [String.intercalate_append_of_ne_nil (List.cons_ne_nil _ _) (List.cons_ne_nil _ _),
      String.intercalate_singleton, String.toList_append]
    exact List.suffix_append _ _

/-- Outside the two schemes a colour makes two declarations, the dark one last. -/
theorem Property.declarations_scheme {p : Property} {c : SchemeColor} {scope : Scope}
    (colored : p.schemeColor? = some c) (differs : c.isUniform = false)
    (notDark : scope.isDark = false) (notLight : scope.isLight = false) :
    ∃ light dark, p.declarations scope = [light, dark] ∧ SchemePair c scope light dark := by
  cases p with
  | color property d =>
    obtain rfl := Option.some.inj colored
    have both : (color property d).declarations scope =
        [scope.declare (Keyword.css property) d.light.css,
          scope.darkened.declare (Keyword.css property) d.resolvedDark.css] := by
      simp [declarations, SchemeColor.declarations, notDark, notLight, differs]
    exact ⟨_, _, both, schemePair_declare notDark (List.suffix_refl _)⟩
  | border b =>
    have color : b.color = some c := colored
    have parts : b.parts scope =
        [b.width.map Length.css, b.style.map Keyword.css].filterMap id ++ [c.light.css] := by
      have separate : [b.width.map Length.css, b.style.map Keyword.css, some c.light.css] =
        [b.width.map Length.css, b.style.map Keyword.css] ++ [some c.light.css] := rfl
      simp only [Border.parts, color, Option.map_some, notDark, Bool.false_eq_true, if_false]
      rw [separate, List.filterMap_append]
      rfl
    have dark : b.darkDeclarations scope =
        [scope.darkened.declare (b.property ++ "-color") c.resolvedDark.css] := by
      simp [Border.darkDeclarations, color, notDark, notLight, differs]
    have both : (border b).declarations scope =
        [scope.declare b.property (" ".intercalate (b.parts scope)),
          scope.darkened.declare (b.property ++ "-color") c.resolvedDark.css] := by
      rw [declarations, Border.declarations, ← dark]
      split
      · next none => rw [none] at parts; simp at parts
      · rfl
    refine ⟨_, _, both, schemePair_declare notDark ?_⟩
    rw [parts]
    exact suffix_intercalate _ _ _
  | _ => contradiction

def Sheet.written (s : Sheet) : List Rule :=
  s.groups.flatMap fun g => g.rules

namespace Sheet

theorem written_pair {s : Sheet} {first second : Rule} (rules : s.rules = [first, second])
    {query : String} (asked : first.media = some query) (apart : second.media ≠ some query) :
    s.written = if second.media.isNone then [second, first] else [first, second] := by
  rw [written, groups, rules, RuleGroup.flatMap_rules_ofRules]
  cases other : second.media with
  | none =>
    have queries : RuleGroup.queries [first, second] = [query] := by
      simp [RuleGroup.queries, asked, other, List.eraseDups_cons]
    simp [queries, asked, other]
  | some wider =>
    have distinct : wider ≠ query := fun same => apart (by rw [other, same])
    have queries : RuleGroup.queries [first, second] = [query, wider] := by
      simp [RuleGroup.queries, asked, other, List.eraseDups_cons, distinct]
    simp [queries, asked, other, distinct, Ne.symm distinct]

theorem classesFor_pair (options : RenderOptions) {light dark : Declaration}
    (apart : dark.media ≠ light.media) :
    ∃ darkClass lightClass,
      ((empty options).classesFor [light, dark]).1 = [darkClass, lightClass] ∧
      ((empty options).classesFor [light, dark]).2.rules =
        [.ofClass darkClass dark options.layout, .ofClass lightClass light options.layout] := by
  have kept : Declaration.effective [light, dark] = [dark, light] := by
    have free : light.sameScope dark = false := by
      rw [Bool.eq_false_iff]
      intro same
      exact apart (Declaration.sameScope_iff.mp same).2.1.symm
    simp [Declaration.effective, free]
  have distinct : dark ≠ light := fun same => apart (congrArg Declaration.media same)
  let table := ClassTable.empty options.naming options.classPrefix
  have whole : (empty options).classesFor [light, dark] =
      ((table.internAll [dark, light]).1, ⟨(table.internAll [dark, light]).2, options.layout⟩) := by
    rw [classesFor, kept]
    rfl
  have wf : (table.internAll [dark, light]).2.WellFormed :=
    (ClassTable.wellFormed_empty _ _).internAll _
  have listed : (table.internAll [dark, light]).2.declarations = [dark, light] := by
    have start : table.declarations = ([] : List Declaration).eraseDups := rfl
    rw [ClassTable.declarations_internAll start]
    simp [List.eraseDups_cons, Ne.symm distinct]
  have given := ClassTable.classOf?_internAll table [dark, light]
  -- The table has these two declarations and no others, so its entries are the two classes.
  generalize table.internAll [dark, light] = result at whole wf listed given
  obtain ⟨classes, later⟩ := result
  obtain ⟨darkEntry, lightEntries, entries, rfl, tail⟩ := List.map_eq_cons_iff.mp listed
  obtain ⟨lightEntry, noEntries, rfl, rfl, nil⟩ := List.map_eq_cons_iff.mp tail
  obtain rfl := List.map_eq_nil_iff.mp nil
  refine ⟨darkEntry.name, lightEntry.name, ?_, ?_⟩
  · have darkGiven : later.classOf? darkEntry.declaration = some darkEntry.name :=
      wf.classOf?_of_mem (entries ▸ List.mem_cons_self)
    have lightGiven : later.classOf? lightEntry.declaration = some lightEntry.name :=
      wf.classOf?_of_mem (entries ▸ List.mem_cons_of_mem _ List.mem_cons_self)
    rw [List.map_cons, List.map_cons, List.map_nil, darkGiven, lightGiven] at given
    rw [whole]
    exact (List.map_inj_right fun _ _ => Option.some.inj).mp given.symm
  · rw [whole, rules, entries]
    rfl

end Sheet

/-- The rules of a colour that differs between the schemes, on a fresh stylesheet: both are
written, and the dark one stands last just when the scope has no media query. -/
theorem Property.dark_last_iff (options : RenderOptions) {p : Property} {c : SchemeColor}
    {scope : Scope} (colored : p.schemeColor? = some c) (differs : c.isUniform = false)
    (notDark : scope.isDark = false) (notLight : scope.isLight = false) :
    ∃ light dark lightClass darkClass,
      p.declarations scope = [light, dark] ∧ SchemePair c scope light dark ∧
      ((Sheet.empty options).classesFor (p.declarations scope)).1 = [darkClass, lightClass] ∧
      (((Sheet.empty options).classesFor (p.declarations scope)).2.written =
          [.ofClass lightClass light options.layout, .ofClass darkClass dark options.layout] ↔
        scope.mediaText? = none) ∧
      (((Sheet.empty options).classesFor (p.declarations scope)).2.written =
          [.ofClass darkClass dark options.layout, .ofClass lightClass light options.layout] ↔
        scope.mediaText? ≠ none) := by
  obtain ⟨light, dark, both, pair⟩ := declarations_scheme colored differs notDark notLight
  have apart : dark.media ≠ light.media := by
    rw [pair.darkMedia, pair.lightMedia, ← Scope.mediaText?_darkened notDark]
    exact Scope.mediaText?_darkened_ne notDark
  obtain ⟨darkClass, lightClass, classes, rules⟩ := Sheet.classesFor_pair options apart
  refine ⟨light, dark, lightClass, darkClass, both, pair, ?_, ?_⟩
  · rw [both, classes]
  · have darkMedia : (Rule.ofClass darkClass dark options.layout).media = dark.media := rfl
    have lightMedia : (Rule.ofClass lightClass light options.layout).media = light.media := rfl
    have different : Rule.ofClass darkClass dark options.layout ≠
        Rule.ofClass lightClass light options.layout :=
      fun same => apart (darkMedia ▸ lightMedia ▸ congrArg Rule.media same)
    have asked := pair.darkMedia
    have free : (Rule.ofClass lightClass light options.layout).media ≠ some _ :=
      fun same => apart (asked.trans same.symm)
    rw [both, Sheet.written_pair rules asked free, lightMedia, ← pair.lightMedia]
    cases light.media with
    | none => simp [different]
    | some text => simp [different, Ne.symm different]

def Property.inkColor : Property :=
  .color .color ⟨.named .black, some (.named .white)⟩

theorem Property.inkColor_dark_last :
    inkColor.schemeColor? = some ⟨.named .black, some (.named .white)⟩ ∧
      Scope.root.isDark = false ∧ Scope.root.isLight = false ∧
      ∃ light dark lightClass darkClass, inkColor.declarations .root = [light, dark] ∧
        ((Sheet.empty .standard).classesFor (inkColor.declarations .root)).2.written =
          [.ofClass lightClass light .compact, .ofClass darkClass dark .compact] := by
  have colored : inkColor.schemeColor? = some ⟨.named .black, some (.named .white)⟩ := rfl
  have differs : SchemeColor.isUniform ⟨.named .black, some (.named .white)⟩ = false := by decide
  have notDark : Scope.root.isDark = false := rfl
  have notLight : Scope.root.isLight = false := rfl
  obtain ⟨light, dark, lightClass, darkClass, both, -, -, last, -⟩ :=
    dark_last_iff .standard colored differs notDark notLight
  exact ⟨colored, notDark, notLight, light, dark, lightClass, darkClass, both, last.mpr rfl⟩

/-- On screens, the light rule is written behind the dark one and takes effect in both schemes. -/
theorem Property.inkColor_screen :
    (Scope.ofMedia .screen).isDark = false ∧ (Scope.ofMedia .screen).isLight = false ∧
      ((Sheet.empty .standard).classesFor (inkColor.declarations (.ofMedia .screen))).2.css =
        "@media screen and (prefers-color-scheme: dark)\x7b.color-0\x7bcolor:white\x7d\x7d" ++
          "@media screen\x7b.color-1\x7bcolor:black\x7d\x7d" := by
  refine ⟨rfl, rfl, ?_⟩
  decide +kernel

end AtomicMarkup
