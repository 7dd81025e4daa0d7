import AtomicMarkup.Proofs.QueryGrammar
import AtomicMarkup.Proofs.ScopeNesting

/-!
Scopes in either order. Two scopes restrict alike whichever of them is nested in the other, but
what is written for them depends on the order of their parts: a declaration in one order takes the
place of a declaration in the other just when, for each kind of pseudos and conditions, the list of
one scope goes on from the list of the other.
-/

namespace AtomicMarkup

section Interchange

variable {α β : Type} (agrees : α → α → Bool) (write : α → β)

/-- The second list begins as the first one is written. What it has behind that is written like
nothing of the first one and is not repeated. -/
def Continues (first second : List α) : Prop :=
  ∃ same new, second = same ++ new ∧ same.map write = first.map write ∧
    (∀ d ∈ new, write d ∉ first.map write) ∧ new.Pairwise fun c d => agrees c d = false

def Interchangeable (first second : List α) : Prop :=
  Continues agrees write first second ∨ Continues agrees write second first

variable {agrees write}

variable (agrees) in
theorem exists_joinNew_eq_append (first second : List α) :
    ∃ new, joinNew agrees first second = first ++ new ∧ new.Sublist second ∧
      (∀ d ∈ new, ∀ c ∈ first, agrees c d = false) ∧
      new.Pairwise fun c d => agrees c d = false := by
  induction second generalizing first with
  | nil => exact ⟨[], (List.append_nil first).symm, .slnil, nofun, .nil⟩
  | cons item rest ih =>
    rw [joinNew_cons, appendNew]
    split
    · obtain ⟨new, joined, part, apart, once⟩ := ih first
      exact ⟨new, joined, part.cons item, apart, once⟩
    · next unlike =>
      obtain ⟨new, joined, part, apart, once⟩ := ih (first ++ [item])
      have fresh : ∀ c ∈ first, agrees c item = false := by simpa using unlike
      have old : ∀ d ∈ new, ∀ c ∈ first, agrees c d = false :=
        fun d inside c present => apart d inside c (List.mem_append_left _ present)
      have unlikeItem : ∀ d ∈ new, agrees item d = false :=
        fun d inside => apart d inside item (List.mem_append_right _ List.mem_cons_self)
      refine ⟨item :: new, by rw [joined, List.append_assoc, List.singleton_append],
        part.cons_cons item, List.forall_mem_cons.mpr ⟨fresh, old⟩,
        List.pairwise_cons.mpr ⟨unlikeItem, once⟩⟩

theorem filter_joinNew {kind : α → Bool} (same : ∀ c d, agrees c d = true → kind c = kind d)
    (first second : List α) :
    (joinNew agrees first second).filter kind =
      joinNew agrees (first.filter kind) (second.filter kind) := by
  induction second generalizing first with
  | nil => rfl
  | cons item rest ih =>
    rw [joinNew_cons, ih]
    cases sort : kind item with
    | false =>
      have kept : (appendNew agrees first item).filter kind = first.filter kind := by
        rw [appendNew]
        split
        · rfl
        · simp [sort]
      rw [kept, List.filter_cons_of_neg (by simp [sort])]
    | true =>
      -- What agrees with the item is of its kind as well.
      have asked : (first.filter kind).any (fun c => agrees c item) =
          first.any fun c => agrees c item := by
        rw [List.any_filter]
        congr 1
        funext c
        cases agreed : agrees c item with
        | false => rw [Bool.and_false]
        | true => rw [same c item agreed, sort, Bool.and_true]
      have added : (appendNew agrees first item).filter kind =
          appendNew agrees (first.filter kind) item := by
        rw [appendNew, appendNew, asked]
        split
        · rfl
        · simp [sort]
      rw [added, List.filter_cons_of_pos sort]
      rfl

/-- Items that are written like present ones agree with these where the text tells. -/
theorem exists_agrees_of_written {present items : List α}
    (told : ∀ c ∈ present, ∀ d ∈ items, write c = write d → agrees c d = true)
    (written : items.map write ⊆ present.map write) :
    ∀ d ∈ items, ∃ c ∈ present, agrees c d = true := by
  intro d inside
  obtain ⟨c, among, equal⟩ := List.mem_map.mp (written (List.mem_map_of_mem inside))
  exact ⟨c, among, told c among d inside equal⟩

theorem Continues.map_joinNew (alike : ∀ c d, agrees c d = true → write c = write d)
    {first second : List α}
    (told : ∀ c ∈ first, ∀ d ∈ second, write c = write d → agrees c d = true)
    (toldBack : ∀ d ∈ second, ∀ c ∈ first, write d = write c → agrees d c = true)
    (goesOn : Continues agrees write first second) :
    (joinNew agrees first second).map write = (joinNew agrees second first).map write := by
  obtain ⟨same, new, rfl, written, apart, once⟩ := goesOn
  have known : ∀ d ∈ same, ∃ c ∈ first, agrees c d = true := by
    have texts : same.map write ⊆ first.map write := (List.Perm.of_eq written).subset
    exact exists_agrees_of_written
      (fun c present d inside => told c present d (List.mem_append_left new inside)) texts
  have back : ∀ c ∈ first, ∃ d ∈ same ++ new, agrees d c = true := by
    refine exists_agrees_of_written toldBack ?_
    rw [← written, List.map_append]
    exact List.subset_append_left _ _
  have unlike : ∀ d ∈ new, ∀ c ∈ first, agrees c d = false := by
    intro d inside c present
    rw [Bool.eq_false_iff]
    exact fun agreed => apart d inside (alike c d agreed ▸ List.mem_map_of_mem present)
  have onward : joinNew agrees first (same ++ new) = first ++ new := by
    have split : joinNew agrees first (same ++ new) =
        joinNew agrees (joinNew agrees first same) new := List.foldl_append
    rw [split, joinNew_of_known known, joinNew_of_new unlike once]
  rw [onward, joinNew_of_known back, List.map_append, List.map_append, written]

theorem continues_of_begins {first second : List α}
    (told : ∀ c ∈ first, ∀ d ∈ second, write c = write d → agrees c d = true)
    (toldBack : ∀ d ∈ second, ∀ c ∈ first, write d = write c → agrees d c = true)
    (same : (joinNew agrees first second).map write = (joinNew agrees second first).map write)
    (begins : first.map write <+: second.map write) : Continues agrees write first second := by
  have back := exists_agrees_of_written toldBack begins.subset
  obtain ⟨rest, split⟩ := begins
  obtain ⟨front, behind, rfl, frontWritten, behindWritten⟩ := List.map_eq_append_iff.mp split.symm
  have known : ∀ d ∈ front, ∃ c ∈ first, agrees c d = true := by
    have texts : front.map write ⊆ first.map write :=
      (List.Perm.of_eq frontWritten).subset
    exact exists_agrees_of_written
      (fun c present d inside => told c present d (List.mem_append_left behind inside)) texts
  obtain ⟨new, joined, part, apart, once⟩ := exists_joinNew_eq_append agrees first (front ++ behind)
  -- Nothing of the beginning is added to the first list, so all of the rest is.
  have added : new = behind := by
    have lengths : new.length = behind.length := by
      rw [joined, joinNew_of_known back, List.map_append, ← split, ← behindWritten] at same
      simpa using congrArg List.length (List.append_cancel_left same)
    obtain ⟨inFront, inBehind, rfl, partFront, partBehind⟩ := List.sublist_append_iff.mp part
    have none : inFront = [] := by
      rw [List.eq_nil_iff_forall_not_mem]
      intro d inside
      obtain ⟨c, present, agreed⟩ := known d (partFront.subset inside)
      rw [apart d (List.mem_append_left _ inside) c present] at agreed
      contradiction
    subst none
    exact partBehind.eq_of_length lengths
  subst added
  refine ⟨front, new, rfl, frontWritten, ?_, once⟩
  intro d inside written
  obtain ⟨c, present, equal⟩ := List.mem_map.mp written
  have agreed := told c present d (List.mem_append_right _ inside) equal
  rw [apart d inside c present] at agreed
  contradiction

/-- Lists are written in one way in both orders just when one of them goes on from the other. -/
theorem map_joinNew_comm_iff (symm : ∀ c d, agrees c d = true → agrees d c = true)
    (alike : ∀ c d, agrees c d = true → write c = write d) {first second : List α}
    (told : ∀ c ∈ first, ∀ d ∈ second, write c = write d → agrees c d = true) :
    (joinNew agrees first second).map write = (joinNew agrees second first).map write ↔
      Interchangeable agrees write first second := by
  have toldBack : ∀ d ∈ second, ∀ c ∈ first, write d = write c → agrees d c = true :=
    fun d inside c present equal => symm c d (told c present d inside equal.symm)
  constructor
  · intro same
    obtain ⟨new, joined, -⟩ := exists_joinNew_eq_append agrees first second
    obtain ⟨others, joinedBack, -⟩ := exists_joinNew_eq_append agrees second first
    have begins : first.map write <+: (joinNew agrees first second).map write := by
      rw [joined, List.map_append]
      exact List.prefix_append _ _
    have beginsBack : second.map write <+: (joinNew agrees first second).map write := by
      rw [same, joinedBack, List.map_append]
      exact List.prefix_append _ _
    exact (List.prefix_or_prefix_of_prefix begins beginsBack).imp
      (continues_of_begins told toldBack same) (continues_of_begins toldBack told same.symm)
  · rintro (goesOn | goesOn)
    · exact goesOn.map_joinNew alike told toldBack
    · exact (goesOn.map_joinNew alike toldBack told).symm

end Interchange

/-- Equal numbers have one numeral; zeros of both signs are written without one. -/
theorem Number.cssText_eq_of_beq {v w : Float} (same : (v == w) = true) :
    cssText v = cssText w := by
  have zero {v : Float} {sign : Float.Model.UnpackedFloat.Sign}
      (unpacked : v.toModel.unpack = .zero sign) : cssText v = "0" := by
    rw [cssText, Binary.ofFloat?, unpacked]
    cases sign <;> decide +kernel
  obtain equal | ⟨sign, other, left, right⟩ := eq_or_zeros_of_compare (beq_iff_compare.mp same)
  · rw [cssText, cssText, Binary.ofFloat?, equal, Binary.ofFloat?]
  · rw [zero left, zero right]

theorem Length.agrees_symm {v w : Length} (same : v.agrees w = true) : w.agrees v = true := by
  cases v <;> cases w <;> try exact absurd same Bool.false_ne_true
  case zero.zero => rfl
  case auto.auto => rfl
  all_goals exact Number.beq_symm same

theorem Length.css_eq_of_agrees {v w : Length} (same : v.agrees w = true) : v.css = w.css := by
  cases v <;> cases w <;> try exact absurd same Bool.false_ne_true
  case zero.zero => rfl
  case auto.auto => rfl
  all_goals exact congrArg (· ++ _) (Number.cssText_eq_of_beq same)

namespace MediaCondition

theorem agrees_symm (c d : MediaCondition) (same : c.agrees d = true) : d.agrees c = true := by
  cases c <;> cases d <;> try exact absurd same Bool.false_ne_true
  case minWidth.minWidth => exact Length.agrees_symm same
  case maxWidth.maxWidth => exact Length.agrees_symm same
  case prefersColorScheme.prefersColorScheme => exact BEq.symm same
  case orientation.orientation => exact BEq.symm same
  all_goals rfl

theorem css_eq_of_agrees (c d : MediaCondition) (same : c.agrees d = true) : c.css = d.css := by
  cases c <;> cases d <;> try exact absurd same Bool.false_ne_true
  case minWidth.minWidth => exact congrArg (feature _) (Length.css_eq_of_agrees same)
  case maxWidth.maxWidth => exact congrArg (feature _) (Length.css_eq_of_agrees same)
  case prefersColorScheme.prefersColorScheme => rw [eq_of_beq same]
  case orientation.orientation => rw [eq_of_beq same]
  all_goals rfl

theorem isMediaType_eq_of_agrees (c d : MediaCondition) (same : c.agrees d = true) :
    c.isMediaType = d.isMediaType := by
  cases c <;> cases d <;> try exact absurd same Bool.false_ne_true
  all_goals rfl

end MediaCondition

theorem MediaQuery.agrees_of_mem_types {q r : MediaQuery} :
    ∀ c ∈ q.types, ∀ d ∈ r.types, c.css = d.css → c.agrees d = true := by
  intro c first d second same
  obtain rfl := css_inj_of_mem_types first second same
  obtain ⟨-, rfl | rfl⟩ := mem_types_iff.mp first <;> rfl

namespace MediaQuery

theorem texts_eq_iff {q r : MediaQuery} :
    q.texts = r.texts ↔ q.types.map MediaCondition.css = r.types.map MediaCondition.css ∧
      q.features.map MediaCondition.css = r.features.map MediaCondition.css := by
  have split (q : MediaQuery) : q.texts =
      q.types.map MediaCondition.css ++ q.features.map MediaCondition.css := List.map_append
  -- A feature is told from a media type by its parenthesis.
  have features (q : MediaQuery) : q.texts.filter (fun t => t.toList.head? == some '(') =
      q.features.map MediaCondition.css := by
    rw [split, List.filter_append, List.filter_eq_nil_iff.mpr, List.filter_eq_self.mpr,
      List.nil_append]
    · intro t member
      rw [(isFeature_of_mem_features member).head_eq, beq_self_eq_true]
    · intro t member
      obtain ⟨c, other, head⟩ := (isMediaType_of_mem_types member).head_ne
      simpa [head] using other
  constructor
  · intro same
    have behind : q.features.map MediaCondition.css = r.features.map MediaCondition.css := by
      rw [← features, same, features]
    rw [split, split, behind] at same
    exact ⟨List.append_cancel_right same, behind⟩
  · rintro ⟨front, behind⟩
    rw [split, split, front, behind]

theorem types_combine (q r : MediaQuery) :
    (q.combine r).types = joinNew MediaCondition.agrees q.types r.types := by
  rw [combine_eq]
  exact filter_joinNew MediaCondition.isMediaType_eq_of_agrees _ _

theorem features_combine (q r : MediaQuery) :
    (q.combine r).features = joinNew MediaCondition.agrees q.features r.features := by
  rw [combine_eq]
  refine filter_joinNew (fun c d agreed => ?_) _ _
  rw [MediaCondition.isMediaType_eq_of_agrees c d agreed]

/-- The features of two queries are told apart by their texts: those with one text agree. -/
def Told (q r : MediaQuery) : Prop :=
  ∀ c ∈ q.features, ∀ d ∈ r.features, c.css = d.css → c.agrees d = true

theorem types_combine_comm_iff {q r : MediaQuery} :
    (q.combine r).types.map MediaCondition.css = (r.combine q).types.map MediaCondition.css ↔
      Interchangeable MediaCondition.agrees MediaCondition.css q.types r.types := by
  rw [types_combine, types_combine]
  exact map_joinNew_comm_iff MediaCondition.agrees_symm MediaCondition.css_eq_of_agrees
    agrees_of_mem_types

theorem Told.features_combine_comm_iff {q r : MediaQuery} (told : q.Told r) :
    (q.combine r).features.map MediaCondition.css =
        (r.combine q).features.map MediaCondition.css ↔
      Interchangeable MediaCondition.agrees MediaCondition.css q.features r.features := by
  rw [features_combine, features_combine]
  exact map_joinNew_comm_iff MediaCondition.agrees_symm MediaCondition.css_eq_of_agrees told

end MediaQuery

namespace Scope

theorem filter_pseudos_merge (a b : Scope) (kind : Pseudo → Bool) :
    (a.merge b).pseudos.filter kind =
      joinNew (· == ·) (a.pseudos.filter kind) (b.pseudos.filter kind) := by
  have joined : (a.merge b).pseudos = joinNew (· == ·) a.pseudos b.pseudos := joinPseudos_eq _ _
  rw [joined]
  exact filter_joinNew (fun p q same => by rw [eq_of_beq same]) _ _

theorem pseudos_merge_comm_iff {a b : Scope} {kind : Pseudo → Bool} :
    (a.merge b).pseudos.filter kind = (b.merge a).pseudos.filter kind ↔
      Interchangeable (· == ·) id (a.pseudos.filter kind) (b.pseudos.filter kind) := by
  rw [filter_pseudos_merge, filter_pseudos_merge, ← map_joinNew_comm_iff, List.map_id, List.map_id]
  · exact fun _ _ same => BEq.symm same
  · exact fun _ _ same => eq_of_beq same
  · exact fun _ _ _ _ same => beq_iff_eq.mpr same

theorem selector_merge_comm_iff {a b : Scope} :
    (a.merge b).selector = (b.merge a).selector ↔
      a.selector = none ∨ b.selector = none ∨ a.selector = b.selector := by
  have parts : (a.merge b).selector = b.selector.or a.selector := rfl
  have swapped : (b.merge a).selector = a.selector.or b.selector := rfl
  rw [parts, swapped]
  cases a.selector <;> cases b.selector <;> simp [eq_comm]

theorem mediaTexts_merge_comm_iff {a b : Scope} :
    (a.merge b).mediaTexts = (b.merge a).mediaTexts ↔
      ∀ q r, a.media = some q → b.media = some r → (q.combine r).texts = (r.combine q).texts := by
  have joined : (a.merge b).media = joinMedia a.media b.media := rfl
  have swapped : (b.merge a).media = joinMedia b.media a.media := rfl
  rw [mediaTexts, mediaTexts, joined, swapped]
  cases a.media with
  | none => simp [joinMedia_none, none_joinMedia]
  | some q =>
    cases b.media with
    | none => simp [joinMedia_none, none_joinMedia]
    | some r => simp [joinMedia]

/-- Declarations of one property in two scopes, merged in either order, replace each other just
when the scopes do not give different selectors and, for each kind of what they hold, the list of
one goes on from the list of the other: of pseudo-classes, of pseudo-elements, of media types and,
where features with one text agree, of features. A scope without a query leaves the other's as it
is. -/
theorem sameScope_swapped_iff (a b : Scope) (property value otherValue : String) :
    (((a.merge b).declare property value).sameScope
        ((b.merge a).declare property otherValue) = true ↔
      (a.selector = none ∨ b.selector = none ∨ a.selector = b.selector) ∧
        Interchangeable (· == ·) id a.states b.states ∧
        Interchangeable (· == ·) id a.elements b.elements ∧
        ∀ q r, a.media = some q → b.media = some r →
          Interchangeable MediaCondition.agrees MediaCondition.css q.types r.types ∧
            (q.combine r).features.map MediaCondition.css =
              (r.combine q).features.map MediaCondition.css) ∧
      ∀ q r : MediaQuery, q.Told r →
        ((q.combine r).features.map MediaCondition.css =
            (r.combine q).features.map MediaCondition.css ↔
          Interchangeable MediaCondition.agrees MediaCondition.css q.features r.features) := by
  refine ⟨?_, fun _ _ told => told.features_combine_comm_iff⟩
  rw [sameScope_declare_iff]
  constructor
  · rintro ⟨-, selector, pseudos, media⟩
    obtain ⟨states, elements⟩ := Pseudo.ordered_eq_iff.mp pseudos
    refine ⟨selector_merge_comm_iff.mp selector, pseudos_merge_comm_iff.mp states,
      pseudos_merge_comm_iff.mp elements, fun q r asked other => ?_⟩
    obtain ⟨types, features⟩ :=
      MediaQuery.texts_eq_iff.mp (mediaTexts_merge_comm_iff.mp media q r asked other)
    exact ⟨MediaQuery.types_combine_comm_iff.mp types, features⟩
  · rintro ⟨selector, states, elements, queries⟩
    refine ⟨rfl, selector_merge_comm_iff.mpr selector, ?_, ?_⟩
    · exact Pseudo.ordered_eq_iff.mpr
        ⟨pseudos_merge_comm_iff.mpr states, pseudos_merge_comm_iff.mpr elements⟩
    · refine mediaTexts_merge_comm_iff.mpr fun q r asked other => ?_
      obtain ⟨types, features⟩ := queries q r asked other
      exact MediaQuery.texts_eq_iff.mpr ⟨MediaQuery.types_combine_comm_iff.mpr types, features⟩

def wide : Scope :=
  ofMedia (.breakpoint .md)

def dim : Scope :=
  ofMedia .dark

def dimHovered : Scope :=
  dim.merge (ofPseudo .hover)

def dimWideHovered : Scope :=
  ((dim.merge wide).merge (ofPseudo .hover)).merge (ofPseudo .before)

theorem dimHovered_swapped :
    MediaQuery.dark.Told (MediaQuery.dark.combine (.breakpoint .md)) ∧
      ((dimHovered.merge dimWideHovered).declare "color" "red").sameScope
        ((dimWideHovered.merge dimHovered).declare "color" "blue") = true := by
  have told : MediaQuery.dark.Told (MediaQuery.dark.combine (.breakpoint .md)) := by
    unfold MediaQuery.Told
    decide +kernel
  obtain ⟨same, features⟩ := sameScope_swapped_iff dimHovered dimWideHovered "color" "red" "blue"
  refine ⟨told, same.mpr ⟨.inl rfl, .inl ⟨[.hover], [], rfl, rfl, nofun, .nil⟩,
    .inl ⟨[], [.before], rfl, rfl, by decide, by decide⟩, ?_⟩⟩
  rintro q r ⟨⟩ ⟨⟩
  refine ⟨.inl ⟨[], [], rfl, rfl, nofun, .nil⟩, (features _ _ told).mpr (.inl ?_)⟩
  exact ⟨[.prefersColorScheme .dark], [.minWidth Breakpoint.md.width], rfl, rfl,
    by decide +kernel, by decide⟩

/-- The dark scope inside of a breakpoint, which is also that of a colour's dark counterpart there,
is told from the breakpoint inside of the dark scope. -/
theorem dim_wide_swapped :
    wide.selector = none ∧ dim.selector = none ∧ wide.darkened = wide.merge dim ∧
      (wide.merge dim).mediaText? = some "(min-width: 48rem) and (prefers-color-scheme: dark)" ∧
      (dim.merge wide).mediaText? = some "(prefers-color-scheme: dark) and (min-width: 48rem)" ∧
      ((wide.merge dim).declare "color" "red").sameScope
        ((dim.merge wide).declare "color" "red") = false := by
  decide +kernel

end Scope

end AtomicMarkup
