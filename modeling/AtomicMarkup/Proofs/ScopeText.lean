import AtomicMarkup.Proofs.Delimited
import AtomicMarkup.Proofs.Numeral
import AtomicMarkup.Proofs.SharedClasses
import AtomicMarkup.Style.Scope

/-!
Scopes in a stylesheet. A declaration knows its scope by three texts only, but these texts show
the whole scope as far as it is written at all: the pseudos in the order of the selector, and the
text of each condition in the order of the query. So declarations of two scopes are in each
other's place just when the scopes are written alike. Conditions with different numbers may have
one text, since numbers are rounded; nothing is claimed of these.
-/

namespace AtomicMarkup

section Written

variable {α : Type} {write : List α → String}

def written? (write : List α → String) : List α → Option String
  | [] => none
  | items => some (write items)

theorem written?_eq_iff {first second : List α}
    (injective : first ≠ [] → second ≠ [] → write first = write second → first = second) :
    written? write first = written? write second ↔ first = second := by
  refine ⟨?_, congrArg _⟩
  intro same
  cases first with
  | nil =>
    cases second with
    | nil => rfl
    | cons y ys => contradiction
  | cons x xs =>
    cases second with
    | nil => contradiction
    | cons y ys =>
      exact injective (List.cons_ne_nil _ _) (List.cons_ne_nil _ _) (Option.some.inj same)

end Written

namespace Pseudo

def colons (p : Pseudo) : List Char :=
  (Keyword.css p).toList.takeWhile (· == ':')

def name (p : Pseudo) : List Char :=
  (Keyword.css p).toList.dropWhile (· == ':')

theorem colons_append_name (p : Pseudo) : p.colons ++ p.name = (Keyword.css p).toList :=
  List.takeWhile_append_dropWhile

theorem colon_of_mem_colons (p : Pseudo) : ∀ c ∈ p.colons, (c == ':') = true :=
  List.all_eq_true.mp List.all_takeWhile

theorem head?_css (p : Pseudo) : (Keyword.css p).toList.head? = some ':' := by
  cases p <;> decide

theorem name_ne_nil (p : Pseudo) : p.name ≠ [] := by
  cases p <;> decide

theorem colon_not_mem_name (p : Pseudo) : ':' ∉ p.name := by
  cases p <;> decide

theorem mem_all (p : Pseudo) : p ∈ Keyword.all (α := Pseudo) := by
  cases p <;> decide

theorem css_injective {p q : Pseudo} (same : Keyword.css p = Keyword.css q) : p = q := by
  have distinct : ∀ p ∈ Keyword.all (α := Pseudo), ∀ q ∈ Keyword.all (α := Pseudo),
      Keyword.css p = Keyword.css q → p = q := by decide +kernel
  exact distinct p p.mem_all q q.mem_all same

/-- A pseudo ends where the colons of the next one begin: `:focus` is not taken for the beginning
of `:focus-within`. -/
theorem delimited_css : Delimited ':' fun t => ∃ p : Pseudo, (Keyword.css p).toList = t := by
  rintro _ _ after behind ⟨p, rfl⟩ ⟨q, rfl⟩ stop halt same
  rw [← p.colons_append_name, ← q.colons_append_name] at same ⊢
  rw [List.append_assoc, List.append_assoc] at same
  have named (p : Pseudo) (rest : List Char) :
      ∀ c ∈ (p.name ++ rest).head?, (c == ':') = false := by
    intro c first
    rw [List.head?_append_of_ne_nil _ p.name_ne_nil] at first
    rw [beq_eq_false_iff_ne]
    rintro rfl
    exact p.colon_not_mem_name (List.mem_of_mem_head? first)
  have colons : p.colons = q.colons :=
    stretch_eq p.colon_of_mem_colons q.colon_of_mem_colons (named p after) (named q behind) same
  rw [colons] at same ⊢
  rw [eq_before_mark p.colon_not_mem_name q.colon_not_mem_name stop halt
    (List.append_cancel_left same)]

theorem join_css_injective {ps qs : List Pseudo}
    (same : String.join (ps.map Keyword.css) = String.join (qs.map Keyword.css)) : ps = qs := by
  have texts : (ps.map fun p => (Keyword.css p).toList).flatMap ([] ++ ·) =
      (qs.map fun p => (Keyword.css p).toList).flatMap ([] ++ ·) := by
    simpa [← String.toList_inj, List.flatMap_map] using same
  have kinds (ps : List Pseudo) : ∀ t ∈ ps.map fun p => (Keyword.css p).toList,
      ∃ p : Pseudo, (Keyword.css p).toList = t := by
    intro t member
    obtain ⟨p, -, rfl⟩ := List.mem_map.mp member
    exact ⟨p, rfl⟩
  have opens (t : List Char) (kind : ∃ p : Pseudo, (Keyword.css p).toList = t) :
      ([] ++ t).head? = some ':' := by
    obtain ⟨p, rfl⟩ := kind
    exact p.head?_css
  have lists := delimited_css.eq_of_flatMap_eq opens (kinds ps) (kinds qs) texts
  exact (List.map_inj_right fun _ _ equal => css_injective (String.toList_inj.mp equal)).mp lists

theorem ordered_perm (ps : List Pseudo) : (ordered ps).Perm ps :=
  List.perm_append_comm.trans (List.filter_append_perm isElement ps)

theorem ordered_eq_iff {ps qs : List Pseudo} :
    ordered ps = ordered qs ↔
      (ps.filter fun p => !p.isElement) = (qs.filter fun p => !p.isElement) ∧
        ps.filter isElement = qs.filter isElement := by
  have states (ps : List Pseudo) :
      (ordered ps).filter (fun p => !p.isElement) = ps.filter fun p => !p.isElement := by
    simp [ordered, List.filter_filter]
  have elements (ps : List Pseudo) : (ordered ps).filter isElement = ps.filter isElement := by
    simp [ordered, List.filter_filter]
  constructor
  · intro same
    exact ⟨by rw [← states, same, states], by rw [← elements, same, elements]⟩
  · rintro ⟨first, last⟩
    rw [ordered, first, last, ordered]

theorem suffix?_eq (ps : List Pseudo) :
    suffix? ps = written? (fun order => String.join (order.map Keyword.css)) (ordered ps) := by
  cases ps with
  | nil => rfl
  | cons p rest =>
    have filled : ordered (p :: rest) ≠ [] :=
      List.ne_nil_of_mem ((ordered_perm (p :: rest)).mem_iff.mpr List.mem_cons_self)
    have text : suffix? (p :: rest) =
        some (String.join ((ordered (p :: rest)).map Keyword.css)) := rfl
    rw [text]
    cases order : ordered (p :: rest) with
    | nil => contradiction
    | cons q qs => rfl

theorem suffix?_eq_iff {ps qs : List Pseudo} :
    suffix? ps = suffix? qs ↔ ordered ps = ordered qs := by
  rw [suffix?_eq, suffix?_eq]
  exact written?_eq_iff fun _ _ => join_css_injective

end Pseudo

theorem Length.not_mem_css {c : Char} (low : c.toNat < 45) (percent : c ≠ '%') (w : Length) :
    c ∉ w.css.toList := by
  have letter {d : Char} (high : 45 ≤ d.toNat) : c ≠ d := by
    rintro rfl
    omega
  have number := Number.not_mem_cssText low
  cases w <;> simp [Length.css, number, percent, letter]

namespace MediaCondition

def Written (t : List Char) : Prop :=
  (' ' ∉ t ∧ ∃ c, c ≠ '(' ∧ t.head? = some c) ∨ ∃ body, ')' ∉ body ∧ t = '(' :: body ++ [')']

theorem written_feature {name value : String} (first : ')' ∉ name.toList)
    (second : ')' ∉ value.toList) : Written (feature name value).toList :=
  .inr ⟨(name ++ ": " ++ value).toList, by simp [first, second], by simp [feature]⟩

theorem written_css (c : MediaCondition) : Written c.css.toList := by
  cases c with
  | screen => exact .inl ⟨by decide, 's', by decide, by decide⟩
  | print => exact .inl ⟨by decide, 'p', by decide, by decide⟩
  | minWidth w => exact written_feature (by decide) (w.not_mem_css (by decide) (by decide))
  | maxWidth w => exact written_feature (by decide) (w.not_mem_css (by decide) (by decide))
  | prefersColorScheme s => exact written_feature (by decide) (by cases s <;> decide)
  | prefersReducedMotion => exact written_feature (by decide) (by decide)
  | noMotionPreference => exact written_feature (by decide) (by decide)
  | orientation o => exact written_feature (by decide) (by cases o <;> decide)

theorem word_ne_feature {t body after behind : List Char} {c : Char} (first : t.head? = some c)
    (word : c ≠ '(') : t ++ after ≠ ('(' :: body ++ [')']) ++ behind := by
  intro same
  have heads := congrArg List.head? same
  rw [List.head?_append, first] at heads
  exact word (Option.some.inj heads)

theorem delimited_written : Delimited ' ' Written := by
  intro t u after behind first second stop halt same
  obtain ⟨free, c, word, head⟩ | ⟨body, free, rfl⟩ := first
  · obtain ⟨clear, -⟩ | ⟨body, -, rfl⟩ := second
    · exact eq_before_mark free clear stop halt same
    · exact absurd same (word_ne_feature head word)
  · obtain ⟨-, c, word, head⟩ | ⟨other, clear, rfl⟩ := second
    · exact absurd same.symm (word_ne_feature head word)
    · have bodies : body ++ (')' :: after) = other ++ (')' :: behind) := by
        simpa using same
      rw [eq_before_mark free clear (forall_head?_cons rfl) (forall_head?_cons rfl) bodies]

theorem texts_eq_of_intercalate_eq {first second : String} {texts others : List String}
    (kinds : ∀ t ∈ first :: texts, Written t.toList)
    (otherKinds : ∀ t ∈ second :: others, Written t.toList)
    (same : " and ".intercalate (first :: texts) = " and ".intercalate (second :: others)) :
    first :: texts = second :: others := by
  have chars := congrArg String.toList same
  rw [String.toList_intercalate, String.toList_intercalate] at chars
  have lists := delimited_written.eq_of_intercalate_eq rfl (List.forall_mem_map.mpr kinds)
    (List.forall_mem_map.mpr otherKinds) chars
  exact (List.map_inj_right fun _ _ => String.toList_inj.mp).mp lists

end MediaCondition

namespace MediaQuery

def texts (q : MediaQuery) : List String :=
  q.ordered.map MediaCondition.css

theorem ordered_perm (q : MediaQuery) : q.ordered.Perm q.conditions :=
  List.filter_append_perm _ _

theorem texts_eq_nil_iff {q : MediaQuery} : q.texts = [] ↔ q.conditions = [] := by
  have lengths := q.ordered_perm.length_eq
  rw [texts, List.map_eq_nil_iff, ← List.length_eq_zero_iff, lengths, List.length_eq_zero_iff]

end MediaQuery

namespace Sheet

theorem size_collect_pair (options : RenderOptions) (d e : Declaration) :
    (collect options [[d, e]]).size = 1 ↔ d.sameScope e = true := by
  rw [size_collect]
  cases same : d.sameScope e with
  | true => simp [Declaration.effective, same, List.eraseDups_cons]
  | false =>
    have distinct : d ≠ e := by
      rintro rfl
      exact Bool.false_ne_true (same.symm.trans d.sameScope_self)
    simp [Declaration.effective, same, List.eraseDups_cons, distinct]

theorem size_collect_singles (options : RenderOptions) (d e : Declaration) :
    (collect options [[d], [e]]).size = 1 ↔ d = e := by
  rw [size_collect]
  by_cases same : d = e
  · simp [Declaration.effective, List.eraseDups_cons, same]
  · simp [Declaration.effective, List.eraseDups_cons, same, Ne.symm same]

end Sheet

namespace Scope

def mediaTexts (s : Scope) : List String :=
  (s.media.map MediaQuery.texts).getD []

theorem mediaText?_eq (s : Scope) :
    s.mediaText? = written? " and ".intercalate s.mediaTexts := by
  obtain ⟨media, pseudos, selector⟩ := s
  cases media with
  | none => rfl
  | some q =>
    have empty : q.isEmpty = true ↔ q.texts = [] := by
      rw [MediaQuery.texts_eq_nil_iff, MediaQuery.isEmpty, List.isEmpty_iff]
    have css : q.css = " and ".intercalate q.texts := rfl
    simp only [mediaText?, mediaTexts, Option.map_some, Option.getD_some]
    cases texts : q.texts with
    | nil => simp [Option.filter, empty.mpr texts, written?]
    | cons text rest =>
      have filled : q.isEmpty = false := by
        rw [Bool.eq_false_iff, ne_eq, empty, texts]
        exact List.cons_ne_nil _ _
      simp [Option.filter, filled, written?, css, texts]

theorem written_of_mem_mediaTexts {s : Scope} {text : String} (member : text ∈ s.mediaTexts) :
    MediaCondition.Written text.toList := by
  obtain ⟨media, pseudos, selector⟩ := s
  cases media with
  | none => exact absurd member List.not_mem_nil
  | some q =>
    obtain ⟨c, -, rfl⟩ := List.mem_map.mp member
    exact c.written_css

theorem mediaText?_eq_iff {a b : Scope} :
    a.mediaText? = b.mediaText? ↔ a.mediaTexts = b.mediaTexts := by
  rw [mediaText?_eq, mediaText?_eq]
  apply written?_eq_iff
  intro aFilled bFilled same
  have aKinds {text : String} := @written_of_mem_mediaTexts a text
  have bKinds {text : String} := @written_of_mem_mediaTexts b text
  obtain ⟨first, rest, split⟩ := List.exists_cons_of_ne_nil aFilled
  obtain ⟨second, more, cut⟩ := List.exists_cons_of_ne_nil bFilled
  rw [split] at same aKinds ⊢
  rw [cut] at same bKinds ⊢
  exact MediaCondition.texts_eq_of_intercalate_eq (fun _ => aKinds) (fun _ => bKinds) same

def elements (s : Scope) : List Pseudo :=
  s.pseudos.filter Pseudo.isElement

def states (s : Scope) : List Pseudo :=
  s.pseudos.filter fun p => !p.isElement

theorem pseudo_declare (s : Scope) (property value : String) :
    (s.declare property value).pseudo.getD "" =
      String.join (s.states.map Keyword.css) ++ String.join (s.elements.map Keyword.css) := by
  have joined : String.join ((Pseudo.ordered s.pseudos).map Keyword.css) =
      String.join (s.states.map Keyword.css) ++ String.join (s.elements.map Keyword.css) := by
    rw [Pseudo.ordered, List.map_append, String.join_append]
    rfl
  rw [← joined, declare]
  cases s.pseudos <;> rfl

/-- Scopes that are written alike: with one selector, the same pseudos in the order of a selector,
and the same texts of conditions in the order of a query. -/
structure Alike (a b : Scope) : Prop where
  selector : a.selector = b.selector
  pseudos : Pseudo.ordered a.pseudos = Pseudo.ordered b.pseudos
  media : a.mediaTexts = b.mediaTexts

section Declared

variable {a b : Scope} {property value otherProperty otherValue : String}

theorem declare_texts_eq_iff :
    ((a.declare property value).media = (b.declare otherProperty otherValue).media ∧
      (a.declare property value).selector = (b.declare otherProperty otherValue).selector ∧
      (a.declare property value).pseudo = (b.declare otherProperty otherValue).pseudo) ↔
      a.Alike b := by
  constructor
  · rintro ⟨media, selector, pseudo⟩
    exact ⟨selector, Pseudo.suffix?_eq_iff.mp pseudo, mediaText?_eq_iff.mp media⟩
  · rintro ⟨selector, pseudos, media⟩
    exact ⟨mediaText?_eq_iff.mpr media, selector, Pseudo.suffix?_eq_iff.mpr pseudos⟩

theorem sameScope_declare_iff :
    (a.declare property value).sameScope (b.declare otherProperty otherValue) = true ↔
      property = otherProperty ∧ a.Alike b := by
  rw [Declaration.sameScope_iff, declare_texts_eq_iff]
  exact Iff.rfl

theorem declare_eq_iff :
    a.declare property value = b.declare otherProperty otherValue ↔
      property = otherProperty ∧ value = otherValue ∧ a.Alike b := by
  rw [← @declare_texts_eq_iff a b property value otherProperty otherValue]
  simp only [declare, Declaration.mk.injEq]

end Declared

/-- Declarations know their scopes by texts, and the texts are equal just when the scopes are
written alike. So two declarations on one element leave one rule just when they set one property
in scopes that are written alike, and on two elements when besides they give it one value. -/
theorem texts_eq_iff_alike (a b : Scope) (property value otherProperty otherValue : String) :
    ((a.declare property value).media = (b.declare otherProperty otherValue).media ∧
        (a.declare property value).selector = (b.declare otherProperty otherValue).selector ∧
        (a.declare property value).pseudo = (b.declare otherProperty otherValue).pseudo ↔
      a.Alike b) ∧
      ∀ options,
        ((Sheet.collect options
            [[a.declare property value, b.declare otherProperty otherValue]]).size = 1 ↔
          property = otherProperty ∧ a.Alike b) ∧
        ((Sheet.collect options
            [[a.declare property value], [b.declare otherProperty otherValue]]).size = 1 ↔
          property = otherProperty ∧ value = otherValue ∧ a.Alike b) := by
  refine ⟨declare_texts_eq_iff, fun options => ⟨?_, ?_⟩⟩
  · rw [Sheet.size_collect_pair, sameScope_declare_iff]
  · rw [Sheet.size_collect_singles, declare_eq_iff]

end Scope

end AtomicMarkup
