import AtomicMarkup.Head
import AtomicMarkup.Proofs.Delimited
import AtomicMarkup.Proofs.Words
import AtomicMarkup.Proofs.WrittenNumber
import Mathlib.Data.List.Infix
import Mathlib.Data.List.Forall2

/-!
The address that loads the fonts of a head, as it is read at the other end. Its parameters are one
family for each font, in order, and the display mode; a family may be followed by weights. Nothing
in a family name is encoded but its spaces, so the fonts are read back just when no name has one of
the marks that the address itself is cut at.
-/

namespace AtomicMarkup

section Marks

variable {mark front back cs : List Char}

theorem eq_of_dropInfix? (found : cs.dropInfix? mark = some (front, back)) :
    cs = front ++ mark ++ back := by
  obtain ⟨⟨own, whole, same⟩, -⟩ := List.dropInfix?_eq_some_iff.mp found
  rw [whole, eq_of_beq same]

theorem not_infix_front (nonempty : mark ≠ []) (found : cs.dropInfix? mark = some (front, back)) :
    ¬ mark <:+: front := by
  obtain ⟨-, least⟩ := List.dropInfix?_eq_some_iff.mp found
  rintro ⟨before, behind, rfl⟩
  have whole := eq_of_dropInfix? found
  rw [List.append_assoc, List.append_assoc] at whole
  have earlier := least before _ _ (by rw [whole, List.append_assoc]) (beq_self_eq_true _)
  have positive := List.length_pos_iff.mpr nonempty
  simp only [List.length_append] at earlier
  omega

theorem dropInfix?_eq_none_iff : cs.dropInfix? mark = none ↔ ¬ mark <:+: cs := by
  constructor
  · rintro absent ⟨before, behind, whole⟩
    -- Of all occurrences there is one with the shortest text in front.
    obtain ⟨front, ⟨back, shortest⟩, least⟩ := WellFounded.has_min (measure List.length).wf
      {before | ∃ behind, cs = before ++ mark ++ behind} ⟨before, behind, whole.symm⟩
    have found : cs.dropInfix? mark = some (front, back) := by
      rw [List.dropInfix?_eq_some_iff]
      refine ⟨⟨mark, shortest, beq_self_eq_true _⟩, fun before own behind whole same => ?_⟩
      rw [eq_of_beq same] at whole
      exact Nat.le_of_not_lt (least before ⟨behind, whole⟩)
    rw [absent] at found
    contradiction
  · intro absent
    rw [Option.eq_none_iff_forall_ne_some]
    rintro ⟨front, back⟩ found
    exact absent ⟨front, back, (eq_of_dropInfix? found).symm⟩

theorem dropInfix?_append {first : Char} {tail : List Char} (once : first ∉ tail)
    (absent : ¬ first :: tail <:+: front) :
    (front ++ first :: (tail ++ back)).dropInfix? (first :: tail) = some (front, back) := by
  rw [List.dropInfix?_eq_some_iff]
  refine ⟨⟨first :: tail, by simp, beq_self_eq_true _⟩, fun before own behind whole same => ?_⟩
  rw [eq_of_beq same, List.append_assoc] at whole
  by_contra shorter
  -- What lies between the two occurrences holds the earlier one, or begins within it.
  obtain ⟨middle, rfl, rest⟩ | ⟨middle, rfl, rest⟩ := List.append_eq_append_iff.mp whole
  · simp at shorter
  · obtain ⟨after, rfl, -⟩ | ⟨part, split, again⟩ := List.append_eq_append_iff.mp rest
    · exact absent ⟨before, after, List.append_assoc _ _ _⟩
    · cases middle with
      | nil => simp at shorter
      | cons c middle =>
        obtain ⟨rfl, rfl⟩ := List.cons.inj split
        cases part with
        | nil => exact absent ⟨before, [], by simp⟩
        | cons d part =>
          obtain ⟨rfl, -⟩ := List.cons.inj again
          simp at once

theorem dropInfix?_singleton {c : Char} (absent : c ∉ front) :
    (front ++ c :: back).dropInfix? [c] = some (front, back) :=
  dropInfix?_append List.not_mem_nil fun inside =>
    absent (inside.subset (List.mem_singleton_self c))

theorem infix_of_map {write : Char → Char} (kept : ∀ c, write c ∈ mark → write c = c)
    (inside : mark <:+: cs.map write) : mark <:+: cs := by
  obtain ⟨before, behind, whole⟩ := inside
  obtain ⟨early, late, rfl, front, -⟩ := List.map_eq_append_iff.mp whole.symm
  obtain ⟨start, own, rfl, -, same⟩ := List.map_eq_append_iff.mp front
  have written : own.map write = own := by
    rw [List.map_congr_left (g := id) fun c member => kept c (same ▸ List.mem_map_of_mem member),
      List.map_id]
  exact ⟨start, late, by rw [← same, written]⟩

end Marks

/-- What is asked for at the other end: a family, and the weights that it is loaded in. -/
structure FontRequest where
  family : String
  weights : List ℕ
  deriving DecidableEq

namespace FontRequest

def weightMark : List Char :=
  ":wght@".toList

def ofPlus (c : Char) : Char :=
  if c == '+' then ' ' else c

def readWeight? (ds : List Char) : Option ℕ :=
  if ds.isEmpty || !ds.all Char.isDigit then none else some (Number.value 10 ds)

def read? (value : List Char) : Option FontRequest :=
  match value.dropInfix? weightMark with
  | none => some ⟨String.ofList (value.map ofPlus), []⟩
  | some (family, weights) =>
    ((weights.splitOn ';').mapM readWeight?).map fun ns =>
      ⟨String.ofList (family.map ofPlus), ns⟩

/-- The query of an address, between its question mark and its fragment. -/
def query? (url : String) : Option (List Char) :=
  (url.toList.dropInfix? ['?']).map fun cut => cut.2.takeWhile (· != '#')

def parameters? (query : List Char) : Option (List (List Char × List Char)) :=
  (query.splitOn '&').mapM (·.dropInfix? ['='])

def readFamily? (parameter : List Char × List Char) : Option FontRequest :=
  if parameter.1 = "family".toList then read? parameter.2 else none

def ofParameters? (parameters : List (List Char × List Char)) : Option (List FontRequest) :=
  if parameters.getLast? = some ("display".toList, "swap".toList) then
    parameters.dropLast.mapM readFamily?
  else none

def readAll? (url : String) : Option (List FontRequest) := do
  ofParameters? (← parameters? (← query? url))

/-- A name without the marks that an address is cut at. -/
structure Legible (name : List Char) : Prop where
  noAmpersand : '&' ∉ name
  noFragment : '#' ∉ name
  noPlus : '+' ∉ name
  noWeightMark : ¬ weightMark <:+: name

instance (name : List Char) : Decidable (Legible name) :=
  decidable_of_iff ('&' ∉ name ∧ '#' ∉ name ∧ '+' ∉ name ∧ ¬ weightMark <:+: name)
    ⟨fun ⟨ampersand, fragment, plus, weights⟩ => ⟨ampersand, fragment, plus, weights⟩,
      fun legible =>
        ⟨legible.noAmpersand, legible.noFragment, legible.noPlus, legible.noWeightMark⟩⟩

theorem ofPlus_ne_plus (c : Char) : ofPlus c ≠ '+' := by
  unfold ofPlus
  split
  · decide
  · next other => exact fun same => other (beq_iff_eq.mpr same)

theorem ofPlus_eq_self {c : Char} (visible : ofPlus c ≠ ' ') : ofPlus c = c := by
  unfold ofPlus at visible ⊢
  split
  · next plus => exact absurd (if_pos plus) visible
  · rfl

theorem not_infix_map_ofPlus {mark cs : List Char} (visible : ' ' ∉ mark)
    (absent : ¬ mark <:+: cs) : ¬ mark <:+: cs.map ofPlus := fun inside =>
  absent (infix_of_map
    (fun _ member => ofPlus_eq_self fun space => visible (space ▸ member)) inside)

theorem legible_map_ofPlus {cs : List Char} (noAmpersand : '&' ∉ cs) (noFragment : '#' ∉ cs)
    (noWeightMark : ¬ weightMark <:+: cs) : Legible (cs.map ofPlus) where
  noAmpersand := by
    rw [← List.singleton_infix_iff] at noAmpersand ⊢
    exact not_infix_map_ofPlus (by decide) noAmpersand
  noFragment := by
    rw [← List.singleton_infix_iff] at noFragment ⊢
    exact not_infix_map_ofPlus (by decide) noFragment
  noPlus := by
    rw [List.mem_map]
    rintro ⟨c, -, plus⟩
    exact ofPlus_ne_plus c plus
  noWeightMark := not_infix_map_ofPlus (by decide) noWeightMark

theorem legible_of_read? {value : List Char} {r : FontRequest} (read : read? value = some r)
    (noAmpersand : '&' ∉ value) (noFragment : '#' ∉ value) : Legible r.family.toList := by
  unfold read? at read
  split at read
  · next absent =>
    obtain rfl := Option.some.inj read
    rw [String.toList_ofList]
    exact legible_map_ofPlus noAmpersand noFragment (dropInfix?_eq_none_iff.mp absent)
  · next family weights found =>
    obtain ⟨ns, -, rfl⟩ := Option.map_eq_some_iff.mp read
    rw [eq_of_dropInfix? found, List.append_assoc, List.mem_append, not_or]
      at noAmpersand noFragment
    rw [String.toList_ofList]
    exact legible_map_ofPlus noAmpersand.1 noFragment.1 (not_infix_front (by decide) found)

theorem not_mem_of_mem_parameters? {query : List Char} {parameters : List (List Char × List Char)}
    (read : parameters? query = some parameters) (noFragment : '#' ∉ query) :
    ∀ p ∈ parameters, '&' ∉ p.2 ∧ '#' ∉ p.2 := by
  intro p member
  obtain ⟨part, piece, cut⟩ := exists_of_mem_right (mapM_eq_some_iff.mp read) p member
  have inside : p.2 ⊆ part := eq_of_dropInfix? cut ▸ List.subset_append_right _ _
  have ofQuery : part ⊆ query := by
    have among : part ⊆ ['&'].intercalate (query.splitOn '&') := subset_intercalate piece
    rwa [List.intercalate_splitOn] at among
  rw [List.splitOn_eq_splitOnP, ← Text.fields_eq_splitOnP] at piece
  have noAmpersand := Text.not_separator_of_mem_fields piece
  exact ⟨fun found => by simpa using noAmpersand '&' (inside found),
    fun found => noFragment (ofQuery (inside found))⟩

theorem legible_of_readAll? {url : String} {requests : List FontRequest}
    (read : readAll? url = some requests) : ∀ r ∈ requests, Legible r.family.toList := by
  obtain ⟨query, found, read⟩ := Option.bind_eq_some_iff.mp read
  obtain ⟨parameters, cut, read⟩ := Option.bind_eq_some_iff.mp read
  have noFragment : '#' ∉ query := by
    obtain ⟨⟨before, behind⟩, -, rfl⟩ := Option.map_eq_some_iff.mp found
    exact fun inside => by simpa using List.all_eq_true.mp List.all_takeWhile '#' inside
  rw [ofParameters?, Option.ite_none_right_eq_some] at read
  intro r member
  obtain ⟨p, among, own⟩ := exists_of_mem_right (mapM_eq_some_iff.mp read.2) r member
  obtain ⟨noAmpersand, noFragment⟩ :=
    not_mem_of_mem_parameters? cut noFragment p (List.mem_of_mem_dropLast among)
  rw [readFamily?, Option.ite_none_right_eq_some] at own
  exact legible_of_read? own.2 noAmpersand noFragment

end FontRequest

namespace WebFont

open FontRequest

def toPlus (c : Char) : Char :=
  if c == ' ' then '+' else c

theorem toPlus_eq_self {c : Char} (other : toPlus c ≠ '+') : toPlus c = c := by
  unfold toPlus at other ⊢
  split
  · next space => exact absurd (if_pos space) other
  · rfl

theorem ofPlus_toPlus {c : Char} (other : c ≠ '+') : ofPlus (toPlus c) = c := by
  unfold toPlus
  split
  · next space => exact (beq_iff_eq.mp space).symm
  · exact if_neg (by simpa using other)

theorem toList_queryFamily (f : WebFont) :
    f.queryFamily.toList = (Text.trim f.family).toList.map toPlus :=
  String.toList_map

def weightsText : List UInt16 → List Char
  | [] => []
  | weights => weightMark ++ [';'].intercalate (weights.map fun w => Number.digits 10 w.toNat)

def valueText (f : WebFont) : List Char :=
  f.queryFamily.toList ++ weightsText f.sortedWeights

theorem toList_query (f : WebFont) : f.query.toList = "family".toList ++ '=' :: f.valueText := by
  have family : "family=".toList = "family".toList ++ ['='] := by decide
  rw [query, valueText]
  cases f.sortedWeights with
  | nil => simp [weightsText, family]
  | cons w rest =>
    simp [weightsText, weightMark, family, String.toList_intercalate, Number.decimal,
      Function.comp_def]

theorem readWeight?_digits (n : ℕ) : readWeight? (Number.digits 10 n) = some n := by
  have digits : (Number.digits 10 n).all Char.isDigit = true :=
    List.all_eq_true.mpr fun _ => Number.isDigit_of_mem_digits
  rw [readWeight?, digits, Number.value_digits (by decide) (by decide)]
  simp [Number.digits_ne_nil]

theorem read?_append_weightsText {family : List Char} (absent : ¬ weightMark <:+: family)
    (weights : List UInt16) :
    read? (family ++ weightsText weights) =
      some ⟨String.ofList (family.map ofPlus), weights.map UInt16.toNat⟩ := by
  unfold read?
  cases weights with
  | nil => rw [weightsText, List.append_nil, dropInfix?_eq_none_iff.mpr absent]; rfl
  | cons w rest =>
    have found : (family ++ weightsText (w :: rest)).dropInfix? weightMark =
        some (family,
          [';'].intercalate (((w :: rest).map UInt16.toNat).map (Number.digits 10))) := by
      rw [List.map_map]
      exact dropInfix?_append (by decide) absent
    have apart : ∀ text ∈ ((w :: rest).map UInt16.toNat).map (Number.digits 10), ';' ∉ text :=
      List.forall_mem_map.mpr fun n _ =>
        not_mem_of_forall (fun _ => Number.isDigit_of_mem_digits) (by decide)
    rw [found]
    dsimp only
    rw [List.splitOn_intercalate ';' apart (by simp),
      mapM_map_eq_some fun n _ => readWeight?_digits n]
    rfl

theorem mem_withoutRepeats {weights : List UInt16} {w : UInt16} :
    w ∈ withoutRepeats weights ↔ w ∈ weights := by
  induction weights using withoutRepeats.induct with
  | case1 v x rest same ih =>
    rw [withoutRepeats, if_pos same, ih, beq_iff_eq.mp same]
    simp
  | case2 v x rest other ih =>
    rw [withoutRepeats, if_neg other, List.mem_cons, ih]
    exact List.mem_cons.symm
  | case3 short few => rw [withoutRepeats.eq_2 short few]

theorem pairwise_withoutRepeats {weights : List UInt16} (sorted : weights.Pairwise (· ≤ ·)) :
    (withoutRepeats weights).Pairwise (· < ·) := by
  induction weights using withoutRepeats.induct with
  | case1 v x rest same ih =>
    rw [withoutRepeats, if_pos same]
    exact ih (List.pairwise_cons.mp sorted).2
  | case2 v x rest other ih =>
    rw [withoutRepeats, if_neg other, List.pairwise_cons]
    obtain ⟨least, sorted⟩ := List.pairwise_cons.mp sorted
    have next : v < x := UInt16.lt_of_le_of_ne (least x List.mem_cons_self) (by simpa using other)
    refine ⟨fun w member => ?_, ih sorted⟩
    rcases List.mem_cons.mp (mem_withoutRepeats.mp member) with rfl | later
    · exact next
    · exact UInt16.lt_of_lt_of_le next ((List.pairwise_cons.mp sorted).1 w later)
  | case3 short few =>
    rw [withoutRepeats.eq_2 short few]
    match short, few with
    | [], _ => exact List.Pairwise.nil
    | [w], _ => exact List.pairwise_singleton _ _
    | v :: w :: rest, few => exact absurd rfl (few v w rest)

theorem mem_sortedWeights {f : WebFont} {w : UInt16} : w ∈ f.sortedWeights ↔ w ∈ f.weights := by
  rw [sortedWeights, mem_withoutRepeats, List.mem_mergeSort]

theorem pairwise_sortedWeights (f : WebFont) : f.sortedWeights.Pairwise (· < ·) := by
  apply pairwise_withoutRepeats
  have sorted := @List.pairwise_mergeSort _ (fun v w : UInt16 => decide (v ≤ w))
    (fun a b c => by simpa using UInt16.le_trans) (fun a b => by simpa using UInt16.le_total a b)
    f.weights
  exact sorted.imp of_decide_eq_true

/-- A request for a font: its family between outer blanks, and the set of its weights in strictly
ascending order. -/
structure IsAskedBy (f : WebFont) (r : FontRequest) : Prop where
  family : r.family = Text.trim f.family
  ascending : r.weights.Pairwise (· < ·)
  weights : ∀ n, n ∈ r.weights ↔ ∃ w ∈ f.weights, w.toNat = n

def request (f : WebFont) : FontRequest :=
  ⟨Text.trim f.family, f.sortedWeights.map UInt16.toNat⟩

theorem isAskedBy_request (f : WebFont) : f.IsAskedBy f.request where
  family := rfl
  ascending := List.pairwise_map.mpr (f.pairwise_sortedWeights.imp UInt16.lt_iff_toNat_lt.mp)
  weights n := by simp only [request, List.mem_map, mem_sortedWeights]

theorem not_infix_queryFamily {f : WebFont} {mark : List Char} (noPlus : '+' ∉ mark)
    (absent : ¬ mark <:+: (Text.trim f.family).toList) : ¬ mark <:+: f.queryFamily.toList := by
  rw [toList_queryFamily]
  exact fun inside => absent (infix_of_map
    (fun _ member => toPlus_eq_self fun plus => noPlus (plus ▸ member)) inside)

theorem readFamily?_valueText {f : WebFont} (legible : Legible (Text.trim f.family).toList) :
    readFamily? ("family".toList, f.valueText) = some f.request := by
  have family : f.queryFamily.toList.map ofPlus = (Text.trim f.family).toList := by
    rw [toList_queryFamily, List.map_map]
    have back : ∀ c ∈ (Text.trim f.family).toList, (ofPlus ∘ toPlus) c = id c :=
      fun c member => ofPlus_toPlus fun plus => legible.noPlus (plus ▸ member)
    rw [List.map_congr_left back, List.map_id]
  rw [readFamily?, if_pos rfl, valueText,
    read?_append_weightsText (not_infix_queryFamily (by decide) legible.noWeightMark), family,
    String.ofList_toList, request]

theorem not_mem_weightsText {c : Char} (noMark : c ∉ ';' :: weightMark)
    (noDigit : c.isDigit = false) (weights : List UInt16) : c ∉ weightsText weights := by
  rw [List.mem_cons, not_or] at noMark
  cases weights with
  | nil => exact List.not_mem_nil
  | cons w rest =>
    change c ∉ weightMark ++ [';'].intercalate _
    rw [List.mem_append, not_or]
    refine ⟨noMark.2, not_mem_intercalate (by simpa using noMark.1) ?_⟩
    exact List.forall_mem_map.mpr fun w _ =>
      not_mem_of_forall (fun _ => Number.isDigit_of_mem_digits) noDigit

theorem not_mem_valueText {f : WebFont} (legible : Legible (Text.trim f.family).toList) :
    '&' ∉ f.valueText ∧ '#' ∉ f.valueText := by
  have free {c : Char} (noPlus : '+' ∉ [c]) (noMark : c ∉ ';' :: weightMark)
      (noDigit : c.isDigit = false) (absent : c ∉ (Text.trim f.family).toList) :
      c ∉ f.valueText := by
    rw [← List.singleton_infix_iff] at absent
    have noFamily := not_infix_queryFamily noPlus absent
    rw [List.singleton_infix_iff] at noFamily
    rw [valueText, List.mem_append, not_or]
    exact ⟨noFamily, not_mem_weightsText noMark noDigit _⟩
  exact ⟨free (by decide) (by decide) (by decide) legible.noAmpersand,
    free (by decide) (by decide) (by decide) legible.noFragment⟩

end WebFont

namespace Head

open FontRequest

def parameters (h : Head) : List (List Char × List Char) :=
  h.fonts.map (fun f => ("family".toList, f.valueText)) ++ [("display".toList, "swap".toList)]

def parameterText (parameter : List Char × List Char) : List Char :=
  parameter.1 ++ '=' :: parameter.2

def queryText (h : Head) : List Char :=
  ['&'].intercalate (h.parameters.map parameterText)

theorem toList_fontsUrl? {h : Head} {url : String} (given : h.fontsUrl? = some url) :
    url.toList = "https://fonts.googleapis.com/css2".toList ++ '?' :: h.queryText := by
  have address : "https://fonts.googleapis.com/css2?".toList =
      "https://fonts.googleapis.com/css2".toList ++ ['?'] := by decide
  have display : "&display=swap".toList =
      ['&'] ++ parameterText ("display".toList, "swap".toList) := by decide
  have separator : "&".toList = ['&'] := by decide
  have queries : (h.fonts.map WebFont.query).map String.toList =
      (h.fonts.map fun f => ("family".toList, f.valueText)).map parameterText := by
    rw [List.map_map, List.map_map]
    exact List.map_congr_left fun f _ => f.toList_query
  unfold fontsUrl? at given
  split at given
  · contradiction
  · next some =>
    obtain rfl := Option.some.inj given
    rw [String.toList_append, String.toList_append, String.toList_intercalate, address, display,
      separator, queries, queryText, parameters, List.map_append, List.map_singleton,
      intercalate_concat _ _ (by simpa using some)]
    simp

section Written

variable {h : Head} (legible : ∀ f ∈ h.fonts, Legible (Text.trim f.family).toList)

include legible

theorem not_mem_parameterText :
    ∀ text ∈ h.parameters.map parameterText, '&' ∉ text ∧ '#' ∉ text := by
  rw [parameters, List.map_append, List.forall_mem_append, List.map_map, List.forall_mem_map]
  refine ⟨fun f member => ?_, by decide⟩
  obtain ⟨noAmpersand, noFragment⟩ := WebFont.not_mem_valueText (legible f member)
  simp [parameterText, noAmpersand, noFragment]

theorem query?_fontsUrl? {url : String} (given : h.fontsUrl? = some url) :
    query? url = some h.queryText := by
  have noFragment : '#' ∉ h.queryText :=
    not_mem_intercalate (by decide) fun text member =>
      (not_mem_parameterText legible text member).2
  have whole : h.queryText.takeWhile (· != '#') = h.queryText :=
    List.takeWhile_eq_self_iff.mpr fun c member =>
      bne_iff_ne.mpr fun same => noFragment (same ▸ member)
  rw [query?, toList_fontsUrl? given, dropInfix?_singleton (by decide), Option.map_some, whole]

theorem parameters?_queryText : parameters? h.queryText = some h.parameters := by
  have apart : ∀ text ∈ h.parameters.map parameterText, '&' ∉ text :=
    fun text member => (not_mem_parameterText legible text member).1
  have named : ∀ p ∈ h.parameters, '=' ∉ p.1 := by
    rw [parameters, List.forall_mem_append, List.forall_mem_map]
    exact ⟨fun _ _ => (by decide : '=' ∉ "family".toList), by decide⟩
  rw [parameters?, queryText, List.splitOn_intercalate '&' apart (by simp [parameters])]
  exact mapM_map_eq_some fun p member => dropInfix?_singleton (named p member)

/-- Fonts with legible names are read as they are asked for. -/
theorem readAll?_fontsUrl? {url : String} (given : h.fontsUrl? = some url) :
    readAll? url = some (h.fonts.map WebFont.request) := by
  have families : (h.fonts.map fun f => ("family".toList, f.valueText)).mapM readFamily? =
      some (h.fonts.map WebFont.request) := by
    rw [mapM_eq_some_iff, List.forall₂_map_left_iff, List.forall₂_map_right_iff, List.forall₂_same]
    exact fun f member => WebFont.readFamily?_valueText (legible f member)
  rw [readAll?, query?_fontsUrl? legible given, Option.bind_eq_bind, Option.bind_some,
    parameters?_queryText legible, Option.bind_eq_bind, Option.bind_some, ofParameters?, parameters,
    List.getLast?_concat, if_pos rfl, List.dropLast_concat, families]

end Written

/-- Fonts that are declared are loaded from one address. Its query is read as one family for each
of them, in order, and the display mode behind, just when no family name has an ampersand, a number
sign, a plus sign or the mark of weights in it. -/
theorem fontsUrl?_read_iff {h : Head} (declared : h.fonts ≠ []) :
    ∃ url, h.fontsUrl? = some url ∧
      ((∃ requests, readAll? url = some requests ∧
          List.Forall₂ WebFont.IsAskedBy h.fonts requests) ↔
        ∀ f ∈ h.fonts, Legible (Text.trim f.family).toList) := by
  obtain ⟨url, given⟩ : ∃ url, h.fontsUrl? = some url := by
    unfold fontsUrl?
    split
    · contradiction
    · exact ⟨_, rfl⟩
  refine ⟨url, given, ?_, fun legible => ?_⟩
  · rintro ⟨requests, read, asked⟩ f member
    obtain ⟨r, among, own⟩ := exists_of_mem_right asked.flip f member
    exact own.family ▸ legible_of_readAll? read r among
  · refine ⟨_, readAll?_fontsUrl? legible given, ?_⟩
    rw [List.forall₂_map_right_iff, List.forall₂_same]
    exact fun f _ => f.isAskedBy_request

def monospaced : Head :=
  { titled "Notes" with fonts := [⟨" Roboto Mono", [700, 400, 700]⟩, ⟨"Inter", []⟩] }

theorem monospaced_read :
    monospaced.check = .ok () ∧ ∃ url requests, monospaced.fontsUrl? = some url ∧
      readAll? url = some requests ∧ List.Forall₂ WebFont.IsAskedBy monospaced.fonts requests := by
  obtain ⟨url, given, read⟩ := @fontsUrl?_read_iff monospaced (by decide)
  obtain ⟨requests, own, asked⟩ := read.mpr (by decide +kernel)
  exact ⟨by decide +kernel, url, requests, given, own, asked⟩

def paired : Head :=
  { titled "Notes" with fonts := [⟨"A&B", [400]⟩] }

/-- An ampersand is accepted in a family name. It cuts the family of the address in two, and what
stands behind it is no parameter. -/
theorem paired_not_read :
    paired.check = .ok () ∧
      paired.fontsUrl? =
        some "https://fonts.googleapis.com/css2?family=A&B:wght@400&display=swap" ∧
      readAll? "https://fonts.googleapis.com/css2?family=A&B:wght@400&display=swap" = none := by
  decide +kernel

end Head

end AtomicMarkup
