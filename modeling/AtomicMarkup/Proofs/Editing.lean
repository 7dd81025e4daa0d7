import AtomicMarkup.Element
import AtomicMarkup.Proofs.FirstUse
import AtomicMarkup.Proofs.Words
import Mathlib.Data.List.DropRight

/-!
Building an element edit by edit. The attributes are a map in the order of first setting, and what
was written last under a name is its value. Only classes accumulate, behind the last write of them.
Attributes, children and declarations are built apart from one another: an element is determined by
the edits of each part in their order.
-/

namespace AtomicMarkup

namespace Element

inductive Part where
  | attributes | children | styles
  deriving DecidableEq

namespace Edit

def part : Edit → Part
  | child _ | children _ | text _ | raw _ => .children
  | style _ => .styles
  | setText .. | flag _ | flagIf .. | id _ | addClass _ | data .. => .attributes

/-- The attribute that an edit writes, whatever was there before. -/
def written? : Edit → Option Attribute
  | setText name value => some ⟨name, .text value⟩
  | flag name => some ⟨name, .flag⟩
  | flagIf name on => if on then some ⟨name, .flag⟩ else none
  | id value => some ⟨"id", .text value⟩
  | data key value => some ⟨"data-" ++ key, .text value⟩
  | _ => none

/-- The classes that an edit adds to those that are there. -/
def added? : Edit → Option String
  | addClass classes => some classes
  | _ => none

def name? (edit : Edit) : Option String :=
  (edit.written?.map fun a => a.name).or (edit.added?.map fun _ => "class")

def writes? (name : String) (edit : Edit) : Option AttributeValue :=
  (edit.written?.filter fun a => a.name == name).map fun a => a.value

def addedWords (edit : Edit) : List String :=
  (edit.added?.map Text.words).getD []

theorem added?_of_writes? {name : String} {value : AttributeValue} {edit : Edit}
    (writes : edit.writes? name = some value) : edit.added? = none := by
  cases edit with
  | addClass classes => contradiction
  | _ => rfl

theorem ne_name?_iff {name : String} {edit : Edit} :
    edit.name? ≠ some name ↔
      edit.writes? name = none ∧ (name = "class" → edit.added? = none) := by
  rw [name?, writes?]
  cases edit with
  | addClass classes => simp [written?, added?, eq_comm]
  | flagIf other on => cases on <;> simp [written?, added?, Option.filter]
  | _ => simp [written?, added?, Option.filter]

def nodes : Edit → List Node
  | child node => [node]
  | children nodes => nodes
  | text s => [.text s]
  | raw s => [.raw s]
  | _ => []

def declarations : Edit → List Declaration
  | style step => step.declarations .root
  | _ => []

end Edit

def names (e : Element) : List String :=
  e.attributes.map fun a => a.name

def valueIn? (name : String) (attributes : List Attribute) : Option AttributeValue :=
  (attributes.find? fun a => a.name == name).map fun a => a.value

/-- The value of an attribute. A flag and an empty text are told apart. -/
def value? (e : Element) (name : String) : Option AttributeValue :=
  valueIn? name e.attributes

theorem get?_eq (e : Element) (name : String) :
    e.get? name = (e.value? name).map AttributeValue.content := by
  rw [get?, value?, valueIn?, Option.map_map]
  rfl

def classWords (e : Element) : List String :=
  Text.words ((e.get? "class").getD "")

theorem valueIn?_cons (name : String) (a : Attribute) (rest : List Attribute) :
    valueIn? name (a :: rest) = if a.name = name then some a.value else valueIn? name rest := by
  by_cases here : a.name = name <;> simp [valueIn?, here]

theorem names_setIn (name : String) (value : AttributeValue) (attributes : List Attribute) :
    (setIn name value attributes).map (fun a => a.name) =
      if name ∈ attributes.map (fun a => a.name) then attributes.map (fun a => a.name)
      else attributes.map (fun a => a.name) ++ [name] := by
  induction attributes with
  | nil => rfl
  | cons a rest ih =>
    rw [setIn, List.map_cons]
    by_cases here : a.name = name
    · simp [here]
    · rw [if_neg (by simpa using here), List.map_cons, ih]
      by_cases later : name ∈ rest.map (fun a => a.name)
      · rw [if_pos later, if_pos (List.mem_cons_of_mem _ later)]
      · rw [if_neg later, if_neg, List.cons_append]
        exact fun member => (List.mem_cons.mp member).elim (Ne.symm here) later

theorem valueIn?_setIn (name other : String) (value : AttributeValue)
    (attributes : List Attribute) :
    valueIn? other (setIn name value attributes) =
      if name = other then some value else valueIn? other attributes := by
  induction attributes with
  | nil => exact valueIn?_cons other ⟨name, value⟩ []
  | cons a rest ih =>
    rw [setIn]
    by_cases here : a.name = name
    · rw [if_pos (by simpa using here), valueIn?_cons, valueIn?_cons, here]
      by_cases same : name = other <;> simp [same]
    · rw [if_neg (by simpa using here), valueIn?_cons, valueIn?_cons, ih]
      by_cases first : a.name = other
      · have apart : name ≠ other := fun same => here (first.trans same.symm)
        simp [first, apart]
      · simp [first]

/-- What an edit can do to the attributes: write one of them, add to the classes, or nothing. -/
theorem attributes_edit (e : Element) (edit : Edit) :
    (∃ a, edit.written? = some a ∧ edit.added? = none ∧
        (e.edit edit).attributes = setIn a.name a.value e.attributes) ∨
      (∃ classes text, edit.written? = none ∧ edit.added? = some classes ∧
        (e.edit edit).attributes = setIn "class" (.text text) e.attributes ∧
          Text.words text = e.classWords ++ Text.words classes) ∨
      edit.written? = none ∧ edit.added? = none ∧ (e.edit edit).attributes = e.attributes := by
  cases edit with
  | setText name value => exact .inl ⟨⟨name, .text value⟩, rfl, rfl, rfl⟩
  | flag name => exact .inl ⟨⟨name, .flag⟩, rfl, rfl, rfl⟩
  | flagIf name on =>
    cases on with
    | true => exact .inl ⟨⟨name, .flag⟩, rfl, rfl, rfl⟩
    | false => exact .inr (.inr ⟨rfl, rfl, rfl⟩)
  | id value => exact .inl ⟨⟨"id", .text value⟩, rfl, rfl, rfl⟩
  | data key value => exact .inl ⟨⟨"data-" ++ key, .text value⟩, rfl, rfl, rfl⟩
  | addClass classes =>
    refine .inr (.inl ⟨classes, ?_⟩)
    rw [Element.edit, addClass, classWords]
    cases present : e.get? "class" with
    | none => exact ⟨classes, rfl, rfl, rfl, rfl⟩
    | some text =>
      refine ⟨_, rfl, rfl, rfl, ?_⟩
      split
      · next empty => rw [String.isEmpty_iff.mp empty]; rfl
      · rw [Text.words_append_blank, Option.getD_some]
  | child | children | text | raw | style => exact .inr (.inr ⟨rfl, rfl, rfl⟩)

/-- Beside the attributes, an edit adds to the children and to the declarations. -/
theorem edit_eq (e : Element) (edit : Edit) :
    e.edit edit = ⟨e.tag, (e.edit edit).attributes, e.children ++ edit.nodes,
      e.styles ++ edit.declarations⟩ := by
  cases edit with
  | flagIf name on =>
    cases on <;> simp [Element.edit, flagIf, flag, set, Edit.nodes, Edit.declarations]
  | addClass classes =>
    rw [Element.edit, addClass]
    split <;> simp [setText, set, Edit.nodes, Edit.declarations]
  | _ => simp [Element.edit, setText, flag, set, append, addStyles, Edit.nodes, Edit.declarations]

theorem tag_edit (e : Element) (edit : Edit) : (e.edit edit).tag = e.tag := by
  rw [edit_eq]

theorem names_edit (e : Element) (edit : Edit) :
    (e.edit edit).names =
      match edit.name? with
      | none => e.names
      | some name => if name ∈ e.names then e.names else e.names ++ [name] := by
  rw [names, Edit.name?]
  obtain ⟨a, written, -, set⟩ | ⟨classes, text, unwritten, added, set, -⟩ |
    ⟨unwritten, unadded, same⟩ := e.attributes_edit edit
  · rw [written, set, names_setIn]
    rfl
  · rw [unwritten, added, set, names_setIn]
    rfl
  · rw [unwritten, unadded, same]
    rfl

/-- Under a name that an edit does not add to, there is what the edit writes, or what was there. -/
theorem value?_edit {e : Element} {edit : Edit} {name : String}
    (only : name = "class" → edit.added? = none) :
    (e.edit edit).value? name = (edit.writes? name).or (e.value? name) := by
  rw [value?, Edit.writes?]
  obtain ⟨a, written, -, set⟩ | ⟨classes, text, unwritten, added, set, -⟩ |
    ⟨unwritten, unadded, same⟩ := e.attributes_edit edit
  · rw [written, set, valueIn?_setIn]
    by_cases here : a.name = name <;> simp [Option.filter, here, value?]
  · have apart : "class" ≠ name := by
      rintro rfl
      rw [only rfl] at added
      contradiction
    rw [unwritten, set, valueIn?_setIn, if_neg apart]
    rfl
  · rw [unwritten, same]
    rfl

theorem classWords_eq (e : Element) :
    e.classWords = Text.words (((e.value? "class").map AttributeValue.content).getD "") := by
  rw [classWords, get?_eq]

theorem classWords_edit (e : Element) (edit : Edit) :
    (e.edit edit).classWords =
      match edit.writes? "class" with
      | some value => Text.words value.content
      | none => e.classWords ++ edit.addedWords := by
  rw [Edit.addedWords]
  cases added : edit.added? with
  | none =>
    rw [classWords_eq, value?_edit fun _ => added]
    cases edit.writes? "class" with
    | some value => rfl
    | none => rw [Option.none_or, ← classWords_eq]; exact (List.append_nil _).symm
  | some classes =>
    obtain ⟨a, -, unadded, -⟩ | ⟨others, text, unwritten, same, set, words⟩ | ⟨-, unadded, -⟩ :=
      e.attributes_edit edit
    · rw [unadded] at added
      contradiction
    · rw [added] at same
      obtain rfl := Option.some.inj same
      rw [classWords_eq, value?, set, valueIn?_setIn, if_pos rfl, Edit.writes?, unwritten]
      exact words
    · rw [unadded] at added
      contradiction

section Runs

variable (e : Element) (edits : List Edit)

theorem build_concat (edit : Edit) : e.build (edits ++ [edit]) = (e.build edits).edit edit :=
  List.foldl_concat ..

theorem build_eq :
    e.build edits = ⟨e.tag, (e.build edits).attributes, e.children ++ edits.flatMap Edit.nodes,
      e.styles ++ edits.flatMap Edit.declarations⟩ := by
  induction edits using List.reverseRecOn with
  | nil => rw [List.flatMap_nil, List.flatMap_nil, List.append_nil, List.append_nil]; rfl
  | append_singleton edits edit ih =>
    have tag := congrArg tag ih
    have children := congrArg children ih
    have styles := congrArg styles ih
    rw [build_concat]
    refine (edit_eq _ edit).trans ?_
    rw [tag, children, styles, List.flatMap_append, List.flatMap_append, List.flatMap_singleton,
      List.flatMap_singleton, List.append_assoc, List.append_assoc]

theorem tag_build : (e.build edits).tag = e.tag := by
  rw [build_eq]

theorem names_build (distinct : e.names.Nodup) :
    (e.build edits).names = (e.names ++ edits.filterMap Edit.name?).eraseDups := by
  induction edits using List.reverseRecOn with
  | nil =>
    rw [List.filterMap_nil, List.append_nil, eraseDups_eq_self distinct]
    rfl
  | append_singleton edits edit ih =>
    rw [build_concat, names_edit, ih, List.filterMap_append]
    cases named : edit.name? with
    | none => simp [named]
    | some name =>
      rw [List.filterMap_cons_some named, List.filterMap_nil, ← List.append_assoc,
        eraseDups_concat]
      simp only [List.mem_eraseDups]

/-- The edits behind the last one that writes a name. -/
def behindLastWrite (name : String) (edits : List Edit) : List Edit :=
  edits.rtakeWhile fun edit => (edit.writes? name).isNone

/-- The last value that is written under a name. -/
def lastWrite? (name : String) (edits : List Edit) : Option AttributeValue :=
  (edits.filterMap (Edit.writes? name)).getLast?

theorem lastWrite?_concat (name : String) (edit : Edit) :
    lastWrite? name (edits ++ [edit]) = (edit.writes? name).or (lastWrite? name edits) := by
  rw [lastWrite?, List.filterMap_append, List.getLast?_append, List.filterMap_cons]
  cases edit.writes? name <;> rfl

theorem behindLastWrite_concat (name : String) (edit : Edit) :
    behindLastWrite name (edits ++ [edit]) =
      if (edit.writes? name).isNone then behindLastWrite name edits ++ [edit] else [] :=
  List.rtakeWhile_concat ..

theorem value?_build {name : String}
    (only : name = "class" → ∀ edit ∈ behindLastWrite name edits, edit.added? = none) :
    (e.build edits).value? name = (lastWrite? name edits).or (e.value? name) := by
  induction edits using List.reverseRecOn with
  | nil => rfl
  | append_singleton edits edit ih =>
    rw [behindLastWrite_concat] at only
    rw [build_concat, lastWrite?_concat, Option.or_assoc]
    cases writes : edit.writes? name with
    | some value =>
      rw [value?_edit fun _ => Edit.added?_of_writes? writes, writes]
      rfl
    | none =>
      rw [writes, Option.isNone_none, if_pos rfl] at only
      rw [← ih fun here other inside => only here other (List.mem_append_left _ inside),
        value?_edit fun here => only here edit (List.mem_append_right _ List.mem_cons_self),
        writes]

theorem classWords_build :
    (e.build edits).classWords =
      ((lastWrite? "class" edits).map fun value => Text.words value.content).getD e.classWords ++
        (behindLastWrite "class" edits).flatMap Edit.addedWords := by
  induction edits using List.reverseRecOn with
  | nil => exact (List.append_nil _).symm
  | append_singleton edits edit ih =>
    rw [build_concat, classWords_edit, lastWrite?_concat, behindLastWrite_concat, ih]
    cases edit.writes? "class" with
    | some value => exact (List.append_nil _).symm
    | none => simp

theorem value?_build_of_not_mem {name : String} (free : name ∉ edits.filterMap Edit.name?) :
    (e.build edits).value? name = e.value? name := by
  have apart : ∀ edit ∈ edits,
      edit.writes? name = none ∧ (name = "class" → edit.added? = none) := by
    intro edit inside
    have other : edit.name? ≠ some name := fun named =>
      free (List.mem_filterMap.mpr ⟨edit, inside, named⟩)
    exact Edit.ne_name?_iff.mp other
  have unwritten : lastWrite? name edits = none := by
    rw [lastWrite?, List.filterMap_eq_nil_iff.mpr fun edit inside => (apart edit inside).1]
    rfl
  rw [e.value?_build edits, unwritten, Option.none_or]
  intro here edit inside
  exact (apart edit ((List.rtakeWhile_suffix _ _).subset inside)).2 here

end Runs

/-- Edits in two orders that are one and the same within each part. -/
def SameWithinParts (edits others : List Edit) : Prop :=
  ∀ part, edits.filter (fun edit => edit.part = part) = others.filter (fun edit => edit.part = part)

theorem attributes_edit_congr {e f : Element} (same : e.attributes = f.attributes) (edit : Edit) :
    (e.edit edit).attributes = (f.edit edit).attributes := by
  cases edit with
  | flagIf name on => cases on <;> simp [Element.edit, flagIf, flag, set, same]
  | addClass classes =>
    have present : e.get? "class" = f.get? "class" := by rw [get?, get?, same]
    rw [Element.edit, Element.edit, addClass, addClass, present]
    split <;> simp [setText, set, same]
  | _ => simp [Element.edit, setText, flag, set, append, addStyles, same]

/-- Only the edits of attributes count for the attributes. -/
theorem attributes_build (e : Element) (edits : List Edit) :
    (e.build edits).attributes =
      (e.build (edits.filter fun edit => edit.part = .attributes)).attributes := by
  induction edits using List.reverseRecOn with
  | nil => rfl
  | append_singleton edits edit ih =>
    rw [build_concat, List.filter_append]
    by_cases inPart : edit.part = .attributes
    · rw [List.filter_cons_of_pos (by simpa using inPart), List.filter_nil, build_concat]
      exact attributes_edit_congr ih edit
    · rw [List.filter_cons_of_neg (by simpa using inPart), List.filter_nil, List.append_nil, ← ih]
      cases edit with
      | child | children | text | raw | style => rfl
      | _ => exact absurd rfl inPart

theorem flatMap_filter_part {α : Type} {part : Part} {items : Edit → List α}
    (only : ∀ edit, edit.part ≠ part → items edit = []) (edits : List Edit) :
    (edits.filter fun edit => edit.part = part).flatMap items = edits.flatMap items := by
  induction edits with
  | nil => rfl
  | cons edit rest ih =>
    by_cases inPart : edit.part = part
    · rw [List.filter_cons_of_pos (by simpa using inPart), List.flatMap_cons, List.flatMap_cons, ih]
    · rw [List.filter_cons_of_neg (by simpa using inPart), List.flatMap_cons, only edit inPart, ih,
        List.nil_append]

theorem build_congr (e : Element) {edits others : List Edit}
    (same : SameWithinParts edits others) : e.build edits = e.build others := by
  have nodes (edit : Edit) (apart : edit.part ≠ .children) : edit.nodes = [] := by
    cases edit with
    | child | children | text | raw => exact absurd rfl apart
    | _ => rfl
  have declarations (edit : Edit) (apart : edit.part ≠ .styles) : edit.declarations = [] := by
    cases edit with
    | style step => exact absurd rfl apart
    | _ => rfl
  have attributes : (e.build edits).attributes = (e.build others).attributes := by
    rw [attributes_build, same .attributes, ← attributes_build]
  have sameNodes : edits.flatMap Edit.nodes = others.flatMap Edit.nodes := by
    rw [← flatMap_filter_part nodes, same .children, flatMap_filter_part nodes]
  have sameDeclarations :
      edits.flatMap Edit.declarations = others.flatMap Edit.declarations := by
    rw [← flatMap_filter_part declarations, same .styles, flatMap_filter_part declarations]
  rw [build_eq, attributes, sameNodes, sameDeclarations, ← build_eq]

/-- A built element has the names that it started with and those that were set, each once and in
the order of first setting. A name has the value that was written last, and what no edit is about
is as it was. The classes are those that were written last with all that were added later. Only the
order of the edits within each part counts. -/
theorem build_lastWrite {e : Element} (distinct : e.names.Nodup) (edits : List Edit) :
    (e.build edits).names.Nodup ∧
      (e.build edits).names = (e.names ++ edits.filterMap Edit.name?).eraseDups ∧
      (∀ name, (name = "class" → ∀ edit ∈ behindLastWrite name edits, edit.added? = none) →
        (e.build edits).value? name = (lastWrite? name edits).or (e.value? name) ∧
          (e.build edits).get? name =
            ((lastWrite? name edits).map AttributeValue.content).or (e.get? name)) ∧
      (e.build edits).classWords =
        ((lastWrite? "class" edits).map fun value => Text.words value.content).getD e.classWords ++
          (behindLastWrite "class" edits).flatMap Edit.addedWords ∧
      (∀ name ∉ edits.filterMap Edit.name?, (e.build edits).value? name = e.value? name) ∧
      (e.build edits).tag = e.tag ∧
      (e.build edits).children = e.children ++ edits.flatMap Edit.nodes ∧
      (e.build edits).styles = e.styles ++ edits.flatMap Edit.declarations ∧
      ∀ others, SameWithinParts edits others → e.build others = e.build edits := by
  have names := e.names_build edits distinct
  refine ⟨names ▸ nodup_eraseDups _, names, ?_, e.classWords_build edits,
    fun name => e.value?_build_of_not_mem edits, e.tag_build edits,
    congrArg children (e.build_eq edits), congrArg styles (e.build_eq edits),
    fun others same => (e.build_congr same).symm⟩
  intro name only
  have value := e.value?_build edits only
  refine ⟨value, ?_⟩
  rw [get?_eq, get?_eq, value]
  cases lastWrite? name edits <;> rfl

def draft : Element :=
  ⟨"p", [⟨"title", .text "old"⟩, ⟨"class", .text " a "⟩], [], []⟩

def draftEdits : List Edit :=
  [.id "x", .text "Hello", .addClass "b c", .setText "title" "new",
    .style (.property (.display .none)), .flagIf "hidden" true, .addClass "d", .raw "<hr>"]

def sortedEdits : List Edit :=
  [.style (.property (.display .none)), .text "Hello", .raw "<hr>", .id "x", .addClass "b c",
    .setText "title" "new", .flagIf "hidden" true, .addClass "d"]

theorem build_draft :
    draft.names.Nodup ∧ SameWithinParts draftEdits sortedEdits ∧
      draft.build sortedEdits = draft.build draftEdits ∧
      (draft.build draftEdits).names = ["title", "class", "id", "hidden"] ∧
      (draft.build draftEdits).value? "title" = some (.text "new") ∧
      (draft.build draftEdits).classWords = ["a", "b", "c", "d"] := by
  have distinct : draft.names.Nodup := by decide
  have same : SameWithinParts draftEdits sortedEdits := by
    intro part
    cases part <;> rfl
  obtain ⟨-, names, values, classes, -, -, -, -, reordered⟩ := build_lastWrite distinct draftEdits
  refine ⟨distinct, same, reordered _ same, ?_, ?_, ?_⟩
  · rw [names]
    decide
  · rw [(values "title" (by decide)).1]
    rfl
  · rw [classes]
    decide +kernel

end Element

end AtomicMarkup
