import AtomicMarkup.Data.Pages
import AtomicMarkup.Input
import AtomicMarkup.Proofs.Editing
import AtomicMarkup.Proofs.Fragments
import AtomicMarkup.Proofs.Occurrences
import AtomicMarkup.Proofs.Validity
import AtomicMarkup.Proofs.Words
import AtomicMarkup.Tag

/-!
Void elements of accepted page trees. A tag is void by its letters, and the void tags have none but
small ones; so an element whose tag is void in any capitals is empty and without an end tag just
when its tag is in small letters, which all elements have that are made by name.
-/

namespace AtomicMarkup

/-- A tag that is void when capitals do not count. -/
def IsVoidInAnyCase (tag : String) : Prop :=
  Text.lowercase tag ∈ voidTags

instance (tag : String) : Decidable (IsVoidInAnyCase tag) :=
  inferInstanceAs (Decidable (_ ∈ _))

theorem lowercase_of_mem_voidTags : ∀ tag ∈ voidTags, Text.lowercase tag = tag := by
  decide +kernel

theorem IsVoidInAnyCase.isVoidTag_iff {tag : String} (void : IsVoidInAnyCase tag) :
    isVoidTag tag = true ↔ Text.lowercase tag = tag := by
  rw [isVoidTag, List.contains_iff_mem]
  exact ⟨lowercase_of_mem_voidTags tag, fun small => small ▸ void⟩

namespace Element

/-- The elements that are made by name, as built-in ones, as inputs or by any accepted tag, and
edited any number of times. -/
inductive Made : Element → Prop where
  | plain {tag : String} {e : Element} (known : Tag.plain? tag = some e) : Made e
  | body : Made Tag.body
  | a (href : String) : Made (Tag.a href)
  | img (src alt : String) : Made (Tag.img src alt)
  | option (value label : String) : Made (Tag.option value label)
  | input (name : String) (kind : InputKind) : Made (kind.element name)
  | custom {tag : String} {e : Element} (accepted : custom tag = .ok e) : Made e
  | edited {e : Element} (made : Made e) (edit : Edit) : Made (e.edit edit)

theorem lowercase_of_mem_plainTags : ∀ tag ∈ Tag.plainTags, Text.lowercase tag = tag := by
  decide +kernel

theorem tag_input (name : String) (kind : InputKind) : (kind.element name).tag = "input" := by
  rw [InputKind.element]
  generalize start_eq : (((bare "input").setText "type" kind.typeName).setText "name" name) = start
  have tag : start.tag = "input" := by rw [← start_eq]; rfl
  clear start_eq
  induction kind.attributes generalizing start with
  | nil => exact tag
  | cons pair rest ih =>
    apply ih
    obtain ⟨key, value⟩ := pair
    cases value <;> exact tag

theorem Made.lowercase_tag {e : Element} (made : e.Made) : Text.lowercase e.tag = e.tag := by
  induction made with
  | @plain tag e known =>
    obtain ⟨inside, same⟩ := Option.ite_none_right_eq_some.mp known
    obtain rfl := Option.some.inj same
    exact lowercase_of_mem_plainTags tag (List.contains_iff_mem.mp inside)
  | body => decide +kernel
  | a href => exact show Text.lowercase "a" = "a" by decide +kernel
  | img src alt => exact show Text.lowercase "img" = "img" by decide +kernel
  | option value label => exact show Text.lowercase "option" = "option" by decide +kernel
  | input name kind =>
    rw [tag_input]
    decide +kernel
  | @custom tag e accepted =>
    rw [Element.custom] at accepted
    split at accepted
    · obtain rfl := Except.ok.inj accepted
      exact Text.lowercase_lowercase tag
    · contradiction
  | edited _ edit ih => rw [tag_edit, ih]

end Element

/-- What is right inside an accepted place is accepted, and is written where the place is. -/
theorem Occurrence.infix_of_mem_items {o inner : Occurrence}
    (accepted : o.node.check o.depth = .ok ()) (inside : inner ∈ o.items) :
    inner.node.check inner.depth = .ok () ∧
      inner.node.outline inner.depth <:+: o.node.outline o.depth := by
  have written {nodes : List Node} {node : Node} (depth : Nat) (member : node ∈ nodes) :
      node.outline depth <:+: Node.listOutline depth nodes := by
    obtain ⟨before, after, rfl⟩ := List.append_of_mem member
    rw [Node.listOutline_eq_flatMap, List.flatMap_append, List.flatMap_cons, ← List.append_assoc]
    exact List.infix_append ..
  obtain ⟨node, depth, inVoid⟩ := o
  cases node with
  | element tag attributes children styles =>
    obtain ⟨child, member, rfl⟩ := List.mem_map.mp inside
    obtain ⟨shallow, valid, below⟩ := Node.check_element_eq_ok_iff.mp accepted
    have filled : isVoidTag tag = false := by
      rw [Bool.eq_false_iff]
      intro void
      rw [show children = [] from valid.void void] at member
      contradiction
    refine ⟨below child member, ?_⟩
    rw [Node.outline, if_neg (Nat.not_lt.mpr shallow), if_neg (Bool.eq_false_iff.mp filled)]
    exact (written (depth + 1) member).trans
      ⟨[.start tag attributes (Declaration.effective styles)], [.finish tag], rfl⟩
  | text s => exact absurd inside List.not_mem_nil
  | raw s => exact absurd inside List.not_mem_nil
  | fragment items =>
    obtain ⟨item, member, rfl⟩ := List.mem_map.mp inside
    obtain ⟨-, below⟩ := Node.check_fragment_eq_ok_iff.mp accepted
    refine ⟨below item member, ?_⟩
    rw [Node.outline]
    exact written depth member

/-- Every place of an accepted tree is accepted and written. -/
theorem Node.infix_of_mem_occurrences {node : Node} (accepted : node.validate = .ok ()) :
    ∀ o ∈ node.occurrences 0 false, o.node.check o.depth = .ok () ∧
      o.node.outline o.depth <:+: node.outline 0 := by
  refine occurrences_induction node ⟨accepted, List.infix_rfl⟩ ?_
  intro o _ known inner inside
  obtain ⟨check, below⟩ := Occurrence.infix_of_mem_items known.1 inside
  exact ⟨check, below.trans known.2⟩

/-- The markup of an accepted element: its start tag alone if it is void, else with what is inside
and an end tag. -/
theorem Node.outline_element {o : Occurrence} {e : Element}
    (accepted : o.node.check o.depth = .ok ()) (isElement : o.node.toElement? = some e) :
    e.Valid ∧ o.node.outline o.depth =
      if isVoidTag e.tag then [e.startMark]
      else e.startMark :: listOutline (o.depth + 1) e.children ++ [.finish e.tag] := by
  obtain ⟨node, depth, inVoid⟩ := o
  cases node with
  | element tag attributes children styles =>
    obtain rfl := Option.some.inj isElement
    obtain ⟨shallow, valid, -⟩ := check_element_eq_ok_iff.mp accepted
    refine ⟨valid, ?_⟩
    rw [outline, if_neg (Nat.not_lt.mpr shallow)]
    rfl
  | _ => contradiction

def Element.startTag (e : Element) (sheet : Sheet) : String :=
  e.startMark.textWith sheet.table.classesOf

def Occurrence.markup (o : Occurrence) (sheet : Sheet) : String :=
  String.join ((o.node.outline o.depth).map (Mark.textWith sheet.table.classesOf))

namespace Node

theorem render_html_around {node : Node} (accepted : node.validate = .ok ())
    (options : RenderOptions) {o : Occurrence} (place : o ∈ node.occurrences 0 false) :
    ∃ before after, (node.render options).html =
      before ++ o.markup (node.render options).sheet ++ after := by
  obtain ⟨-, before, after, whole⟩ := infix_of_mem_occurrences accepted o place
  refine ⟨String.join (before.map (Mark.textWith (node.render options).sheet.table.classesOf)),
    String.join (after.map (Mark.textWith (node.render options).sheet.table.classesOf)), ?_⟩
  rw [render_html, ← whole, List.map_append, List.map_append, String.join_append,
    String.join_append, Occurrence.markup]

theorem markup_element {o : Occurrence} {e : Element}
    (accepted : o.node.check o.depth = .ok ()) (isElement : o.node.toElement? = some e)
    (sheet : Sheet) :
    e.Valid ∧ ∃ inside, o.markup sheet =
      if isVoidTag e.tag then e.startTag sheet
      else e.startTag sheet ++ inside ++ "</" ++ e.tag ++ ">" := by
  obtain ⟨valid, outline⟩ := outline_element accepted isElement
  have one (mark : Mark) : String.join ([mark].map (Mark.textWith sheet.table.classesOf)) =
      mark.textWith sheet.table.classesOf := by
    rw [List.map_singleton, String.join_cons, String.join_nil, String.append_empty]
  refine ⟨valid, String.join ((listOutline (o.depth + 1) e.children).map
    (Mark.textWith sheet.table.classesOf)), ?_⟩
  rw [Occurrence.markup, outline]
  split
  · exact one _
  · rw [List.map_append, List.map_cons, String.join_append, String.join_cons, one,
      Mark.textWith, ← String.append_assoc, ← String.append_assoc]
    rfl

/-- An element of an accepted tree whose tag is void in any capitals is empty and written without
an end tag exactly when its tag is in small letters, as it is when the element was made by name.
Any other one is written with an end tag, whatever is inside. -/
theorem void_written_iff {node : Node} (accepted : node.validate = .ok ())
    (options : RenderOptions) {o : Occurrence} (place : o ∈ node.occurrences 0 false)
    {e : Element} (isElement : o.node.toElement? = some e) (void : IsVoidInAnyCase e.tag) :
    (∃ before after, (node.render options).html =
        before ++ o.markup (node.render options).sheet ++ after) ∧
      (e.children = [] ∧
          o.markup (node.render options).sheet = e.startTag (node.render options).sheet ↔
        Text.lowercase e.tag = e.tag) ∧
      (Text.lowercase e.tag ≠ e.tag → ∃ inside, o.markup (node.render options).sheet =
        e.startTag (node.render options).sheet ++ inside ++ "</" ++ e.tag ++ ">") ∧
      (e.Made → Text.lowercase e.tag = e.tag) := by
  have check := (infix_of_mem_occurrences accepted o place).1
  obtain ⟨valid, inside, markup⟩ := markup_element check isElement (node.render options).sheet
  refine ⟨render_html_around accepted options place, ⟨?_, ?_⟩, ?_, Element.Made.lowercase_tag⟩
  · rintro ⟨-, alone⟩
    rw [← void.isVoidTag_iff]
    by_contra filled
    rw [markup, if_neg filled] at alone
    have longer := congrArg String.length alone
    have bracket : ">".length = 1 := rfl
    simp only [String.length_append] at longer
    omega
  · intro small
    have isVoid := void.isVoidTag_iff.mpr small
    rw [if_pos isVoid] at markup
    exact ⟨valid.void isVoid, markup⟩
  · intro capital
    have filled : ¬ isVoidTag e.tag = true := fun isVoid => capital (void.isVoidTag_iff.mp isVoid)
    rw [if_neg filled] at markup
    exact ⟨inside, markup⟩

def pictured : Node :=
  .element "p" [] [.text "x", (Tag.img "a.png" "").toNode] []

theorem void_written_picture :
    pictured.validate = .ok () ∧
      (Occurrence.mk (Tag.img "a.png" "").toNode 1 false) ∈ pictured.occurrences 0 false ∧
      IsVoidInAnyCase (Tag.img "a.png" "").tag ∧
      (Occurrence.mk (Tag.img "a.png" "").toNode 1 false).markup
          (pictured.render .standard).sheet =
        (Tag.img "a.png" "").startTag (pictured.render .standard).sheet := by
  have accepted : pictured.validate = .ok () := rfl
  have place : (Occurrence.mk (Tag.img "a.png" "").toNode 1 false) ∈
      pictured.occurrences 0 false := by
    rw [pictured, occurrences, listOccurrences, listOccurrences, Element.toNode, occurrences]
    exact .tail _ (List.mem_append_right _ (List.mem_append_left _ List.mem_cons_self))
  have void : IsVoidInAnyCase (Tag.img "a.png" "").tag := by decide +kernel
  obtain ⟨-, written, -, small⟩ := void_written_iff accepted .standard place rfl void
  exact ⟨accepted, place, void, (written.mpr (small (.img "a.png" ""))).2⟩

/-- A line break in capitals is read from data, accepted with a text in it, and written with it. -/
theorem capital_break_filled :
    IsVoidInAnyCase "BR" ∧
      DataForm.ofData? (DataForm.toData (⟨"BR", [], [.text "x"], []⟩ : Element)) =
        some (⟨"BR", [], [.text "x"], []⟩ : Element) ∧
      (Node.element "BR" [] [.text "x"] []).validate = .ok () ∧
      ((Node.element "BR" [] [.text "x"] []).render .standard).html = "<BR>x</BR>" := by
  refine ⟨by decide +kernel, ?_, rfl, by decide +kernel⟩
  rfl

end Node

end AtomicMarkup
