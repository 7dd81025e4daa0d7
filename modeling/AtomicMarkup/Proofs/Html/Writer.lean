import AtomicMarkup.Proofs.Delimited
import AtomicMarkup.Proofs.Escape
import AtomicMarkup.Proofs.Html.Reader
import AtomicMarkup.Text.Name

/-!
Plain markup of trees that need no preparation: no fragments, no raw markup, no declarations, no
two texts next to each other. The reader gives such trees back from their markup, with whatever
characters in their texts and attribute values.
-/

namespace AtomicMarkup.Html

def writeAttribute (a : Attribute) : List Char :=
  ' ' :: a.name.toList ++
    match a.value with
    | .text value => '=' :: '\x22' :: value.toList.flatMap Text.attributeChar ++ ['\x22']
    | .flag => []

mutual

def writeNode : Node → List Char
  | .element tag attributes children _ =>
    '<' :: tag.toList ++ attributes.flatMap writeAttribute ++ '>' ::
      if isVoidTag tag then [] else writeNodes children ++ '<' :: '/' :: tag.toList ++ ['>']
  | .text s => s.toList.flatMap Text.contentChar
  | .raw s => s.toList
  | .fragment items => writeNodes items

def writeNodes : List Node → List Char
  | [] => []
  | node :: rest => writeNode node ++ writeNodes rest

end

theorem writeNodes_eq_flatMap (nodes : List Node) : writeNodes nodes = nodes.flatMap writeNode :=
  eq_flatMap_of_cons (by rw [writeNodes]) (fun _ _ => by rw [writeNodes]) nodes

def isText : Node → Bool
  | .text _ => true
  | _ => false

inductive Normal : List Node → Prop where
  | nil : Normal []
  | text {s : String} {rest : List Node} (nonempty : s ≠ "")
    (apart : ∀ next ∈ rest.head?, isText next = false) (after : Normal rest) :
    Normal (.text s :: rest)
  | element {tag : String} {attributes : List Attribute} {children rest : List Node}
    (tagged : Text.NameRule.tagName.accepts tag = true)
    (named : ∀ a ∈ attributes, Text.NameRule.attributeName.accepts a.name = true)
    (void : isVoidTag tag = true → children = [])
    (inside : Normal children) (after : Normal rest) :
    Normal (.element tag attributes children [] :: rest)

section Names

private theorem nameChar_of_rest {c : Char}
    (ok : Text.NameRule.attributeName.rest c = true) : isNameChar c = true := by
  have stops : [' ', '\t', '\n', '\x0c', '\r', '\x22', '\x27', '<', '>', '/', '='].all
      (fun d => !Text.NameRule.attributeName.rest d) = true := by decide
  have free : c ∉ [' ', '\t', '\n', '\x0c', '\r', '\x22', '\x27', '<', '>', '/', '='] := by
    intro member
    have stop := List.all_eq_true.mp stops c member
    rw [ok] at stop
    contradiction
  simpa [isNameChar, isSpace, and_assoc] using free

private theorem rest_of_first {c : Char} (ok : Text.NameRule.attributeName.first c = true) :
    Text.NameRule.attributeName.rest c = true := by
  simp [Text.NameRule.attributeName, Char.isAlphanum] at ok ⊢
  rcases ok with letter | other | other | other <;> simp_all

theorem nameChars_of_attributeName {s : String}
    (ok : Text.NameRule.attributeName.accepts s = true) :
    s.toList ≠ [] ∧ ∀ c ∈ s.toList, isNameChar c = true := by
  unfold Text.NameRule.accepts at ok
  cases chars : s.toList with
  | nil => rw [chars] at ok; contradiction
  | cons c cs =>
    rw [chars, Text.NameRule.acceptsChars, Bool.and_eq_true, List.all_eq_true] at ok
    refine ⟨List.cons_ne_nil c cs, ?_⟩
    intro d member
    rcases List.mem_cons.mp member with rfl | later
    · exact nameChar_of_rest (rest_of_first ok.1)
    · exact nameChar_of_rest (ok.2 d later)

theorem tagName_cases {s : String} (ok : Text.NameRule.tagName.accepts s = true) :
    ∃ c cs, s.toList = c :: cs ∧ c.isAlpha = true ∧ (∀ d ∈ c :: cs, isNameChar d = true) := by
  unfold Text.NameRule.accepts at ok
  cases chars : s.toList with
  | nil => rw [chars] at ok; contradiction
  | cons c cs =>
    rw [chars, Text.NameRule.acceptsChars, Bool.and_eq_true, List.all_eq_true] at ok
    obtain ⟨letter, later⟩ := ok
    refine ⟨c, cs, rfl, letter, ?_⟩
    intro d member
    apply nameChar_of_rest
    rcases List.mem_cons.mp member with rfl | inside
    · exact rest_of_first (Bool.or_eq_true_iff.mpr (.inl letter))
    · have ok := later d inside
      simp [Text.NameRule.tagName, Text.NameRule.attributeName] at ok ⊢
      rcases ok with ok | rfl <;> simp_all

end Names

section Escapes

theorem decode_cons {c : Char} {cs : List Char} (ordinary : c ≠ '&') :
    decode (c :: cs) = c :: decode cs := by
  rw [decode] <;> simp [ordinary]

theorem decode_contentChar (c : Char) (rest : List Char) :
    decode (Text.contentChar c ++ rest) = c :: decode rest := by
  unfold Text.contentChar
  split
  · rfl
  · rfl
  · rfl
  · next noAmpersand _ _ => exact decode_cons noAmpersand

theorem decode_attributeChar (c : Char) (rest : List Char) :
    decode (Text.attributeChar c ++ rest) = c :: decode rest := by
  unfold Text.attributeChar
  split
  · rfl
  · rfl
  · rfl
  · rfl
  · rfl
  · next noAmpersand _ _ _ _ => exact decode_cons noAmpersand

theorem decode_flatMap {escape : Char → List Char}
    (decoded : ∀ c rest, decode (escape c ++ rest) = c :: decode rest) (cs : List Char) :
    decode (cs.flatMap escape) = cs := by
  induction cs with
  | nil => rfl
  | cons c cs ih => rw [List.flatMap_cons, decoded, ih]

theorem content_head {s : String} (nonempty : s ≠ "") :
    ∃ c cs, s.toList.flatMap Text.contentChar = c :: cs ∧ c ≠ '<' := by
  cases chars : s.toList with
  | nil => exact absurd (String.toList_inj.mp chars) nonempty
  | cons d ds =>
    cases head : Text.contentChar d with
    | nil =>
      unfold Text.contentChar at head
      split at head <;> contradiction
    | cons c cs =>
      refine ⟨c, cs ++ ds.flatMap Text.contentChar, ?_, ?_⟩
      · rw [List.flatMap_cons, head, List.cons_append]
      · rintro rfl
        exact Text.not_mem_contentChar d (head ▸ List.mem_cons_self)

end Escapes

section Marks

def Closes (rest : List Char) : Prop :=
  ∃ c tail, rest = c :: tail ∧ (c = ' ' ∨ c = '>')

theorem Closes.stop {rest : List Char} (closes : Closes rest) :
    ∀ c ∈ rest.head?, isNameChar c = false := by
  obtain ⟨c, tail, rfl, border⟩ := closes
  apply forall_head?_cons
  rcases border with rfl | rfl <;> rfl

theorem closes_written (attributes : List Attribute) (rest : List Char) :
    Closes (attributes.flatMap writeAttribute ++ '>' :: rest) := by
  cases attributes with
  | nil => exact ⟨'>', rest, rfl, .inr rfl⟩
  | cons a attributes => exact ⟨' ', _, rfl, .inl rfl⟩

theorem readAttribute_written {a : Attribute} {rest : List Char}
    (named : Text.NameRule.attributeName.accepts a.name = true) (closes : Closes rest) :
    readAttribute ((writeAttribute a ++ rest).dropWhile isSpace) = some (a, rest) := by
  obtain ⟨nonempty, chars⟩ := nameChars_of_attributeName named
  obtain ⟨name, value⟩ := a
  dsimp only at nonempty chars
  have name_isEmpty : name.isEmpty = false := by
    rw [String.isEmpty_eq_false_iff]
    exact fun empty => nonempty (by rw [empty]; rfl)
  have noBlank (more : List Char) :
      (' ' :: name.toList ++ more).dropWhile isSpace = name.toList ++ more := by
    obtain ⟨c, cs, chars'⟩ := List.exists_cons_of_ne_nil nonempty
    have first := chars c (chars' ▸ List.mem_cons_self)
    have solid : isSpace c = false := by
      rw [isNameChar, Bool.not_eq_true', Bool.or_eq_false_iff] at first
      exact first.1
    rw [chars', List.cons_append, List.dropWhile_cons_of_pos rfl, List.cons_append,
      List.dropWhile_cons_of_neg (by rw [solid]; exact Bool.false_ne_true)]
  cases value with
  | text value =>
    have written : writeAttribute ⟨name, .text value⟩ ++ rest = ' ' :: name.toList ++
        '=' :: '\x22' :: (value.toList.flatMap Text.attributeChar ++ '\x22' :: rest) := by
      simp [writeAttribute]
    have closed : ∀ c ∈ ('\x22' :: rest).head?, (c != '\x22') = false := by simp
    have quoted : ∀ c ∈ value.toList.flatMap Text.attributeChar, (c != '\x22') = true := by
      intro c member
      rw [bne_iff_ne]
      rintro rfl
      exact Text.not_mem_flatMap (Text.not_mem_attributeChar (.inr rfl)) _ member
    have stop : ∀ c ∈ ('=' :: '\x22' ::
        (value.toList.flatMap Text.attributeChar ++ '\x22' :: rest)).head?,
        isNameChar c = false := forall_head?_cons rfl
    rw [written, noBlank, readAttribute, takeWhile_before chars stop, dropWhile_before chars stop]
    simp only [takeWhile_before quoted closed, dropWhile_before quoted closed,
      decode_flatMap decode_attributeChar, String.ofList_toList, name_isEmpty]
    rfl
  | flag =>
    have written : writeAttribute ⟨name, .flag⟩ ++ rest = ' ' :: name.toList ++ rest := by
      simp [writeAttribute]
    have stop := closes.stop
    rw [written, noBlank, readAttribute, takeWhile_before chars stop, dropWhile_before chars stop]
    obtain ⟨c, tail, rfl, border⟩ := closes
    rcases border with rfl | rfl <;> simp [name_isEmpty]

theorem readAttributes_closed {cs rest : List Char} (closed : cs.dropWhile isSpace = '>' :: rest) :
    readAttributes cs = some ([], rest) := by
  rw [readAttributes]
  split
  · next tail same =>
    rw [closed] at same
    rw [(List.cons.inj same).2]
  · next other => exact absurd closed (other rest)

theorem readAttributes_step {cs middle : List Char} {a : Attribute}
    (found : readAttribute (cs.dropWhile isSpace) = some (a, middle)) :
    readAttributes cs = (readAttributes middle).map fun (more, rest) => (a :: more, rest) := by
  rw [readAttributes]
  split
  · next tail closed =>
    rw [closed] at found
    contradiction
  · split
    · next none => rw [found] at none; contradiction
    · next b later same =>
      rw [found] at same
      obtain ⟨rfl, rfl⟩ := Prod.mk.inj (Option.some.inj same)
      cases readAttributes middle <;> rfl

theorem readAttributes_written {attributes : List Attribute}
    (named : ∀ a ∈ attributes, Text.NameRule.attributeName.accepts a.name = true)
    (rest : List Char) :
    readAttributes (attributes.flatMap writeAttribute ++ '>' :: rest) =
      some (attributes, rest) := by
  induction attributes with
  | nil => exact readAttributes_closed rfl
  | cons a attributes ih =>
    rw [List.flatMap_cons, List.append_assoc]
    have closes := closes_written attributes rest
    rw [readAttributes_step (readAttribute_written (named a List.mem_cons_self) closes),
      ih fun b member => named b (List.mem_cons_of_mem a member)]
    rfl

theorem readMark_start {tag : String} {attributes : List Attribute}
    (tagged : Text.NameRule.tagName.accepts tag = true)
    (named : ∀ a ∈ attributes, Text.NameRule.attributeName.accepts a.name = true)
    (rest : List Char) :
    readMark ('<' :: tag.toList ++ attributes.flatMap writeAttribute ++ '>' :: rest) =
      some (.start tag attributes [], rest) := by
  obtain ⟨c, cs, chars, letter, all⟩ := tagName_cases tagged
  have notSlash : c ≠ '/' := by rintro rfl; contradiction
  have stop := (closes_written attributes rest).stop
  have all : ∀ d ∈ cs, isNameChar d = true := fun d member => all d (List.mem_cons_of_mem c member)
  rw [chars, List.cons_append, List.cons_append, List.cons_append, List.cons_append,
    List.append_assoc, readMark, if_pos letter, dropWhile_before all stop,
    takeWhile_before all stop, readAttributes_written named, ← chars, String.ofList_toList]
  exact notSlash

theorem readMark_finish {tag : String} (tagged : Text.NameRule.tagName.accepts tag = true)
    (rest : List Char) :
    readMark ('<' :: '/' :: tag.toList ++ '>' :: rest) = some (.finish tag, rest) := by
  obtain ⟨c, cs, chars, -, all⟩ := tagName_cases tagged
  have stop : ∀ d ∈ ('>' :: rest).head?, isNameChar d = false := forall_head?_cons rfl
  rw [← chars] at all
  rw [List.cons_append, List.cons_append, readMark, dropWhile_before all stop,
    takeWhile_before all stop, String.ofList_toList]
  rfl

theorem readMark_text {s : String} (nonempty : s ≠ "") {rest : List Char}
    (edge : ∀ c ∈ rest.head?, c = '<') :
    readMark (s.toList.flatMap Text.contentChar ++ rest) = some (.text s, rest) := by
  have escaped : ∀ c ∈ s.toList.flatMap Text.contentChar, (c != '<') = true := by
    intro c member
    rw [bne_iff_ne]
    rintro rfl
    exact Text.not_mem_flatMap Text.not_mem_contentChar _ member
  have stop : ∀ c ∈ rest.head?, (c != '<') = false := by
    intro c first
    rw [edge c first]
    rfl
  obtain ⟨c, cs, head, ordinary⟩ := content_head nonempty
  rw [readMark, takeWhile_before escaped stop, dropWhile_before escaped stop,
    decode_flatMap decode_contentChar, String.ofList_toList]
  -- What is left says that the text is none of the three things that begin with a bracket.
  all_goals
    rw [head, List.cons_append]
    intros
    rename_i same
    exact ordinary (List.cons.inj same).1

end Marks

section Trees

theorem readFrom_mark {frames outer : List Frame} {done before : List Node} {cs rest : List Char}
    {mark : Mark} (nonempty : cs ≠ []) (found : readMark cs = some (mark, rest))
    (placed : place frames done mark = some (outer, before)) :
    readFrom frames done cs = readFrom outer before rest := by
  rw [readFrom, dif_neg nonempty]
  split
  · next none => rw [found] at none; contradiction
  · next same =>
    rw [found] at same
    obtain ⟨rfl, rfl⟩ := Prod.mk.inj (Option.some.inj same)
    rw [placed]

theorem head_written {nodes : List Node} (normal : Normal nodes)
    (apart : ∀ next ∈ nodes.head?, isText next = false) {rest : List Char}
    (edge : ∀ c ∈ rest.head?, c = '<') : ∀ c ∈ (writeNodes nodes ++ rest).head?, c = '<' := by
  cases normal with
  | nil => exact edge
  | text => exact nomatch apart _ rfl
  | element =>
    rw [writeNodes, writeNode]
    exact forall_head?_cons rfl

theorem readFrom_written {nodes : List Node} (normal : Normal nodes) (frames : List Frame)
    (done : List Node) {rest : List Char} (edge : ∀ c ∈ rest.head?, c = '<') :
    readFrom frames done (writeNodes nodes ++ rest) =
      readFrom frames (nodes.reverse ++ done) rest := by
  induction normal generalizing frames done rest with
  | nil => rfl
  | @text s nodes nonempty apart after ih =>
    obtain ⟨c, cs, head, -⟩ := content_head nonempty
    have mark := readMark_text nonempty (head_written after apart edge)
    rw [writeNodes, writeNode, List.append_assoc,
      readFrom_mark (by simp [head]) mark rfl, ih frames _ edge,
      List.reverse_cons, List.append_assoc]
    rfl
  | @element tag attributes children nodes tagged named void inside after ihInside ihAfter =>
    have later : (Node.element tag attributes children [] :: nodes).reverse ++ done =
        nodes.reverse ++ .element tag attributes children [] :: done := by
      rw [List.reverse_cons, List.append_assoc]
      rfl
    -- The start tag of a void element finishes it; any other is open until its end tag is read.
    cases isVoid : isVoidTag tag with
    | true =>
      obtain rfl := void isVoid
      have text : writeNodes (.element tag attributes [] [] :: nodes) ++ rest =
          '<' :: tag.toList ++ attributes.flatMap writeAttribute ++
            '>' :: (writeNodes nodes ++ rest) := by
        simp [writeNodes, writeNode, isVoid]
      have placed : place frames done (.start tag attributes []) =
          some (frames, .element tag attributes [] [] :: done) := by
        rw [place, if_pos isVoid]
      rw [text, readFrom_mark (by simp) (readMark_start tagged named _) placed,
        ihAfter frames _ edge, later]
    | false =>
      have text : writeNodes (.element tag attributes children [] :: nodes) ++ rest =
          '<' :: tag.toList ++ attributes.flatMap writeAttribute ++ '>' :: (writeNodes children ++
            ('<' :: '/' :: tag.toList ++ '>' :: (writeNodes nodes ++ rest))) := by
        simp [writeNodes, writeNode, isVoid]
      have opened : place frames done (.start tag attributes []) =
          some (⟨tag, attributes, done⟩ :: frames, []) := by
        rw [place, if_neg (by rw [isVoid]; exact Bool.false_ne_true)]
      have closed : place (⟨tag, attributes, done⟩ :: frames) (children.reverse ++ [])
          (.finish tag) = some (frames, .element tag attributes children [] :: done) := by
        rw [place, if_pos rfl, List.append_nil, List.reverse_reverse]
      have endTag : ∀ c ∈ ('<' :: '/' :: tag.toList ++
          '>' :: (writeNodes nodes ++ rest)).head?, c = '<' := forall_head?_cons rfl
      rw [text, readFrom_mark (by simp) (readMark_start tagged named _) opened,
        ihInside _ _ endTag,
        readFrom_mark (by simp) (readMark_finish tagged _) closed,
        ihAfter frames _ edge, later]

/-- Normal trees are read back from their markup. -/
theorem read_written {nodes : List Node} (normal : Normal nodes) :
    read (String.ofList (writeNodes nodes)) = some nodes := by
  have edge : ∀ c ∈ ([] : List Char).head?, c = '<' := by simp
  have whole := readFrom_written normal [] [] edge
  rw [List.append_nil, List.append_nil] at whole
  rw [read, String.toList_ofList, whole, readFrom, dif_pos rfl, List.reverse_reverse]
  rfl

end Trees

end AtomicMarkup.Html
