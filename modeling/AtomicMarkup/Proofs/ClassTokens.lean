import AtomicMarkup.Proofs.Html.NormalForm
import AtomicMarkup.Proofs.VoidTags
import AtomicMarkup.Proofs.Words

/-!
Tokens of class attributes. A reader cuts the class attribute that it finds at five blanks, while
the classes that an element is given are cut at all of them before they are written. A written
class attribute has the words of the given classes and then the tokens of the generated ones; the
given classes are read as they were meant when they hold no blank of other kinds.
-/

namespace AtomicMarkup

namespace Html

/-- What a reader cuts an attribute value into. -/
def tokens (s : String) : List String :=
  (Text.tokens isSpace s.toList).map String.ofList

theorem isBlank_of_isSpace {c : Char} (space : isSpace c = true) : Text.isBlank c = true := by
  have each : ∀ d ∈ [' ', '\t', '\n', '\x0c', '\r'], Text.isBlank d = true := by
    simp [Text.isBlank]
  exact each c (List.contains_iff_mem.mp space)

theorem isSpace_of_visible {c : Char} (visible : Text.isBlank c = false) : isSpace c = false := by
  cases space : isSpace c with
  | false => rfl
  | true =>
    rw [isBlank_of_isSpace space] at visible
    contradiction

theorem tokens_intercalate (texts : List String) :
    tokens (" ".intercalate texts) = texts.flatMap tokens := by
  have blank : " ".toList = [' '] := rfl
  rw [tokens, String.toList_intercalate, blank, Text.tokens_intercalate rfl, List.flatMap_map,
    List.map_flatMap]
  rfl

theorem tokens_of_isWord {s : String} (word : Text.IsWord s) : tokens s = [s] := by
  have free : ∀ c ∈ s.toList, isSpace c = false :=
    fun c member => isSpace_of_visible (word.noBlank c member)
  rw [tokens, Text.tokens_eq_singleton word.nonempty free, List.map_singleton, String.ofList_toList]

theorem tokens_ne_nil {s : String} {c : Char} (member : c ∈ s.toList)
    (visible : Text.isBlank c = false) : tokens s ≠ [] := by
  rw [tokens, ne_eq, List.map_eq_nil_iff]
  exact Text.tokens_ne_nil member (isSpace_of_visible visible)

/-- The words of a text are its tokens just when all its blanks are such as a reader cuts at. -/
theorem words_eq_tokens_iff (s : String) :
    Text.words s = tokens s ↔ ∀ c ∈ s.toList, Text.isBlank c = true → isSpace c = true := by
  rw [Text.words, tokens, List.map_inj_right fun _ _ same => String.ofList_injective same]
  exact Text.tokens_eq_tokens_iff fun c => isBlank_of_isSpace

theorem flatMap_tokens_words (s : String) : (Text.words s).flatMap tokens = Text.words s := by
  rw [List.flatMap_congr fun word inside => tokens_of_isWord (Text.isWord_of_mem_words inside)]
  exact List.flatMap_singleton' _

/-- What is written for some classes: one attribute with the words of the given classes and the
generated ones, or none without either. -/
theorem exists_written (given : String) (generated : List String) :
    ∃ written : Option String,
      classAttributes given generated =
        (written.map fun text => (⟨"class", .text text⟩ : Attribute)).toList ∧
      (∀ value ∈ written, tokens value = Text.words given ++ generated.flatMap tokens) ∧
      (written = none ↔ Text.words given = [] ∧ generated = []) := by
  rw [classAttributes, ← List.append_eq_nil_iff]
  cases classes : Text.words given ++ generated with
  | nil => exact ⟨none, rfl, fun _ found => absurd found (Option.not_mem_none _), by simp⟩
  | cons first rest =>
    refine ⟨some (" ".intercalate (first :: rest)), rfl, ?_, by simp⟩
    intro value same
    obtain rfl := Option.some.inj same
    rw [tokens_intercalate, ← classes, List.flatMap_append, flatMap_tokens_words]

theorem normalAttributes_split {front back : List Attribute} {a : Attribute}
    (isClass : a.name = "class") (only : ∀ b ∈ front ++ back, b.name ≠ "class")
    (generated : List String) :
    normalAttributes (front ++ a :: back) generated =
      front ++ classAttributes a.value.content generated ++ back := by
  have kept {others : List Attribute} (apart : ∀ b ∈ others, b.name ≠ "class") :
      (others.flatMap fun b => if b.name == "class" then
        classAttributes b.value.content generated else [b]) = others := by
    rw [List.flatMap_congr fun b inside => if_neg (by simpa using apart b inside)]
    exact List.flatMap_singleton' others
  obtain ⟨ahead, behind⟩ := List.forall_mem_append.mp only
  have classed : (front ++ a :: back).any (fun b => b.name == "class") = true := by
    simp [isClass]
  rw [normalAttributes, if_pos classed, List.flatMap_append, List.flatMap_cons, kept ahead,
    kept behind, if_pos (by simpa using isClass), List.append_assoc]

/-- What a reader finds in a text in front of a rest: a class attribute of a value, or, where none
is written, nothing. -/
def FindsClass (written : Option String) (cs rest : List Char) : Prop :=
  match written with
  | none => cs = rest
  | some value => readAttribute (cs.dropWhile isSpace) = some (⟨"class", .text value⟩, rest)

theorem findsClass_written (written : Option String) {rest : List Char} (closes : Closes rest) :
    FindsClass written ((written.map fun text =>
      (⟨"class", .text text⟩ : Attribute)).toList.flatMap writeAttribute ++ rest) rest := by
  cases written with
  | none => exact List.nil_append rest
  | some value =>
    rw [Option.map_some, Option.toList_some, List.flatMap_singleton]
    exact readAttribute_written
      (show Text.NameRule.attributeName.accepts "class" = true by decide) closes

/-- What a reader finds is what it would find in the given classes themselves, followed by the
generated ones, just when it cuts at every blank of the given classes. -/
theorem tokens_kept_iff {given : String} {generated : List String} {written : Option String}
    (read : ∀ value ∈ written, tokens value = Text.words given ++ generated)
    (absent : written = none ↔ Text.words given = [] ∧ generated = []) :
    ((∀ value ∈ written, tokens value = tokens given ++ generated) ∧
        (written = none ↔ tokens given = [] ∧ generated = [])) ↔
      ∀ c ∈ given.toList, Text.isBlank c = true → isSpace c = true := by
  rw [← words_eq_tokens_iff]
  constructor
  · rintro ⟨kept, keptAbsent⟩
    cases written with
    | none => exact (absent.mp rfl).1.trans (keptAbsent.mp rfl).1.symm
    | some value =>
      have both := (read value rfl).symm.trans (kept value rfl)
      exact List.append_cancel_right both
  · intro same
    rw [same] at read absent
    exact ⟨read, absent⟩

end Html

theorem ClassTable.exists_mem_nextName (t : ClassTable) (property : String) :
    ∃ c ∈ (t.nextName property).toList, Text.isBlank c = false := by
  rw [nextName]
  split
  · exact ⟨'-', by simp, rfl⟩
  · exact ⟨'c', by simp, rfl⟩

theorem ClassTable.WellFormed.tokens_ne_nil {t : ClassTable} (wf : t.WellFormed)
    {ds : List Declaration} {name : String} (member : name ∈ t.classesOf ds) :
    Html.tokens name ≠ [] := by
  obtain ⟨entry, inside, rfl⟩ := exists_entry_of_mem_classesOf member
  obtain ⟨before, after, entries⟩ := List.append_of_mem inside
  obtain ⟨c, written, visible⟩ :=
    exists_mem_nextName { t with entries := before } entry.declaration.property
  rw [← wf.named before entry after entries] at written
  exact Html.tokens_ne_nil written visible

theorem ClassTable.WellFormed.flatMap_tokens_eq_nil_iff {t : ClassTable} (wf : t.WellFormed)
    (ds : List Declaration) :
    (t.classesOf ds).flatMap Html.tokens = [] ↔ t.classesOf ds = [] := by
  rw [List.flatMap_eq_nil_iff]
  constructor
  · intro empty
    by_contra classed
    obtain ⟨name, member⟩ := List.exists_mem_of_ne_nil _ classed
    exact wf.tokens_ne_nil member (empty name member)
  · intro unclassed
    rw [unclassed]
    exact List.forall_mem_nil _

theorem Element.toList_startTag {e : Element} {front back : List Attribute} {a : Attribute}
    (attributes : e.attributes = front ++ a :: back) (isClass : a.name = "class")
    (only : ∀ b ∈ front ++ back, b.name ≠ "class") (sheet : Sheet) :
    (e.startTag sheet).toList = '<' :: e.tag.toList ++ front.flatMap Html.writeAttribute ++
      ((Html.classAttributes a.value.content (sheet.classesOf e)).flatMap Html.writeAttribute ++
        (back.flatMap Html.writeAttribute ++ ['>'])) := by
  have own : sheet.table.classesOf (Declaration.effective e.styles) = sheet.classesOf e := rfl
  rw [startTag, startMark, Mark.textWith, String.toList_append, String.toList_append,
    String.toList_append, Html.toList_attributesText, attributes, own,
    Html.normalAttributes_split isClass only]
  simp

namespace Node

theorem exists_startTag_around {node : Node} (options : RenderOptions) {e : Element}
    (rendered : e ∈ node.renderedElements) :
    ∃ ahead behind, (node.render options).html =
      ahead ++ e.startTag (node.render options).sheet ++ behind := by
  have starts : e.startMark ∈ (node.outline 0).filter Mark.isStart := by
    rw [node.outline_starts 0]
    exact List.mem_map_of_mem rendered
  obtain ⟨before, after, outline⟩ := List.append_of_mem (List.mem_filter.mp starts).1
  rw [render_html, outline, List.map_append, List.map_cons, String.join_append, String.join_cons,
    ← String.append_assoc]
  exact ⟨_, _, rfl⟩

/-- In the place of the class attribute of a rendered element a reader finds one whose tokens are
the words of the given classes and behind them the tokens of the generated ones, or nothing when
there are neither. The words are the tokens that a reader finds in the given classes themselves if
and only if no blank stands in them but those at which it cuts. -/
theorem class_tokens_iff {node : Node} (options : RenderOptions) {e : Element}
    (rendered : e ∈ node.renderedElements) {front back : List Attribute} {a : Attribute}
    (attributes : e.attributes = front ++ a :: back) (isClass : a.name = "class")
    (only : ∀ b ∈ front ++ back, b.name ≠ "class") :
    let given := a.value.content
    let generated := ((node.render options).sheet.classesOf e).flatMap Html.tokens
    ∃ written : Option String,
      (∃ ahead cs behind, (node.render options).html.toList =
          ahead ++ '<' :: e.tag.toList ++ front.flatMap Html.writeAttribute ++ cs ∧
        Html.FindsClass written cs (back.flatMap Html.writeAttribute ++ '>' :: behind)) ∧
      (∀ value ∈ written, Html.tokens value = Text.words given ++ generated) ∧
      (written = none ↔ Text.words given = [] ∧ generated = []) ∧
      ((∀ value ∈ written, Html.tokens value = Html.tokens given ++ generated) ∧
          (written = none ↔ Html.tokens given = [] ∧ generated = []) ↔
        ∀ c ∈ given.toList, Text.isBlank c = true → Html.isSpace c = true) := by
  intro given generated
  obtain ⟨ahead, behind, html⟩ := exists_startTag_around options rendered
  obtain ⟨written, place, read, absent⟩ :=
    Html.exists_written given ((node.render options).sheet.classesOf e)
  have unread : generated = [] ↔ (node.render options).sheet.classesOf e = [] :=
    (node.render_wellFormed options).flatMap_tokens_eq_nil_iff _
  rw [← unread] at absent
  refine ⟨written, ⟨ahead.toList, _, behind.toList, ?_,
    Html.findsClass_written written (Html.closes_written back behind.toList)⟩, read, absent,
    Html.tokens_kept_iff read absent⟩
  rw [html, String.toList_append, String.toList_append,
    Element.toList_startTag attributes isClass only, place]
  simp

end Node

namespace Element

def banner : Element :=
  ⟨"div", [⟨"id", .text "x"⟩, ⟨"class", .text " a&b\tcard "⟩, ⟨"hidden", .flag⟩], [],
    [.plain "color" "red"]⟩

theorem class_tokens_banner :
    banner ∈ banner.toNode.renderedElements ∧
      (∀ c ∈ " a&b\tcard ".toList, Text.isBlank c = true → Html.isSpace c = true) ∧
      ∃ written : Option String, written ≠ none ∧
        (∃ ahead cs behind, (banner.toNode.render .standard).html.toList =
            ahead ++ '<' :: "div".toList ++ Html.writeAttribute ⟨"id", .text "x"⟩ ++ cs ∧
          Html.FindsClass written cs (Html.writeAttribute ⟨"hidden", .flag⟩ ++ '>' :: behind)) ∧
        ∀ value ∈ written, Html.tokens value = ["a&b", "card", "color-0"] := by
  have elements : banner.toNode.renderedElements = [banner] := rfl
  have rendered : banner ∈ banner.toNode.renderedElements :=
    elements ▸ List.mem_singleton_self banner
  have only : ∀ b ∈ [⟨"id", .text "x"⟩] ++ [(⟨"hidden", .flag⟩ : Attribute)],
      b.name ≠ "class" := by decide
  have plain : ∀ c ∈ " a&b\tcard ".toList, Text.isBlank c = true → Html.isSpace c = true :=
    (Html.words_eq_tokens_iff _).mp (by decide +kernel)
  have classes : ((banner.toNode.render .standard).sheet.classesOf banner).flatMap Html.tokens =
      ["color-0"] := by decide +kernel
  have given : Html.tokens " a&b\tcard " = ["a&b", "card"] := by decide +kernel
  obtain ⟨written, place, -, -, kept⟩ := Node.class_tokens_iff .standard rendered rfl rfl only
  obtain ⟨read, absent⟩ := kept.mpr plain
  rw [AttributeValue.content, given] at absent
  refine ⟨rendered, plain, written, fun none => by simpa using (absent.mp none).1, place, ?_⟩
  intro value found
  rw [read value found, AttributeValue.content, given, classes]
  rfl

def joined : Element :=
  ⟨"p", [⟨"class", .text "a\u00a0b"⟩], [], []⟩

/-- A reader cuts the given class nowhere, and finds two classes in its place. -/
theorem class_split_at_noBreakSpace :
    joined.toNode.validate = .ok () ∧
      (joined.toNode.render .standard).html = "<p class=\x22a b\x22></p>" ∧
      Html.tokens "a\u00a0b" = ["a\u00a0b"] ∧ Html.tokens "a b" = ["a", "b"] := by
  refine ⟨rfl, ?_⟩
  decide +kernel

end Element

end AtomicMarkup
