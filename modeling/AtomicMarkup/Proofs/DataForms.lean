import AtomicMarkup.Data.Pages

/-!
Data as a form of pages. What is written for a value is read as that value: fields that are left
out are those that a reader supplies, and null is written only where it is read as what it stands
for. Reading and writing therefore bring any data that can be read into a normal form, which is
read as the same value and does not change again.
-/

namespace AtomicMarkup

/-- A type whose values are read from what is written for them. -/
class ReadsBack (α : Type) [DataForm α] : Prop where
  ofData?_toData : ∀ x : α, ofData? (toData x) = some x

class Present (α : Type) [DataForm α] : Prop where
  toData_ne_null : ∀ x : α, toData x ≠ .null

export ReadsBack (ofData?_toData)
export Present (toData_ne_null)

attribute [simp] ofData?_toData

section Values

instance : ReadsBack String :=
  ⟨fun _ => rfl⟩

instance : Present String :=
  ⟨nofun⟩

instance : ReadsBack UInt16 where
  ofData?_toData n := by
    have bound : (n.toNat : Int) < 65536 := by
      have small : n.toNat < 2 ^ 16 := n.toNat_lt
      omega
    have written : toData n = .int n.toNat := rfl
    have read (d : Data) : (ofData? d : Option UInt16) =
        (d.natBelow? UInt16.size).map UInt16.ofNat := rfl
    simp [written, read, Data.natBelow?, bound]

variable {α : Type} [DataForm α] [ReadsBack α]

theorem mapM_ofData?_toData (items : List α) :
    (items.map toData).mapM ofData? = some items := by
  induction items with
  | nil => rfl
  | cons x rest ih => simp [ih]

instance : ReadsBack (List α) :=
  ⟨mapM_ofData?_toData⟩

instance [Present α] : ReadsBack (Option α) where
  ofData?_toData
    | none => rfl
    | some x => by
      have written : (toData (some x) : Data) = toData x := rfl
      rw [written]
      cases form : (toData x : Data) with
      | null => exact absurd form (toData_ne_null x)
      | _ =>
        have read := ofData?_toData x
        rw [form] at read
        simp only [DataForm.ofData?] at read ⊢
        rw [read]
        rfl

end Values

namespace Members

def ofFields (fields : List (String × Option Data)) : Members :=
  ⟨fields.filterMap fun (name, value) => value.map fun d => (name, d), false⟩

/-- A field is found under its name, unless it was left out. -/
theorem lookup_ofFields {fields : List (String × Option Data)}
    (distinct : (fields.map fun f => f.1).Nodup) (name : String) :
    (ofFields fields).values.lookup name = (fields.lookup name).join := by
  induction fields with
  | nil => rfl
  | cons field rest ih =>
    obtain ⟨first, value⟩ := field
    obtain ⟨new, distinct⟩ := List.nodup_cons.mp distinct
    have later := ih distinct
    cases value with
    | some d =>
      by_cases same : name = first
      · subst same
        simp [ofFields]
      · have other : (name == first) = false := by simpa using same
        simpa [ofFields, List.lookup_cons, other] using later
    | none =>
      by_cases same : name = first
      · subst same
        have missing : rest.lookup name = none := by
          rw [List.lookup_eq_none_iff]
          intro f inside
          have named : f.1 ∈ rest.map fun f => f.1 := List.mem_map.mpr ⟨f, inside, rfl⟩
          refine bne_iff_ne.mpr ?_
          rintro rfl
          exact new named
        simpa [ofFields, missing] using later
      · have other : (name == first) = false := by simpa using same
        simpa [ofFields, List.lookup_cons, other] using later

variable {α : Type} [DataForm α] [ReadsBack α]
variable {fields : List (String × Option Data)} {name : String}

theorem required_ofFields {x : α} (distinct : (fields.map fun f => f.1).Nodup)
    (given : fields.lookup name = some (some (toData x))) :
    (ofFields fields).required name = some x := by
  rw [required, lookup_ofFields distinct, given]
  exact ofData?_toData x

theorem defaulted_ofFields {x default : α} {value : Option Data}
    (distinct : (fields.map fun f => f.1).Nodup) (given : fields.lookup name = some value)
    (written : value = some (toData x) ∨ value = none ∧ x = default) :
    (ofFields fields).defaulted name default = some x := by
  rw [defaulted, lookup_ofFields distinct, given]
  obtain rfl | ⟨rfl, rfl⟩ := written
  · exact ofData?_toData x
  · rfl

theorem defaulted_map_ofFields [Present α] {x : Option α}
    (distinct : (fields.map fun f => f.1).Nodup)
    (given : fields.lookup name = some (x.map toData)) :
    (ofFields fields).defaulted name none = some x := by
  apply defaulted_ofFields distinct given
  cases x with
  | none => exact .inr ⟨rfl, rfl⟩
  | some x => exact .inl rfl

theorem defaulted_list_ofFields {items : List α} (distinct : (fields.map fun f => f.1).Nodup)
    (given : fields.lookup name = some (Data.unlessEmpty items)) :
    (ofFields fields).defaulted name [] = some items := by
  apply defaulted_ofFields distinct given
  cases items with
  | nil => exact .inr ⟨rfl, rfl⟩
  | cons x rest => exact .inl rfl

theorem pair_ofFields {β γ : Type} [DataForm β] [ReadsBack β] (first second : String)
    (make : α → β → γ) (x : α) (y : β) (distinct : first ≠ second) :
    let m := ofFields [(first, some (toData x)), (second, some (toData y))]
    (do return make (← m.required first) (← m.required second)) = some (make x y) := by
  intro m
  have other : (second == first) = false := by simpa using Ne.symm distinct
  have names : [first, second].Nodup := by simp [distinct]
  have firstRead : m.required first = some x := required_ofFields names (by simp)
  have secondRead : m.required second = some y :=
    required_ofFields names (by simp [List.lookup_cons, other])
  rw [firstRead, secondRead]
  rfl

end Members

theorem Selector.ofData?_toData (s : Selector) : ofData? (toData s) = some s := by
  cases s <;> rfl

instance : ReadsBack Selector :=
  ⟨Selector.ofData?_toData⟩

instance : Present Selector where
  toData_ne_null s := by cases s <;> nofun

theorem Declaration.ofData?_toData (d : Declaration) : ofData? (toData d) = some d := by
  let fields : List (String × Option Data) :=
    [("property", some (toData d.property)), ("value", some (toData d.value)),
      ("media", d.media.map toData), ("selector", d.selector.map toData),
      ("pseudo", d.pseudo.map toData)]
  let m := Members.ofFields fields
  have distinct : (fields.map fun f => f.1).Nodup := by simp [fields]
  have property : m.required "property" = some d.property :=
    Members.required_ofFields distinct rfl
  have value : m.required "value" = some d.value := Members.required_ofFields distinct rfl
  have media : m.defaulted "media" none = some d.media :=
    Members.defaulted_map_ofFields distinct rfl
  have selector : m.defaulted "selector" none = some d.selector :=
    Members.defaulted_map_ofFields distinct rfl
  have pseudo : m.defaulted "pseudo" none = some d.pseudo :=
    Members.defaulted_map_ofFields distinct rfl
  have read : ofData? (toData d) = (do
      return (⟨← m.required "property", ← m.required "value", ← m.defaulted "media" none,
        ← m.defaulted "selector" none, ← m.defaulted "pseudo" none⟩ : Declaration)) := rfl
  rw [read, property, value, media, selector, pseudo]
  rfl

instance : ReadsBack Declaration :=
  ⟨Declaration.ofData?_toData⟩

instance : ReadsBack AttributeValue where
  ofData?_toData v := by cases v <;> rfl

theorem Attribute.ofData?_toData (a : Attribute) : ofData? (toData a) = some a :=
  Members.pair_ofFields "name" "value" Attribute.mk a.name a.value (by decide)

instance : ReadsBack Attribute :=
  ⟨Attribute.ofData?_toData⟩

theorem Node.childrenOfMembers?_eq (members : List (String × Data)) :
    Node.childrenOfMembers? members =
      match members.lookup "children" with
      | none => some []
      | some d => Node.itemsOfData? d := by
  induction members with
  | nil => rw [Node.childrenOfMembers?]; rfl
  | cons member rest ih =>
    obtain ⟨name, d⟩ := member
    by_cases same : name = "children"
    · subst same
      simp [Node.childrenOfMembers?]
    · have other : ("children" == name) = false := by simpa using Ne.symm same
      simp [Node.childrenOfMembers?, List.lookup_cons, same, other, ih]

theorem Element.ofData?_fieldsToData (tag : String) (attributes : List Attribute)
    (children : List Node) (styles : List Declaration)
    (items : Node.allOfData? (Node.listToData children) = some children) :
    Element.ofData? (Element.fieldsToData tag attributes (Node.listToData children) styles) =
      some ⟨tag, attributes, children, styles⟩ := by
  let nodes := Node.listToData children
  let fields : List (String × Option Data) :=
    [("tag", some (toData tag)), ("attributes", Data.unlessEmpty attributes),
      ("children", if nodes.isEmpty then none else some (.list nodes)),
      ("styles", Data.unlessEmpty styles)]
  let m := Members.ofFields fields
  have distinct : (fields.map fun f => f.1).Nodup := by simp [fields]
  have tagRead : m.required "tag" = some tag := Members.required_ofFields distinct rfl
  have attributesRead : m.defaulted "attributes" [] = some attributes :=
    Members.defaulted_list_ofFields distinct rfl
  have stylesRead : m.defaulted "styles" [] = some styles :=
    Members.defaulted_list_ofFields distinct rfl
  have childrenRead : Node.childrenOfMembers? m.values = some children := by
    have found : m.values.lookup "children" =
        if nodes.isEmpty then none else some (.list nodes) := by
      rw [Members.lookup_ofFields distinct]
      rfl
    rw [Node.childrenOfMembers?_eq, found]
    cases children with
    | nil => rfl
    | cons node rest =>
      have listed : nodes.isEmpty = false := by simp [nodes, Node.listToData]
      rw [listed, if_neg Bool.false_ne_true]
      simp only [Node.itemsOfData?]
      exact items
  have written : Element.fieldsToData tag attributes nodes styles = .record m.values := rfl
  have read : Element.ofData? (.record m.values) = (do
      let children ← Node.childrenOfMembers? m.values
      return (⟨← m.required "tag", ← m.defaulted "attributes" [], children,
        ← m.defaulted "styles" []⟩ : Element)) := by
    rw [Element.ofData?]
    rfl
  rw [written, read, childrenRead, tagRead, attributesRead, stylesRead]
  rfl

mutual

theorem Node.ofData?_toData : (node : Node) → Node.ofData? node.toData = some node
  | .element tag attributes children styles => by
    have items := Node.allOfData?_listToData children
    have read := Element.ofData?_fieldsToData tag attributes children styles items
    rw [Node.toData, Data.variant, Node.ofData?, read]
    rfl
  | .text s => by
    rw [Node.toData, Data.variant, Node.ofData?]
    rfl
  | .raw s => by
    rw [Node.toData, Data.variant, Node.ofData?]
    rfl
  | .fragment items => by
    have read := Node.allOfData?_listToData items
    rw [Node.toData, Data.variant, Node.ofData?, Node.itemsOfData?, read]
    rfl

theorem Node.allOfData?_listToData :
    (nodes : List Node) → Node.allOfData? (Node.listToData nodes) = some nodes
  | [] => by rw [Node.listToData, Node.allOfData?]
  | node :: rest => by
    have first := Node.ofData?_toData node
    have later := Node.allOfData?_listToData rest
    rw [Node.listToData, Node.allOfData?, first, later]
    rfl

end

instance : ReadsBack Node :=
  ⟨Node.ofData?_toData⟩

theorem Element.ofData?_toData (e : Element) : ofData? (toData e) = some e :=
  Element.ofData?_fieldsToData e.tag e.attributes e.children e.styles
    (Node.allOfData?_listToData e.children)

instance : ReadsBack Element :=
  ⟨Element.ofData?_toData⟩

instance : ReadsBack MetaTag where
  ofData?_toData t :=
    Members.pair_ofFields "name" "content" MetaTag.mk t.name t.content (by decide)

instance : ReadsBack WebFont where
  ofData?_toData f :=
    Members.pair_ofFields "family" "weights" WebFont.mk f.family f.weights (by decide)

theorem Head.ofData?_toData (h : Head) : ofData? (toData h) = some h := by
  let fields : List (String × Option Data) :=
    [("title", some (toData h.title)), ("charset", some (toData h.charset)),
      ("viewport", some (toData h.viewport)), ("description", h.description.map toData),
      ("author", h.author.map toData), ("meta", Data.unlessEmpty h.metaTags),
      ("stylesheets", Data.unlessEmpty h.stylesheets), ("fonts", Data.unlessEmpty h.fonts)]
  let m := Members.ofFields fields
  have distinct : (fields.map fun f => f.1).Nodup := by simp [fields]
  have title : m.required "title" = some h.title := Members.required_ofFields distinct rfl
  have charset : m.defaulted "charset" Head.standardCharset = some h.charset :=
    Members.defaulted_ofFields distinct rfl (.inl rfl)
  -- A head without viewport has a null one; left out, it would be read as the usual one.
  have viewport : m.defaulted "viewport" (some Head.standardViewport) = some h.viewport :=
    Members.defaulted_ofFields distinct rfl (.inl rfl)
  have description : m.defaulted "description" none = some h.description :=
    Members.defaulted_map_ofFields distinct rfl
  have author : m.defaulted "author" none = some h.author :=
    Members.defaulted_map_ofFields distinct rfl
  have metaTags : m.defaulted "meta" [] = some h.metaTags :=
    Members.defaulted_list_ofFields distinct rfl
  have stylesheets : m.defaulted "stylesheets" [] = some h.stylesheets :=
    Members.defaulted_list_ofFields distinct rfl
  have fonts : m.defaulted "fonts" [] = some h.fonts :=
    Members.defaulted_list_ofFields distinct rfl
  have read : ofData? (toData h) = (do
      return (⟨← m.required "title", ← m.defaulted "charset" Head.standardCharset,
        ← m.defaulted "viewport" (some Head.standardViewport), ← m.defaulted "description" none,
        ← m.defaulted "author" none, ← m.defaulted "meta" [], ← m.defaulted "stylesheets" [],
        ← m.defaulted "fonts" []⟩ : Head)) := rfl
  rw [read, title, charset, viewport, description, author, metaTags, stylesheets, fonts]
  rfl

instance : ReadsBack Head :=
  ⟨Head.ofData?_toData⟩

theorem Document.ofData?_toData (d : Document) : ofData? (toData d) = some d := by
  let fields : List (String × Option Data) :=
    [("lang", d.language.map toData), ("head", some (toData d.head)),
      ("body", some (toData d.body))]
  let m := Members.ofFields fields
  have distinct : (fields.map fun f => f.1).Nodup := by simp [fields]
  have language : m.defaulted "lang" none = some d.language :=
    Members.defaulted_map_ofFields distinct rfl
  have head : m.required "head" = some d.head := Members.required_ofFields distinct rfl
  have body : m.required "body" = some d.body := Members.required_ofFields distinct rfl
  have read : ofData? (toData d) = (do
      return (⟨← m.defaulted "lang" none, ← m.required "head", ← m.required "body"⟩ :
        Document)) := rfl
  rw [read, language, head, body]
  rfl

instance : ReadsBack Document :=
  ⟨Document.ofData?_toData⟩

def normalForm? (α : Type) [DataForm α] (data : Data) : Option Data :=
  (ofData? data : Option α).map toData

section NormalForms

variable {α : Type} [DataForm α] [ReadsBack α]

theorem bind_ofData?_normalForm? (data : Data) :
    (normalForm? α data).bind ofData? = (ofData? data : Option α) := by
  rw [normalForm?]
  cases (ofData? data : Option α) with
  | none => rfl
  | some x => exact ofData?_toData x

theorem bind_normalForm?_normalForm? (data : Data) :
    (normalForm? α data).bind (normalForm? α) = normalForm? α data := by
  rw [normalForm?]
  cases (ofData? data : Option α) with
  | none => rfl
  | some x =>
    have again : normalForm? α (toData x) = some (toData x) := by simp [normalForm?]
    exact again

theorem normalForm?_eq_iff (data other : Data) :
    normalForm? α data = normalForm? α other ↔ (ofData? data : Option α) = ofData? other := by
  constructor
  · intro same
    rw [← bind_ofData?_normalForm? data, same, bind_ofData?_normalForm?]
  · intro same
    rw [normalForm?, normalForm?, same]

end NormalForms

/-- Documents and all that is in them are read from what is written for them. Whatever is read as
a document or a node has a normal form, which is read as the same value and is its own normal form;
data of the same value have the same one. -/
theorem Document.data_roundTrip :
    ((∀ d : Document, ofData? (toData d) = some d) ∧ (∀ h : Head, ofData? (toData h) = some h) ∧
      (∀ e : Element, ofData? (toData e) = some e) ∧ (∀ n : Node, ofData? (toData n) = some n) ∧
      (∀ a : Attribute, ofData? (toData a) = some a) ∧
      (∀ d : Declaration, ofData? (toData d) = some d) ∧
      (∀ s : Selector, ofData? (toData s) = some s)) ∧
    (∀ data : Data,
      (normalForm? Document data).bind ofData? = (ofData? data : Option Document) ∧
      (normalForm? Document data).bind (normalForm? Document) = normalForm? Document data ∧
      ∀ other, normalForm? Document data = normalForm? Document other ↔
        (ofData? data : Option Document) = ofData? other) ∧
    (∀ data : Data,
      (normalForm? Node data).bind ofData? = (ofData? data : Option Node) ∧
      (normalForm? Node data).bind (normalForm? Node) = normalForm? Node data ∧
      ∀ other, normalForm? Node data = normalForm? Node other ↔
        (ofData? data : Option Node) = ofData? other) := by
  refine ⟨?_, ?_, ?_⟩
  · exact ⟨Document.ofData?_toData, Head.ofData?_toData, Element.ofData?_toData,
      Node.ofData?_toData, Attribute.ofData?_toData, Declaration.ofData?_toData,
      Selector.ofData?_toData⟩
  · intro data
    exact ⟨bind_ofData?_normalForm? data, bind_normalForm?_normalForm? data,
      normalForm?_eq_iff data⟩
  · intro data
    exact ⟨bind_ofData?_normalForm? data, bind_normalForm?_normalForm? data,
      normalForm?_eq_iff data⟩

end AtomicMarkup
