import AtomicMarkup.Proofs.Delimited
import AtomicMarkup.Proofs.Rendering

/-!
Fragments leave no trace in a rendering. Any of them can be replaced by its items in the list that
it stands in, and nodes that are added to a rendering one after another are the items of one
fragment. What is written once stays, so each step only appends to the markup.
-/

namespace AtomicMarkup

mutual

/-- The second tree is the first one with some of the fragments in it replaced by their items. -/
inductive Node.Unwrapped : Node → Node → Prop where
  | element (tag : String) (attributes : List Attribute) (styles : List Declaration)
    {children unwrapped : List Node} (inside : Node.ListUnwrapped children unwrapped) :
    Node.Unwrapped (.element tag attributes children styles)
      (.element tag attributes unwrapped styles)
  | text (s : String) : Node.Unwrapped (.text s) (.text s)
  | raw (s : String) : Node.Unwrapped (.raw s) (.raw s)
  | fragment {items unwrapped : List Node} (inside : Node.ListUnwrapped items unwrapped) :
    Node.Unwrapped (.fragment items) (.fragment unwrapped)

inductive Node.ListUnwrapped : List Node → List Node → Prop where
  | nil : Node.ListUnwrapped [] []
  | keep {node other : Node} {rest others : List Node} (first : Node.Unwrapped node other)
    (later : Node.ListUnwrapped rest others) : Node.ListUnwrapped (node :: rest) (other :: others)
  | unwrap {items unwrapped rest others : List Node} (inside : Node.ListUnwrapped items unwrapped)
    (later : Node.ListUnwrapped rest others) :
    Node.ListUnwrapped (.fragment items :: rest) (unwrapped ++ others)

end

namespace Node

theorem listOutline_eq_flatMap (depth : Nat) (nodes : List Node) :
    listOutline depth nodes = nodes.flatMap (outline depth) :=
  eq_flatMap_of_cons rfl (fun _ _ => by rw [listOutline]) nodes

mutual

theorem Unwrapped.outline_eq {node other : Node} (depth : Nat) :
    Unwrapped node other → node.outline depth = other.outline depth
  | .element tag attributes styles inside => by
    rw [outline, outline, inside.listOutline_eq (depth + 1)]
  | .text s => rfl
  | .raw s => rfl
  -- Depth is counted in elements, so that items are as deep as their fragment.
  | .fragment inside => by rw [outline, outline, inside.listOutline_eq depth]

theorem ListUnwrapped.listOutline_eq {nodes unwrapped : List Node} (depth : Nat) :
    ListUnwrapped nodes unwrapped → listOutline depth nodes = listOutline depth unwrapped
  | .nil => rfl
  | .keep first later => by
    rw [listOutline, listOutline, first.outline_eq depth, later.listOutline_eq depth]
  | .unwrap inside later => by
    rw [listOutline, outline, inside.listOutline_eq depth, later.listOutline_eq depth]
    simp only [listOutline_eq_flatMap, List.flatMap_append]

end

end Node

namespace Mark

theorem writeAll_append (t : ClassTable) (before after : List Mark) :
    writeAll t (before ++ after) =
      ((writeAll t before).1 ++ (writeAll (writeAll t before).2 after).1,
        (writeAll (writeAll t before).2 after).2) := by
  induction before generalizing t with
  | nil => rfl
  | cons mark rest ih => rw [List.cons_append, writeAll_cons, writeAll_cons, ih, List.cons_append]

end Mark

namespace Rendering

def addAll (r : Rendering) (nodes : List Node) : Rendering :=
  nodes.foldl add r

theorem add_eq (r : Rendering) (node : Node) :
    r.add node =
      ⟨r.html ++ String.join (Mark.writeAll r.sheet.table (node.outline 0)).1,
        { r.sheet with table := (Mark.writeAll r.sheet.table (node.outline 0)).2 }⟩ :=
  rfl

theorem add_fragment_cons (r : Rendering) (node : Node) (rest : List Node) :
    r.add (.fragment (node :: rest)) = (r.add node).add (.fragment rest) := by
  have marks : (Node.fragment (node :: rest)).outline 0 =
      node.outline 0 ++ (Node.fragment rest).outline 0 := by
    rw [Node.outline, Node.outline, Node.listOutline]
  rw [add_eq, marks, Mark.writeAll_append]
  simp [add_eq, String.append_assoc]

theorem addAll_eq (r : Rendering) (nodes : List Node) :
    r.addAll nodes = r.add (.fragment nodes) := by
  induction nodes generalizing r with
  | nil =>
    have nothing : (Node.fragment []).outline 0 = [] := by rw [Node.outline, Node.listOutline]
    rw [add_eq, nothing]
    simp [addAll, Mark.writeAll]
  | cons node rest ih =>
    rw [add_fragment_cons, ← ih]
    rfl

theorem html_prefix_add (r : Rendering) (node : Node) :
    r.html.toList <+: (r.add node).html.toList := by
  rw [add_eq, String.toList_append]
  exact List.prefix_append _ _

end Rendering

/-- Trees that differ in fragments only have one rendering, and so do a fragment and its items in
order. The markup grows from item to item. -/
theorem Node.render_fragments_invisible (options : RenderOptions) :
    (∀ node other : Node, node.Unwrapped other → node.render options = other.render options) ∧
    (∀ nodes unwrapped : List Node, ListUnwrapped nodes unwrapped →
      (Rendering.empty options).addAll nodes = (Rendering.empty options).addAll unwrapped) ∧
    (∀ nodes : List Node,
      (Rendering.empty options).addAll nodes = (Node.fragment nodes).render options) ∧
    (∀ (before : List Node) (next : Node),
      ((Rendering.empty options).addAll before).html.toList <+:
        ((Rendering.empty options).addAll (before ++ [next])).html.toList) := by
  refine ⟨?_, ?_, fun nodes => Rendering.addAll_eq _ nodes, ?_⟩
  · intro node other unwrapped
    rw [render, render, Rendering.add_eq, Rendering.add_eq, unwrapped.outline_eq 0]
  · intro nodes unwrapped unwraps
    rw [Rendering.addAll_eq, Rendering.addAll_eq, Rendering.add_eq, Rendering.add_eq,
      (Unwrapped.fragment unwraps).outline_eq 0]
  · intro before next
    rw [Rendering.addAll, Rendering.addAll, List.foldl_append]
    exact Rendering.html_prefix_add _ next

def Node.wrappedList : Node :=
  .element "ul" []
    [.fragment [.element "li" [] [.text "a"] [.plain "color" "red"],
      .fragment [.raw "<hr>", .fragment []]], .text "b"] [.plain "color" "blue"]

def Node.unwrappedList : Node :=
  .element "ul" []
    [.element "li" [] [.text "a"] [.plain "color" "red"], .raw "<hr>", .text "b"]
    [.plain "color" "blue"]

theorem Node.wrappedList_unwrapped : wrappedList.Unwrapped unwrappedList := by
  have item : Unwrapped (.element "li" [] [.text "a"] [.plain "color" "red"])
      (.element "li" [] [.text "a"] [.plain "color" "red"]) :=
    .element "li" [] _ (.keep (.text "a") .nil)
  have inner : ListUnwrapped [.raw "<hr>", .fragment []] [.raw "<hr>"] :=
    .keep (.raw "<hr>") (.unwrap .nil .nil)
  exact .element "ul" [] _
    (.unwrap (.keep item (.unwrap inner .nil)) (.keep (.text "b") .nil))

theorem Node.render_wrappedList :
    wrappedList.Unwrapped unwrappedList ∧
      ListUnwrapped [.fragment [.text "c", wrappedList]] [.text "c", unwrappedList] ∧
      wrappedList.render .standard = unwrappedList.render .standard ∧
      (Rendering.empty .standard).addAll [.fragment [.text "c", wrappedList]] =
        (Rendering.empty .standard).addAll [.text "c", unwrappedList] ∧
      (wrappedList.render .standard).html =
        "<ul class=\x22color-0\x22><li class=\x22color-1\x22>a</li><hr>b</ul>" := by
  have items : ListUnwrapped [.fragment [.text "c", wrappedList]] [.text "c", unwrappedList] :=
    .unwrap (.keep (.text "c") (.keep wrappedList_unwrapped .nil)) .nil
  obtain ⟨trees, lists, -⟩ := render_fragments_invisible .standard
  exact ⟨wrappedList_unwrapped, items, trees _ _ wrappedList_unwrapped, lists _ _ items,
    by decide +kernel⟩

end AtomicMarkup
