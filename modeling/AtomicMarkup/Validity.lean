import AtomicMarkup.Error
import AtomicMarkup.Node
import AtomicMarkup.Text.Name

/-!
Validity of page trees. An element is checked before what it contains, and its own checks come in
a fixed order: the tag, the attributes, the selectors of its styles, and children of a void
element. The first failure in document order is reported.
-/

namespace AtomicMarkup

def checkTag (tag : String) : Except MarkupError Unit :=
  if Text.NameRule.tagName.accepts tag then .ok () else .error (.invalidTag tag)

def checkAttribute (tag : String) (a : Attribute) : Except MarkupError Unit :=
  if Text.NameRule.attributeName.accepts a.name then .ok ()
  else .error (.invalidAttribute tag a.name)

/-- Accepts a declaration without selector, or with one whose target has the form of one. -/
def checkStyle (tag : String) (d : Declaration) : Except MarkupError Unit :=
  match d.selector with
  | none => .ok ()
  | some selector =>
    if Text.NameRule.selectorTarget.accepts selector.target then .ok ()
    else .error (.invalidSelector tag selector.target)

namespace Element

def checkSelf (e : Element) : Except MarkupError Unit := do
  checkTag e.tag
  e.attributes.forM (checkAttribute e.tag)
  e.styles.forM (checkStyle e.tag)
  if isVoidTag e.tag && !e.children.isEmpty then throw (.voidElementChildren e.tag)

end Element

mutual

def Node.check (depth : Nat) : Node → Except MarkupError Unit
  | element tag attributes children styles =>
    if maxNestingDepth < depth then .error .nestedTooDeeply
    else do
      Element.checkSelf ⟨tag, attributes, children, styles⟩
      Node.checkAll (depth + 1) children
  | text _ => if maxNestingDepth < depth then .error .nestedTooDeeply else .ok ()
  | raw _ => if maxNestingDepth < depth then .error .nestedTooDeeply else .ok ()
  | fragment items =>
    if maxNestingDepth < depth then .error .nestedTooDeeply else Node.checkAll depth items

def Node.checkAll (depth : Nat) : List Node → Except MarkupError Unit
  | [] => .ok ()
  | node :: rest => do
    node.check depth
    Node.checkAll depth rest

end

def Node.validate (node : Node) : Except MarkupError Unit :=
  node.check 0

end AtomicMarkup
