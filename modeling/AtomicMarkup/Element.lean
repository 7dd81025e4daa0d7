import AtomicMarkup.Error
import AtomicMarkup.Node
import AtomicMarkup.Style.Step
import AtomicMarkup.Text.Name

/-!
Building elements. The attributes of an element are a map from names to values in the order of
first setting; children and style declarations are appended. `Edit` names every step of building,
so that a whole construction is a list that can be reasoned about.
-/

namespace AtomicMarkup

namespace Element

def bare (tag : String) : Element :=
  ⟨tag, [], [], []⟩

/-- An element of any tag that has the form of one. The tag loses its capitals. -/
def custom (tag : String) : Except MarkupError Element :=
  if Text.NameRule.tagName.accepts tag then .ok (bare (Text.lowercase tag))
  else .error (.invalidTag tag)

def isVoid (e : Element) : Bool :=
  isVoidTag e.tag

/-- Puts a value under a name: in place of an earlier value, else at the end. -/
def setIn (name : String) (value : AttributeValue) : List Attribute → List Attribute
  | [] => [⟨name, value⟩]
  | a :: rest =>
    if a.name == name then ⟨name, value⟩ :: rest else a :: setIn name value rest

def set (e : Element) (name : String) (value : AttributeValue) : Element :=
  { e with attributes := setIn name value e.attributes }

/-- The text of an attribute; a flag has the empty one. -/
def get? (e : Element) (name : String) : Option String :=
  (e.attributes.find? (fun a => a.name == name)).map (fun a => a.value.content)

def setText (e : Element) (name value : String) : Element :=
  e.set name (.text value)

def flag (e : Element) (name : String) : Element :=
  e.set name .flag

def flagIf (e : Element) (name : String) (on : Bool) : Element :=
  if on then e.flag name else e

def addClass (e : Element) (classes : String) : Element :=
  match e.get? "class" with
  | none => e.setText "class" classes
  | some present =>
    e.setText "class" (if present.isEmpty then classes else present ++ " " ++ classes)

def append (e : Element) (nodes : List Node) : Element :=
  { e with children := e.children ++ nodes }

def addStyles (e : Element) (declarations : List Declaration) : Element :=
  { e with styles := e.styles ++ declarations }

inductive Edit where
  | setText (name value : String)
  | flag (name : String)
  | flagIf (name : String) (on : Bool)
  | id (value : String)
  | addClass (classes : String)
  | data (key value : String)
  | child (node : Node)
  | children (nodes : List Node)
  | text (s : String)
  | raw (s : String)
  | style (step : StyleStep)

/-- Applies a step of building. Styles are declared without restrictions of their own. -/
def edit (e : Element) : Edit → Element
  | .setText name value => e.setText name value
  | .flag name => e.flag name
  | .flagIf name on => e.flagIf name on
  | .id value => e.setText "id" value
  | .addClass classes => e.addClass classes
  | .data key value => e.setText ("data-" ++ key) value
  | .child node => e.append [node]
  | .children nodes => e.append nodes
  | .text s => e.append [.text s]
  | .raw s => e.append [.raw s]
  | .style step => e.addStyles (step.declarations .root)

def build (e : Element) (edits : List Edit) : Element :=
  edits.foldl edit e

end Element

end AtomicMarkup
