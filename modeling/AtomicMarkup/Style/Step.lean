import AtomicMarkup.Style.Property

/-!
Steps of a style: a property, or a scope with the steps inside it. A list of steps is read in
order, and a step in nested scopes declares in the merge of them all.
-/

namespace AtomicMarkup

inductive StyleStep where
  | property (p : Property)
  | inside (scope : Scope) (steps : List StyleStep)

namespace StyleStep

mutual

def declarations (outer : Scope) : StyleStep → List Declaration
  | property p => p.declarations outer
  | inside scope steps => listDeclarations (outer.merge scope) steps

def listDeclarations (outer : Scope) : List StyleStep → List Declaration
  | [] => []
  | step :: rest => declarations outer step ++ listDeclarations outer rest

end

def media (query : MediaQuery) (steps : List StyleStep) : StyleStep :=
  inside (.ofMedia query) steps

def fromBreakpoint (b : Breakpoint) (steps : List StyleStep) : StyleStep :=
  media (.breakpoint b) steps

def belowBreakpoint (b : Breakpoint) (steps : List StyleStep) : StyleStep :=
  media (.below b) steps

def dark (steps : List StyleStep) : StyleStep :=
  media .dark steps

def print (steps : List StyleStep) : StyleStep :=
  media .print steps

def pseudo (p : Pseudo) (steps : List StyleStep) : StyleStep :=
  inside (.ofPseudo p) steps

def hover (steps : List StyleStep) : StyleStep :=
  pseudo .hover steps

def focus (steps : List StyleStep) : StyleStep :=
  pseudo .focus steps

def select (s : Selector) (steps : List StyleStep) : StyleStep :=
  inside (.ofSelector s) steps

end StyleStep

end AtomicMarkup
