import AtomicMarkup.Error
import AtomicMarkup.Node

/-!
The outline of a page tree: the marks that are written for it, in order. Fragments leave no mark,
void elements no end, and elements that are nested too deeply no trace at all. Outlines do not
depend on any option of a rendering.
-/

namespace AtomicMarkup

/-- A piece of written markup, before its classes are chosen. -/
inductive Mark where
  /-- A start tag, with the declarations that take effect on the element. -/
  | start (tag : String) (attributes : List Attribute) (styles : List Declaration)
  | finish (tag : String)
  | text (s : String)
  | raw (s : String)
  deriving DecidableEq

mutual

def Node.outline (depth : Nat) : Node → List Mark
  | element tag attributes children styles =>
    if maxNestingDepth < depth then []
    else
      let start := Mark.start tag attributes (Declaration.effective styles)
      if isVoidTag tag then [start]
      else start :: Node.listOutline (depth + 1) children ++ [.finish tag]
  | text s => [.text s]
  | raw s => [.raw s]
  | fragment items => Node.listOutline depth items

def Node.listOutline (depth : Nat) : List Node → List Mark
  | [] => []
  | node :: rest => node.outline depth ++ Node.listOutline depth rest

end

end AtomicMarkup
