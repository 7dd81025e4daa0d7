import AtomicMarkup.Sheet.ClassTable
import AtomicMarkup.Sheet.Rule

/-!
Stylesheets under construction: the table of classes that a rendering has used so far, and the
layout in which it is written.
-/

namespace AtomicMarkup

structure Sheet where
  table : ClassTable
  layout : Layout

namespace Sheet

def empty (options : RenderOptions) : Sheet :=
  ⟨.empty options.naming options.classPrefix, options.layout⟩

def classesFor (s : Sheet) (styles : List Declaration) : List String × Sheet :=
  let (names, table) := s.table.internAll (Declaration.effective styles)
  (names, { s with table := table })

def size (s : Sheet) : Nat :=
  s.table.entries.length

/-- One rule for each class, in the order of first use. -/
def rules (s : Sheet) : List Rule :=
  s.table.entries.map fun entry => .ofClass entry.name entry.declaration s.layout

def groups (s : Sheet) : List RuleGroup :=
  RuleGroup.ofRules s.rules

def css (s : Sheet) : String :=
  RuleGroup.listCss s.layout s.groups

end Sheet

end AtomicMarkup
