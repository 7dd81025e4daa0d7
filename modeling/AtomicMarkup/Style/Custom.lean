import AtomicMarkup.Error
import AtomicMarkup.Style.Scope
import AtomicMarkup.Text.Blank
import AtomicMarkup.Text.Name

/-!
Properties outside the typed vocabulary. They are checked when they are made, so that neither a
name nor a value can end the rule that it is written in.
-/

namespace AtomicMarkup

structure CustomProperty where
  name : String
  value : String
  deriving DecidableEq

namespace CustomProperty

/-- The characters that would end a declaration, a rule or the stylesheet. -/
def isForbidden (c : Char) : Bool :=
  [';', '\x7b', '\x7d', '<'].contains c

/-- Makes a property. The name loses its capitals and the value its outer blanks. -/
def make (name value : String) : Except MarkupError CustomProperty :=
  if !Text.isPropertyName name then .error (.invalidPropertyName name)
  else if Text.allBlank value || value.toList.any isForbidden then
    .error (.invalidPropertyValue name value)
  else .ok ⟨Text.lowercase name, Text.trim value⟩

end CustomProperty

end AtomicMarkup
