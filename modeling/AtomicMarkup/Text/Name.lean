/-!
The grammars of the names that a page may carry: tags, attributes, selector targets, properties
and class prefixes. All of them are ASCII grammars, and each decides the whole text.
-/

namespace AtomicMarkup.Text

/-- A grammar of one leading character and any number of further ones. -/
structure NameRule where
  first : Char → Bool
  rest : Char → Bool

namespace NameRule

def acceptsChars (rule : NameRule) : List Char → Bool
  | [] => false
  | c :: cs => rule.first c && cs.all rule.rest

def accepts (rule : NameRule) (s : String) : Bool :=
  rule.acceptsChars s.toList

/-- A letter, then letters, digits and hyphens. -/
def tagName : NameRule where
  first c := c.isAlpha
  rest c := c.isAlphanum || c == '-'

/-- A letter, underscore, colon or at sign; then also digits, full stops and hyphens. -/
def attributeName : NameRule where
  first c := c.isAlpha || ['_', ':', '@'].contains c
  rest c := c.isAlphanum || ['_', ':', '.', '@', '-'].contains c

/-- The characters of simple, compound and complex selectors. No brace, semicolon, comma or
less-than sign is among them. -/
def selectorTarget : NameRule where
  first c := c.isAlpha || ['.', '#', '*', '[', ':', '_'].contains c
  rest c := c.isAlphanum || ['.', '#', '*', '[', ']', '=', '\x22', '\x27', ':', '(', ')', '_', ' ',
    '>', '+', '~', '-'].contains c

/-- A letter or underscore, then letters, digits, underscores and hyphens. -/
def classPrefix : NameRule where
  first c := c.isAlpha || c == '_'
  rest c := c.isAlphanum || c == '_' || c == '-'

end NameRule

/-- A property name: at most two hyphens, then a letter, then letters, digits and hyphens. -/
def isPropertyName (s : String) : Bool :=
  match s.toList with
  | '-' :: '-' :: cs => NameRule.tagName.acceptsChars cs
  | '-' :: cs => NameRule.tagName.acceptsChars cs
  | cs => NameRule.tagName.acceptsChars cs

end AtomicMarkup.Text
