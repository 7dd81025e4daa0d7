/-!
Escapes for the three places where a page carries foreign text: element content, a double-quoted
attribute value, and the stylesheet inside a style element.
-/

namespace AtomicMarkup.Text

def contentChar : Char → List Char
  | '&' => ['&', 'a', 'm', 'p', ';']
  | '<' => ['&', 'l', 't', ';']
  | '>' => ['&', 'g', 't', ';']
  | c => [c]

def attributeChar : Char → List Char
  | '&' => ['&', 'a', 'm', 'p', ';']
  | '<' => ['&', 'l', 't', ';']
  | '>' => ['&', 'g', 't', ';']
  | '\x22' => ['&', 'q', 'u', 'o', 't', ';']
  | '\x27' => ['&', '#', '3', '9', ';']
  | c => [c]

/-- A character as it stands in a stylesheet. The less-than sign is written as a numeric escape,
so that no stylesheet text can close the element around it. -/
def styleChar : Char → List Char
  | '<' => ['\x5c', '3', 'c', ' ']
  | c => [c]

def escapeContent (s : String) : String :=
  String.ofList (s.toList.flatMap contentChar)

def escapeAttribute (s : String) : String :=
  String.ofList (s.toList.flatMap attributeChar)

def escapeStyle (s : String) : String :=
  String.ofList (s.toList.flatMap styleChar)

end AtomicMarkup.Text
