import AtomicMarkup.Element

/-!
The built-in elements. Most of them are their tag alone; links, images and options take the
texts that they are of no use without.
-/

namespace AtomicMarkup.Tag

def plainTags : List String :=
  ["abbr", "article", "aside", "b", "blockquote", "body", "br", "button", "caption", "code", "dd",
    "details", "dialog", "div", "dl", "dt", "em", "fieldset", "figcaption", "figure", "footer",
    "form", "h1", "h2", "h3", "h4", "h5", "h6", "header", "hr", "i", "label", "legend", "li",
    "main", "mark", "nav", "ol", "optgroup", "p", "pre", "section", "select", "small", "span",
    "strong", "sub", "summary", "sup", "table", "tbody", "td", "textarea", "tfoot", "th", "thead",
    "time", "tr", "u", "ul"]

def plain? (tag : String) : Option Element :=
  if plainTags.contains tag then some (.bare tag) else none

def body : Element :=
  .bare "body"

def a (href : String) : Element :=
  (Element.bare "a").setText "href" href

def img (src alt : String) : Element :=
  ((Element.bare "img").setText "src" src).setText "alt" alt

def option (value label : String) : Element :=
  ((Element.bare "option").setText "value" value).append [.text label]

end AtomicMarkup.Tag
