import AtomicMarkup.Head
import AtomicMarkup.Render
import AtomicMarkup.Tag
import AtomicMarkup.Validity

/-!
Documents: a head and a body. The stylesheet is not part of a document; each rendering collects
it from the body.
-/

namespace AtomicMarkup

structure Document where
  language : Option String
  head : Head
  body : Element

namespace Document

def ofHead (head : Head) : Document :=
  ⟨none, head, Tag.body⟩

def withBody (d : Document) (e : Element) : Document :=
  { d with body := if e.tag == "body" then e else Tag.body.append [e.toNode] }

def render (d : Document) (options : RenderOptions) : String :=
  let body := d.body.toNode.render options
  String.join [
    if options.doctype then "<!doctype html>" else "",
    "<html", Head.optionText (Mark.quotedAttribute "lang") d.language, "><head>",
    d.head.html body.sheet.css, "</head>", body.html, "</html>"]

def validate (d : Document) : Except MarkupError Unit := do
  d.head.check
  d.body.toNode.validate

def renderChecked (d : Document) (options : RenderOptions) : Except MarkupError String := do
  d.validate
  return d.render options

end Document

end AtomicMarkup
