import AtomicMarkup.Media
import AtomicMarkup.Pseudo
import AtomicMarkup.Style.Declaration

/-!
Scopes: the restrictions under which a style is given. Scopes nest, and a nested scope is the
scope of both: conditions are joined, pseudos are appended, and the inner selector is used.
-/

namespace AtomicMarkup

structure Scope where
  media : Option MediaQuery
  pseudos : List Pseudo
  selector : Option Selector
  deriving DecidableEq

namespace Scope

def root : Scope :=
  ⟨none, [], none⟩

def ofMedia (query : MediaQuery) : Scope :=
  { root with media := some query }

def ofPseudo (pseudo : Pseudo) : Scope :=
  { root with pseudos := [pseudo] }

def ofSelector (selector : Selector) : Scope :=
  { root with selector := some selector }

def joinMedia : Option MediaQuery → Option MediaQuery → Option MediaQuery
  | some outer, some inner => some (outer.combine inner)
  | some query, none => some query
  | none, query => query

def joinPseudos (outer inner : List Pseudo) : List Pseudo :=
  inner.foldl (fun present p => if present.contains p then present else present ++ [p]) outer

def merge (outer inner : Scope) : Scope where
  media := joinMedia outer.media inner.media
  pseudos := joinPseudos outer.pseudos inner.pseudos
  selector := inner.selector.or outer.selector

def isDark (s : Scope) : Bool :=
  s.media.any MediaQuery.isDark

def isLight (s : Scope) : Bool :=
  s.media.any MediaQuery.isLight

def darkened (s : Scope) : Scope :=
  s.merge (ofMedia MediaQuery.dark)

def mediaText? (s : Scope) : Option String :=
  (s.media.filter (fun query => !query.isEmpty)).map MediaQuery.css

def declare (s : Scope) (property value : String) : Declaration :=
  ⟨property, value, s.mediaText?, s.selector, Pseudo.suffix? s.pseudos⟩

end Scope

end AtomicMarkup
