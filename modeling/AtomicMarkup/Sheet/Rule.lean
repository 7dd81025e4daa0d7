import AtomicMarkup.Style.Declaration
import AtomicMarkup.Text.Escape

/-!
Rules of a stylesheet, their grouping by media query, and their text. Rules without a query come
first; the rules of one query stand together in one block, in the order in which the queries are
first met. Text is escaped when a rule is made.
-/

namespace AtomicMarkup

structure Rule where
  selector : String
  declarations : List (String × String)
  media : Option String
  deriving DecidableEq

namespace Rule

def ofClass (name : String) (d : Declaration) (layout : Layout) : Rule :=
  let base := "." ++ name ++ d.pseudo.getD ""
  let selector := (d.selector.map (Selector.wrap base layout)).getD base
  ⟨Text.escapeStyle selector, [(Text.escapeStyle d.property, Text.escapeStyle d.value)], d.media⟩

/-- The text of a rule. Compact text has no blanks of its own. -/
def css (indent : String) (r : Rule) : Layout → String
  | .compact =>
    r.selector ++ "\x7b" ++ ";".intercalate (r.declarations.map fun (p, v) => p ++ ":" ++ v) ++
      "\x7d"
  | .indented =>
    indent ++ r.selector ++ " \x7b\n" ++
      String.join (r.declarations.map fun (p, v) => indent ++ "  " ++ p ++ ": " ++ v ++ ";\n") ++
      indent ++ "\x7d\n"

end Rule

structure RuleGroup where
  media : Option String
  rules : List Rule
  deriving DecidableEq

namespace RuleGroup

/-- Puts a rule into the group of its query, which is opened at the end where there is none. -/
def place (rule : Rule) (query : String) : List RuleGroup → List RuleGroup
  | [] => [⟨some query, [rule]⟩]
  | g :: rest =>
    if g.media == some query then { g with rules := g.rules ++ [rule] } :: rest
    else g :: place rule query rest

def byQuery (rules : List Rule) : List RuleGroup :=
  rules.foldl
    (fun groups rule => match rule.media with
      | none => groups
      | some query => place rule query groups) []

def ofRules (rules : List Rule) : List RuleGroup :=
  match rules.filter (fun rule => rule.media.isNone) with
  | [] => byQuery rules
  | plain => ⟨none, plain⟩ :: byQuery rules

def css (layout : Layout) (g : RuleGroup) : String :=
  match g.media with
  | none => String.join (g.rules.map fun rule => rule.css "" layout)
  | some query =>
    let rules := String.join (g.rules.map fun rule => rule.css "  " layout)
    match layout with
    | .compact => "@media " ++ query ++ "\x7b" ++ rules ++ "\x7d"
    | .indented => "@media " ++ query ++ " \x7b\n" ++ rules ++ "\x7d\n"

def listCss (layout : Layout) (groups : List RuleGroup) : String :=
  String.join (groups.map (css layout))

end RuleGroup

end AtomicMarkup
