import GrammarDoc.Element.Basic
import GrammarDoc.Text.Joining

namespace GrammarDoc
namespace Element

mutual

/-- The compact form of an element; inside another one a choice or a sequence stands in
parentheses. -/
def plainIn (nested : Bool) : Element → String
  | atom name => name
  | ref name => name
  | opt e => plainIn true e ++ "?"
  | plus e => plainIn true e ++ "+"
  | star e => plainIn true e ++ "*"
  | choice es => Text.parenthesized nested (" | ".intercalate (plainMembers es))
  | seq es => Text.parenthesized nested (" ".intercalate (plainMembers es))
  | foreign v => v.plain

def plainMembers : List Element → List String
  | [] => []
  | e :: es => plainIn true e :: plainMembers es

end

/-- The compact form used in messages. -/
def plain (e : Element) : String :=
  plainIn false e

/-- Members of a choice or a sequence in parentheses; a single member keeps its comma. -/
def inspectGroup : List String → String
  | [s] => "(" ++ s ++ ",)"
  | ss => "(" ++ ", ".intercalate ss ++ ")"

mutual

/-- The exact form, which shows every constructor. -/
def inspect : Element → String
  | atom name => "Atom(name=" ++ Text.quoted name ++ ")"
  | ref name => "RuleRef(name=" ++ Text.quoted name ++ ")"
  | opt e => "Optional(element=" ++ inspect e ++ ")"
  | plus e => "Plus(element=" ++ inspect e ++ ")"
  | star e => "Star(element=" ++ inspect e ++ ")"
  | choice es => "Choice(elements=" ++ inspectGroup (inspectMembers es) ++ ")"
  | seq es => "Seq(elements=" ++ inspectGroup (inspectMembers es) ++ ")"
  | foreign v => v.inspect

def inspectMembers : List Element → List String
  | [] => []
  | e :: es => inspect e :: inspectMembers es

end

end Element

/-- A rule in the compact form used in messages. -/
def Rule.plain (rule : Rule) : String :=
  rule.left ++ " : " ++ rule.right.plain

end GrammarDoc
