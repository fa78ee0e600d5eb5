import GrammarDoc.Element.Basic
import GrammarDoc.Rendering.Failure
import GrammarDoc.Text.Joining

namespace GrammarDoc.Ebnf

mutual

/-- One element in EBNF: literals in quotes, references by name, and parentheses around every
choice and sequence inside another element. -/
def write (nested : Bool) : Element → Except NotAnElement String
  | .atom name => pure ("'" ++ name ++ "'")
  | .ref name => pure name
  | .opt e => do return (← write true e) ++ "?"
  | .plus e => do return (← write true e) ++ "+"
  | .star e => do return (← write true e) ++ "*"
  | .choice es => do return Text.parenthesized nested (" | ".intercalate (← writeMembers es))
  | .seq es => do return Text.parenthesized nested (" ".intercalate (← writeMembers es))
  | .foreign v => throw ⟨v⟩

def writeMembers : List Element → Except NotAnElement (List String)
  | [] => pure []
  | e :: es => do return (← write true e) :: (← writeMembers es)

end

def element (e : Element) : Except NotAnElement String :=
  write false e

def rule (r : Rule) : Except NotAnElement String := do
  return r.left ++ " ::= " ++ (← element r.right)

/-- One production to a line, without a line break at the end. -/
def document (rules : List Rule) : Except NotAnElement String := do
  return "\n".intercalate (← rules.mapM rule)

end GrammarDoc.Ebnf
