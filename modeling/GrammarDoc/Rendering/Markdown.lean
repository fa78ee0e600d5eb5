import GrammarDoc.Element.Basic
import GrammarDoc.Rendering.Failure
import GrammarDoc.Text.Joining

namespace GrammarDoc.Markdown

/-- Where an element stands: as the whole body of a rule, alone between brackets, or as a member of
a choice or a sequence. Only a body is broken into lines, and only a member may need
parentheses. -/
inductive Place where
  | body
  | bracketed
  | member
deriving Repr, DecidableEq

/-- Two spaces before a line feed force a line break. -/
def hardBreak : String :=
  "  \n"

/-- What every rule's anchor starts with. -/
def anchor (name : String) : String :=
  "grammar-rule-" ++ name

/-- Longer sequences than this take one line for each part. -/
def inlineLimit : Nat :=
  4

def choiceSeparator (place : Place) : String :=
  if place = .body then hardBreak ++ " | " else " | "

def seqSeparator (place : Place) (size : Nat) : String :=
  if place = .body ∧ inlineLimit < size then hardBreak ++ "   " else " "

mutual

/-- One element in Markdown: literals as code, references as links to their rule's anchor, an
optional part in brackets, a repeated one in braces. -/
def write (place : Place) : Element → Except NotAnElement String
  | .atom name => pure ("`'" ++ name ++ "'`")
  | .ref name => pure ("_[" ++ name ++ "](#" ++ anchor name ++ ")_")
  | .opt e => do return "[" ++ (← write .bracketed e) ++ "]"
  | .plus e => do
    let inner ← write .bracketed e
    return Text.parenthesized (place = .member) (inner ++ " \x7b" ++ inner ++ "\x7d")
  | .star e => do return "\x7b" ++ (← write .bracketed e) ++ "\x7d"
  | .choice es => do
    let members ← writeMembers es
    return Text.parenthesized (place = .member) ((choiceSeparator place).intercalate members)
  | .seq es => do
    let members ← writeMembers es
    return Text.parenthesized (place = .member) ((seqSeparator place es.length).intercalate members)
  | .foreign v => throw ⟨v⟩

def writeMembers : List Element → Except NotAnElement (List String)
  | [] => pure []
  | e :: es => do return (← write .member e) :: (← writeMembers es)

end

/-- One element, as the body of a rule or inline. -/
def element (topLevel : Bool) (e : Element) : Except NotAnElement String :=
  write (if topLevel then .body else .bracketed) e

/-- The two parts of a definition list entry. -/
def rule (r : Rule) : Except NotAnElement String := do
  return "**_" ++ r.left ++ "_:**\n ~ " ++ (← element true r.right)

/-- A block that carries its rule's anchor. -/
def fenced (name block : String) : String :=
  ":::\x7b .grammar-rule #" ++ anchor name ++ " \x7d\n" ++ block ++ "\n:::"

def block (divs : Bool) (r : Rule) : Except NotAnElement String := do
  let text ← rule r
  return if divs then fenced r.left text else text

/-- Blocks with a blank line between them, without a line break at the end. -/
def document (divs : Bool) (rules : List Rule) : Except NotAnElement String := do
  return "\n\n".intercalate (← rules.mapM (block divs))

end GrammarDoc.Markdown
