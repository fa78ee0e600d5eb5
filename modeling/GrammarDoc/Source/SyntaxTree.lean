import GrammarDoc.Parsing.Derivation
import GrammarDoc.Source.Construct

namespace GrammarDoc.Source

/-- A syntax tree: the derivation without its left-out tokens and its inlined nodes. A node covers
the span from its first token to its last one, left-out tokens included. -/
inductive SyntaxTree where
  | token (token : Token)
  | node (construct : Construct) (span? : Option Text.Span) (children : List SyntaxTree)
deriving Repr, Inhabited

abbrev Derivation := Parsing.Derivation Token Construct

namespace SyntaxTree

mutual

/-- The span of the tokens of a derivation, if there are any. -/
def spanOf : Derivation → Option Text.Span
  | .leaf t _ => some t.span
  | .node _ children => spanOfAll children

def spanOfAll : List Derivation → Option Text.Span
  | [] => none
  | d :: ds => Text.Span.join? (spanOf d) (spanOfAll ds)

end

mutual

/-- What stays of a child: a shown token, a node, or what is in an inlined node. -/
def shown : Derivation → List SyntaxTree
  | .leaf t isShown => if isShown then [.token t] else []
  | .node construct children =>
    if construct.isInlined then shownOfAll children
    else [.node construct (spanOfAll children) (shownOfAll children)]

def shownOfAll : List Derivation → List SyntaxTree
  | [] => []
  | d :: ds => shown d ++ shownOfAll ds

end

/-- The syntax tree of a derivation. -/
def ofDerivation : Derivation → SyntaxTree
  | .leaf t _ => .token t
  | .node construct children => .node construct (spanOfAll children) (shownOfAll children)

end SyntaxTree
end GrammarDoc.Source
