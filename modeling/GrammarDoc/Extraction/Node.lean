import GrammarDoc.Source.SyntaxTree

namespace GrammarDoc

/-- A loosely typed syntax tree. It may come from anywhere: any label may stand on a node or a
token, a child may be missing, and the line of a node may be unknown. -/
inductive Node where
  | missing
  | token (label text : String)
  | tree (label : String) (line? : Option Int) (children : List Node)
deriving Repr, Inhabited

/-- The kinds of nodes that extraction knows. -/
inductive NodeKind where
  | grammarSpec
  | rules
  | ruleSpec
  | parserRuleSpec
  | lexerRuleSpec
  | ruleAltList
  | labeledAlt
  | altList
  | alternative
  | element
  | labeledElement
  | ebnf
  | block
  | blockSuffix
  | atom
  | terminal
  | ruleref
  | ebnfSuffix
deriving Repr, DecidableEq, Inhabited

namespace NodeKind

open Source (Construct) in
/-- The syntactic construct that a kind stands for. -/
def construct : NodeKind → Construct
  | grammarSpec => .grammarSpec
  | rules => .rules
  | ruleSpec => .ruleSpec
  | parserRuleSpec => .parserRuleSpec
  | lexerRuleSpec => .lexerRuleSpec
  | ruleAltList => .ruleAltList
  | labeledAlt => .labeledAlt
  | altList => .altList
  | alternative => .alternative
  | element => .element
  | labeledElement => .labeledElement
  | ebnf => .ebnf
  | block => .block
  | blockSuffix => .blockSuffix
  | atom => .atom
  | terminal => .terminal
  | ruleref => .ruleref
  | ebnfSuffix => .ebnfSuffix

/-- The label of the nodes of a kind. -/
def label (kind : NodeKind) : String :=
  kind.construct.label

/-- The name of a kind in capital letters. -/
def name (kind : NodeKind) : String :=
  kind.label.map Char.toUpper

def all : List NodeKind :=
  [grammarSpec, rules, ruleSpec, parserRuleSpec, lexerRuleSpec, ruleAltList, labeledAlt, altList,
    alternative, element, labeledElement, ebnf, block, blockSuffix, atom, terminal, ruleref,
    ebnfSuffix]

/-- The kind with a given label. -/
def ofLabel? (s : String) : Option NodeKind :=
  all.find? fun kind => kind.label == s

end NodeKind

namespace Node

/-- The kind of a node, if extraction knows it. -/
def kind? : Node → Option NodeKind
  | tree label _ _ => NodeKind.ofLabel? label
  | _ => none

def children : Node → List Node
  | tree _ _ children => children
  | _ => []

/-- The first child of a kind. -/
def child? (kind : NodeKind) (node : Node) : Option Node :=
  node.children.find? fun child => child.kind? == some kind

/-- The text of a token with a given label. -/
def tokenText? (label : String) : Node → Option String
  | token l text => if l = label then some text else none
  | _ => none

/-- The text of the first token child with a given label. -/
def childText? (label : String) (node : Node) : Option String :=
  node.children.findSome? (tokenText? label)

mutual

/-- A syntax tree in loose form; the line of a node is that of its first token. -/
def ofSyntaxTree : Source.SyntaxTree → Node
  | .token t => token t.kind.label t.text
  | .node construct span? children =>
    tree construct.label (span?.map fun s => s.first.line) (ofSyntaxTrees children)

def ofSyntaxTrees : List Source.SyntaxTree → List Node
  | [] => []
  | t :: ts => ofSyntaxTree t :: ofSyntaxTrees ts

end

end Node
end GrammarDoc
