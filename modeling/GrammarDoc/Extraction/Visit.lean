import GrammarDoc.Extraction.Error
import GrammarDoc.Extraction.Node

namespace GrammarDoc
namespace Element

/-- Wraps an element as the marks of a suffix say. A plus goes before a star, and a star before a
question mark, so the mark of a suffix that is not greedy changes nothing. -/
def applySuffix (suffix? : Option Node) (e : Element) : Element :=
  match suffix? with
  | none => e
  | some suffix =>
    if (suffix.childText? "PLUS").isSome then plus e
    else if (suffix.childText? "STAR").isSome then star e
    else if (suffix.childText? "QUESTION").isSome then opt e
    else e

/-- Wraps an element as a suffix says that may be missing, but is no token. -/
def suffixed (suffix : Node) (e : Element) : Except NotATree Element :=
  match suffix with
  | .missing => .ok e
  | .token _ _ => .error .token
  | .tree label line? children => .ok (e.applySuffix (some (.tree label line? children)))

end Element

namespace Node

/-- The text of a literal without its quotes. -/
def unquoted (s : String) : String :=
  let cs := s.toList
  let cs := if cs.head? = some '\'' then cs.drop 1 else cs
  String.ofList (if cs.getLast? = some '\'' then cs.dropLast else cs)

/-- What an atom is said to be when it cannot be read: the label of its first child. -/
def firstLabel : List Node → String
  | tree label _ _ :: _ => label
  | token label _ :: _ => label
  | _ => "empty"

/-- The element of an atom: a literal, or the name of a token or a rule. -/
def atomElement (node : Node) (line? : Option Int) : Except ExtractionError Element :=
  let terminal? := node.child? .terminal
  let literal? := terminal?.bind (childText? "STRING_LITERAL")
  let token? := terminal?.bind (childText? "TOKEN_REF")
  let rule? := (node.child? .ruleref).bind (childText? "RULE_REF")
  match literal?, token?, rule? with
  | some text, _, _ => .ok (.atom (unquoted text))
  | none, some name, _ => .ok (.ref name)
  | none, none, some name => .ok (.ref name)
  | none, none, none => .error (.unrecognizedAtom (firstLabel node.children) line?)

/-- The suffix of a block stands one level deeper than that of an atom. -/
def blockSuffix? (node : Node) : Option Node :=
  (node.child? .blockSuffix).bind (child? .ebnfSuffix)

/-- A list of alternatives becomes one element. -/
def chosen (es : List Element) : Except ExtractionError (List Element) :=
  match Element.choiceOf es with
  | .error group => .error (.emptyGroup group)
  | .ok e => .ok [e]

/-- The parts of an alternative become one element, and there has to be a part. -/
def sequenced (line? : Option Int) (es : List Element) : Except ExtractionError (List Element) :=
  if es.isEmpty then .error (.emptyAlternative none line?)
  else
    match Element.seqOf es with
    | .error group => .error (.emptyGroup group)
    | .ok e => .ok [e]

mutual

/-- The elements that a node stands for. A node of no special kind stands for what is in it. -/
def visit : Node → Except ExtractionError (List Element)
  | missing => .ok []
  | token _ _ => .ok []
  | tree label line? children =>
    let node := tree label line? children
    match NodeKind.ofLabel? label with
    | some .ruleAltList => do chosen (← visitLabeled children)
    | some .altList => do chosen (← visitEach .alternative children)
    | some .alternative => do sequenced line? (← visitEach .element children)
    | some .element => do
      return (← visitAll children).map (Element.applySuffix (node.child? .ebnfSuffix))
    | some .ebnf => do
      return (← visitFirst .block children).map (Element.applySuffix node.blockSuffix?)
    | some .block => visitFirst .altList children
    | some .atom => do return [← atomElement node line?]
    | _ => visitAll children

/-- The elements of all nodes of a list. -/
def visitAll : List Node → Except ExtractionError (List Element)
  | [] => .ok []
  | n :: ns => do return (← visit n) ++ (← visitAll ns)

/-- The elements of the nodes of one kind. -/
def visitEach (kind : NodeKind) : List Node → Except ExtractionError (List Element)
  | [] => .ok []
  | n :: ns =>
    if n.kind? = some kind then do return (← visit n) ++ (← visitEach kind ns)
    else visitEach kind ns

/-- The elements of the first node of a kind. -/
def visitFirst (kind : NodeKind) : List Node → Except ExtractionError (List Element)
  | [] => .ok []
  | n :: ns => if n.kind? = some kind then visit n else visitFirst kind ns

/-- The elements of the alternatives that stand below a label. -/
def visitLabeled : List Node → Except ExtractionError (List Element)
  | [] => .ok []
  | tree label _ children :: ns =>
    if NodeKind.ofLabel? label = some .labeledAlt then do
      return (← visitFirst .alternative children) ++ (← visitLabeled ns)
    else visitLabeled ns
  | missing :: ns => visitLabeled ns
  | token _ _ :: ns => visitLabeled ns

end

end Node
end GrammarDoc
