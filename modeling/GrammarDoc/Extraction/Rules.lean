import GrammarDoc.Element.Plain
import GrammarDoc.Extraction.Visit
import GrammarDoc.Log

namespace GrammarDoc
namespace Node

/-- The rule that a parser rule stands for; a rule without a name is called `None`. -/
def ruleOf (node : Node) : Except ExtractionError Rule :=
  let name := (node.childText? "RULE_REF").getD "None"
  match node.visit with
  | .error e => .error (e.within name)
  | .ok [] => .error (.emptyRule name)
  | .ok (body :: _) => .ok ⟨name, body⟩

/-- The nodes that hold one rule each: those below the list of rules, if there is such a list. -/
def ruleSpecs (root : Node) : List Node :=
  ((root.child? .rules).getD root).children.filter fun n => n.kind? == some .ruleSpec

/-- The parser rules of some rule nodes, each of which is reported; a node without a parser rule is
passed over. -/
def rulesOf : List Node → Logged ExtractionError (List Rule)
  | [] => pure []
  | n :: ns =>
    match n.child? .parserRuleSpec with
    | none => rulesOf ns
    | some body => do
      let rule ← Logged.ofExcept body.ruleOf
      Logged.note .debug ("extracted " ++ rule.plain)
      return rule :: (← rulesOf ns)

/-- What a node is if it is no tree. -/
def notATree? : Node → Option NotATree
  | missing => some .missing
  | token _ _ => some .token
  | tree _ _ _ => none

/-- The parser rules of a grammar, in the order in which they are declared. -/
def extractRules (root : Node) : Logged ExtractionError (List Rule) := do
  if let some found := root.notATree? then Logged.fail (.notATree found)
  let rules ← rulesOf root.ruleSpecs
  let skipped := root.ruleSpecs.countP fun n => (n.child? .parserRuleSpec).isNone
  Logged.note .info ("extracted " ++ toString rules.length ++ " parser rules (" ++
    toString skipped ++ " lexer rules skipped)")
  return rules

end Node
end GrammarDoc
