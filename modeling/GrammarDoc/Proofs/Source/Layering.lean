import GrammarDoc.Proofs.Parsing.Exactness
import GrammarDoc.Source.Construct

namespace GrammarDoc.Source.Construct

/-- The constructs that may cover no token. -/
def isBlank : Construct → Bool
  | rules => true
  | ruleBlock => true
  | ruleAltList => true
  | labeledAlt => true
  | altList => true
  | alternative => true
  | lexerAltList => true
  | lexerAlt => true
  | _ => false

/-- How many constructs can be entered inside one, each at the very start of the one around it. -/
def rank : Construct → Nat
  | grammarSpec => 2
  | grammarDecl => 1
  | prequelConstruct => 1
  | delegateGrammar => 1
  | rules => 2
  | ruleSpec => 1
  | rulePrequel => 1
  | ruleBlock => 6
  | ruleAltList => 5
  | labeledAlt => 4
  | altList => 4
  | alternative => 3
  | element => 2
  | labeledElement => 1
  | ebnf => 1
  | blockSuffix => 1
  | blockPrequel => 1
  | atom => 1
  | setElement => 1
  | lexerAltList => 4
  | lexerAlt => 3
  | lexerElement => 2
  | labeledLexerElement => 1
  | lexerAtom => 1
  | lexerCommand => 1
  | _ => 0

end GrammarDoc.Source.Construct

namespace GrammarDoc.Source

open Parsing

theorem grammar_layered : grammar.Layered Construct.isBlank Construct.rank where
  blank_of_form name := by cases name <;> decide
  rank_corner name := by cases name <;> decide
  rank_lt_depth name := by cases name <;> decide
  proper_form name := by cases name <;> rfl

end GrammarDoc.Source
