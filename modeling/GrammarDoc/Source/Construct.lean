import GrammarDoc.Parsing.Form
import GrammarDoc.Source.Token

namespace GrammarDoc.Source

/-- The syntactic constructs of grammar source. -/
inductive Construct where
  | grammarSpec
  | grammarDecl
  | grammarType
  | prequelConstruct
  | optionsSpec
  | tokensSpec
  | channelsSpec
  | delegateGrammars
  | delegateGrammar
  | namedAction
  | rules
  | ruleSpec
  | parserRuleSpec
  | ruleReturns
  | throwsSpec
  | localsSpec
  | rulePrequel
  | ruleAction
  | exceptionHandler
  | finallyClause
  | ruleBlock
  | ruleAltList
  | labeledAlt
  | altList
  | alternative
  | element
  | labeledElement
  | ebnf
  | blockSuffix
  | ebnfSuffix
  | block
  | blockPrequel
  | atom
  | terminal
  | ruleref
  | notSet
  | blockSet
  | setElement
  | wildcard
  | charRange
  | lexerRuleSpec
  | lexerAltList
  | lexerAlt
  | lexerElement
  | labeledLexerElement
  | lexerBlock
  | lexerAtom
  | lexerCommands
  | lexerCommand
  | modeSpec
  | identifier
deriving Repr, DecidableEq, Inhabited

namespace Construct

/-- The name under which a construct appears as a node of a tree. -/
def label : Construct → String
  | grammarSpec => "grammar_spec"
  | grammarDecl => "grammar_decl"
  | grammarType => "grammar_type"
  | prequelConstruct => "prequel_construct"
  | optionsSpec => "options_spec"
  | tokensSpec => "tokens_spec"
  | channelsSpec => "channels_spec"
  | delegateGrammars => "delegate_grammars"
  | delegateGrammar => "delegate_grammar"
  | namedAction => "named_action"
  | rules => "rules"
  | ruleSpec => "rule_spec"
  | parserRuleSpec => "parser_rule_spec"
  | ruleReturns => "rule_returns"
  | throwsSpec => "throws_spec"
  | localsSpec => "locals_spec"
  | rulePrequel => "rule_prequel"
  | ruleAction => "rule_action"
  | exceptionHandler => "exception_handler"
  | finallyClause => "finally_clause"
  | ruleBlock => "rule_block"
  | ruleAltList => "rule_alt_list"
  | labeledAlt => "labeled_alt"
  | altList => "alt_list"
  | alternative => "alternative"
  | element => "element"
  | labeledElement => "labeled_element"
  | ebnf => "ebnf"
  | blockSuffix => "block_suffix"
  | ebnfSuffix => "ebnf_suffix"
  | block => "block"
  | blockPrequel => "block_prequel"
  | atom => "atom"
  | terminal => "terminal"
  | ruleref => "ruleref"
  | notSet => "not_set"
  | blockSet => "block_set"
  | setElement => "set_element"
  | wildcard => "wildcard"
  | charRange => "char_range"
  | lexerRuleSpec => "lexer_rule_spec"
  | lexerAltList => "lexer_alt_list"
  | lexerAlt => "lexer_alt"
  | lexerElement => "lexer_element"
  | labeledLexerElement => "labeled_lexer_element"
  | lexerBlock => "lexer_block"
  | lexerAtom => "lexer_atom"
  | lexerCommands => "lexer_commands"
  | lexerCommand => "lexer_command"
  | modeSpec => "mode_spec"
  | identifier => "identifier"

/-- A node of one of these constructs is replaced by its only child. -/
def isInlined : Construct → Bool
  | prequelConstruct => true
  | rulePrequel => true
  | _ => false

open Parsing Parsing.Form

/-- One or more forms with a mark between them. -/
def separated (mark : TokenKind) (form : Form TokenKind Construct) : Form TokenKind Construct :=
  seq form (many (seq (hidden mark) form))

/-- The right-hand side of each construct. -/
def form : Construct → Form TokenKind Construct
  | grammarSpec =>
    inOrder [rule grammarDecl, many (rule prequelConstruct), rule rules, many (rule modeSpec)]
  | grammarDecl => inOrder [rule grammarType, rule identifier, hidden .semicolon]
  | grammarType => seq (optional (alt (shown .lexer) (shown .parser))) (shown .grammar)
  | prequelConstruct =>
    oneOf [rule optionsSpec, rule delegateGrammars, rule tokensSpec, rule channelsSpec,
      rule namedAction]
  | optionsSpec => seq (shown .options) (shown .braceBlock)
  | tokensSpec => seq (shown .tokens) (shown .braceBlock)
  | channelsSpec => seq (shown .channels) (shown .braceBlock)
  | delegateGrammars =>
    inOrder [hidden .imports, separated .comma (rule delegateGrammar), hidden .semicolon]
  | delegateGrammar =>
    seq (rule identifier) (optional (seq (hidden .assign) (rule identifier)))
  | namedAction =>
    inOrder [shown .atName, optional (seq (hidden .doubleColon) (rule identifier)),
      shown .braceBlock]
  | rules => many (rule ruleSpec)
  | ruleSpec => alt (rule parserRuleSpec) (rule lexerRuleSpec)
  | parserRuleSpec =>
    inOrder [shown .ruleName, optional (shown .bracketBlock), optional (rule ruleReturns),
      optional (rule throwsSpec), optional (rule localsSpec), many (rule rulePrequel),
      hidden .colon, rule ruleBlock, hidden .semicolon, many (rule exceptionHandler),
      optional (rule finallyClause)]
  | ruleReturns => seq (hidden .returns) (shown .bracketBlock)
  | throwsSpec => seq (hidden .throws) (separated .comma (rule identifier))
  | localsSpec => seq (hidden .locals) (shown .bracketBlock)
  | rulePrequel => alt (rule optionsSpec) (rule ruleAction)
  | ruleAction => seq (shown .atName) (shown .braceBlock)
  | exceptionHandler => inOrder [hidden .catches, shown .bracketBlock, shown .braceBlock]
  | finallyClause => seq (hidden .finallyWord) (shown .braceBlock)
  | ruleBlock => rule ruleAltList
  | ruleAltList => separated .bar (rule labeledAlt)
  | labeledAlt => seq (rule alternative) (optional (seq (hidden .hash) (rule identifier)))
  | altList => separated .bar (rule alternative)
  | alternative => seq (optional (shown .angleBlock)) (many (rule element))
  | element =>
    oneOf [seq (rule labeledElement) (optional (rule ebnfSuffix)),
      seq (rule atom) (optional (rule ebnfSuffix)), rule ebnf,
      seq (shown .braceBlock) (optional (shown .question))]
  | labeledElement =>
    inOrder [rule identifier, alt (shown .assign) (shown .plusAssign),
      alt (rule atom) (rule block)]
  | ebnf => seq (rule block) (optional (rule blockSuffix))
  | blockSuffix => rule ebnfSuffix
  | ebnfSuffix =>
    seq (oneOf [shown .question, shown .star, shown .plus]) (optional (shown .question))
  | block =>
    inOrder [hidden .openParen, optional (rule blockPrequel), rule altList, hidden .closeParen]
  | blockPrequel =>
    inOrder [optional (rule optionsSpec), many (rule ruleAction), hidden .colon]
  | atom => oneOf [rule terminal, rule ruleref, rule notSet, rule wildcard]
  | terminal =>
    alt (seq (shown .tokenName) (optional (shown .angleBlock)))
      (seq (shown .literal) (optional (shown .angleBlock)))
  | ruleref =>
    inOrder [shown .ruleName, optional (shown .bracketBlock), optional (shown .angleBlock)]
  | notSet => seq (hidden .tilde) (alt (rule setElement) (rule blockSet))
  | blockSet => inOrder [hidden .openParen, separated .bar (rule setElement), hidden .closeParen]
  | setElement =>
    oneOf [seq (shown .tokenName) (optional (shown .angleBlock)),
      seq (shown .literal) (optional (shown .angleBlock)), rule charRange, shown .bracketBlock]
  | wildcard => seq (shown .dot) (optional (shown .angleBlock))
  | charRange => inOrder [shown .literal, shown .range, shown .literal]
  | lexerRuleSpec =>
    inOrder [optional (shown .fragment), shown .tokenName, optional (rule optionsSpec),
      hidden .colon, rule lexerAltList, hidden .semicolon]
  | lexerAltList => separated .bar (rule lexerAlt)
  | lexerAlt => seq (many (rule lexerElement)) (optional (rule lexerCommands))
  | lexerElement =>
    oneOf [seq (rule lexerAtom) (optional (rule ebnfSuffix)),
      seq (rule lexerBlock) (optional (rule ebnfSuffix)),
      seq (rule labeledLexerElement) (optional (rule ebnfSuffix)),
      seq (shown .braceBlock) (optional (shown .question))]
  | labeledLexerElement =>
    inOrder [rule identifier, alt (shown .assign) (shown .plusAssign),
      alt (rule lexerAtom) (rule lexerBlock)]
  | lexerBlock => inOrder [hidden .openParen, rule lexerAltList, hidden .closeParen]
  | lexerAtom =>
    oneOf [rule charRange, rule terminal, rule notSet, shown .bracketBlock, rule wildcard]
  | lexerCommands => seq (hidden .arrow) (separated .comma (rule lexerCommand))
  | lexerCommand =>
    seq (alt (rule identifier) (shown .mode))
      (optional (inOrder [hidden .openParen, alt (rule identifier) (shown .integer),
        hidden .closeParen]))
  | modeSpec =>
    inOrder [shown .mode, rule identifier, hidden .semicolon, many (rule lexerRuleSpec)]
  | identifier => alt (shown .ruleName) (shown .tokenName)

end Construct

/-- The grammar of grammar source. The deepest chain of constructs that open on one token leads
from a rule body through its alternatives to a terminal. -/
def grammar : Parsing.Grammar TokenKind Construct where
  form := Construct.form
  start := .grammarSpec
  depth := 12

end GrammarDoc.Source
