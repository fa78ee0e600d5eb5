import GrammarDoc.Proofs.Parsing.Unambiguous
import GrammarDoc.Proofs.Source.Acceptance

namespace GrammarDoc.Source

namespace Construct

/-- What may come after a rule; nothing comes after the last one. -/
def afterRule : List (Option TokenKind) :=
  [some .ruleName, some .fragment, some .tokenName, some .mode, none]

/-- What may come after a part of the head of a grammar. -/
def afterPrequel : List (Option TokenKind) :=
  [some .options, some .imports, some .tokens, some .channels, some .atName] ++ afterRule

/-- What may come after a part of the head of a rule. -/
def afterRulePrequel : List (Option TokenKind) :=
  [some .options, some .atName, some .colon]

/-- What may come after an element of a parser rule. -/
def afterElement : List (Option TokenKind) :=
  [some .ruleName, some .tokenName, some .literal, some .tilde, some .dot, some .openParen,
    some .braceBlock, some .hash, some .bar, some .semicolon, some .closeParen]

/-- What may come after an element of a lexer rule. -/
def afterLexerElement : List (Option TokenKind) :=
  [some .ruleName, some .tokenName, some .literal, some .tilde, some .dot, some .openParen,
    some .braceBlock, some .bracketBlock, some .arrow, some .bar, some .semicolon,
    some .closeParen]

/-- The marks that a suffix starts with. -/
def suffixMarks : List (Option TokenKind) :=
  [some .question, some .star, some .plus]

/-- What may come after a construct. -/
def follow : Construct → List (Option TokenKind)
  | grammarSpec => [none]
  | grammarDecl => afterPrequel
  | grammarType => [some .ruleName, some .tokenName]
  | prequelConstruct => afterPrequel
  | optionsSpec => afterPrequel ++ [some .colon]
  | tokensSpec => afterPrequel
  | channelsSpec => afterPrequel
  | delegateGrammars => afterPrequel
  | delegateGrammar => [some .comma, some .semicolon]
  | namedAction => afterPrequel
  | rules => [some .mode, none]
  | ruleSpec => afterRule
  | parserRuleSpec => afterRule
  | ruleReturns => [some .throws, some .locals] ++ afterRulePrequel
  | throwsSpec => some .locals :: afterRulePrequel
  | localsSpec => afterRulePrequel
  | rulePrequel => afterRulePrequel
  | ruleAction => afterRulePrequel
  | exceptionHandler => [some .catches, some .finallyWord] ++ afterRule
  | finallyClause => afterRule
  | ruleBlock => [some .semicolon]
  | ruleAltList => [some .semicolon]
  | labeledAlt => [some .bar, some .semicolon]
  | altList => [some .closeParen]
  | alternative => [some .hash, some .bar, some .semicolon, some .closeParen]
  | element => afterElement
  | labeledElement => suffixMarks ++ afterElement
  | ebnf => afterElement
  | blockSuffix => afterElement
  | ebnfSuffix => afterElement ++ afterLexerElement
  | block => suffixMarks ++ afterElement
  | blockPrequel => some .angleBlock :: afterElement
  | atom => suffixMarks ++ afterElement
  | ruleref => suffixMarks ++ afterElement
  | terminal => suffixMarks ++ afterElement ++ afterLexerElement
  | notSet => suffixMarks ++ afterElement ++ afterLexerElement
  | blockSet => suffixMarks ++ afterElement ++ afterLexerElement
  | setElement => suffixMarks ++ afterElement ++ afterLexerElement
  | wildcard => suffixMarks ++ afterElement ++ afterLexerElement
  | charRange => suffixMarks ++ afterElement ++ afterLexerElement
  | lexerRuleSpec => afterRule
  | lexerAltList => [some .semicolon, some .closeParen]
  | lexerAlt => [some .bar, some .semicolon, some .closeParen]
  | lexerElement => afterLexerElement
  | labeledLexerElement => suffixMarks ++ afterLexerElement
  | lexerBlock => suffixMarks ++ afterLexerElement
  | lexerAtom => suffixMarks ++ afterLexerElement
  | lexerCommands => [some .bar, some .semicolon, some .closeParen]
  | lexerCommand => [some .comma, some .bar, some .semicolon, some .closeParen]
  | modeSpec => [some .mode, none]
  | identifier =>
    [some .semicolon, some .assign, some .plusAssign, some .comma, some .braceBlock, some .locals,
      some .bar, some .openParen, some .closeParen] ++ afterRulePrequel

end Construct

open Parsing

/-- Two tokens decide every choice of the grammar. -/
theorem grammar_decides (c : Construct) :
    grammar.decides Construct.isBlank Construct.follow c.follow c.form = true := by
  cases c <;> decide +kernel

/-- No list of tokens has two derivations. -/
theorem sentence_unique {ts : List Token} {d e : Derivation} (hd : Sentence ts d)
    (he : Sentence ts e) : d = e :=
  derives_unique grammar_layered grammar_decides (by decide) hd he

end GrammarDoc.Source

namespace GrammarDoc

open Source Parsing

/-- An instance of the start rule over all tokens is the tree that the parser gives. -/
theorem parseGrammar_of_instance {text : String} {tree : SyntaxTree}
    (hs : (readTokens (maskChars text.toList)).stop? = none)
    (h : SyntaxTree.Instantiates (.rule .grammarSpec) [tree]
      (readTokens (maskChars text.toList)).tokens) :
    (parseGrammar text).result = .ok tree := by
  obtain ⟨ds, hm, ht⟩ := h.exists_matches
  obtain ⟨es, rfl, -⟩ := matches_rule_iff.mp hm
  have hd : Sentence _ _ := derives_iff_matches.mpr hm
  obtain ⟨d, hr⟩ := exists_derivationOf hs hd
  obtain rfl := sentence_unique (derivationOf_ok hr).2 hd
  exact parseGrammar_result_ok_iff.mpr (parse_eq_ok_iff.mpr ⟨_, hr, (List.cons.inj ht).1⟩)

/-- Grammar source is unambiguous. Its tokens can be taken in one way at most, down to the side of
every choice and the rounds of every repetition, so they have one derivation at most, and whichever
derivation is looked for, its tree is the one that the parser gives. -/
theorem grammar_unambiguous :
    (∀ (ts : List Token) (w v : Way Token Construct),
      Takes Token.kind grammar.form (.rule grammar.start) w ts →
      Takes Token.kind grammar.form (.rule grammar.start) v ts → w = v) ∧
    (∀ (ts : List Token) (d e : Derivation), Sentence ts d → Sentence ts e → d = e) ∧
    ∀ (text : String) (d : Derivation), (readTokens (maskChars text.toList)).stop? = none →
      Sentence (readTokens (maskChars text.toList)).tokens d →
      (parseGrammar text).result = .ok (SyntaxTree.ofDerivation d) := by
  refine ⟨fun ts w v hw hv => ?_, fun ts d e hd he => sentence_unique hd he, fun text d hs hd => ?_⟩
  · exact way_unique grammar_layered grammar_decides (by decide) hw hv
  · have hi := instantiates_ofDerivation hd
    exact parseGrammar_of_instance hs hi

end GrammarDoc
