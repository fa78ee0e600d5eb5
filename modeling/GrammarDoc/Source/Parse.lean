import GrammarDoc.Parsing.Configuration
import GrammarDoc.Source.Lexer
import GrammarDoc.Source.Masking
import GrammarDoc.Source.SyntaxTree

namespace GrammarDoc.Source

/-- Why a text is no grammar source: a token that nothing allows where it stands, a character where
no token starts, or an end that comes too early. -/
inductive Refusal where
  | unexpectedToken (place : Text.Position)
  | unexpectedCharacter (place : Text.Position)
  | unexpectedEnd
deriving Repr, DecidableEq

/-- The derivations of a list of tokens, or the first token that no continuation allows. -/
def derivations (tokens : List Token) : Except Token (List Derivation) :=
  (grammar.run Token.kind grammar.initial tokens).map fun configurations =>
    configurations.flatMap (grammar.finish [])

/-- The derivation of a reading. A token that is not allowed comes before the place where reading
stopped, and that place comes before an end that is too early. -/
def derivationOf (reading : Reading) : Except Refusal Derivation :=
  match derivations reading.tokens with
  | .error token => .error (.unexpectedToken token.span.first)
  | .ok ds =>
    match reading.stop?, ds with
    | some place, _ => .error (.unexpectedCharacter place)
    | none, [] => .error .unexpectedEnd
    | none, d :: _ => .ok d

/-- The derivation of grammar source. Brace blocks are masked before the text is read. -/
def derive (text : String) : Except Refusal Derivation :=
  derivationOf (readTokens (maskChars text.toList))

/-- The syntax tree of grammar source. -/
def parse (text : String) : Except Refusal SyntaxTree :=
  (derive text).map SyntaxTree.ofDerivation

end GrammarDoc.Source
