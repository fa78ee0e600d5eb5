import GrammarDoc.Text.Position

namespace GrammarDoc.Source

/-- The kinds of tokens in grammar source: keywords, the three words that open a brace block, names,
literals, blocks, and marks. -/
inductive TokenKind where
  | grammar
  | lexer
  | parser
  | fragment
  | mode
  | imports
  | returns
  | throws
  | locals
  | catches
  | finallyWord
  | options
  | tokens
  | channels
  | ruleName
  | tokenName
  | literal
  | integer
  | atName
  | braceBlock
  | bracketBlock
  | angleBlock
  | question
  | star
  | plus
  | assign
  | plusAssign
  | dot
  | range
  | semicolon
  | colon
  | doubleColon
  | comma
  | bar
  | hash
  | tilde
  | arrow
  | openParen
  | closeParen
deriving Repr, DecidableEq, Inhabited

/-- The name under which a token appears as a leaf of a tree. -/
def TokenKind.label : TokenKind → String
  | grammar => "GRAMMAR"
  | lexer => "LEXER"
  | parser => "PARSER"
  | fragment => "FRAGMENT"
  | mode => "MODE"
  | imports => "IMPORT"
  | returns => "RETURNS"
  | throws => "THROWS"
  | locals => "LOCALS"
  | catches => "CATCH"
  | finallyWord => "FINALLY"
  | options => "OPTIONS"
  | tokens => "TOKENS"
  | channels => "CHANNELS"
  | ruleName => "RULE_REF"
  | tokenName => "TOKEN_REF"
  | literal => "STRING_LITERAL"
  | integer => "INT"
  | atName => "AT_IDENT"
  | braceBlock => "ACTION_BLOCK"
  | bracketBlock => "BRACKET_BLOCK"
  | angleBlock => "ELEMENT_OPTIONS"
  | question => "QUESTION"
  | star => "STAR"
  | plus => "PLUS"
  | assign => "ASSIGN"
  | plusAssign => "PLUS_ASSIGN"
  | dot => "DOT"
  | range => "RANGE"
  | semicolon => "SEMICOLON"
  | colon => "COLON"
  | doubleColon => "DOUBLE_COLON"
  | comma => "COMMA"
  | bar => "BAR"
  | hash => "HASH"
  | tilde => "TILDE"
  | arrow => "ARROW"
  | openParen => "OPEN_PAREN"
  | closeParen => "CLOSE_PAREN"

/-- A token with its text and the place where it stands. -/
structure Token where
  kind : TokenKind
  text : String
  span : Text.Span
deriving Repr, DecidableEq, Inhabited

end GrammarDoc.Source
