import GrammarDoc.Extraction.Rules
import GrammarDoc.Source.Parse

namespace GrammarDoc

/-- The text of a refusal: what was unexpected, and where if that is known. -/
structure SyntaxRefusal where
  what : String
  line? : Option Int
  column? : Option Int
deriving Repr, DecidableEq

namespace SyntaxRefusal

def ofRefusal : Source.Refusal → SyntaxRefusal
  | .unexpectedToken place => ⟨"UnexpectedToken", some place.line, some place.column⟩
  | .unexpectedCharacter place => ⟨"UnexpectedCharacters", some place.line, some place.column⟩
  | .unexpectedEnd => ⟨"UnexpectedEOF", none, none⟩

/-- A place is told when the line is known; an unknown column is then called `None`. -/
def message (r : SyntaxRefusal) : String :=
  match r.line? with
  | none => r.what
  | some line =>
    r.what ++ " at line " ++ toString line ++ ", column " ++
      (r.column?.map toString).getD "None"

end SyntaxRefusal

/-- Why grammar source gives no rules. -/
inductive ConversionError where
  | refused (refusal : SyntaxRefusal)
  | extraction (error : ExtractionError)
deriving Repr, DecidableEq

def ConversionError.message : ConversionError → String
  | refused refusal => refusal.message
  | extraction error => error.message

/-- The syntax tree of grammar source; its length is reported. -/
def parseGrammar (text : String) : Logged ConversionError Source.SyntaxTree :=
  match Source.parse text with
  | .error refusal => .fail (.refused (.ofRefusal refusal))
  | .ok tree => do
    Logged.note .debug ("parsed grammar source (" ++ toString text.length ++ " characters)")
    return tree

/-- The parser rules of grammar source. -/
def parseRules (text : String) : Logged ConversionError (List Rule) := do
  let tree ← parseGrammar text
  (Node.ofSyntaxTree tree).extractRules.mapError .extraction

end GrammarDoc
