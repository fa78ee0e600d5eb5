import GrammarDoc.Element.Basic

namespace GrammarDoc

/-- What stands where a tree is expected: nothing, or a token. -/
inductive NotATree where
  | missing
  | token
deriving Repr, DecidableEq

def NotATree.message : NotATree → String
  | missing => "'NoneType' object has no attribute 'children'"
  | token => "'Token' object has no attribute 'children'"

/-- Why a syntax tree gives no rules. -/
inductive ExtractionError where
  | notATree (found : NotATree)
  | unrecognizedAtom (kind : String) (line? : Option Int)
  | emptyAlternative (rule? : Option String) (line? : Option Int)
  | emptyGroup (group : EmptyGroup)
  | emptyRule (name : String)
deriving Repr, DecidableEq

namespace ExtractionError

/-- The line of an offence, if it is known. -/
def atLine : Option Int → String
  | some line => " (line " ++ toString line ++ ")"
  | none => ""

def inRule : Option String → String
  | some name => " in parser rule " ++ Text.quoted name
  | none => ""

def message : ExtractionError → String
  | notATree found => found.message
  | unrecognizedAtom kind line? => "unrecognized atom: " ++ kind ++ atLine line?
  | emptyAlternative rule? line? => "empty alternative" ++ inRule rule? ++ atLine line?
  | emptyGroup group => group.message
  | emptyRule name => "parser rule " ++ Text.quoted name ++ " produced no grammar element"

/-- An empty alternative is reported with the rule that holds it. -/
def within (name : String) : ExtractionError → ExtractionError
  | emptyAlternative _ line? => emptyAlternative (some name) line?
  | e => e

end ExtractionError
end GrammarDoc
