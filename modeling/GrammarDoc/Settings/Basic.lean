import GrammarDoc.Log
import GrammarDoc.Text.Quoted

namespace GrammarDoc

/-- The documents that can be made of a grammar. -/
inductive OutputFormat where
  | markdown
  | ebnf
deriving Repr, DecidableEq, Inhabited

namespace OutputFormat

def word : OutputFormat → String
  | markdown => "markdown"
  | ebnf => "ebnf"

def ofWord? (s : String) : Option OutputFormat :=
  [markdown, ebnf].find? fun format => format.word == s

end OutputFormat

/-- The choices for one conversion. -/
structure Settings where
  format : OutputFormat := .markdown
  divs : Bool := false
  encoding : String := "utf-8"
  logLevel : LogLevel := .warning
deriving Repr, DecidableEq, Inhabited

/-- The form of settings in messages. -/
def Settings.inspect (s : Settings) : String :=
  "ConverterSettings(output_format=" ++ Text.quoted s.format.word ++
    ", divs=" ++ (if s.divs then "True" else "False") ++
    ", encoding=" ++ Text.quoted s.encoding ++
    ", log_level=" ++ Text.quoted s.logLevel.word ++ ")"

end GrammarDoc
