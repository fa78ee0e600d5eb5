import GrammarDoc.Settings.Basic
import GrammarDoc.Text.Blank
import GrammarDoc.Text.Case
import GrammarDoc.Value

namespace GrammarDoc

/-- Settings of which some are given and the rest are left open. -/
structure Override where
  format? : Option OutputFormat := none
  divs? : Option Bool := none
  encoding? : Option String := none
  logLevel? : Option LogLevel := none
deriving Repr, DecidableEq, Inhabited

/-- The words that mean yes. -/
def yesWords : List String :=
  ["1", "true", "t", "yes", "y", "on"]

namespace Value

/-- Whether a value means yes. A number does unless it is zero, and a text if it is one of the words
for it. -/
def isYes : Value → Bool
  | bool b => b
  | int n => n ≠ 0
  | double x => !x.isZero
  | text s => yesWords.contains (Text.lower (Text.trim s))
  | _ => false

def text? : Value → Option String
  | text s => some s
  | _ => none

def table? : Value → Option (List (String × Value))
  | table fields => some fields
  | _ => none

end Value

namespace Override

/-- The format that a value names, without regard to case and outer blanks. -/
def formatOf? (v : Value) : Option OutputFormat :=
  v.text?.bind fun s => OutputFormat.ofWord? (Text.lower (Text.trim s))

/-- The encoding that a value names: any text that is not blank. -/
def encodingOf? (v : Value) : Option String :=
  v.text?.bind fun s => if Text.trim s = "" then none else some (Text.trim s)

/-- The level that a value names, without regard to case and outer blanks. -/
def logLevelOf? (v : Value) : Option LogLevel :=
  v.text?.bind fun s => LogLevel.ofWord? (Text.upper (Text.trim s))

/-- What the fields of a table set. The format has two keys, of which the longer one hides the
shorter one even if its value is of no use. -/
def ofFields (fields : List (String × Value)) : Override where
  format? :=
    ((Value.field? "output_format" fields).or (Value.field? "format" fields)).bind formatOf?
  divs? := (Value.field? "divs" fields).map Value.isYes
  encoding? := (Value.field? "encoding" fields).bind encodingOf?
  logLevel? := (Value.field? "log_level" fields).bind logLevelOf?

/-- What a value sets: nothing unless it is a table. -/
def ofValue (v : Value) : Override :=
  (v.table?.map ofFields).getD {}

/-- How the names of the variables end, with the keys that they stand for. -/
def variableKeys : List (String × String) :=
  [("FORMAT", "output_format"), ("DIVS", "divs"), ("ENCODING", "encoding"),
    ("LOG_LEVEL", "log_level")]

/-- The variables of an environment that are not empty, under the keys that they stand for. -/
def environmentFields (env : List (String × String)) (start : String) : List (String × Value) :=
  variableKeys.filterMap fun p =>
    match env.lookup (start ++ p.1) with
    | none => none
    | some v => if v = "" then none else some (p.2, .text v)

/-- What starts the names of the variables, unless another start is given. -/
def usualStart : String :=
  "GRAMMAR_CONVERTER_"

/-- What the variables of an environment set. -/
def ofEnvironment (env : List (String × String)) (start : String) : Override :=
  ofFields (environmentFields env start)

end Override

/-- Replaces the settings that an override gives. -/
def Settings.apply (s : Settings) (o : Override) : Settings where
  format := o.format?.getD s.format
  divs := o.divs?.getD s.divs
  encoding := o.encoding?.getD s.encoding
  logLevel := o.logLevel?.getD s.logLevel

end GrammarDoc
