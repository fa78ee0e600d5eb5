import GrammarDoc.Command.Help
import GrammarDoc.Command.Options
import GrammarDoc.Conversion
import GrammarDoc.Files.Transfer
import GrammarDoc.Rendering.Ebnf
import GrammarDoc.Rendering.Markdown
import GrammarDoc.Settings.Load

namespace GrammarDoc.Command

open Files (Host Incoming ReadError Store WriteError Written)

/-- What a run starts from. -/
structure Invocation where
  argv : List String
  incoming : Incoming
  env : List (String × String)
  store : Store
  host : Host := {}

/-- A failure that a run does not answer for with an exit code. -/
inductive Fault where
  | loading (error : Settings.LoadError)
  | reading (error : ReadError)
  | rendering (error : NotAnElement)
  | writing (error : WriteError)
  | lostValue

def Fault.message : Fault → String
  | loading e => e.message
  | reading e => e.message
  | rendering e => e.message
  | writing e => e.message
  | lostValue => "expected str, bytes or os.PathLike object, not list"

/-- What a run leaves behind. -/
structure Outcome where
  ending : Except Fault Nat
  stdout : List UInt8
  stderr : String
  store : Store

def exitOk : Nat :=
  0

/-- The input is no grammar, or one that cannot be converted. -/
def exitConversion : Nat :=
  1

/-- The arguments, the settings, the input or the output are at fault. -/
def exitOther : Nat :=
  2

/-- The records of a level and above, one to a line. -/
def report (level : LogLevel) (log : List LogRecord) : String :=
  String.join ((log.filter fun r => level.rank ≤ r.level.rank).map fun r =>
    "[" ++ r.level.word ++ "] " ++ r.message ++ "\n")

/-- Warnings that come before the level is known are shown without their level. -/
def earlyReport (log : List LogRecord) : String :=
  String.join ((log.filter fun r => LogLevel.warning.rank ≤ r.level.rank).map fun r =>
    r.message ++ "\n")

/-- The settings with the options of the command line on top. -/
def Options.onTopOf (o : Options) (s : Settings) : Settings where
  format := if o.ebnf then .ebnf else if o.markdown then .markdown else s.format
  divs := o.divs || s.divs
  encoding := s.encoding
  logLevel := if o.verbose then .debug else s.logLevel

/-- The document that rules give. -/
def render (settings : Settings) (rules : List Rule) : Except NotAnElement String :=
  match settings.format with
  | .ebnf => Ebnf.document rules
  | .markdown => Markdown.document settings.divs rules

/-- What goes into an outcome as a run goes on: the level of its log, the records so far, what it
has written, and the store. -/
structure Progress where
  level : LogLevel
  log : List LogRecord
  stdout : List UInt8
  store : Store

/-- Ends a run. -/
def Progress.ended (p : Progress) (ending : Except Fault Nat) : Outcome :=
  ⟨ending, p.stdout, report p.level p.log, p.store⟩

/-- Goes on with more records. -/
def Progress.noting (p : Progress) (log : List LogRecord) : Progress :=
  { p with log := p.log ++ log }

/-- Ends a run with an error record and an exit code. -/
def Progress.refused (p : Progress) (code : Nat) (message : String) : Outcome :=
  (p.noting [⟨.error, message⟩]).ended (.ok code)

/-- Writes a document that has been rendered. Only reasons why it cannot be written are answered
for. -/
def write (p : Progress) (inv : Invocation) (options : Options) (settings : Settings)
    (document : String) : Outcome :=
  let writeTo := fun (path? : Option String) =>
    let written := Files.writeOutput p.store inv.incoming.isTextual document path?
      settings.encoding inv.host
    let p := { p with
      stdout := written.stdout
      store := written.store
      log := p.log ++ written.outcome.log }
    match written.outcome.result with
    | .error e =>
      if e.isReason then p.refused exitOther e.message else p.ended (.error (.writing e))
    | .ok () => p.ended (.ok exitOk)
  match options.output with
  | .absent => writeTo none
  | .given path => writeTo (some path)
  | .lost => p.ended (.error .lostValue)

/-- Converts a source that has been read, and writes the document. -/
def convert (p : Progress) (inv : Invocation) (options : Options) (settings : Settings)
    (text : String) : Outcome :=
  let parsed := parseRules text
  let p := p.noting parsed.log
  match parsed.result with
  | .error e => p.refused exitConversion ("conversion failed: " ++ e.message)
  | .ok rules =>
    match render settings rules with
    | .error e => p.ended (.error (.rendering e))
    | .ok document => write p inv options settings document

/-- The name of the input in messages. -/
def inputName (options : Options) : String :=
  match options.input? with
  | none => "<stdin>"
  | some name => if name = "" then "<stdin>" else name

/-- Whether a run answers for a source that cannot be read. A zero character in its path is not
answered for, nor an error that its encoding is not known to end with. -/
def answersFor : ReadError → Bool
  | .file _ => true
  | .codec e => e.ofDecoding
  | .zeroInPath => false

/-- Reads the source and converts it. -/
def readAndConvert (inv : Invocation) (options : Options) (settings : Settings) : Outcome :=
  let p : Progress :=
    ⟨settings.logLevel, [⟨.debug, "settings: " ++ settings.inspect⟩], [], inv.store⟩
  match Files.readSource inv.store inv.incoming options.input? settings.encoding inv.host with
  | .ok text => convert p inv options settings text
  | .error e =>
    if answersFor e then
      p.refused exitOther ("cannot read " ++ inputName options ++ ": " ++ e.message)
    else p.ended (.error (.reading e))

/-- Loads the settings, from a file if one is named, puts the options on top, and goes on. Only a
settings file that was asked for can stop a run with an exit code. -/
def convertLoading (inv : Invocation) (options : Options) (path? : Option String) : Outcome :=
  let loaded := Settings.load inv.store inv.env path?
  let early := earlyReport loaded.log
  let outcome := match loaded.result with
    | .ok settings => readAndConvert inv options (options.onTopOf settings)
    | .error (.config path failure?) =>
      (⟨.warning, [], [], inv.store⟩ : Progress).refused exitOther
        (Settings.LoadError.config path failure?).message
    | .error e => ⟨.error (.loading e), [], "", inv.store⟩
  { outcome with stderr := early ++ outcome.stderr }

/-- A run whose arguments ask for a conversion. -/
def convertWith (inv : Invocation) (options : Options) : Outcome :=
  match options.config with
  | .absent => convertLoading inv options none
  | .given path => convertLoading inv options (some path)
  | .lost => ⟨.error .lostValue, [], "", inv.store⟩

/-- A run of the program. -/
def run (inv : Invocation) : Outcome :=
  match readCommandLine inv.argv with
  | .error e =>
    ⟨.ok exitOther, [], usage ++ programName ++ ": error: " ++ e.message ++ "\n", inv.store⟩
  | .ok .help => ⟨.ok exitOk, Encoding.Utf8.encode help.toList, "", inv.store⟩
  | .ok (.convert options) => convertWith inv options

end GrammarDoc.Command
