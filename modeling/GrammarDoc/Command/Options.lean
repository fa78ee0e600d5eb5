import GrammarDoc.Text.Digit
import GrammarDoc.Text.Quoted

namespace GrammarDoc.Command

/-- The options of the command line. -/
inductive Flag where
  | help
  | markdown
  | ebnf
  | divs
  | output
  | config
  | verbose
deriving Repr, DecidableEq

namespace Flag

/-- The spellings of an option, the short one first. -/
def spellings : Flag → List String
  | help => ["-h", "--help"]
  | markdown => ["-m", "--markdown"]
  | ebnf => ["-e", "--ebnf"]
  | divs => ["-d", "--divs"]
  | output => ["-o", "--output"]
  | config => ["--config"]
  | verbose => ["-v", "--verbose"]

def takesValue : Flag → Bool
  | output => true
  | config => true
  | _ => false

def all : List Flag :=
  [help, markdown, ebnf, divs, output, config, verbose]

/-- An option with all its spellings, for messages. -/
def title (flag : Flag) : String :=
  "/".intercalate flag.spellings

/-- The option with a given spelling. -/
def ofSpelling? (s : String) : Option Flag :=
  all.find? fun flag => flag.spellings.contains s

/-- Every spelling with its option. -/
def table : List (String × Flag) :=
  all.flatMap fun flag => flag.spellings.map (·, flag)

end Flag

/-- What stands for the value of an option. Two dashes that are joined to an option are no value,
though the option is given. -/
inductive OptionValue where
  | absent
  | given (text : String)
  | lost
deriving Repr, DecidableEq, Inhabited

/-- The value that a text joined to an option, or after it, gives. -/
def OptionValue.ofText (s : String) : OptionValue :=
  if s = "--" then lost else given s

/-- What the command line asks for. -/
structure Options where
  input? : Option String := none
  markdown : Bool := false
  ebnf : Bool := false
  divs : Bool := false
  output : OptionValue := .absent
  config : OptionValue := .absent
  verbose : Bool := false
deriving Repr, DecidableEq

/-- Why a command line cannot be followed. -/
inductive UsageError where
  | unrecognized (args : List String)
  | missingValue (flag : Flag)
  | surplusValue (flag : Flag) (value : String)
  | ambiguous (arg : String) (matching : List String)
deriving Repr, DecidableEq

def UsageError.message : UsageError → String
  | unrecognized args => "unrecognized arguments: " ++ " ".intercalate args
  | missingValue flag => "argument " ++ flag.title ++ ": expected one argument"
  | surplusValue flag value =>
    "argument " ++ flag.title ++ ": ignored explicit argument " ++ Text.quoted value
  | ambiguous arg matching =>
    "ambiguous option: " ++ arg ++ " could match " ++ ", ".intercalate matching

/-- What an argument may be before its place is known: a plain word, the dashes that end the
options, an option with the spelling it was found under and the value that is joined to it, or an
unknown option. -/
inductive Argument where
  | word (text : String)
  | dashes
  | option (flag : Flag) (spelling : String) (value? : Option String) (text : String)
  | unknown (text : String)
deriving Repr, DecidableEq

/-- The texts before and after the first equals sign. -/
def cutAtEquals? (cs : List Char) : Option (String × String) :=
  if '=' ∈ cs then
    some (String.ofList (cs.takeWhile (· ≠ '=')), String.ofList ((cs.dropWhile (· ≠ '=')).drop 1))
  else none

/-- A dash and a number, which may have a point in it. A line feed may follow it. -/
def isNegativeNumber : List Char → Bool
  | '-' :: cs =>
    let digits := if cs.getLast? = some '\n' then cs.dropLast else cs
    match digits.dropWhile Text.isDigit with
    | [] => !digits.isEmpty
    | '.' :: places => !places.isEmpty && places.all Text.isDigit
    | _ => false
  | _ => false

/-- The options that an argument may be a shorter spelling of, with the values joined to them. Long
options may be cut short; a short one may be followed by more letters. -/
def shortened (cs : List Char) : List (Flag × String × Option String) :=
  if cs.take 2 = ['-', '-'] then
    let (start, value?) := match cutAtEquals? cs with
      | some (start, value) => (start, some value)
      | none => (String.ofList cs, none)
    (Flag.table.filter fun p => start.toList.isPrefixOf p.1.toList).map fun p =>
      (p.2, p.1, value?)
  else
    (Flag.table.filter fun p => p.1.toList == cs.take 2).map fun p =>
      (p.2, p.1, some (String.ofList (cs.drop 2)))

/-- An argument that starts with a dash and is no exact spelling of an option. -/
def classifyDashed (s : String) : Except UsageError Argument :=
  let cs := s.toList
  let joined? := (cutAtEquals? cs).bind fun p =>
    (Flag.ofSpelling? p.1).map fun flag => Argument.option flag p.1 (some p.2) s
  match joined?, shortened cs with
  | some argument, _ => .ok argument
  | none, [(flag, spelling, value?)] => .ok (.option flag spelling value? s)
  | none, [] => .ok (if isNegativeNumber cs || ' ' ∈ cs then .word s else .unknown s)
  | none, many => .error (.ambiguous s (many.map fun p => p.2.1))

/-- What an argument is, as long as no dashes have ended the options. -/
def classify (s : String) : Except UsageError Argument :=
  if s.toList.head? ≠ some '-' ∨ s = "-" then .ok (.word s)
  else
    match Flag.ofSpelling? s with
    | some flag => .ok (.option flag s none s)
    | none => classifyDashed s

/-- What all arguments are. After the first two dashes every argument is a word. -/
def classifyAll : List String → Except UsageError (List Argument)
  | [] => .ok []
  | s :: rest =>
    if s = "--" then .ok (.dashes :: rest.map .word)
    else do return (← classify s) :: (← classifyAll rest)

/-- A flag of a bundle, with the value that is joined to it if it takes one. -/
structure Setting where
  flag : Flag
  value? : Option String
deriving Repr, DecidableEq

def Setting.optionValue (setting : Setting) : OptionValue :=
  (setting.value?.map OptionValue.ofText).getD .absent

/-- Reads an option with its joined value as a bundle of short options, of which only the last may
take a value. A value that is still missing is `none`. `fuel` bounds the letters. -/
def unbundle : Nat → Flag → String → Option String → Except UsageError (List Setting)
  | _, flag, _, none => .ok [⟨flag, none⟩]
  | 0, flag, _, some value => .error (.surplusValue flag value)
  | fuel + 1, flag, spelling, some value =>
    if flag.takesValue then .ok [⟨flag, some value⟩]
    else if spelling.toList.take 2 = ['-', '-'] then .error (.surplusValue flag value)
    else
      match value.toList with
      | [] => .error (.surplusValue flag value)
      | c :: cs =>
        let next := String.ofList ['-', c]
        match Flag.ofSpelling? next with
        | none => .error (.surplusValue flag value)
        | some other =>
          let rest? := if cs.isEmpty then none else some (String.ofList cs)
          (unbundle fuel other next rest?).map (⟨flag, none⟩ :: ·)

/-- How reading a command line ends: with options, or with a call for help. -/
inductive Request where
  | help
  | convert (options : Options)
deriving Repr, DecidableEq

/-- Carries out settings one after the other, up to a call for help. -/
def applyAll (options : Options) : List Setting → Request
  | [] => .convert options
  | setting :: settings =>
    match setting.flag with
    | .help => .help
    | .markdown => applyAll { options with markdown := true } settings
    | .ebnf => applyAll { options with ebnf := true } settings
    | .divs => applyAll { options with divs := true } settings
    | .verbose => applyAll { options with verbose := true } settings
    | .output => applyAll { options with output := setting.optionValue } settings
    | .config => applyAll { options with config := setting.optionValue } settings

/-- The state of reading: the options so far, whether the input is still to come, and the words that
nothing has a use for. -/
structure Reading where
  options : Options
  awaitsInput : Bool
  unused : List String
deriving Repr, DecidableEq

/-- Gives a value to the last setting of a bundle, if it still needs one. -/
def supply (settings : List Setting) (rest : List Argument) :
    Except UsageError (List Setting × List Argument) :=
  match settings.getLast? with
  | none => .ok (settings, rest)
  | some last =>
    if last.flag.takesValue && last.value?.isNone then
      match rest with
      | .word value :: rest => .ok (settings.dropLast ++ [⟨last.flag, some value⟩], rest)
      | _ => .error (.missingValue last.flag)
    else .ok (settings, rest)

/-- Reads arguments in order. The first word is the input, the dashes that end the options pass with
it if they stand right before or after it, and any other word is unused. -/
def readArguments : Nat → Reading → List Argument → Except UsageError Request
  | 0, reading, _ => .ok (.convert reading.options)
  | _ + 1, reading, [] =>
    if reading.unused.isEmpty then .ok (.convert reading.options)
    else .error (.unrecognized reading.unused)
  | fuel + 1, reading, .word s :: rest =>
    if reading.awaitsInput then
      let rest := if rest.head? = some .dashes then rest.tail else rest
      readArguments fuel ⟨{ reading.options with input? := some s }, false, reading.unused⟩ rest
    else readArguments fuel { reading with unused := reading.unused ++ [s] } rest
  | fuel + 1, reading, .dashes :: rest =>
    if reading.awaitsInput then
      match rest with
      | .word s :: rest =>
        readArguments fuel ⟨{ reading.options with input? := some s }, false, reading.unused⟩ rest
      | rest => readArguments fuel { reading with awaitsInput := false } rest
    else readArguments fuel { reading with unused := reading.unused ++ ["--"] } rest
  | fuel + 1, reading, .unknown s :: rest =>
    readArguments fuel { reading with unused := reading.unused ++ [s] } rest
  | fuel + 1, reading, .option flag spelling value? text :: rest => do
    let settings ← unbundle text.length flag spelling value?
    let (settings, rest) ← supply settings rest
    match applyAll reading.options settings with
    | .help => return .help
    | .convert options => readArguments fuel { reading with options := options } rest

/-- What a command line asks for. -/
def readCommandLine (argv : List String) : Except UsageError Request := do
  readArguments argv.length.succ ⟨{}, true, []⟩ (← classifyAll argv)

end GrammarDoc.Command
