import GrammarDoc.Files.Store
import GrammarDoc.Settings.Override
import GrammarDoc.Toml.Document

namespace GrammarDoc
namespace Settings

open Files (Failure Store)

/-- Why settings cannot be loaded. A file that cannot be opened has a failure; one that is no TOML
document has none. Bytes that are no text, integers that are too long, and paths with a zero
character in them are told apart from both. -/
inductive LoadError where
  | config (path : String) (failure? : Option Failure)
  | badBytes (error : Encoding.BadBytes)
  | longInteger (digits : Nat)
  | zeroInPath
deriving Repr, DecidableEq

/-- What was wrong with a file, after the name of it. -/
def blame (failure? : Option Failure) : String :=
  (failure?.map fun e => ": " ++ e.message).getD ""

def LoadError.message : LoadError → String
  | config path failure? => "cannot load config " ++ path ++ blame failure?
  | badBytes e => e.message
  | longInteger digits =>
    Value.tooManyDigits (": value has " ++ toString digits ++ " digits")
  | zeroInPath => Files.zeroInPath

/-- The fields of a settings file that is known by a given name. -/
def readFields (store : Store) (path : Files.Path) (name : String) :
    Except LoadError (List (String × Value)) :=
  if path.hasZero then .error .zeroInPath
  else
    match store.read path with
    | .error cause => .error (.config name (some ⟨cause, name, none⟩))
    | .ok bytes =>
      match Toml.ofBytes bytes with
      | .ok fields => .ok fields
      | .error (.badBytes e) => .error (.badBytes e)
      | .error (.toml (.longInteger digits)) => .error (.longInteger digits)
      | .error (.toml .invalid) => .error (.config name none)

/-- The table of a settings file that holds the settings. A project file keeps them in a table for
tools; any other file keeps them in a table of its own, or at the top. -/
def select (path : Files.Path) (fields : List (String × Value)) :
    Option (List (String × Value)) :=
  if path.name = "pyproject.toml" then
    (((Value.field? "tool" fields).bind Value.table?).bind
      (Value.field? "grammar_converter")).bind Value.table?
  else some (((Value.field? "convert" fields).bind Value.table?).getD fields)

/-- The files in which settings are looked for, in this order. -/
def usualFiles : List String :=
  ["grammar-converter.toml", "pyproject.toml"]

/-- The fields of the first usual file that holds any. A file that cannot be read is passed over
with a warning. -/
def searchUsual (store : Store) : List String → Logged LoadError (List (String × Value))
  | [] => pure []
  | file :: files =>
    let path := Files.Path.ofText file
    let name := store.workingDirectory ++ "/" ++ file
    if !store.exists path then searchUsual store files
    else
      match readFields store path name with
      | .error (.config name failure?) => do
        Logged.note .warning ("ignoring unreadable config " ++ name ++ blame failure?)
        searchUsual store files
      | .error e => .fail e
      | .ok fields =>
        match select path fields with
        | none => searchUsual store files
        | some [] => searchUsual store files
        | some fields => do
          Logged.note .debug ("loaded settings from " ++ name)
          return fields

/-- The fields of a given settings file, or those of the usual ones. -/
def fileFields (store : Store) (path? : Option String) :
    Logged LoadError (List (String × Value)) :=
  match path? with
  | none => searchUsual store usualFiles
  | some s =>
    let path := Files.Path.ofText s
    .ofExcept ((readFields store path path.text).map fun fields => (select path fields).getD [])

/-- The settings from a file and the environment, which goes before the file. -/
def load (store : Store) (env : List (String × String)) (path? : Option String) :
    Logged LoadError Settings := do
  let fields ← fileFields store path?
  let fromFile := Settings.apply {} (.ofFields fields)
  return fromFile.apply (.ofEnvironment env Override.usualStart)

end Settings
end GrammarDoc
