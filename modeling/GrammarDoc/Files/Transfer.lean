import GrammarDoc.Files.Draft
import GrammarDoc.Log

namespace GrammarDoc.Files

/-- What arrives on standard input. A text stream has been decoded by whoever supplies it. -/
inductive Incoming where
  | bytes (content : List UInt8)
  | text (content : String)
deriving Repr, Inhabited

/-- Standard output is a text stream where standard input is one. -/
def Incoming.isTextual : Incoming → Bool
  | bytes _ => false
  | text _ => true

/-- No path, or a dash, stands for the standard streams. -/
def isStandard : Option String → Bool
  | none => true
  | some path => path == "-"

/-- Why a source cannot be read. -/
inductive ReadError where
  | file (failure : Failure)
  | codec (error : CodecError)
  | zeroInPath
deriving Repr, DecidableEq

def ReadError.message : ReadError → String
  | file failure => failure.message
  | codec error => error.message
  | zeroInPath => Files.zeroInPath

/-- The text of a source. Standard input is decoded as it is; in a file every kind of line break
becomes a line feed. A file that cannot be opened is reported before an unknown encoding, but after
an encoding or a path with a zero character in it. -/
def readSource (store : Store) (incoming : Incoming) (path? : Option String) (encoding : String)
    (host : Host := {}) : Except ReadError String :=
  if isStandard path? then
    match incoming with
    | .text content => .ok content
    | .bytes content => (Codec.decodeStream host.codings encoding content).mapError .codec
  else
    let path := Path.ofText (path?.getD "")
    if Codec.hasZero encoding then .error (.codec .zeroInName)
    else if path.hasZero then .error .zeroInPath
    else
      match store.read path with
      | .error cause => .error (.file ⟨cause, path.text, none⟩)
      | .ok bytes => (Codec.readFile host.codings encoding bytes).mapError .codec

/-- What a write leaves behind: the store, what went to standard output, and how it ended. -/
structure Written where
  store : Store
  stdout : List UInt8
  outcome : Logged WriteError Unit

/-- Writes a payload to standard output. -/
def writeStream (store : Store) (textual : Bool) (payload encoding : String) (host : Host := {}) :
    Written :=
  if textual then ⟨store, Encoding.Utf8.encode payload.toList, pure ()⟩
  else
    match Codec.encodeAs host.codings encoding payload with
    | .error e => ⟨store, [], .fail (if e.ofEncoding then .stream encoding e else .ofCodec e)⟩
    | .ok bytes => ⟨store, bytes, pure ()⟩

/-- Writes a payload to a file. -/
def writeFile (store : Store) (path : Path) (payload encoding : String) (host : Host := {}) :
    Written :=
  match Writing.toFile host path payload encoding store with
  | .error e store => ⟨store, [], .fail e⟩
  | .ok () store => ⟨store, [], .note .info ("Wrote " ++ path.text)⟩

/-- Writes a text and a line feed to standard output or to a file. -/
def writeOutput (store : Store) (textual : Bool) (text : String) (path? : Option String)
    (encoding : String) (host : Host := {}) : Written :=
  if isStandard path? then writeStream store textual (text ++ "\n") encoding host
  else writeFile store (Path.ofText (path?.getD "")) (text ++ "\n") encoding host

end GrammarDoc.Files
