import GrammarDoc.Encoding.Codec
import GrammarDoc.Files.Store

namespace GrammarDoc.Files

/-- Letters for the names of drafts. They stand for any others. -/
def usualLetters (n : Nat) : String :=
  "XXXXXXX".push (Char.ofNat ('X'.toNat - n % 24))

theorem usualLetters_size (n : Nat) : (usualLetters n).utf8ByteSize = 8 := by
  have hsize : ∀ k < 24, (Char.ofNat ('X'.toNat - k)).utf8Size = 1 := by decide
  rw [usualLetters, String.utf8ByteSize_push, hsize (n % 24) (Nat.mod_lt n (by decide))]
  rfl

/-- What a run finds around it: the encodings beside those that are described here, the letters
that it may draw for the names of drafts, and the steps of a write that the disk refuses, with the
texts of its errors. Some directories may have been made before one is refused, and some bytes taken
before a draft cannot be filled. -/
structure Host where
  codings : Codings := fun _ => none
  letters : Nat → String := usualLetters
  letters_size : ∀ n, (letters n).utf8ByteSize = 8 := by
    exact GrammarDoc.Files.usualLetters_size
  directories : Option (Nat × String) := none
  making : Option String := none
  filling : Option (Nat × String) := none
  syncing : Option String := none
  moving : Option String := none
  erasing : Option String := none

/-- Why an output cannot be written. -/
inductive WriteError where
  | stream (encoding : String) (error : CodecError)
  | unmade (path : String) (failure : Failure)
  | refused (path : String) (text : String)
  | unencoded (path : String) (error : CodecError)
  | zeroInPath
  | zeroInEncoding
  | unexpected (error : CodecError)
  | stuck (text : String)
deriving Repr, DecidableEq

namespace WriteError

def message : WriteError → String
  | stream encoding error => "cannot encode output as " ++ encoding ++ ": " ++ error.message
  | unmade path failure => "cannot write " ++ path ++ ": " ++ failure.message
  | refused path text => "cannot write " ++ path ++ ": " ++ text
  | unencoded path error => "cannot write " ++ path ++ ": " ++ error.message
  | zeroInPath => Files.zeroInPath
  | zeroInEncoding => CodecError.zeroInName.message
  | unexpected error => error.message
  | stuck text => text

/-- An error that says why an output cannot be written. Zero characters and errors that an encoding
is not known to end with are no such reasons, and neither is a draft that cannot be taken away. -/
def isReason : WriteError → Bool
  | stream .. => true
  | unmade .. => true
  | refused .. => true
  | unencoded .. => true
  | _ => false

/-- An error that encoding a text is not known to end with. -/
def ofCodec : CodecError → WriteError
  | .zeroInName => zeroInEncoding
  | e => unexpected e

theorem isReason_ofCodec (error : CodecError) : (ofCodec error).isReason = false := by
  cases error <;> rfl

end WriteError

/-- A step of a write. What it has done to the store stays when it fails. -/
abbrev Writing :=
  EStateM WriteError Store

/-- Where a file is prepared before it takes its place, next to it. -/
def draftOf (path : Path) (letters : String) : Place :=
  path.parent.place.child ("." ++ path.name ++ "." ++ letters ++ ".tmp")

/-- How many drafts are tried. -/
def draftTries : Nat :=
  10000

namespace Writing

variable (host : Host) (path : Path)

/-- Makes the directories that a file stands in. -/
def makeParent : Writing Unit := fun store =>
  if path.parent.hasZero then .error .zeroInPath store
  else
    match host.directories with
    | some (count, text) =>
      .error (.refused path.text text)
        (store.makeDirectories path.root (path.parent.names.take count)).1
    | none =>
      match store.makeDirectories path.root path.parent.names with
      | (store, .error failure) => .error (.unmade path.text failure) store
      | (store, .ok ()) => .ok () store

/-- Makes a draft under the first free name, if one of the next names is. -/
def tryDrafts (next : Nat) : Nat → Writing Place
  | 0 => throw (.refused path.text "[Errno 17] No usable temporary file name found")
  | left + 1 => fun store =>
    let draft := draftOf path (host.letters next)
    let failed := fun cause => EStateM.Result.error
      (WriteError.unmade path.text ⟨cause, store.fullName draft, none⟩) store
    if Store.pathLimit < (store.fullName draft).utf8ByteSize ∨
        Store.nameLimit < draft.name.utf8ByteSize then
      failed .nameTooLong
    else
      match store.create draft with
      | .ok made => .ok draft made
      | .error .exists => tryDrafts (next + 1) left store
      | .error cause => failed cause

/-- Goes on unless the disk refuses. -/
def allow : Option String → Writing Unit
  | none => pure ()
  | some text => throw (.refused path.text text)

/-- Makes a draft. -/
def makeDraft : Writing Place := do
  if path.hasZero then throw .zeroInPath
  allow path host.making
  tryDrafts host path 0 draftTries

/-- Encodes a payload into a draft. -/
def fillDraft (draft : Place) (payload encoding : String) : Writing Unit := fun store =>
  match Codec.encodeAs host.codings encoding payload with
  | .error e =>
    .error (if e.ofEncoding then .unencoded path.text e else .ofCodec e) store
  | .ok bytes =>
    match host.filling with
    | some (count, text) =>
      .error (.refused path.text text) (store.set draft (.file (bytes.take count)))
    | none => .ok () (store.set draft (.file bytes))

/-- Moves a draft to where the path leads. -/
def moveDraft (draft : Place) : Writing Unit := fun store =>
  match store.move draft path with
  | .ok moved => .ok () moved
  | .error cause =>
    .error (.unmade path.text ⟨cause, store.fullName draft, some path.text⟩) store

/-- Takes a draft away, if it is still there. -/
def eraseDraft (draft : Place) : Writing Unit := fun store =>
  if (store.entry? draft).isNone then .ok () store
  else
    match host.erasing with
    | some text => .error (.stuck text) store
    | none => .ok () (store.erase draft)

/-- Prepares a file in a draft and moves it into place. -/
def settleDraft (draft : Place) (payload encoding : String) : Writing Unit := do
  fillDraft host path draft payload encoding
  allow path host.syncing
  allow path host.moving
  moveDraft path draft

/-- Writes a payload to a file. The directories that it stands in are made first, and where it
comes to nothing for a reason, its draft is taken away again. -/
def toFile (payload encoding : String) : Writing Unit := do
  makeParent host path
  let draft ← makeDraft host path
  try settleDraft host path draft payload encoding
  catch e =>
    if e.isReason then eraseDraft host draft
    throw e

end Writing
end GrammarDoc.Files
