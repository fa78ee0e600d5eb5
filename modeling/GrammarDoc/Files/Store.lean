import GrammarDoc.Files.Failure

namespace GrammarDoc.Files

inductive Entry where
  | file (bytes : List UInt8)
  | directory
deriving Repr, DecidableEq, Inhabited

/-- Where an entry stands: the root it hangs on, and the names from there. Names that lead above the
working directory are double dots at the start. -/
abbrev Place := Path

/-- Files and directories, and the name of the working directory. Every place has at most one
entry, the first one that the list holds. -/
structure Store where
  workingDirectory : String
  entries : List (Place × Entry)
deriving Repr, Inhabited

namespace Store

/-- A store that holds nothing yet. -/
def empty (workingDirectory : String) : Store :=
  ⟨workingDirectory, []⟩

/-- What stands at a place. Roots, the working directory and all that lies above it are
directories. -/
def entry? (store : Store) (place : Place) : Option Entry :=
  if place.names.all (· = "..") then some .directory else store.entries.lookup place

/-- Puts an entry at a place, over what stood there. -/
def set (store : Store) (place : Place) (entry : Entry) : Store :=
  ⟨store.workingDirectory,
    (place, entry) :: store.entries.filter fun p => p.1 ≠ place⟩

/-- The place one name further on. A double dot leads up. -/
def onward (place : Place) (name : String) : Place :=
  match place.names.getLast? with
  | some last => if name = ".." ∧ last ≠ ".." then place.parent else place.child name
  | none => if name = ".." ∧ place.root ≠ "" then place else place.child name

/-- The most bytes that a name may have. -/
def nameLimit : Nat :=
  255

/-- The most bytes that a path may have. -/
def pathLimit : Nat :=
  4095

end Store

/-- The place that a path names, as long as all that stands on the way are directories. -/
def Path.place (p : Path) : Place :=
  p.names.foldl Store.onward ⟨p.root, []⟩

namespace Store

/-- The full name of a place, from the root on. -/
def fullName (store : Store) (place : Place) : String :=
  let start : Path := if place.root = "" then .ofText store.workingDirectory else ⟨place.root, []⟩
  let directory := place.parent.names.foldl onward start
  directory.root ++ String.join (directory.names.map (· ++ "/")) ++ place.name

/-- Follows names from a place. Everything on the way but the last has to be a directory, and no
name that is looked up there may be too long. -/
def follow (store : Store) (place : Place) : List String → Except Cause Place
  | [] => .ok place
  | name :: names =>
    match store.entry? place with
    | none => .error .notFound
    | some (.file _) => .error .notADirectory
    | some .directory =>
      if nameLimit < name.utf8ByteSize then .error .nameTooLong
      else follow store (onward place name) names

/-- The place that a path leads to, whether or not anything stands there. -/
def locate (store : Store) (path : Path) : Except Cause Place :=
  if pathLimit < path.text.utf8ByteSize then .error .nameTooLong
  else store.follow ⟨path.root, []⟩ path.names

/-- What a path leads to. -/
def lookup (store : Store) (path : Path) : Except Cause (Place × Entry) := do
  let place ← store.locate path
  match store.entry? place with
  | none => throw .notFound
  | some entry => return (place, entry)

def isDirectory (store : Store) (path : Path) : Bool :=
  match store.lookup path with
  | .ok (_, .directory) => true
  | _ => false

def «exists» (store : Store) (path : Path) : Bool :=
  (store.lookup path).toOption.isSome

/-- The bytes of a file. -/
def read (store : Store) (path : Path) : Except Cause (List UInt8) := do
  match ← store.lookup path with
  | (_, .file bytes) => return bytes
  | (_, .directory) => throw .isADirectory

/-- Makes one directory. -/
def makeDirectory (store : Store) (path : Path) : Except Cause Store := do
  let place ← store.locate path
  match store.entry? place with
  | some _ => throw .exists
  | none => return store.set place .directory

/-- Makes a directory with all that it stands in. A directory that stands there already will do.
The directories made before a refusal stay. -/
def makeDirectories (store : Store) (root : String) : List String → Store × Except Failure Unit
  | names => go store names.reverse
where
  /-- The names are those of the path from the last one on. -/
  go (store : Store) : List String → Store × Except Failure Unit
    | [] => (store, .ok ())
    | name :: above =>
      let path : Path := ⟨root, (name :: above).reverse⟩
      let settle := fun (store : Store) (cause : Cause) =>
        if cause ≠ .notFound ∧ store.isDirectory path then (store, Except.ok ())
        else (store, .error ⟨cause, path.text, none⟩)
      match store.makeDirectory path with
      | .ok made => (made, .ok ())
      | .error .notFound =>
        match go store above with
        | (store, .error e) => (store, .error e)
        | (store, .ok ()) =>
          match store.makeDirectory path with
          | .ok made => (made, .ok ())
          | .error cause => settle store cause
      | .error cause => settle store cause

/-- Makes an empty file. The directory for it has to be there, and nothing in its place. -/
def create (store : Store) (place : Place) : Except Cause Store :=
  match store.entry? place.parent with
  | none => .error .notFound
  | some (.file _) => .error .notADirectory
  | some .directory =>
    match store.entry? place with
    | some _ => .error .exists
    | none => .ok (store.set place (.file []))

/-- Takes away what stands at a place. -/
def erase (store : Store) (place : Place) : Store :=
  ⟨store.workingDirectory, store.entries.filter fun p => p.1 ≠ place⟩

/-- Puts a file in place of what a path leads to. Only a file can be replaced, and the path has to
end in a name. -/
def replace (store : Store) (path : Path) (bytes : List UInt8) : Except Cause Store := do
  let place ← store.locate path
  if path.names.getLastD ".." = ".." then throw .busy
  match store.entry? place with
  | some .directory => throw .isADirectory
  | _ => return store.set place (.file bytes)

/-- Moves the file at a place to where a path leads. -/
def move (store : Store) (place : Place) (path : Path) : Except Cause Store :=
  match store.entry? place with
  | some (.file bytes) => (store.erase place).replace path bytes
  | _ => .error .notFound

/-- Puts an entry where a path leads, and directories above it where there are none. -/
def plant (store : Store) (path : Path) (entry : Entry) : Store :=
  let made := (store.makeDirectories path.root path.parent.names).1
  match made.locate path with
  | .error _ => made
  | .ok place => made.set place entry

end Store
end GrammarDoc.Files
