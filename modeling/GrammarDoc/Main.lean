import GrammarDoc.Command.Run

namespace GrammarDoc.Main

open Files (Place Store)

/-- Puts what stands on disk at a path, and at every directory on the way to it, into a store. -/
def observe (store : Store) (path : Files.Path) : IO Store := do
  let mut store := store
  for count in List.range (path.names.length + 1) do
    let names := path.names.take count
    let reached : Files.Path := ⟨path.root, names⟩
    let place := reached.place
    let text := reached.text
    let real ← try some <$> IO.FS.realPath text catch _ => pure none
    if let some real := real then
      if ← real.isDir then store := store.set place .directory
      else if ← real.pathExists then
        store := store.set place (.file (← IO.FS.readBinFile text).toList)
  return store

/-- The paths that a command line may lead to. -/
def pathsOf (options : Command.Options) : List String :=
  let settings := match options.config with
    | .absent => Settings.usualFiles
    | .given path => [path]
    | .lost => []
  let output? := match options.output with
    | .given path => some path
    | _ => none
  settings ++ [options.input?, output?].filterMap fun path? =>
    if Files.isStandard path? then none else path?

/-- All bytes of a stream. -/
partial def readAll (stream : IO.FS.Stream) (done : ByteArray) : IO ByteArray := do
  let bytes ← stream.read 65536
  if bytes.isEmpty then return done else readAll stream (done ++ bytes)

/-- What a run starts from, as far as the command line lets it look. -/
def invocation (argv : List String) : IO Command.Invocation := do
  let start := Store.empty (← IO.currentDir).toString
  let env ← Override.variableKeys.filterMapM fun p => do
    let name := Override.usualStart ++ p.1
    return (← IO.getEnv name).map (name, ·)
  match Command.readCommandLine argv with
  | .ok (.convert options) =>
    let store ← (pathsOf options).foldlM (fun store path => observe store (.ofText path)) start
    let bytes ←
      if Files.isStandard options.input? then readAll (← IO.getStdin) .empty else pure .empty
    return { argv, incoming := .bytes bytes.toList, env, store }
  | _ => return { argv, incoming := .bytes [], env, store := start }

/-- Writes a file next to where it belongs, and then moves it there. -/
def putFile (place : Place) (bytes : List UInt8) : IO Unit := do
  let letters := toString (← IO.rand 0 99999999)
  let draft := place.parent.child ("." ++ place.name ++ "." ++ letters ++ ".tmp")
  try
    IO.FS.writeBinFile draft.text ⟨bytes.toArray⟩
    IO.FS.rename draft.text place.text
  catch e =>
    try IO.FS.removeFile draft.text catch _ => pure ()
    throw e

/-- Makes on disk what a run has put into its store, the oldest first. -/
def commit (before after : Store) : IO Unit :=
  for (place, entry) in (after.entries.filter fun p => !before.entries.contains p).reverse do
    match entry with
    | .directory => IO.FS.createDir place.text
    | .file bytes => putFile place bytes

end GrammarDoc.Main

open GrammarDoc in
/-- Converts a grammar as the command line asks. -/
def main (args : List String) : IO UInt32 := do
  let invocation ← Main.invocation args
  let outcome := Command.run invocation
  try Main.commit invocation.store outcome.store
  catch e =>
    IO.eprint (Command.report .error [⟨.error, "cannot write output: " ++ toString e⟩])
    return Command.exitOther.toUInt32
  let stdout ← IO.getStdout
  stdout.write ⟨outcome.stdout.toArray⟩
  stdout.flush
  IO.eprint outcome.stderr
  match outcome.ending with
  | .ok code => return code.toUInt32
  | .error fault =>
    IO.eprintln fault.message
    return Command.exitConversion.toUInt32
