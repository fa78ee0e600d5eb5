import GrammarDoc.Proofs.Encoding.Decoding
import GrammarDoc.Proofs.Files.Writing

namespace GrammarDoc.Files

/-- A step of a session with a store: an entry is put into it from outside, a source is read, or an
output is written, each time with what is found around it then. -/
inductive Step where
  | put (path : String) (entry : Entry)
  | read (incoming : Incoming) (path? : Option String) (encoding : String)
  | write (textual : Bool) (text : String) (path? : Option String) (encoding : String)
      (host : Host := {})

namespace Step

/-- The store after a step. -/
def after (store : Store) : Step → Store
  | put path entry => store.plant (.ofText path) entry
  | read .. => store
  | write textual text path? encoding host =>
    (writeOutput store textual text path? encoding host).store

/-- A step writes to no path with a zero character in it, its text is encoded or fails to be in a
way that encoding is known to, and the disk lets a draft be taken away. -/
def Plain : Step → Prop
  | write _ text (some path) encoding host => isStandard (some path) = false →
    (Path.ofText path).hasZero = false ∧
      (∀ error, Codec.encodeAs host.codings encoding (text ++ "\n") = .error error →
        error.ofEncoding) ∧
      host.erasing = none
  | _ => True

end Step

variable {store : Store} {step : Step} {steps : List Step} {textual : Bool}
variable {text path encoding : String} {place : Place} {host : Host}

theorem writeOutput_file (h : isStandard (some path) = false) :
    writeOutput store textual text (some path) encoding host =
      writeFile store (.ofText path) (text ++ "\n") encoding host := by
  rw [writeOutput, if_neg (by simp [h])]
  rfl

theorem writeOutput_stream {path? : Option String} (h : isStandard path?) :
    (writeOutput store textual text path? encoding host).store = store := by
  rw [writeOutput, if_pos h, writeStream]
  split
  next => rfl
  next => split <;> rfl

end GrammarDoc.Files
