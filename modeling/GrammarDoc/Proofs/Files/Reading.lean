import GrammarDoc.Proofs.Encoding.Decoding
import GrammarDoc.Proofs.Files.Sessions

namespace GrammarDoc.Files

variable {store : Store} {path : Path} {place : Place} {entry : Entry} {bytes : List UInt8}
variable {payload encoding : String} {step : Step} {steps : List Step} {host : Host}

/-- A draft takes the place of nothing. -/
theorem entry?_set_draft {draft : Place} {content : List UInt8}
    (hfree : store.entry? draft = none) (he : store.entry? place = some entry) :
    Store.entry? (store.set draft (.file content)) place = some entry := by
  have hne : place ≠ draft := by
    rintro rfl
    cases hfree.symm.trans he
  exact (Store.entry?_set_other hne).trans he

/-- What stands in a store stays there when a file is written, unless it is a file in its place. -/
theorem writeFile_keeps (he : store.entry? place = some entry)
    (hp : place = path.place → entry = .directory) :
    Store.entry? (writeFile store path payload encoding host).store place = some entry := by
  have heffect := Writing.toFile_effect host path payload encoding store
  unfold writeFile
  generalize Writing.toFile host path payload encoding store = result at heffect
  cases heffect with
  | written _ hg _ _ _ _ _ hreplace =>
    obtain ⟨-, -, hfree, rfl⟩ := Store.replace_eq_ok_iff.mp hreplace
    have hne : place ≠ path.place := by
      rintro rfl
      exact hfree ((hg.keeps he).trans (congrArg some (hp rfl)))
    exact (Store.entry?_set_other hne).trans (hg.keeps he)
  | refused hg _ => exact hg.keeps he
  | zeroInPath hg _ => exact hg.keeps he
  | unexpected hg hfree _ _ => exact entry?_set_draft hfree (hg.keeps he)
  | stuck hg hfree _ => exact entry?_set_draft hfree (hg.keeps he)

/-- A step that puts nothing into a store from outside and writes to no file at a place. -/
def Step.Spares (place : Place) : Step → Prop
  | put .. => False
  | read .. => True
  | write _ _ none .. => True
  | write _ _ (some path) .. => isStandard (some path) = false → (Path.ofText path).place ≠ place

theorem Step.Spares.keeps (h : step.Spares path.place) (he : store.entry? place = some entry)
    (hp : place = path.place ∨ entry = .directory) :
    Store.entry? (step.after store) place = some entry := by
  cases step with
  | put => exact h.elim
  | read => exact he
  | write textual text path? encoding host =>
    rw [Step.after]
    by_cases hs : isStandard path?
    · rw [writeOutput_stream hs]
      exact he
    · obtain ⟨other, rfl⟩ : ∃ other, path? = some other := by
        cases path? with
        | none => exact absurd rfl hs
        | some other => exact ⟨other, rfl⟩
      have hfile : isStandard (some other) = false := by simpa using hs
      rw [writeOutput_file hfile]
      refine writeFile_keeps he fun hplace => hp.resolve_left fun hsame => ?_
      exact h hfile (hplace.symm.trans hsame)

end GrammarDoc.Files
