import GrammarDoc.Files.Draft
import GrammarDoc.Proofs.Files.Directories

namespace GrammarDoc.Files

namespace Store

variable {store made : Store} {place : Place} {path : Path} {entry : Entry} {bytes : List UInt8}

theorem set_set (store : Store) (place : Place) (entry later : Entry) :
    (store.set place entry).set place later = store.set place later := by
  simp [set]

/-- What is put where nothing stood leaves no trace when it is taken away. -/
theorem erase_set (h : store.entry? place = none) :
    (store.set place entry).erase place = store := by
  have hd : place.names.all (· = "..") = false :=
    not_all_dots_of_not_directory fun hd => nomatch h.symm.trans hd
  have hnone : store.entries.lookup place = none := by
    simpa [hd, entry?] using h
  have hall : ∀ p ∈ store.entries, decide (p.1 ≠ place) = true := by
    intro p hp
    have hne := List.lookup_eq_none_iff.mp hnone p hp
    exact decide_eq_true fun he => by simp [he] at hne
  obtain ⟨directory, entries⟩ := store
  simp only [set, erase, List.filter_cons, ne_eq, not_true_eq_false, decide_false,
    Bool.false_eq_true, if_false, List.filter_filter, Bool.and_self]
  rw [List.filter_eq_self.mpr hall]

theorem create_eq_ok_iff : store.create place = .ok made ↔
    store.entry? place.parent = some .directory ∧ store.entry? place = none ∧
      made = store.set place (.file []) := by
  unfold create
  split
  next h => simp [h]
  next h => simp [h]
  next h =>
    split
    next h' => simp [h']
    next h' => simp [h, h', eq_comm]

/-- A file that stands where nothing stood before replaces another one. -/
theorem move_set (h : store.entry? place = none) :
    (store.set place (.file bytes)).move place path = store.replace path bytes := by
  have hd : place.names.all (· = "..") = false :=
    not_all_dots_of_not_directory fun hd => nomatch h.symm.trans hd
  rw [move, entry?_set hd]
  dsimp only
  rw [erase_set h]

end Store

variable {host : Host} {path : Path} {store grown : Store} {draft : Place}
variable {payload encoding : String}

/-- Neither the name of a draft nor its full name is too long. -/
structure Fits (store : Store) (draft : Place) : Prop where
  full : (store.fullName draft).utf8ByteSize ≤ Store.pathLimit
  name : draft.name.utf8ByteSize ≤ Store.nameLimit

/-- The disk refuses no step of a write. -/
structure Host.Sound (host : Host) : Prop where
  directories : host.directories = none
  making : host.making = none
  filling : host.filling = none
  syncing : host.syncing = none
  moving : host.moving = none

namespace Writing

section Steps

variable {α β : Type} {x : Writing α} {f : α → Writing β} {handle : WriteError → Writing α}
variable {after : Store} {a : α} {e : WriteError}

theorem bind_of_ok (h : x store = .ok a after) : (x >>= f) store = f a after := by
  change EStateM.bind x f store = _
  rw [EStateM.bind, h]

theorem bind_of_error (h : x store = .error e after) : (x >>= f) store = .error e after := by
  change EStateM.bind x f store = _
  rw [EStateM.bind, h]

theorem tryCatch_of_ok (h : x store = .ok a after) : tryCatch x handle store = .ok a after := by
  change EStateM.tryCatch x handle store = _
  rw [EStateM.tryCatch, h]

theorem tryCatch_of_error (h : x store = .error e after) :
    tryCatch x handle store = handle e after := by
  change EStateM.tryCatch x handle store = _
  rw [EStateM.tryCatch, h]
  rfl

end Steps

theorem allow_cases (path : Path) (fault? : Option String) (store : Store) :
    (fault? = none ∧ allow path fault? store = .ok () store) ∨
      ∃ e, WriteError.isReason e ∧ allow path fault? store = .error e store := by
  cases fault? with
  | none => exact .inl ⟨rfl, rfl⟩
  | some text => exact .inr ⟨_, rfl, rfl⟩

/-- The tries end with a draft where nothing stood, or for a reason and with nothing done. -/
theorem tryDrafts_cases (host : Host) (path : Path) (store : Store) (next left : Nat) :
    (∃ n, n < next + left ∧ store.entry? (draftOf path (host.letters n)) = none ∧
        Fits store (draftOf path (host.letters n)) ∧
        tryDrafts host path next left store = .ok (draftOf path (host.letters n))
          (store.set (draftOf path (host.letters n)) (.file []))) ∨
      ∃ e, WriteError.isReason e ∧ tryDrafts host path next left store = .error e store := by
  induction left generalizing next with
  | zero => exact .inr ⟨_, rfl, rfl⟩
  | succ left ih =>
    rw [tryDrafts]
    dsimp only
    split
    next => exact .inr ⟨_, rfl, rfl⟩
    next hlong =>
      split
      next made hm =>
        obtain ⟨-, hfree, rfl⟩ := Store.create_eq_ok_iff.mp hm
        obtain ⟨hfull, hname⟩ := not_or.mp hlong
        exact .inl ⟨next, by omega, hfree,
          ⟨Nat.le_of_not_lt hfull, Nat.le_of_not_lt hname⟩, rfl⟩
      next =>
        rcases ih (next + 1) with ⟨n, hn, h⟩ | h
        · exact .inl ⟨n, by omega, h⟩
        · exact .inr h
      next => exact .inr ⟨_, rfl, rfl⟩

end Writing
end GrammarDoc.Files
