import GrammarDoc.Files.Transfer
import GrammarDoc.Proofs.Files.Drafts

namespace GrammarDoc.Files

variable {store grown written : Store} {path : Path} {draft : Place} {bytes : List UInt8}
variable {payload encoding : String} {host : Host}

/-- A file has taken its place at the end of a path: the directories on the way are there, and
nothing else has been touched. -/
structure Replaces (path : Path) (bytes : List UInt8) (before after : Store) : Prop where
  free : before.entry? path.place ≠ some .directory
  read : after.read path = .ok bytes
  above : ∀ place, path.Above place → after.entry? place = some .directory
  others : ∀ place, place ≠ path.place → after.entry? place = before.entry? place ∨
    path.Above place ∧ before.entry? place = none ∧ after.entry? place = some .directory

/-- How a write to a file may end: with the file in its place, or for a reason, and then at most
directories on its way have been made. -/
inductive Written.Settles (store : Store) (path : Path) (payload encoding : String) (host : Host)
    (w : Written) : Prop
  | done (bytes : List UInt8) (result : w.outcome.result = .ok ())
      (encoded : Codec.encodeAs host.codings encoding payload = .ok bytes)
      (replaces : Replaces path bytes store w.store)
  | refused (error : WriteError) (result : w.outcome.result = .error error)
      (reason : error.isReason) (grows : store.Grows path.Above w.store)

/-- Where a file can be written. The draft needs a longer name than the file itself, and what is
made of the way must not take the place of the file. -/
structure Store.Admits (store : Store) (path : Path) : Prop where
  named : path.names.getLastD ".." ≠ ".."
  short : path.Short
  draft : Fits store (draftOf path (usualLetters 0))
  clear : ∀ above, path.Above above → ∀ bytes, store.entry? above ≠ some (.file bytes)
  free : store.entry? path.place ≠ some .directory
  apart : ¬path.Above path.place

theorem Store.replace_eq_ok_iff : store.replace path bytes = .ok written ↔
    store.locate path = .ok path.place ∧ path.names.getLastD ".." ≠ ".." ∧
      store.entry? path.place ≠ some .directory ∧
      written = store.set path.place (.file bytes) := by
  rw [replace, bind_eq_ok_iff]
  constructor
  · rintro ⟨place, hl, h⟩
    obtain ⟨rfl, -⟩ := locate_eq_ok_iff.mp hl
    by_cases hn : path.names.getLastD ".." = ".."
    · simp only [hn, if_true] at h
      cases h
    · simp only [hn, if_false] at h
      split at h
      next => cases h
      next hd =>
        cases h
        exact ⟨hl, hn, hd, rfl⟩
  · rintro ⟨hl, hn, hd, rfl⟩
    refine ⟨_, hl, ?_⟩
    simp only [hn, if_false]
    rfl

theorem Path.names_eq (hn : path.names ≠ []) :
    path.names = path.parent.names ++ [path.names.getLast hn] :=
  (List.dropLast_concat_getLast hn).symm

/-- Above a file are the directories that it stands in. -/
theorem Path.above_iff (hn : path.names ≠ []) {place : Place} : path.Above place ↔
    ∃ before, before <+: path.parent.names ∧ place = Path.place ⟨path.root, before⟩ := by
  have habove : Path.Above ⟨path.root, path.parent.names ++ [path.names.getLast hn]⟩ place ↔
      ∃ before, before <+: path.parent.names ∧ place = Path.place ⟨path.root, before⟩ :=
    Path.above_append
  rw [← Path.names_eq hn] at habove
  exact habove

theorem Path.parent_hasZero (h : path.hasZero = false) : path.parent.hasZero = false := by
  simp only [Path.hasZero, List.any_eq_false] at h ⊢
  exact fun name hn => h name (List.dropLast_subset path.names hn)

theorem replaces_of_replace (hg : store.Grows path.Above grown)
    (h : grown.replace path bytes = .ok written) : Replaces path bytes store written := by
  obtain ⟨hl, hn, hd, rfl⟩ := Store.replace_eq_ok_iff.mp h
  obtain ⟨-, hshort, hway⟩ := Store.locate_eq_ok_iff.mp hl
  have hset : Store.entry? (grown.set path.place (.file bytes)) path.place = some (.file bytes) :=
    Store.entry?_set (Path.not_all_dots hn)
  have habove : ∀ place, path.Above place →
      Store.entry? (grown.set path.place (.file bytes)) place = some .directory := by
    intro place hp
    have hne : place ≠ path.place := by
      rintro rfl
      exact hd (hway _ hp)
    rw [Store.entry?_set_other hne]
    exact hway place hp
  refine ⟨fun he => hd (hg.keeps he), ?_, habove, fun place hne => ?_⟩
  · exact Store.read_eq_ok_iff.mpr ⟨Store.locate_eq_ok_iff.mpr ⟨rfl, hshort, habove⟩, hset⟩
  · rw [Store.entry?_set_other hne]
    exact hg.entries place

theorem makeDirectories_above_grows {names : List String} (hnames : names <+: path.parent.names)
    (store : Store) : store.Grows path.Above (store.makeDirectories path.root names).1 := by
  refine (store.makeDirectories_grows path.root names).mono ?_
  rintro place ⟨before, hp, hb, rfl⟩
  have hp := hp.trans hnames
  have hn : path.names ≠ [] := by
    intro hn
    rw [Path.parent, hn] at hp
    exact hb (List.prefix_nil.mp hp)
  exact (Path.above_iff hn).mpr ⟨before, hp, rfl⟩

theorem makeDirectories_parent_grows (store : Store) (path : Path) :
    store.Grows path.Above (store.makeDirectories path.root path.parent.names).1 :=
  makeDirectories_above_grows (List.prefix_refl _) store

namespace Writing

/-- What a write to a file comes to. Only an error that encoding is not known to end with, or a
draft that cannot be taken away, leaves a draft behind. -/
inductive Effect (host : Host) (path : Path) (payload encoding : String) (store : Store) :
    EStateM.Result WriteError Store Unit → Prop
  | written {grown written : Store} {n : Nat} {bytes : List UInt8}
    (plain : path.hasZero = false) (grows : store.Grows path.Above grown) (tried : n < draftTries)
    (free : grown.entry? (draftOf path (host.letters n)) = none)
    (fits : Fits grown (draftOf path (host.letters n))) (sound : host.Sound)
    (encoded : Codec.encodeAs host.codings encoding payload = .ok bytes)
    (replaced : grown.replace path bytes = .ok written) :
    Effect host path payload encoding store (.ok () written)
  | refused {grown : Store} {error : WriteError} (grows : store.Grows path.Above grown)
    (reason : error.isReason) : Effect host path payload encoding store (.error error grown)
  | zeroInPath {grown : Store} (grows : store.Grows path.Above grown) (zero : path.hasZero) :
    Effect host path payload encoding store (.error .zeroInPath grown)
  | unexpected {grown : Store} {n : Nat} {error : CodecError}
    (grows : store.Grows path.Above grown)
    (free : grown.entry? (draftOf path (host.letters n)) = none)
    (encoded : Codec.encodeAs host.codings encoding payload = .error error)
    (unknown : error.ofEncoding = false) :
    Effect host path payload encoding store
      (.error (.ofCodec error) (grown.set (draftOf path (host.letters n)) (.file [])))
  | stuck {grown : Store} {n : Nat} {content : List UInt8} {text : String}
    (grows : store.Grows path.Above grown)
    (free : grown.entry? (draftOf path (host.letters n)) = none)
    (erasing : host.erasing = some text) :
    Effect host path payload encoding store
      (.error (.stuck text) (grown.set (draftOf path (host.letters n)) (.file content)))

theorem makeParent_cases (host : Host) (path : Path) (store : Store) :
    (∃ grown, host.directories = none ∧ store.Grows path.Above grown ∧
      makeParent host path store = .ok () grown) ∨
    (∃ e grown, WriteError.isReason e ∧ store.Grows path.Above grown ∧
      makeParent host path store = .error e grown) ∨
    path.hasZero ∧ makeParent host path store = .error .zeroInPath store := by
  unfold makeParent
  split
  next hz =>
    refine .inr (.inr ⟨?_, rfl⟩)
    by_contra hp
    rw [Path.parent_hasZero (by simpa using hp)] at hz
    cases hz
  next =>
    cases host.directories with
    | some fault =>
      exact .inr (.inl ⟨_, _, rfl, makeDirectories_above_grows (List.take_prefix _ _) store, rfl⟩)
    | none =>
      have hg := makeDirectories_parent_grows store path
      rcases hm : store.makeDirectories path.root path.parent.names with ⟨made, result⟩
      rw [hm] at hg
      cases result with
      | error failure => exact .inr (.inl ⟨_, _, rfl, hg, rfl⟩)
      | ok => exact .inl ⟨_, rfl, hg, rfl⟩

theorem makeDraft_cases (host : Host) (path : Path) (store : Store) :
    (∃ n, path.hasZero = false ∧ n < draftTries ∧ host.making = none ∧
        store.entry? (draftOf path (host.letters n)) = none ∧
        Fits store (draftOf path (host.letters n)) ∧
        makeDraft host path store = .ok (draftOf path (host.letters n))
          (store.set (draftOf path (host.letters n)) (.file []))) ∨
    (∃ e, WriteError.isReason e ∧ makeDraft host path store = .error e store) ∨
    path.hasZero ∧ makeDraft host path store = .error .zeroInPath store := by
  unfold makeDraft
  by_cases hz : path.hasZero
  · rw [if_pos hz]
    exact .inr (.inr ⟨hz, rfl⟩)
  · rw [if_neg hz]
    rcases allow_cases path host.making store with ⟨hmaking, ha⟩ | ⟨e, hr, ha⟩
    · have hgo := bind_of_ok (f := fun _ => tryDrafts host path 0 draftTries) ha
      rcases tryDrafts_cases host path store 0 draftTries with
        ⟨n, hn, hfree, hfits, ht⟩ | ⟨e, hr, ht⟩
      · exact .inl ⟨n, by simpa using hz, by omega, hmaking, hfree, hfits, hgo.trans ht⟩
      · exact .inr (.inl ⟨e, hr, hgo.trans ht⟩)
    · exact .inr (.inl ⟨e, hr, bind_of_error ha⟩)

/-- A draft is filled with all of the payload, or with some of its bytes, or is left as it is. -/
theorem fillDraft_cases (host : Host) (path : Path) (grown : Store) (draft : Place)
    (payload encoding : String) (content : List UInt8) :
    (∃ bytes, host.filling = none ∧ Codec.encodeAs host.codings encoding payload = .ok bytes ∧
      fillDraft host path draft payload encoding (grown.set draft (.file content)) =
        .ok () (grown.set draft (.file bytes))) ∨
    (∃ e content', WriteError.isReason e ∧
      fillDraft host path draft payload encoding (grown.set draft (.file content)) =
        .error e (grown.set draft (.file content'))) ∨
    ∃ error, Codec.encodeAs host.codings encoding payload = .error error ∧
      error.ofEncoding = false ∧
      fillDraft host path draft payload encoding (grown.set draft (.file content)) =
        .error (.ofCodec error) (grown.set draft (.file content)) := by
  unfold fillDraft
  cases Codec.encodeAs host.codings encoding payload with
  | error error =>
    cases hk : error.ofEncoding with
    | true =>
      exact .inr (.inl ⟨.unencoded path.text error, content, rfl, by simp only [hk, if_true]⟩)
    | false =>
      exact .inr (.inr ⟨error, rfl, hk, by simp only [hk, Bool.false_eq_true, if_false]⟩)
  | ok bytes =>
    cases host.filling with
    | none => exact .inl ⟨bytes, rfl, rfl, by simp only [Store.set_set]⟩
    | some fault =>
      exact .inr (.inl ⟨.refused path.text fault.2, bytes.take fault.1, rfl,
        by simp only [Store.set_set]⟩)

/-- A draft moves into place if a file can be replaced there. -/
theorem moveDraft_cases (path : Path) (bytes : List UInt8) (hfree : grown.entry? draft = none) :
    (∃ written, grown.replace path bytes = .ok written ∧
      moveDraft path draft (grown.set draft (.file bytes)) = .ok () written) ∨
    ∃ e, WriteError.isReason e ∧ moveDraft path draft (grown.set draft (.file bytes)) =
      .error e (grown.set draft (.file bytes)) := by
  unfold moveDraft
  rw [Store.move_set hfree]
  cases grown.replace path bytes with
  | ok written => exact .inl ⟨written, rfl, rfl⟩
  | error cause => exact .inr ⟨_, rfl, rfl⟩

theorem settleDraft_cases (host : Host) (path : Path) (payload encoding : String)
    (content : List UInt8) (hfree : grown.entry? draft = none) :
    (∃ bytes written, host.filling = none ∧ host.syncing = none ∧ host.moving = none ∧
      Codec.encodeAs host.codings encoding payload = .ok bytes ∧
      grown.replace path bytes = .ok written ∧
      settleDraft host path draft payload encoding (grown.set draft (.file content)) =
        .ok () written) ∨
    (∃ e content', WriteError.isReason e ∧
      settleDraft host path draft payload encoding (grown.set draft (.file content)) =
        .error e (grown.set draft (.file content'))) ∨
    ∃ error, Codec.encodeAs host.codings encoding payload = .error error ∧
      error.ofEncoding = false ∧
      settleDraft host path draft payload encoding (grown.set draft (.file content)) =
        .error (.ofCodec error) (grown.set draft (.file content)) := by
  unfold settleDraft
  rcases fillDraft_cases host path grown draft payload encoding content with
    ⟨bytes, hfilling, hencoded, hf⟩ | ⟨e, content', hr, hf⟩ | ⟨error, he, hu, hf⟩
  · rw [bind_of_ok hf]
    rcases allow_cases path host.syncing (grown.set draft (.file bytes)) with
      ⟨hsyncing, hs⟩ | ⟨e, hr, hs⟩
    · rw [bind_of_ok hs]
      rcases allow_cases path host.moving (grown.set draft (.file bytes)) with
        ⟨hmoving, ha⟩ | ⟨e, hr, ha⟩
      · rw [bind_of_ok ha]
        rcases moveDraft_cases path bytes hfree with ⟨written, hreplace, hm⟩ | ⟨e, hr, hm⟩
        · exact .inl ⟨bytes, written, hfilling, hsyncing, hmoving, hencoded, hreplace, hm⟩
        · exact .inr (.inl ⟨e, bytes, hr, hm⟩)
      · exact .inr (.inl ⟨e, bytes, hr, bind_of_error ha⟩)
    · exact .inr (.inl ⟨e, bytes, hr, bind_of_error hs⟩)
  · exact .inr (.inl ⟨e, content', hr, bind_of_error hf⟩)
  · exact .inr (.inr ⟨error, he, hu, bind_of_error hf⟩)

/-- A draft is taken away without a trace, or stays because the disk refuses. -/
theorem eraseDraft_cases (host : Host) (content : List UInt8) (hfree : grown.entry? draft = none) :
    (host.erasing = none ∧
      eraseDraft host draft (grown.set draft (.file content)) = .ok () grown) ∨
    ∃ text, host.erasing = some text ∧ eraseDraft host draft (grown.set draft (.file content)) =
      .error (.stuck text) (grown.set draft (.file content)) := by
  have hd : draft.names.all (· = "..") = false :=
    Store.not_all_dots_of_not_directory fun hd => nomatch hfree.symm.trans hd
  unfold eraseDraft
  rw [Store.entry?_set hd, Store.erase_set hfree]
  cases host.erasing with
  | none => exact .inl ⟨rfl, rfl⟩
  | some text => exact .inr ⟨text, rfl, rfl⟩

theorem toFile_effect (host : Host) (path : Path) (payload encoding : String) (store : Store) :
    Effect host path payload encoding store (toFile host path payload encoding store) := by
  unfold toFile
  rcases makeParent_cases host path store with
    ⟨grown, hdirectories, hg, hp⟩ | ⟨e, grown, hr, hg, hp⟩ | ⟨hz, hp⟩
  · rw [bind_of_ok hp]
    rcases makeDraft_cases host path grown with
      ⟨n, hz, hn, hmaking, hfree, hfits, hd⟩ | ⟨e, hr, hd⟩ | ⟨hz, hd⟩
    · rw [bind_of_ok hd]
      rcases settleDraft_cases host path payload encoding [] hfree with
        ⟨bytes, written, hfilling, hsyncing, hmoving, hencoded, hreplace, hs⟩ |
        ⟨e, content, hr, hs⟩ | ⟨error, hencoded, hu, hs⟩
      · rw [tryCatch_of_ok hs]
        exact .written hz hg hn hfree hfits
          ⟨hdirectories, hmaking, hfilling, hsyncing, hmoving⟩ hencoded hreplace
      · rw [tryCatch_of_error hs, if_pos hr]
        rcases eraseDraft_cases host content hfree with ⟨-, he⟩ | ⟨text, herasing, he⟩
        · rw [bind_of_ok he]
          exact .refused hg hr
        · rw [bind_of_error he]
          exact .stuck hg hfree herasing
      · rw [tryCatch_of_error hs, if_neg (by simp [WriteError.isReason_ofCodec])]
        exact .unexpected hg hfree hencoded hu
    · rw [bind_of_error hd]
      exact .refused hg hr
    · rw [bind_of_error hd]
      exact .zeroInPath hg hz
  · rw [bind_of_error hp]
    exact .refused hg hr
  · rw [bind_of_error hp]
    exact .zeroInPath (.refl _ _) hz

end Writing

end GrammarDoc.Files
