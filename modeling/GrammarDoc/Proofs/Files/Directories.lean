import GrammarDoc.Proofs.Files.Places

namespace GrammarDoc.Files

variable {store made : Store} {path : Path} {root : String} {names rev : List String}

theorem utf8ByteSize_intercalate_le (sep : String) (before after : List String) :
    (sep.intercalate before).utf8ByteSize ≤ (sep.intercalate (before ++ after)).utf8ByteSize := by
  induction before with
  | nil => exact Nat.zero_le _
  | cons first before ih =>
    cases before with
    | nil =>
      cases after with
      | nil => exact Nat.le_refl _
      | cons next after =>
        simp only [List.singleton_append, String.intercalate_cons_cons, String.utf8ByteSize_append,
          String.intercalate_singleton]
        omega
    | cons next before =>
      simp only [List.cons_append, String.intercalate_cons_cons, String.utf8ByteSize_append] at ih ⊢
      omega

namespace Path

/-- The start of a short path is short. -/
theorem Short.start (h : path.Short) {before after : List String}
    (hs : path.names = before ++ after) (hb : before ≠ []) : Path.Short ⟨path.root, before⟩ where
  whole := by
    have hw := h.whole
    have hle := utf8ByteSize_intercalate_le "/" before after
    have hn : path.names ≠ [] := by
      rw [hs]
      exact List.append_ne_nil_of_left_ne_nil hb after
    simp only [text, hn, hb, and_false, if_false, String.utf8ByteSize_append] at hw ⊢
    rw [hs] at hw
    omega
  each name hn := h.each name (hs ▸ List.mem_append_left after hn)

end Path

namespace Store

theorem makeDirectory_eq_ok_iff : store.makeDirectory path = .ok made ↔
    store.locate path = .ok path.place ∧ store.entry? path.place = none ∧
      made = store.set path.place .directory := by
  rw [makeDirectory, bind_eq_ok_iff]
  constructor
  · rintro ⟨place, hl, h⟩
    obtain ⟨rfl, -⟩ := locate_eq_ok_iff.mp hl
    split at h
    next => cases h
    next he =>
      cases h
      exact ⟨hl, he, rfl⟩
  · rintro ⟨hl, he, rfl⟩
    exact ⟨_, hl, by rw [he]; rfl⟩

theorem makeDirectory_grows (h : store.makeDirectory path = .ok made) :
    Grows (· = path.place) store made ∧ made.entry? path.place = some .directory := by
  obtain ⟨-, hn, rfl⟩ := makeDirectory_eq_ok_iff.mp h
  have hd : path.place.names.all (· = "..") = false :=
    not_all_dots_of_not_directory fun h => nomatch hn.symm.trans h
  refine ⟨⟨rfl, fun place => ?_⟩, entry?_set hd⟩
  by_cases hp : place = path.place
  · subst hp
    exact .inr ⟨rfl, hn, entry?_set hd⟩
  · exact .inl (entry?_set_other hp)

/-- The places of the directories that are made for a path, its names taken from the last one on. -/
def Making (root : String) (rev : List String) (place : Place) : Prop :=
  ∃ names, names <:+ rev ∧ names ≠ [] ∧ place = Path.place ⟨root, names.reverse⟩

theorem Making.cons {place : Place} {name : String} (h : Making root rev place) :
    Making root (name :: rev) place := by
  obtain ⟨names, hs, hn, rfl⟩ := h
  exact ⟨names, hs.trans (List.suffix_cons name rev), hn, rfl⟩

theorem making_self (root name : String) (rev : List String) :
    Making root (name :: rev) (Path.place ⟨root, (name :: rev).reverse⟩) :=
  ⟨name :: rev, List.suffix_refl _, List.cons_ne_nil name rev, rfl⟩

/-- However far directories can be made, nothing else happens. -/
theorem go_grows (store : Store) (root : String) (rev : List String) :
    Grows (Making root rev) store (makeDirectories.go root store rev).1 := by
  induction rev generalizing store with
  | nil => exact Grows.refl _ store
  | cons name above ih =>
    have hmade : ∀ {store made : Store},
        store.makeDirectory ⟨root, (name :: above).reverse⟩ = .ok made →
          Grows (Making root (name :: above)) store made := fun h =>
      (makeDirectory_grows h).1.mono fun _ hp => hp ▸ making_self root name above
    have habove : Grows (Making root (name :: above)) store
        (makeDirectories.go root store above).1 := (ih store).mono fun _ => Making.cons
    rw [makeDirectories.go]
    split
    next h => exact hmade h
    next =>
      split
      next h =>
        rw [h] at habove
        exact habove
      next h =>
        rw [h] at habove
        split
        next h' => exact habove.trans (hmade h')
        next =>
          dsimp only
          split <;> exact habove
    next =>
      dsimp only
      split <;> exact Grows.refl _ store

theorem makeDirectories_grows (store : Store) (root : String) (names : List String) :
    Grows (fun place => ∃ before, before <+: names ∧ before ≠ [] ∧
      place = Path.place ⟨root, before⟩) store (store.makeDirectories root names).1 := by
  refine (go_grows store root names.reverse).mono ?_
  rintro place ⟨before, hs, hn, rfl⟩
  exact ⟨before.reverse, List.reverse_suffix.mp (by simpa using hs), by simpa using hn, rfl⟩

end Store

theorem Path.above_append {place : Place} {name : String} :
    Path.Above ⟨root, names ++ [name]⟩ place ↔
      ∃ before, before <+: names ∧ place = Path.place ⟨root, before⟩ := by
  constructor
  · rintro ⟨before, other, after, hs, rfl⟩
    refine ⟨before, ?_, rfl⟩
    have hp : before <+: names ++ [name] := ⟨other :: after, hs.symm⟩
    refine (List.prefix_concat_iff.mp hp).resolve_left fun he => ?_
    have hl := congrArg List.length hs
    rw [he] at hl
    simp at hl
  · rintro ⟨before, ⟨after, rfl⟩, rfl⟩
    cases after with
    | nil => exact ⟨before, name, [], by simp, rfl⟩
    | cons next after => exact ⟨before, next, after ++ [name], by simp, rfl⟩

namespace Store

/-- Where no file stands, a directory can be made, or one stands there already. -/
theorem makeDirectory_of_clear (hshort : path.Short)
    (hway : ∀ above, path.Above above → store.entry? above = some .directory)
    (hfree : ∀ bytes, store.entry? path.place ≠ some (.file bytes)) :
    (∃ made, store.makeDirectory path = .ok made) ∨
      store.makeDirectory path = .error .exists ∧ store.isDirectory path = true ∧
        store.entry? path.place = some .directory := by
  have hl : store.locate path = .ok path.place := locate_eq_ok_iff.mpr ⟨rfl, hshort, hway⟩
  cases he : store.entry? path.place with
  | none => exact .inl ⟨_, makeDirectory_eq_ok_iff.mpr ⟨hl, he, rfl⟩⟩
  | some entry =>
    cases entry with
    | file bytes => exact absurd he (hfree bytes)
    | directory =>
      refine .inr ⟨?_, ?_, rfl⟩
      · unfold makeDirectory
        rw [hl]
        dsimp only [bind, Except.bind]
        rw [he]
        rfl
      · rw [isDirectory, lookup_eq_ok_iff.mpr ⟨hl, he⟩]

theorem above_reverse {name : String} {above : Place} :
    Path.Above ⟨root, (name :: rev).reverse⟩ above ↔
      ∃ names, names <:+ rev ∧ above = Path.place ⟨root, names.reverse⟩ := by
  rw [List.reverse_cons, Path.above_append]
  constructor
  · rintro ⟨before, hp, rfl⟩
    refine ⟨before.reverse, ?_, by rw [List.reverse_reverse]⟩
    rw [← List.reverse_prefix, List.reverse_reverse]
    exact hp
  · rintro ⟨names, hs, rfl⟩
    exact ⟨names.reverse, List.reverse_prefix.mpr hs, rfl⟩

/-- Where the last directory of a path is made, all before it are there. -/
theorem exists_last {name : String} (hshort : Path.Short ⟨root, (name :: rev).reverse⟩)
    (hway : ∀ names, names <:+ rev →
      store.entry? (Path.place ⟨root, names.reverse⟩) = some .directory)
    (hfree : ∀ bytes, store.entry? (Path.place ⟨root, (name :: rev).reverse⟩) ≠
      some (.file bytes)) :
    ∃ last, (store.makeDirectory ⟨root, (name :: rev).reverse⟩ = .ok last ∨
        last = store ∧ store.makeDirectory ⟨root, (name :: rev).reverse⟩ = .error .exists ∧
          store.isDirectory ⟨root, (name :: rev).reverse⟩ = true) ∧
      ∀ names, names <:+ name :: rev →
        last.entry? (Path.place ⟨root, names.reverse⟩) = some .directory := by
  have habove : ∀ above, Path.Above ⟨root, (name :: rev).reverse⟩ above →
      store.entry? above = some .directory := by
    intro above ha
    obtain ⟨names, hs, rfl⟩ := above_reverse.mp ha
    exact hway names hs
  rcases makeDirectory_of_clear hshort habove hfree with ⟨made, hm⟩ | ⟨he, hd, hp⟩
  · obtain ⟨hg, hp⟩ := makeDirectory_grows hm
    refine ⟨made, .inl hm, fun names hs => ?_⟩
    rcases List.suffix_cons_iff.mp hs with rfl | hs
    · exact hp
    · exact hg.keeps (hway names hs)
  · refine ⟨store, .inr ⟨rfl, he, hd⟩, fun names hs => ?_⟩
    rcases List.suffix_cons_iff.mp hs with rfl | hs
    · exact hp
    · exact hway names hs

end Store

end GrammarDoc.Files
