import GrammarDoc.Files.Store
import Mathlib.Data.List.Induction

namespace GrammarDoc

/-- What is looked up is not lost with entries under other keys. -/
theorem lookup_filter {α β : Type} [BEq α] [LawfulBEq α] (kept : α → Bool) {key : α}
    (h : kept key) (entries : List (α × β)) :
    (entries.filter fun entry => kept entry.1).lookup key = entries.lookup key := by
  induction entries with
  | nil => rfl
  | cons entry entries ih =>
    obtain ⟨other, b⟩ := entry
    cases hk : key == other with
    | true =>
      cases eq_of_beq hk
      simp [h]
    | false => cases ho : kept other <;> simp [ho, hk, List.lookup_cons, ih]

namespace Files
namespace Path

/-- A place on the way to the end of a path. -/
def Above (p : Path) (place : Place) : Prop :=
  ∃ before name after, p.names = before ++ name :: after ∧ place = Path.place ⟨p.root, before⟩

/-- A path is no longer than a store allows, and neither is a name on it. -/
structure Short (p : Path) : Prop where
  whole : p.text.utf8ByteSize ≤ Store.pathLimit
  each : ∀ name ∈ p.names, name.utf8ByteSize ≤ Store.nameLimit

theorem place_append (root : String) (names : List String) (name : String) :
    Path.place ⟨root, names ++ [name]⟩ = Store.onward (Path.place ⟨root, names⟩) name := by
  simp only [place, List.foldl_append, List.foldl_cons, List.foldl_nil]

/-- A path that ends in a name leads to a place of its own. -/
theorem not_all_dots {p : Path} (h : p.names.getLastD ".." ≠ "..") :
    p.place.names.all (· = "..") = false := by
  obtain ⟨root, names⟩ := p
  induction names using List.reverseRecOn with
  | nil => exact absurd rfl h
  | append_singleton names name =>
    have hname : name ≠ ".." := by simpa using h
    have hchild : Store.onward (Path.place ⟨root, names⟩) name =
        (Path.place ⟨root, names⟩).child name := by
      unfold Store.onward
      split <;> simp [hname]
    rw [place_append, hchild]
    simp [child, hname]

end Path

namespace Store

variable {store before after later : Store} {start place other : Place} {entry : Entry}
variable {path : Path} {names : List String} {bytes : List UInt8} {on on' : Place → Prop}

theorem entry?_set_other (h : other ≠ place) :
    Store.entry? (store.set place entry) other = store.entry? other := by
  have hne : (other == place) = false := beq_eq_false_iff_ne.mpr h
  have hf := lookup_filter (fun p => decide (p ≠ place)) (decide_eq_true h) store.entries
  simp only [set, entry?, List.lookup_cons, hne, hf]

theorem entry?_set (h : place.names.all (· = "..") = false) :
    Store.entry? (store.set place entry) place = some entry := by
  simp [set, entry?, h]

/-- What is no directory does not stand at a root, or above the working directory. -/
theorem not_all_dots_of_not_directory (h : store.entry? place ≠ some .directory) :
    place.names.all (· = "..") = false := by
  by_contra hall
  exact h (if_pos (by simpa using hall))

/-- Names lead on as long as all on the way are directories and no name is too long. -/
theorem follow_eq_ok_iff : store.follow start names = .ok place ↔
    place = names.foldl onward start ∧
      ∀ before name after, names = before ++ name :: after →
        store.entry? (before.foldl onward start) = some .directory ∧
          name.utf8ByteSize ≤ nameLimit := by
  induction names generalizing start with
  | nil => simp [follow, eq_comm]
  | cons name names ih =>
    constructor
    · intro h
      rw [follow] at h
      split at h
      next => cases h
      next => cases h
      next hd =>
        split at h
        next => cases h
        next hl =>
          obtain ⟨hplace, hway⟩ := ih.mp h
          refine ⟨hplace, fun before other after hs => ?_⟩
          cases before with
          | nil =>
            cases hs
            exact ⟨hd, Nat.le_of_not_lt hl⟩
          | cons first before =>
            obtain ⟨rfl, ht⟩ := List.cons.inj hs
            exact hway before other after ht
    · rintro ⟨hplace, hway⟩
      obtain ⟨hd, hl⟩ := hway [] name names rfl
      have hd : store.entry? start = some .directory := hd
      rw [follow, hd]
      refine (if_neg (Nat.not_lt.mpr hl)).trans (ih.mpr ⟨hplace, fun before other after hs => ?_⟩)
      exact hway (name :: before) other after (congrArg (name :: ·) hs)

/-- A path leads to its place if it is short and there are directories on the way. -/
theorem locate_eq_ok_iff : store.locate path = .ok place ↔
    place = path.place ∧ path.Short ∧
      ∀ above, path.Above above → store.entry? above = some .directory := by
  constructor
  · intro h
    rw [locate] at h
    split at h
    next => cases h
    next hl =>
      obtain ⟨hplace, hway⟩ := follow_eq_ok_iff.mp h
      refine ⟨hplace, ⟨Nat.le_of_not_lt hl, fun name hn => ?_⟩, ?_⟩
      · obtain ⟨before, after, hs⟩ := List.append_of_mem hn
        exact (hway before name after hs).2
      · rintro above ⟨before, name, after, hs, rfl⟩
        exact (hway before name after hs).1
  · rintro ⟨hplace, hshort, hway⟩
    rw [locate, if_neg (Nat.not_lt.mpr hshort.whole)]
    refine follow_eq_ok_iff.mpr ⟨hplace, fun before name after hs => ⟨?_, ?_⟩⟩
    · exact hway _ ⟨before, name, after, hs, rfl⟩
    · exact hshort.each name (by simp [hs])

theorem bind_eq_ok_iff {ε α β : Type} {x : Except ε α} {f : α → Except ε β} {b : β} :
    x >>= f = .ok b ↔ ∃ a, x = .ok a ∧ f a = .ok b := by
  constructor
  · intro h
    cases x with
    | error => cases h
    | ok a => exact ⟨a, rfl, h⟩
  · rintro ⟨a, rfl, h⟩
    exact h

theorem lookup_eq_ok_iff : store.lookup path = .ok (place, entry) ↔
    store.locate path = .ok place ∧ store.entry? place = some entry := by
  rw [lookup, bind_eq_ok_iff]
  constructor
  · rintro ⟨found, hl, h⟩
    split at h
    next => cases h
    next he =>
      cases h
      exact ⟨hl, he⟩
  · rintro ⟨hl, he⟩
    exact ⟨place, hl, by rw [he]; rfl⟩

/-- The bytes of a file can be read if its path leads there. -/
theorem read_eq_ok_iff : store.read path = .ok bytes ↔
    store.locate path = .ok path.place ∧ store.entry? path.place = some (.file bytes) := by
  rw [read, bind_eq_ok_iff]
  constructor
  · rintro ⟨⟨place, entry⟩, hl, h⟩
    obtain ⟨hplace, he⟩ := lookup_eq_ok_iff.mp hl
    obtain ⟨rfl, -⟩ := locate_eq_ok_iff.mp hplace
    cases entry with
    | directory => cases h
    | file content =>
      cases h
      exact ⟨hplace, he⟩
  · intro h
    exact ⟨_, lookup_eq_ok_iff.mpr h, rfl⟩

/-- Nothing has happened to a store but that directories have been made at some places where
nothing stood. -/
structure Grows (on : Place → Prop) (before after : Store) : Prop where
  workingDirectory : after.workingDirectory = before.workingDirectory
  entries : ∀ place, after.entry? place = before.entry? place ∨
    on place ∧ before.entry? place = none ∧ after.entry? place = some .directory

theorem Grows.refl (on : Place → Prop) (store : Store) : Grows on store store :=
  ⟨rfl, fun _ => .inl rfl⟩

theorem Grows.mono (h : Grows on before after) (hon : ∀ place, on place → on' place) :
    Grows on' before after :=
  ⟨h.workingDirectory, fun place =>
    (h.entries place).imp_right fun ⟨hp, hs⟩ => ⟨hon place hp, hs⟩⟩

/-- What stands in a store stays there as it grows. -/
theorem Grows.keeps (h : Grows on before after) (he : before.entry? place = some entry) :
    after.entry? place = some entry := by
  rcases h.entries place with hs | ⟨-, hn, -⟩
  · exact hs.trans he
  · cases hn.symm.trans he

theorem Grows.trans (h : Grows on before after) (h' : Grows on after later) :
    Grows on before later := by
  refine ⟨h'.workingDirectory.trans h.workingDirectory, fun place => ?_⟩
  rcases h.entries place with hs | ⟨hp, hn, hd⟩
  · rw [← hs]
    exact h'.entries place
  · exact .inr ⟨hp, hn, h'.keeps hd⟩

/-- A file of a grown store was there before. -/
theorem Grows.file (h : Grows on before after) (he : after.entry? place = some (.file bytes)) :
    before.entry? place = some (.file bytes) := by
  rcases h.entries place with hs | ⟨-, -, hd⟩
  · exact hs.symm.trans he
  · cases hd.symm.trans he

end Store

end Files
end GrammarDoc
