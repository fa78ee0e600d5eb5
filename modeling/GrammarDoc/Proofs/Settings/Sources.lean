import GrammarDoc.Proofs.Files.Places
import GrammarDoc.Settings.Load

namespace GrammarDoc

section Given

variable {α : Type} {usual a b : α} {source : α → Prop} {sources : List (α → Prop)}

/-- A choice that sources make in turn: the first one that gives anything decides, and where none
does there is the usual value. -/
inductive Given (usual : α) : List (α → Prop) → α → Prop
  | usual : Given usual [] usual
  | first {source : α → Prop} {sources : List (α → Prop)} {a : α} (gives : source a) :
    Given usual (source :: sources) a
  | later {source : α → Prop} {sources : List (α → Prop)} {a : α} (silent : ∀ b, ¬source b)
    (given : Given usual sources a) : Given usual (source :: sources) a

theorem Given.getD {given? : Option α} (hs : ∀ a, source a ↔ given? = some a)
    (h : Given usual sources b) : Given usual (source :: sources) (given?.getD b) := by
  cases given? with
  | none => exact .later (fun a ha => nomatch (hs a).mp ha) h
  | some a => exact .first ((hs a).mpr rfl)

theorem Given.flag {flag : Bool} (a : α) (h : Given usual sources b) :
    Given usual ((fun c => flag ∧ c = a) :: sources) (if flag then a else b) := by
  cases flag with
  | true => exact .first ⟨rfl, rfl⟩
  | false => exact .later (fun _ hc => nomatch hc.1) h

/-- Sources that each give one thing at most make one choice. -/
theorem Given.unique (hs : ∀ source ∈ sources, ∀ a b, source a → source b → a = b)
    (ha : Given usual sources a) (hb : Given usual sources b) : a = b := by
  induction ha with
  | usual =>
    cases hb
    rfl
  | first ha =>
    cases hb with
    | first hb => exact hs _ List.mem_cons_self _ _ ha hb
    | later hb _ => exact absurd ha (hb _)
  | later hsilent _ ih =>
    cases hb with
    | first hb => exact absurd hb (hsilent _)
    | later _ hb => exact ih (fun source hm => hs source (List.mem_cons_of_mem _ hm)) hb

end Given

namespace Settings

open Files (Failure Store)

/-- A settings file is a document with given fields. -/
def Reads (store : Store) (path : Files.Path) (document : List (String × Value)) : Prop :=
  ∃ bytes, store.read path = .ok bytes ∧ Toml.ofBytes bytes = .ok document

/-- A settings file that is known by a given name cannot be read, or is no TOML document. -/
inductive Fails (store : Store) (path : Files.Path) (name : String) : Option Failure → Prop
  | unread {cause : Files.Cause} (read : store.read path = .error cause) :
    Fails store path name (some ⟨cause, name, none⟩)
  | invalid {bytes : List UInt8} (read : store.read path = .ok bytes)
    (document : Toml.ofBytes bytes = .error (.toml .invalid)) : Fails store path name none

/-- A settings file holds bytes that are no text, or an integer that is too long. -/
inductive Breaks (store : Store) (path : Files.Path) : LoadError → Prop
  | badBytes {bytes : List UInt8} {error : Encoding.BadBytes} (read : store.read path = .ok bytes)
    (document : Toml.ofBytes bytes = .error (.badBytes error)) : Breaks store path (.badBytes error)
  | longInteger {bytes : List UInt8} {digits : Nat} (read : store.read path = .ok bytes)
    (document : Toml.ofBytes bytes = .error (.toml (.longInteger digits))) :
    Breaks store path (.longInteger digits)

/-- What opening a settings file comes to. -/
inductive Opens (store : Store) (path : Files.Path) (name : String) :
    Except LoadError (List (String × Value)) → Prop
  | reads {document : List (String × Value)} (reads : Reads store path document) :
    Opens store path name (.ok document)
  | fails {failure? : Option Failure} (fails : Fails store path name failure?) :
    Opens store path name (.error (.config name failure?))
  | breaks {error : LoadError} (breaks : Breaks store path error) :
    Opens store path name (.error error)

/-- The table of a document that holds the settings: in a project file a table for tools, and in
any other file a table of its own, or else all of the document. -/
inductive Keeps (path : Files.Path) (document : List (String × Value)) :
    List (String × Value) → Prop
  | project {tools fields : List (String × Value)} (named : path.name = "pyproject.toml")
    (tool : Value.field? "tool" document = some (.table tools))
    (table : Value.field? "grammar_converter" tools = some (.table fields)) :
    Keeps path document fields
  | own {fields : List (String × Value)} (named : path.name ≠ "pyproject.toml")
    (table : Value.field? "convert" document = some (.table fields)) : Keeps path document fields
  | whole (named : path.name ≠ "pyproject.toml")
    (noTable : ∀ fields, Value.field? "convert" document ≠ some (.table fields)) :
    Keeps path document document

/-- A usual settings file holds settings. -/
def Holds (store : Store) (file : String) (fields : List (String × Value)) : Prop :=
  fields ≠ [] ∧ ∃ document, Reads store (.ofText file) document ∧
    Keeps (.ofText file) document fields

/-- A usual settings file neither holds settings nor stops the search for them. -/
structure Silent (store : Store) (file : String) : Prop where
  noSettings : ∀ fields, ¬Holds store file fields
  unbroken : ∀ error, ¬Breaks store (.ofText file) error

/-- The name under which a usual settings file is reported. -/
def usualName (store : Store) (file : String) : String :=
  store.workingDirectory ++ "/" ++ file

/-- What is reported of a usual settings file that is there and fails. -/
inductive Warns (store : Store) (file : String) : LogRecord → Prop
  | unreadable {failure? : Option Failure} (there : store.exists (.ofText file))
    (fails : Fails store (.ofText file) (usualName store file) failure?) :
    Warns store file
      ⟨.warning, "ignoring unreadable config " ++ usualName store file ++ blame failure?⟩

/-- The fields that settings files supply. -/
def FileLayer (store : Store) : Option String → List (String × Value) → Prop
  | none, fields => Given [] (usualFiles.map (Holds store)) fields
  | some path, fields => ∃ document, Reads store (.ofText path) document ∧
    Given [] [Keeps (.ofText path) document] fields

variable {store : Store} {path : Files.Path} {name file : String} {files : List String}
variable {document fields fields' : List (String × Value)} {error : LoadError}

theorem readFields_eq_iff (hz : path.hasZero = false)
    {result : Except LoadError (List (String × Value))} :
    readFields store path name = result ↔ Opens store path name result := by
  rw [readFields, if_neg (by simp [hz])]
  constructor
  · rintro rfl
    split
    next cause hr => exact .fails (.unread hr)
    next bytes hr =>
      split
      next ht => exact .reads ⟨bytes, hr, ht⟩
      next ht => exact .breaks (.badBytes hr ht)
      next ht => exact .breaks (.longInteger hr ht)
      next ht => exact .fails (.invalid hr ht)
  · rintro (⟨_, hr, ht⟩ | (hr | ⟨hr, ht⟩) | (⟨hr, ht⟩ | ⟨hr, ht⟩))
    · simp only [hr, ht]
    · simp only [hr]
    · simp only [hr, ht]
    · simp only [hr, ht]
    · simp only [hr, ht]

theorem table?_eq_some_iff {v : Value} : v.table? = some fields ↔ v = .table fields := by
  cases v <;> simp [Value.table?]

theorem select_eq_some_iff : select path document = some fields ↔ Keeps path document fields := by
  rw [select]
  constructor
  · intro h
    split at h
    next hn =>
      simp only [Option.bind_eq_some_iff, table?_eq_some_iff] at h
      obtain ⟨_, ⟨tools, ⟨_, ht, rfl⟩, hf⟩, rfl⟩ := h
      exact .project hn ht hf
    next hn =>
      cases ht : (Value.field? "convert" document).bind Value.table? with
      | none =>
        rw [ht] at h
        cases h
        refine .whole hn fun fields hf => ?_
        rw [hf] at ht
        cases ht
      | some own =>
        rw [ht] at h
        cases h
        simp only [Option.bind_eq_some_iff, table?_eq_some_iff] at ht
        obtain ⟨_, ht, rfl⟩ := ht
        exact .own hn ht
  · rintro (⟨hn, ht, hf⟩ | ⟨hn, ht⟩ | ⟨hn, ht⟩)
    · rw [if_pos hn, ht]
      simp [Value.table?, hf]
    · rw [if_neg hn, ht]
      rfl
    · rw [if_neg hn]
      cases hv : (Value.field? "convert" document).bind Value.table? with
      | none => rfl
      | some own =>
        simp only [Option.bind_eq_some_iff, table?_eq_some_iff] at hv
        obtain ⟨_, hv, rfl⟩ := hv
        exact absurd hv (ht own)

/-- A file opens in one way only. -/
theorem Opens.unique (name : String) (hz : path.hasZero = false)
    {result result' : Except LoadError (List (String × Value))}
    (h : Opens store path name result) (h' : Opens store path name result') : result = result' :=
  ((readFields_eq_iff hz).mpr h).symm.trans ((readFields_eq_iff hz).mpr h')

theorem Reads.unique {document' : List (String × Value)} (h : Reads store path document)
    (h' : Reads store path document') : document = document' := by
  obtain ⟨bytes, hr, ht⟩ := h
  obtain ⟨bytes', hr', ht'⟩ := h'
  cases hr.symm.trans hr'
  exact Except.ok.inj (ht.symm.trans ht')

theorem Keeps.unique (h : Keeps path document fields) (h' : Keeps path document fields') :
    fields = fields' :=
  Option.some.inj ((select_eq_some_iff.mpr h).symm.trans (select_eq_some_iff.mpr h'))

theorem Holds.unique (h : Holds store file fields) (h' : Holds store file fields') :
    fields = fields' := by
  obtain ⟨-, document, hr, hk⟩ := h
  obtain ⟨-, document', hr', hk'⟩ := h'
  cases hr.unique hr'
  exact hk.unique hk'

theorem exists_of_read {bytes : List UInt8} (h : store.read path = .ok bytes) :
    store.exists path := by
  have hl : store.lookup path = .ok (path.place, .file bytes) :=
    Store.lookup_eq_ok_iff.mpr (Store.read_eq_ok_iff.mp h)
  rw [Store.exists, hl]
  rfl

theorem Silent.of_missing (h : store.exists (.ofText file) = false) : Silent store file where
  noSettings := by
    rintro fields ⟨-, document, ⟨bytes, hr, -⟩, -⟩
    rw [exists_of_read hr] at h
    cases h
  unbroken := by
    rintro error (⟨hr, -⟩ | ⟨hr, -⟩)
    · rw [exists_of_read hr] at h
      cases h
    · rw [exists_of_read hr] at h
      cases h

theorem Silent.of_reads (hz : (Files.Path.ofText file).hasZero = false)
    (h : Reads store (.ofText file) document)
    (hk : ∀ fields, Keeps (.ofText file) document fields → fields = []) : Silent store file where
  noSettings := by
    rintro fields ⟨hne, document', hr, hkeeps⟩
    cases Opens.unique file hz (.reads h) (.reads hr)
    exact hne (hk fields hkeeps)
  unbroken error hb := by
    cases Opens.unique file hz (.reads h) (.breaks hb)

theorem Silent.of_fails {failure? : Option Failure}
    (hz : (Files.Path.ofText file).hasZero = false)
    (h : Fails store (.ofText file) name failure?) : Silent store file where
  noSettings := by
    rintro fields ⟨-, document, hr, -⟩
    cases Opens.unique name hz (.fails h) (.reads hr)
  unbroken error hb := by
    cases Opens.unique name hz (.fails h) (.breaks hb)
    cases hb

/-- What the search for settings does with the first file. -/
theorem searchUsual_cons (store : Store) (hz : (Files.Path.ofText file).hasZero = false)
    (files : List String) :
    (∃ fields, Holds store file fields ∧ searchUsual store (file :: files) =
      ⟨[⟨.debug, "loaded settings from " ++ usualName store file⟩], .ok fields⟩) ∨
    (∃ error, Breaks store (.ofText file) error ∧
      searchUsual store (file :: files) = ⟨[], .error error⟩) ∨
    Silent store file ∧ ∃ log, (∀ r, r ∈ log ↔ Warns store file r) ∧
      searchUsual store (file :: files) =
        ⟨log ++ (searchUsual store files).log, (searchUsual store files).result⟩ := by
  rw [searchUsual]
  cases hthere : store.exists (.ofText file) with
  | false =>
    refine .inr (.inr ⟨.of_missing hthere, [], fun r => ?_, rfl⟩)
    refine ⟨fun hr => absurd hr List.not_mem_nil, ?_⟩
    rintro ⟨ht, -⟩
    cases hthere.symm.trans ht
  | true =>
    have ho : Opens store (.ofText file) (usualName store file)
        (readFields store (.ofText file) (usualName store file)) := (readFields_eq_iff hz).mp rfl
    simp only [Bool.not_true, Bool.false_eq_true, if_false]
    unfold usualName at ho
    generalize readFields store (.ofText file) (store.workingDirectory ++ "/" ++ file) = result
      at ho ⊢
    -- A file that is a document is not warned of, with or without settings in it.
    have hquiet : ∀ {document}, Reads store (.ofText file) document →
        ∀ r, r ∈ [] ↔ Warns store file r := by
      intro document hr r
      refine ⟨fun hm => absurd hm List.not_mem_nil, ?_⟩
      rintro ⟨-, hf⟩
      cases Opens.unique _ hz (.reads hr) (.fails hf)
    cases ho with
    | reads hr =>
      dsimp only
      split
      next hs =>
        refine .inr (.inr ⟨.of_reads hz hr fun fields hk => ?_, [], hquiet hr, rfl⟩)
        cases hs.symm.trans (select_eq_some_iff.mpr hk)
      next hs =>
        refine .inr (.inr ⟨.of_reads hz hr fun fields hk => ?_, [], hquiet hr, rfl⟩)
        exact hk.unique (select_eq_some_iff.mp hs)
      next fields hne hs =>
        exact .inl ⟨fields, ⟨hne, _, hr, select_eq_some_iff.mp hs⟩, rfl⟩
    | fails hf =>
      refine .inr (.inr ⟨.of_fails hz hf, [_], fun r => ?_, rfl⟩)
      rw [List.mem_singleton]
      constructor
      · rintro rfl
        exact .unreadable hthere hf
      · rintro ⟨-, hf'⟩
        cases Opens.unique _ hz (.fails hf) (.fails hf')
        rfl
    | breaks hb =>
      refine .inr (.inl ⟨_, hb, ?_⟩)
      cases hb <;> rfl

theorem searchUsual_given (hz : ∀ file ∈ files, (Files.Path.ofText file).hasZero = false)
    (h : (searchUsual store files).result = .ok fields) :
    Given [] (files.map (Holds store)) fields := by
  induction files with
  | nil =>
    cases h
    exact .usual
  | cons file files ih =>
    rcases searchUsual_cons store (hz file List.mem_cons_self) files with
      ⟨found, hf, hs⟩ | ⟨error, -, hs⟩ | ⟨hq, log, -, hs⟩
    · rw [hs] at h
      cases h
      exact .first hf
    · rw [hs] at h
      cases h
    · rw [hs] at h
      exact .later hq.noSettings (ih (fun other hm => hz other (List.mem_cons_of_mem _ hm)) h)

theorem usualFiles_hasZero : ∀ file ∈ usualFiles, (Files.Path.ofText file).hasZero = false := by
  decide +kernel

/-- Only fields that the settings files supply are loaded. -/
theorem fileLayer_of_fileFields {path? : Option String}
    (h : (fileFields store path?).result = .ok fields) : FileLayer store path? fields := by
  cases path? with
  | none => exact searchUsual_given usualFiles_hasZero h
  | some path =>
    change (readFields store (.ofText path) (Files.Path.ofText path).text).map _ = _ at h
    have hz : (Files.Path.ofText path).hasZero = false := by
      by_contra hz
      rw [readFields, if_pos (by simpa using hz)] at h
      cases h
    cases hr : readFields store (.ofText path) (Files.Path.ofText path).text with
    | error =>
      rw [hr] at h
      cases h
    | ok document =>
      rw [hr] at h
      cases h
      cases (readFields_eq_iff hz).mp hr with
      | reads hr => exact ⟨document, hr, .getD (fun _ => select_eq_some_iff.symm) .usual⟩

theorem FileLayer.unique {path? : Option String} (h : FileLayer store path? fields)
    (h' : FileLayer store path? fields') : fields = fields' := by
  cases path? with
  | none =>
    refine Given.unique ?_ h h'
    simp only [List.mem_map, forall_exists_index, and_imp, forall_apply_eq_imp_iff₂]
    exact fun file hm _ _ hf hf' => hf.unique hf'
  | some path =>
    obtain ⟨document, hr, hg⟩ := h
    obtain ⟨document', hr', hg'⟩ := h'
    cases hr.unique hr'
    refine Given.unique ?_ hg hg'
    simp only [List.mem_singleton, forall_eq]
    exact fun _ _ hk hk' => hk.unique hk'

theorem load_result (store : Store) (env : List (String × String)) (path? : Option String) :
    (load store env path?).result = (fileFields store path?).result.map fun fields =>
      (Settings.apply {} (.ofFields fields)).apply (.ofEnvironment env Override.usualStart) := by
  change (Logged.andThen (fileFields store path?) _).result = _
  rw [Logged.andThen]
  cases (fileFields store path?).result <;> rfl

end Settings
end GrammarDoc
