import GrammarDoc.Proofs.Settings.Sources

namespace GrammarDoc.Settings

open Files (Store)

variable {store : Store} {path : Files.Path} {name file first : String} {files : List String}
variable {fields : List (String × Value)} {error error' : LoadError} {r : LogRecord}

/-- A usual settings file that the search comes to: none before it holds settings or breaks. -/
def Comes (store : Store) (files : List String) (file : String) : Prop :=
  ∃ before after, files = before ++ file :: after ∧ ∀ other ∈ before, Silent store other

/-- An error with which settings are not loaded though no file is reported to be at fault: a file
that the search comes to, or one that is asked for, breaks, or its path has a zero character. -/
inductive Undocumented (store : Store) : Option String → LoadError → Prop
  | usual {file : String} {error : LoadError} (comes : Comes store usualFiles file)
    (breaks : Breaks store (.ofText file) error) : Undocumented store none error
  | given {path : String} {error : LoadError} (plain : (Files.Path.ofText path).hasZero = false)
    (breaks : Breaks store (.ofText path) error) : Undocumented store (some path) error
  | zeroInPath {path : String} (zero : (Files.Path.ofText path).hasZero) :
    Undocumented store (some path) .zeroInPath

/-- A file that is asked for cannot be read, or is no TOML document. -/
inductive Documented (store : Store) (path : Files.Path) : LoadError → Prop
  | fails {failure? : Option Files.Failure} (plain : path.hasZero = false)
    (fails : Fails store path path.text failure?) :
    Documented store path (.config path.text failure?)

theorem comes_nil : ¬Comes store [] file := by
  rintro ⟨before, after, h, -⟩
  exact absurd h (by simp)

theorem comes_cons : Comes store (first :: files) file ↔
    file = first ∨ Silent store first ∧ Comes store files file := by
  constructor
  · rintro ⟨before, after, h, hs⟩
    cases before with
    | nil =>
      cases h
      exact .inl rfl
    | cons other before =>
      cases h
      exact .inr ⟨hs first List.mem_cons_self, before, after, rfl,
        fun x hx => hs x (List.mem_cons_of_mem _ hx)⟩
  · rintro (rfl | ⟨hf, before, after, rfl, hs⟩)
    · exact ⟨[], files, rfl, fun _ hx => absurd hx List.not_mem_nil⟩
    · exact ⟨first :: before, after, rfl, List.forall_mem_cons.mpr ⟨hf, hs⟩⟩

theorem Breaks.unique (hz : path.hasZero = false) (h : Breaks store path error)
    (h' : Breaks store path error') : error = error' :=
  Except.error.inj (Opens.unique path.text hz (.breaks h) (.breaks h'))

theorem Holds.not_breaks (hz : (Files.Path.ofText file).hasZero = false)
    (h : Holds store file fields) : ¬Breaks store (.ofText file) error := by
  intro hb
  obtain ⟨-, document, hr, -⟩ := h
  cases Opens.unique file hz (.reads hr) (.breaks hb)

theorem Holds.not_warns (hz : (Files.Path.ofText file).hasZero = false)
    (h : Holds store file fields) : ¬Warns store file r := by
  rintro ⟨-, hf⟩
  obtain ⟨-, document, hr, -⟩ := h
  cases Opens.unique _ hz (.reads hr) (.fails hf)

theorem Breaks.not_warns (hz : (Files.Path.ofText file).hasZero = false)
    (h : Breaks store (.ofText file) error) : ¬Warns store file r := by
  rintro ⟨-, hf⟩
  cases Opens.unique _ hz (.breaks h) (.fails hf)
  cases h

/-- Only a usual settings file that breaks stops the search. -/
theorem searchUsual_error_iff (hz : ∀ file ∈ files, (Files.Path.ofText file).hasZero = false) :
    (searchUsual store files).result = .error error ↔
      ∃ file, Comes store files file ∧ Breaks store (.ofText file) error := by
  induction files with
  | nil =>
    constructor
    · intro h
      cases h
    · rintro ⟨file, h, -⟩
      exact absurd h comes_nil
  | cons first files ih =>
    have hfirst := hz first List.mem_cons_self
    have ih := ih fun other hm => hz other (List.mem_cons_of_mem _ hm)
    simp only [comes_cons]
    rcases searchUsual_cons store hfirst files with
      ⟨fields, hf, hs⟩ | ⟨broken, hb, hs⟩ | ⟨hq, log, -, hs⟩
    · rw [hs]
      constructor
      · intro h
        cases h
      · rintro ⟨file, rfl | ⟨hq, -⟩, hb⟩
        · exact absurd hb (hf.not_breaks hfirst)
        · exact absurd hf (hq.noSettings fields)
    · rw [hs]
      constructor
      · intro h
        cases h
        exact ⟨first, .inl rfl, hb⟩
      · rintro ⟨file, rfl | ⟨hq, -⟩, hb'⟩
        · rw [hb.unique hfirst hb']
        · exact absurd hb (hq.unbroken broken)
    -- The first file is passed over: the error is one of a later file.
    · rw [hs]
      refine ih.trans ⟨?_, ?_⟩
      · rintro ⟨file, hc, hb⟩
        exact ⟨file, .inr ⟨hq, hc⟩, hb⟩
      · rintro ⟨file, rfl | ⟨-, hc⟩, hb⟩
        · exact absurd hb (hq.unbroken error)
        · exact ⟨file, hc, hb⟩

/-- The search warns of every file that it comes to and that fails, and of nothing else. -/
theorem mem_searchUsual_log_iff (hz : ∀ file ∈ files, (Files.Path.ofText file).hasZero = false)
    (hr : r.level = .warning) :
    r ∈ (searchUsual store files).log ↔ ∃ file, Comes store files file ∧ Warns store file r := by
  induction files with
  | nil =>
    constructor
    · intro h
      cases h
    · rintro ⟨file, h, -⟩
      exact absurd h comes_nil
  | cons first files ih =>
    have hfirst := hz first List.mem_cons_self
    have ih := ih fun other hm => hz other (List.mem_cons_of_mem _ hm)
    simp only [comes_cons]
    rcases searchUsual_cons store hfirst files with
      ⟨fields, hf, hs⟩ | ⟨broken, hb, hs⟩ | ⟨hq, log, hlog, hs⟩
    · rw [hs, List.mem_singleton]
      constructor
      · rintro rfl
        cases hr
      · rintro ⟨file, rfl | ⟨hq, -⟩, hw⟩
        · exact absurd hw (hf.not_warns hfirst)
        · exact absurd hf (hq.noSettings fields)
    · rw [hs]
      constructor
      · intro h
        cases h
      · rintro ⟨file, rfl | ⟨hq, -⟩, hw⟩
        · exact absurd hw (hb.not_warns hfirst)
        · exact absurd hb (hq.unbroken broken)
    · rw [hs, List.mem_append, hlog, ih]
      constructor
      · rintro (hw | ⟨file, hc, hw⟩)
        · exact ⟨first, .inl rfl, hw⟩
        · exact ⟨file, .inr ⟨hq, hc⟩, hw⟩
      · rintro ⟨file, rfl | ⟨-, hc⟩, hw⟩
        · exact .inl hw
        · exact .inr ⟨file, hc, hw⟩

theorem load_error_iff (env : List (String × String)) {path? : Option String} :
    (load store env path?).result = .error error ↔
      (fileFields store path?).result = .error error := by
  rw [load_result]
  cases (fileFields store path?).result <;> simp [Except.map]

theorem load_log (env : List (String × String)) (path? : Option String) :
    (load store env path?).log = (fileFields store path?).log := by
  change (Logged.andThen (fileFields store path?) _).log = _
  rw [Logged.andThen]
  cases (fileFields store path?).result with
  | error => rfl
  | ok => exact List.append_nil _

theorem load_usual_error_iff (env : List (String × String)) :
    (load store env none).result = .error error ↔ Undocumented store none error := by
  refine (load_error_iff env).trans ((searchUsual_error_iff usualFiles_hasZero).trans ⟨?_, ?_⟩)
  · rintro ⟨file, hc, hb⟩
    exact .usual hc hb
  · rintro ⟨hc, hb⟩
    exact ⟨_, hc, hb⟩

theorem load_given_error_iff (env : List (String × String)) {path : String} :
    (load store env (some path)).result = .error error ↔
      Documented store (.ofText path) error ∨ Undocumented store (some path) error := by
  refine (load_error_iff env).trans ?_
  change (readFields store (.ofText path) (Files.Path.ofText path).text).map _ = _ ↔ _
  cases hz : (Files.Path.ofText path).hasZero with
  | true =>
    rw [readFields, if_pos hz]
    constructor
    · intro h
      cases h
      exact .inr (.zeroInPath hz)
    · rintro (⟨hp, -⟩ | (_ | ⟨hp, -⟩ | -))
      · cases hz.symm.trans hp
      · cases hz.symm.trans hp
      · rfl
  | false =>
    have hopens : ∀ result, readFields store (.ofText path) (Files.Path.ofText path).text = result ↔
        Opens store (.ofText path) (Files.Path.ofText path).text result :=
      fun _ => readFields_eq_iff hz
    constructor
    · intro h
      cases hr : readFields store (.ofText path) (Files.Path.ofText path).text with
      | ok document =>
        rw [hr] at h
        cases h
      | error other =>
        rw [hr] at h
        cases h
        cases (hopens _).mp hr with
        | fails hf => exact .inl (.fails hz hf)
        | breaks hb => exact .inr (.given hz hb)
    · rintro (⟨-, hf⟩ | (_ | ⟨-, hb⟩ | hzero))
      · rw [(hopens _).mpr (.fails hf)]
        rfl
      · rw [(hopens _).mpr (.breaks hb)]
        rfl
      · cases hz.symm.trans hzero

/-- No undocumented error is one of a file that is reported. -/
theorem Undocumented.ne_config {path? : Option String} (h : Undocumented store path? error)
    (name : String) (failure? : Option Files.Failure) : error ≠ .config name failure? := by
  rintro rfl
  cases h with
  | usual _ hb => cases hb
  | given _ hb => cases hb

theorem undocumented_iff (env : List (String × String)) {path? : Option String} :
    Undocumented store path? error ↔ (load store env path?).result = .error error ∧
      ∀ name failure?, error ≠ .config name failure? := by
  cases path? with
  | none =>
    rw [load_usual_error_iff env]
    exact ⟨fun h => ⟨h, h.ne_config⟩, fun h => h.1⟩
  | some path =>
    rw [load_given_error_iff env]
    refine ⟨fun h => ⟨.inr h, h.ne_config⟩, fun h => h.1.resolve_left ?_⟩
    rintro ⟨-, -⟩
    exact h.2 _ _ rfl

end GrammarDoc.Settings
