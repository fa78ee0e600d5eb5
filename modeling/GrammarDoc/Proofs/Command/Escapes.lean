import GrammarDoc.Proofs.Command.Endings
import GrammarDoc.Proofs.Settings.Loading

namespace GrammarDoc.Command

open Files (Host Incoming Store)

variable {inv : Invocation}

theorem ending_eq_loading_iff {error : Settings.LoadError} :
    (run inv).ending = .error (.loading error) ↔
      ∃ o, readCommandLine inv.argv = .ok (.convert o) ∧ o.config ≠ .lost ∧
        Settings.Undocumented inv.store o.configPath? error := by
  simp only [Settings.undocumented_iff inv.env]
  constructor
  · intro h
    cases run_course inv with
    | escaped he hescapes =>
      cases he.symm.trans h
      cases hescapes with
      | loading ha hk hl hu => exact ⟨_, ha, hk, hl, hu⟩
    | stopped he _ => cases he.symm.trans h
    | helped _ he => cases he.symm.trans h
    | unconverted _ _ he _ => cases he.symm.trans h
    | done _ _ he _ => cases he.symm.trans h
  · rintro ⟨o, ha, hk, hl, hu⟩
    simp only [run, ha, convertWith_eq hk, convertLoading, hl]

theorem ends_or_escapes (inv : Invocation) :
    (∃ code ∈ [exitOk, exitConversion, exitOther], (run inv).ending = .ok code) ∨
      ∃ fault, (run inv).ending = .error fault ∧ inv.Escapes fault := by
  cases run_course inv with
  | escaped he hescapes => exact .inr ⟨_, he, hescapes⟩
  | stopped he _ => exact .inl ⟨_, code_of_ending he, he⟩
  | helped _ he => exact .inl ⟨_, code_of_ending he, he⟩
  | unconverted _ _ he _ => exact .inl ⟨_, code_of_ending he, he⟩
  | done _ _ he _ => exact .inl ⟨_, code_of_ending he, he⟩

/-- Loading fails as it is documented to, and every run ends with an exit code as far as that goes,
but for undocumented errors. Usual settings files that fail are warned of. -/
theorem loading_fails_as_documented (store : Store) (env : List (String × String)) :
    (∀ error, (Settings.load store env none).result = .error error ↔
      Settings.Undocumented store none error) ∧
    (∀ r : LogRecord, r.level = .warning → (r ∈ (Settings.load store env none).log ↔
      ∃ file, Settings.Comes store Settings.usualFiles file ∧ Settings.Warns store file r)) ∧
    (∀ path error, (Settings.load store env (some path)).result = .error error ↔
      Settings.Documented store (.ofText path) error ∨
        Settings.Undocumented store (some path) error) ∧
    ∀ (argv : List String) (incoming : Incoming) (host : Host),
      let inv : Invocation := ⟨argv, incoming, env, store, host⟩
      ((∃ code ∈ [exitOk, exitConversion, exitOther], (run inv).ending = .ok code) ∨
        ∃ fault, (run inv).ending = .error fault ∧ inv.Escapes fault) ∧
      ∀ error, (run inv).ending = .error (.loading error) ↔
        ∃ o, readCommandLine argv = .ok (.convert o) ∧ o.config ≠ .lost ∧
          Settings.Undocumented store o.configPath? error := by
  refine ⟨fun error => Settings.load_usual_error_iff env, fun r hr => ?_,
    fun path error => Settings.load_given_error_iff env,
    fun argv incoming host => ⟨ends_or_escapes _, fun error => ending_eq_loading_iff⟩⟩
  rw [Settings.load_log]
  exact Settings.mem_searchUsual_log_iff Settings.usualFiles_hasZero hr

/-- A settings file that is no text stops loading, and a run, in an undocumented way. -/
theorem loading_escapes :
    let store : Store := ⟨"/work", [(⟨"", ["grammar-converter.toml"]⟩, .file [0xFF])]⟩
    let error := Settings.LoadError.badBytes ⟨"utf-8", 0, 1, 0xFF, "invalid start byte"⟩
    (Settings.load store [] none).result = .error error ∧
      (Settings.load store [] (some "grammar-converter.toml")).result = .error error ∧
      ¬∃ code, (run ⟨[], .bytes [], [], store, {}⟩).ending = .ok code := by
  intro store error
  have hending : (run ⟨[], .bytes [], [], store, {}⟩).ending.toOption = none := by decide +kernel
  refine ⟨by decide +kernel, by decide +kernel, ?_⟩
  rintro ⟨code, h⟩
  rw [h] at hending
  cases hending

end GrammarDoc.Command
