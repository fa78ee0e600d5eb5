import Mathlib.Data.List.DropRight
import GrammarDoc.Proofs.Settings.Recognized

namespace GrammarDoc

namespace Text

theorem trimChars_trimChars (cs : List Char) : trimChars (trimChars cs) = trimChars cs := by
  -- What is left begins as the text does once its first blanks are dropped.
  have hleft : (trimChars cs).dropWhile isBlank = trimChars cs := by
    obtain ⟨tail, ht⟩ := List.rdropWhile_prefix isBlank (cs.dropWhile isBlank)
    change trimChars cs ++ tail = _ at ht
    rw [List.dropWhile_eq_self_iff]
    intro hl
    have hhead := List.head?_dropWhile_not isBlank cs
    rw [← ht, List.head?_append_of_ne_nil _ (List.length_pos_iff.mp hl),
      List.head?_eq_getElem?, List.getElem?_eq_getElem hl] at hhead
    simpa using hhead
  have hright := List.rdropWhile_idempotent isBlank (cs.dropWhile isBlank)
  rw [trimChars, hleft]
  exact hright

theorem trim_trim (s : String) : trim (trim s) = trim s := by
  simp only [trim, String.toList_ofList, trimChars_trimChars]

end Text

/-- What a supply sets, setting by setting. It knows nothing of what the settings were before. -/
def Supply.sets (supply : Supply) (x : Setting) : Option Value :=
  (supply.value? x).bind x.read?

/-- The values that are valid for a setting. -/
def Setting.Admits : Setting → Value → Prop
  | format, v => ∃ word ∈ ["markdown", "ebnf"], v = .text word
  | divs, _ => True
  | encoding, v => ∃ name, name ≠ "" ∧ Text.trim name = name ∧ v = .text name
  | logLevel, v => ∃ word ∈ ["DEBUG", "INFO", "WARNING", "ERROR", "CRITICAL"], v = .text word

namespace LooseSettings

/-- Settings of which some are replaced by others. -/
def replacing (s : LooseSettings) (others : Setting → Option Value) : LooseSettings where
  format := (others .format).getD s.format
  divs := (others .divs).getD s.divs
  encoding := (others .encoding).getD s.encoding
  logLevel := (others .logLevel).getD s.logLevel

def Valid (s : LooseSettings) : Prop :=
  ∀ x : Setting, x.Admits (s.value x)

end LooseSettings

section Overriding

variable {base : LooseSettings} {supply : Supply} {x : Setting} {v w : Value}
variable {others : Setting → Option Value}

theorem LooseSettings.value_replacing (base : LooseSettings) (others : Setting → Option Value)
    (x : Setting) : (base.replacing others).value x = (others x).getD (base.value x) := by
  cases x <;> rfl

theorem apply_override_eq (base : LooseSettings) (supply : Supply) :
    base.apply supply.override = base.replacing supply.sets := by
  refine LooseSettings.eq_of_value fun x => ?_
  rw [value_apply_override, LooseSettings.value_replacing, Supply.sets]

/-- Settings with all fields alike. -/
def LooseSettings.uniform (v : Value) : LooseSettings :=
  ⟨v, v, v, v⟩

theorem LooseSettings.value_uniform (v : Value) (x : Setting) : (uniform v).value x = v := by
  cases x <;> rfl

/-- What is replaced in all settings can be told from the results. -/
theorem eq_of_replacing {others' : Setting → Option Value}
    (h : ∀ s : LooseSettings, s.replacing others = s.replacing others') : others = others' := by
  funext x
  have hx : ∀ v, (others x).getD v = (others' x).getD v := fun v => by
    have hv := congrArg (LooseSettings.value · x) (h (.uniform v))
    simpa only [LooseSettings.value_replacing, LooseSettings.value_uniform] using hv
  have hfalse := hx (.bool false)
  have htrue := hx (.bool true)
  cases hl : others x with
  | none =>
    cases hr : others' x with
    | none => rfl
    | some w =>
      rw [hl, hr] at hfalse htrue
      cases hfalse.trans htrue.symm
  | some v =>
    cases hr : others' x with
    | none =>
      rw [hl, hr] at hfalse htrue
      cases hfalse.symm.trans htrue
    | some w =>
      rw [hl, hr] at hfalse
      exact congrArg some hfalse

theorem admits_of_read? (h : x.read? v = some w) : x.Admits w := by
  cases x with
  | format =>
    obtain ⟨format, -, rfl⟩ := Option.map_eq_some_iff.mp h
    exact ⟨format.word, by cases format <;> decide, rfl⟩
  | divs => trivial
  | encoding =>
    obtain ⟨name, hn, rfl⟩ := Option.map_eq_some_iff.mp h
    obtain ⟨s, rfl, rfl, hs⟩ := Override.encodingOf?_eq_some_iff.mp hn
    exact ⟨_, hs, Text.trim_trim s, rfl⟩
  | logLevel =>
    obtain ⟨level, -, rfl⟩ := Option.map_eq_some_iff.mp h
    exact ⟨level.word, by cases level <;> decide, rfl⟩

theorem LooseSettings.Valid.apply (h : base.Valid) (supply : Supply) :
    (base.apply supply.override).Valid := by
  intro x
  rw [value_apply_override]
  cases hs : (supply.value? x).bind x.read? with
  | none => exact h x
  | some w =>
    obtain ⟨v, -, hv⟩ := Option.bind_eq_some_iff.mp hs
    exact admits_of_read? hv

namespace Settings

/-- The format and the level of settings are always valid; the encoding may be any text. -/
theorem valid_loose_iff {s : Settings} :
    s.loose.Valid ↔ s.encoding ≠ "" ∧ Text.trim s.encoding = s.encoding := by
  constructor
  · intro h
    obtain ⟨name, hne, htrim, hs⟩ := h .encoding
    cases hs
    exact ⟨hne, htrim⟩
  · rintro ⟨hne, htrim⟩ x
    cases x with
    | format => exact ⟨s.format.word, by cases s.format <;> decide, rfl⟩
    | divs => trivial
    | encoding => exact ⟨s.encoding, hne, htrim, rfl⟩
    | logLevel => exact ⟨s.logLevel.word, by cases s.logLevel <;> decide, rfl⟩

theorem valid_usual : (Settings.loose {}).Valid :=
  valid_loose_iff.mpr ⟨by decide, by decide⟩

theorem valid_load {store : Files.Store} {env : List (String × String)} {path? : Option String}
    {s : Settings} (h : (load store env path?).result = .ok s) : s.loose.Valid := by
  rw [load_result] at h
  cases hf : (fileFields store path?).result with
  | error =>
    rw [hf] at h
    cases h
  | ok fields =>
    rw [hf] at h
    cases h
    rw [← LooseSettings.apply_loose, ← LooseSettings.apply_loose]
    have hfile := valid_usual.apply (.value (.table fields))
    exact hfile.apply (.environment env Override.usualStart)

end Settings

theorem Command.Options.Resolves.valid {o : Command.Options} {store : Files.Store}
    {env : List (String × String)} {settings : Settings} (h : o.Resolves store env settings) :
    settings.loose.Valid := by
  obtain ⟨-, base, hload, rfl⟩ := h
  have hbase := Settings.valid_loose_iff.mp (Settings.valid_load hload)
  exact Settings.valid_loose_iff.mpr hbase

end Overriding

/-- A supply replaces some settings, the same ones by the same values whatever they were before. So
it changes nothing when it is applied again, and of two supplies the later one prevails where it
sets something. Valid settings stay valid, and all settings that are loaded or resolved are. -/
theorem supplies_override (first second : Supply) (base : LooseSettings) :
    (∀ others, (∀ s : LooseSettings, s.apply first.override = s.replacing others) ↔
      others = first.sets) ∧
    (base.apply first.override).apply first.override = base.apply first.override ∧
    (∀ x, ((base.apply first.override).apply second.override).value x =
      if (second.sets x).isSome then (base.apply second.override).value x
      else (base.apply first.override).value x) ∧
    (base.Valid → (base.apply first.override).Valid) ∧
    (∀ store env path? settings, (Settings.load store env path?).result = .ok settings →
      settings.loose.Valid) ∧
    ∀ (o : Command.Options) store env settings, o.Resolves store env settings →
      settings.loose.Valid := by
  have hlater : ∀ x, ((base.apply first.override).apply second.override).value x =
      if (second.sets x).isSome then (base.apply second.override).value x
      else (base.apply first.override).value x := by
    intro x
    simp only [apply_override_eq, LooseSettings.value_replacing]
    cases second.sets x <;> rfl
  refine ⟨fun others => ⟨fun h => ?_, ?_⟩, ?_, hlater, fun h => h.apply first,
    fun _ _ _ _ h => Settings.valid_load h, fun _ _ _ _ h => h.valid⟩
  · refine eq_of_replacing fun s => ?_
    rw [← h, apply_override_eq]
  · rintro rfl s
    exact apply_override_eq s first
  · refine LooseSettings.eq_of_value fun x => ?_
    simp only [apply_override_eq, LooseSettings.value_replacing]
    cases first.sets x <;> rfl

end GrammarDoc
