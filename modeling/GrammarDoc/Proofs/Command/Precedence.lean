import GrammarDoc.Proofs.Command.Inputs
import GrammarDoc.Proofs.Settings.Sources

namespace GrammarDoc

variable {fields : List (String × Value)} {v : Value} {key name : String}

section Words

variable {α : Type} {word : α → String} {all : List α} {s : String} {a b : α}

/-- Where every word finds what it stands for, that is all that it finds. -/
theorem find?_word_eq_some_iff (hall : ∀ a, (all.find? fun b => word b == word a) = some a) :
    (all.find? fun b => word b == s) = some a ↔ s = word a := by
  constructor
  · intro h
    have hw : (word a == s) = true := List.find?_some (p := fun b => word b == s) h
    exact (eq_of_beq hw).symm
  · rintro rfl
    exact hall a

theorem eq_of_word_eq (hall : ∀ a, (all.find? fun b => word b == word a) = some a)
    (h : word a = word b) : a = b :=
  Option.some.inj ((hall a).symm.trans ((find?_word_eq_some_iff hall).mpr h))

end Words

theorem OutputFormat.find?_word (format : OutputFormat) : ofWord? format.word = some format := by
  cases format <;> rfl

theorem LogLevel.find?_word (level : LogLevel) : ofWord? level.word = some level := by
  cases level <;> decide

namespace Override

theorem text?_eq_some_iff {s : String} : v.text? = some s ↔ v = .text s := by
  cases v <;> simp [Value.text?]

theorem formatOf?_eq_some_iff {format : OutputFormat} : formatOf? v = some format ↔
    ∃ s, v = .text s ∧ Text.lower (Text.trim s) = format.word := by
  simp only [formatOf?, Option.bind_eq_some_iff, text?_eq_some_iff, OutputFormat.ofWord?,
    find?_word_eq_some_iff OutputFormat.find?_word]

theorem logLevelOf?_eq_some_iff {level : LogLevel} : logLevelOf? v = some level ↔
    ∃ s, v = .text s ∧ Text.upper (Text.trim s) = level.word := by
  simp only [logLevelOf?, Option.bind_eq_some_iff, text?_eq_some_iff, LogLevel.ofWord?,
    find?_word_eq_some_iff LogLevel.find?_word]

theorem encodingOf?_eq_some_iff {encoding : String} : encodingOf? v = some encoding ↔
    ∃ s, v = .text s ∧ encoding = Text.trim s ∧ encoding ≠ "" := by
  simp only [encodingOf?, Option.bind_eq_some_iff, text?_eq_some_iff]
  refine exists_congr fun s => and_congr_right fun _ => ?_
  by_cases hs : Text.trim s = ""
  · simp [hs]
  · simp only [hs, if_false, Option.some.injEq]
    constructor
    · rintro rfl
      exact ⟨rfl, hs⟩
    · rintro ⟨rfl, -⟩
      rfl

variable {env : List (String × String)}

theorem lookup_filterMap {α : Type} (found? : String → Option α) (keys : List (String × String))
    (key : String) : (keys.filterMap fun p => (found? p.1).map fun a => (p.2, a)).lookup key =
      keys.findSome? fun p => if p.2 = key then found? p.1 else none := by
  induction keys with
  | nil => rfl
  | cons p keys ih =>
    cases hp : found? p.1 with
    | none => simp [hp, ih]
    | some a =>
      by_cases hk : p.2 = key
      · simp [hp, hk]
      · have hne : (key == p.2) = false := beq_eq_false_iff_ne.mpr (Ne.symm hk)
        simp [hp, hk, List.lookup_cons, hne, ih]

/-- The text of a variable, if there is any. -/
def set? (env : List (String × String)) (name : String) : Option String :=
  (env.lookup name).filter (· ≠ "")

/-- The text of a variable with the usual start of the name, if there is any. -/
def given? (env : List (String × String)) (name : String) : Option String :=
  (env.lookup (usualStart ++ name)).filter (· ≠ "")

variable {start : String}

theorem environmentFields_eq : environmentFields env start = variableKeys.filterMap fun p =>
    ((set? env (start ++ p.1)).map Value.text).map fun v => (p.2, v) := by
  refine congrArg (variableKeys.filterMap ·) (funext fun p => ?_)
  rw [set?]
  cases env.lookup (start ++ p.1) with
  | none => rfl
  | some s => by_cases hs : s = "" <;> simp [hs]

theorem field?_environmentFields (key : String) :
    Value.field? key (environmentFields env start) = variableKeys.findSome? fun p =>
      if p.2 = key then (set? env (start ++ p.1)).map Value.text else none := by
  rw [environmentFields_eq]
  exact lookup_filterMap (fun name => (set? env (start ++ name)).map Value.text) variableKeys key

theorem field?_of_variable (name : String) (hp : (name, key) ∈ variableKeys) :
    Value.field? key (environmentFields env start) =
      (set? env (start ++ name)).map Value.text := by
  rw [field?_environmentFields]
  simp only [variableKeys, List.mem_cons, Prod.mk.injEq, List.not_mem_nil, or_false] at hp
  rcases hp with ⟨rfl, rfl⟩ | ⟨rfl, rfl⟩ | ⟨rfl, rfl⟩ | ⟨rfl, rfl⟩
  · cases hg : set? env (start ++ "FORMAT") <;> simp [variableKeys, hg]
  · cases hg : set? env (start ++ "DIVS") <;> simp [variableKeys, hg]
  · cases hg : set? env (start ++ "ENCODING") <;> simp [variableKeys, hg]
  · cases hg : set? env (start ++ "LOG_LEVEL") <;> simp [variableKeys, hg]

/-- No variable stands for the shorter key of the format. -/
theorem field?_format : Value.field? "format" (environmentFields env start) = none := by
  simp [field?_environmentFields, variableKeys]

theorem ofEnvironment_eq : ofEnvironment env usualStart =
    { format? := ((given? env "FORMAT").map Value.text).bind formatOf?
      divs? := ((given? env "DIVS").map Value.text).map Value.isYes
      encoding? := ((given? env "ENCODING").map Value.text).bind encodingOf?
      logLevel? := ((given? env "LOG_LEVEL").map Value.text).bind logLevelOf? } := by
  rw [ofEnvironment, ofFields, field?_format, Option.or_none,
    field?_of_variable "FORMAT" (by decide),
    field?_of_variable "DIVS" (by decide),
    field?_of_variable "ENCODING" (by decide),
    field?_of_variable "LOG_LEVEL" (by decide)]
  rfl

theorem given?_eq_some_iff {s : String} :
    given? env name = some s ↔ env.lookup (usualStart ++ name) = some s ∧ s ≠ "" := by
  simp [given?, Option.filter_eq_some_iff]

end Override

namespace Command

open Files (Store)

variable {o : Options} {store : Store} {env : List (String × String)} {settings : Settings}

/-- The settings of a run: those that are loaded, with the options on top. -/
structure Options.Resolves (o : Options) (store : Store) (env : List (String × String))
    (settings : Settings) : Prop where
  kept : o.config ≠ .lost
  loaded : ∃ base, (Settings.load store env o.configPath?).result = .ok base ∧
    settings = o.onTopOf base

/-- A variable of the environment that is meant for the program. -/
def Exports (env : List (String × String)) (name s : String) : Prop :=
  env.lookup (Override.usualStart ++ name) = some s

/-- The value that a table has for the format. A key of the longer name hides the shorter one. -/
def FormatField (fields : List (String × Value)) (v : Value) : Prop :=
  Value.field? "output_format" fields = some v ∨
    Value.field? "output_format" fields = none ∧ Value.field? "format" fields = some v

/-- Settings of which every field comes from the options, or else from the environment, or else
from the fields of a settings file. What is of no use is passed over. -/
structure Options.Prefers (o : Options) (env : List (String × String))
    (fields : List (String × Value)) (settings : Settings) : Prop where
  format : Given .markdown
    [fun format => o.ebnf ∧ format = .ebnf,
      fun format => o.markdown ∧ format = .markdown,
      fun format => ∃ s, Exports env "FORMAT" s ∧ Text.lower (Text.trim s) = format.word,
      fun format => ∃ s, FormatField fields (.text s) ∧ Text.lower (Text.trim s) = format.word]
    settings.format
  divs : Given false
    [fun divs => o.divs ∧ divs = true,
      fun divs => ∃ s, Exports env "DIVS" s ∧ s ≠ "" ∧ divs = (Value.text s).isYes,
      fun divs => ∃ v, Value.field? "divs" fields = some v ∧ divs = v.isYes]
    settings.divs
  encoding : Given "utf-8"
    [fun encoding => ∃ s, Exports env "ENCODING" s ∧ encoding = Text.trim s ∧ encoding ≠ "",
      fun encoding => ∃ s, Value.field? "encoding" fields = some (.text s) ∧
        encoding = Text.trim s ∧ encoding ≠ ""]
    settings.encoding
  logLevel : Given .warning
    [fun level => o.verbose ∧ level = .debug,
      fun level => ∃ s, Exports env "LOG_LEVEL" s ∧ Text.upper (Text.trim s) = level.word,
      fun level => ∃ s, Value.field? "log_level" fields = some (.text s) ∧
        Text.upper (Text.trim s) = level.word]
    settings.logLevel

/-- A variable gives what can be read from its text. From an empty text nothing can. -/
theorem exports_iff {α : Type} {read? : Value → Option α} {a : α} {reads : String → Prop}
    {name : String} (hempty : ¬reads "")
    (h : ∀ s, s ≠ "" → (read? (.text s) = some a ↔ reads s)) :
    (∃ s, Exports env name s ∧ reads s) ↔
      ((Override.given? env name).map Value.text).bind read? = some a := by
  simp only [Option.bind_eq_some_iff, Option.map_eq_some_iff, Override.given?_eq_some_iff]
  constructor
  · rintro ⟨s, he, hr⟩
    have hs : s ≠ "" := by
      rintro rfl
      exact hempty hr
    exact ⟨.text s, ⟨s, ⟨he, hs⟩, rfl⟩, (h s hs).mpr hr⟩
  · rintro ⟨_, ⟨s, ⟨he, hs⟩, rfl⟩, hr⟩
    exact ⟨s, he, (h s hs).mp hr⟩

/-- A field of a table gives what can be read from it if it is a text. -/
theorem field_iff {α : Type} {read? : Value → Option α} {a : α} {reads : String → Prop}
    {field? : Option Value} (h : ∀ v, read? v = some a ↔ ∃ s, v = .text s ∧ reads s) :
    (∃ s, field? = some (.text s) ∧ reads s) ↔ field?.bind read? = some a := by
  simp only [Option.bind_eq_some_iff, h]
  constructor
  · rintro ⟨s, hs, hr⟩
    exact ⟨.text s, hs, s, rfl, hr⟩
  · rintro ⟨_, hs, s, rfl, hr⟩
    exact ⟨s, hs, hr⟩

theorem prefers_onTopOf (o : Options) (env : List (String × String))
    (fields : List (String × Value)) :
    o.Prefers env fields (o.onTopOf ((Settings.apply {} (.ofFields fields)).apply
      (.ofEnvironment env Override.usualStart))) := by
  -- Each field is a chain of `getD`, with one link for each source after the options.
  rw [Override.ofEnvironment_eq]
  refine { format := ?format, divs := ?divs, encoding := ?encoding, logLevel := ?logLevel }
  case format =>
    refine .flag _ (.flag _ (.getD (fun format => ?_) (.getD (fun format => ?_) .usual)))
    · refine exports_iff (by cases format <;> decide) fun s _ => ?_
      simp only [Override.formatOf?_eq_some_iff, Value.text.injEq, exists_eq_left']
    · refine Iff.trans ?_ (field_iff fun _ => Override.formatOf?_eq_some_iff)
      simp only [Option.or_eq_some_iff]
      rfl
  case divs =>
    have hdivs : ∀ loaded : Settings,
        (o.onTopOf loaded).divs = if o.divs then true else loaded.divs := by
      intro loaded
      cases hd : o.divs <;> simp [Options.onTopOf, hd]
    rw [hdivs]
    refine .flag _ (.getD (fun divs => ?_) (.getD (fun divs => ?_) .usual))
    · rw [Option.map_eq_bind (f := Value.isYes)]
      refine exports_iff (fun h => h.1 rfl) fun s hs => ?_
      simp [hs, eq_comm]
    · simp [Override.ofFields, eq_comm]
  case encoding =>
    refine .getD (fun encoding => ?_) (.getD (fun encoding => ?_) .usual)
    · refine exports_iff ?_ fun s _ => ?_
      · rintro ⟨rfl, hne⟩
        exact hne (by decide)
      · simp only [Override.encodingOf?_eq_some_iff, Value.text.injEq, exists_eq_left']
    · exact field_iff fun _ => Override.encodingOf?_eq_some_iff
  case logLevel =>
    refine .flag _ (.getD (fun level => ?_) (.getD (fun level => ?_) .usual))
    · refine exports_iff (by cases level <;> decide) fun s _ => ?_
      simp only [Override.logLevelOf?_eq_some_iff, Value.text.injEq, exists_eq_left']
    · exact field_iff fun _ => Override.logLevelOf?_eq_some_iff

theorem exports_unique {name s s' : String} (h : Exports env name s) (h' : Exports env name s') :
    s = s' :=
  Option.some.inj (Eq.trans (Eq.symm h) h')

theorem formatField_unique {v v' : Value} (h : FormatField fields v)
    (h' : FormatField fields v') : v = v' := by
  rcases h with h | ⟨hn, h⟩ <;> rcases h' with h' | ⟨hn', h'⟩
  · exact Option.some.inj (h.symm.trans h')
  · cases h.symm.trans hn'
  · cases h'.symm.trans hn
  · exact Option.some.inj (h.symm.trans h')

/-- A source with one text or value at most gives one thing at most. -/
theorem source_unique {σ α : Type} {has : σ → Prop} {reads : σ → α → Prop}
    (hh : ∀ {s s'}, has s → has s' → s = s') (hr : ∀ {s a b}, reads s a → reads s b → a = b)
    (a b : α) (ha : ∃ s, has s ∧ reads s a) (hb : ∃ s, has s ∧ reads s b) : a = b := by
  obtain ⟨s, hs, ha⟩ := ha
  obtain ⟨s', hs', hb⟩ := hb
  cases hh hs hs'
  exact hr ha hb

theorem flag_unique {α : Type} {flag : Bool} {c : α} (a b : α) (ha : flag ∧ a = c)
    (hb : flag ∧ b = c) : a = b :=
  ha.2.trans hb.2.symm

theorem field_unique {key s s' : String} (h : Value.field? key fields = some (.text s))
    (h' : Value.field? key fields = some (.text s')) : s = s' := by
  cases h.symm.trans h'
  rfl

/-- Options, environment and fields leave no choice. -/
theorem Options.Prefers.unique {settings' : Settings} (h : o.Prefers env fields settings)
    (h' : o.Prefers env fields settings') : settings = settings' := by
  have hformat : settings.format = settings'.format := by
    refine Given.unique ?_ h.format h'.format
    simp only [List.forall_mem_cons, List.not_mem_nil, false_implies, implies_true, and_true]
    refine ⟨flag_unique, flag_unique, ?_, ?_⟩
    · exact source_unique exports_unique fun ha hb =>
        eq_of_word_eq OutputFormat.find?_word (ha.symm.trans hb)
    · exact source_unique (fun hs hs' => Value.text.inj (formatField_unique hs hs'))
        fun ha hb => eq_of_word_eq OutputFormat.find?_word (ha.symm.trans hb)
  have hdivs : settings.divs = settings'.divs := by
    refine Given.unique ?_ h.divs h'.divs
    simp only [List.forall_mem_cons, List.not_mem_nil, false_implies, implies_true, and_true]
    refine ⟨flag_unique, ?_, ?_⟩
    · exact source_unique exports_unique fun ha hb => ha.2.trans hb.2.symm
    · exact source_unique (fun hv hv' => Option.some.inj (hv.symm.trans hv'))
        fun ha hb => ha.trans hb.symm
  have hencoding : settings.encoding = settings'.encoding := by
    refine Given.unique ?_ h.encoding h'.encoding
    simp only [List.forall_mem_cons, List.not_mem_nil, false_implies, implies_true, and_true]
    refine ⟨?_, ?_⟩
    · exact source_unique exports_unique fun ha hb => ha.1.trans hb.1.symm
    · exact source_unique field_unique fun ha hb => ha.1.trans hb.1.symm
  have hlevel : settings.logLevel = settings'.logLevel := by
    refine Given.unique ?_ h.logLevel h'.logLevel
    simp only [List.forall_mem_cons, List.not_mem_nil, false_implies, implies_true, and_true]
    refine ⟨flag_unique, ?_, ?_⟩
    · exact source_unique exports_unique fun ha hb =>
        eq_of_word_eq LogLevel.find?_word (ha.symm.trans hb)
    · exact source_unique field_unique fun ha hb => eq_of_word_eq LogLevel.find?_word (ha.symm.trans hb)
  cases settings
  cases settings'
  rw [Settings.mk.injEq]
  exact ⟨hformat, hdivs, hencoding, hlevel⟩

/-- In the settings of a run the options go before the environment, and that goes before the table
of a settings file. -/
theorem settings_by_precedence (h : o.Resolves store env settings) :
    ∃ fields, (∀ other, Settings.FileLayer store o.configPath? other ↔ other = fields) ∧
      ∀ other, o.Prefers env fields other ↔ other = settings := by
  obtain ⟨-, base, hl, rfl⟩ := h
  rw [Settings.load_result] at hl
  cases hf : (Settings.fileFields store o.configPath?).result with
  | error =>
    rw [hf] at hl
    cases hl
  | ok fields =>
    rw [hf] at hl
    cases hl
    have hlayer := Settings.fileLayer_of_fileFields hf
    have hprefers := prefers_onTopOf o env fields
    refine ⟨fields, fun other => ⟨fun ho => ho.unique hlayer, ?_⟩,
      fun other => ⟨fun ho => ho.unique hprefers, ?_⟩⟩
    · rintro rfl
      exact hlayer
    · rintro rfl
      exact hprefers

theorem settings_by_precedence_fall_through :
    let store : Store := ⟨"/work",
      [(⟨"", ["grammar-converter.toml"]⟩, .file (Encoding.Utf8.encode "divs = ".toList)),
        (⟨"", ["pyproject.toml"]⟩, .file (Encoding.Utf8.encode
          "[tool.grammar_converter]\nformat = ' EBNF'\ndivs = 'on'\nencoding = ' '\n".toList))]⟩
    let env := [("GRAMMAR_CONVERTER_FORMAT", "html"), ("GRAMMAR_CONVERTER_DIVS", "no"),
      ("GRAMMAR_CONVERTER_LOG_LEVEL", "info ")]
    let settings : Settings := ⟨.ebnf, false, "utf-8", .debug⟩
    let o : Options := { verbose := true }
    o.Resolves store env settings ∧
      ∃ fields, (∀ other, Settings.FileLayer store o.configPath? other ↔ other = fields) ∧
        ∀ other, o.Prefers env fields other ↔ other = settings := by
  intro store env settings o
  have h : o.Resolves store env settings :=
    ⟨by decide, ⟨.ebnf, false, "utf-8", .info⟩, by decide +kernel, rfl⟩
  exact ⟨h, settings_by_precedence h⟩

end Command
end GrammarDoc
