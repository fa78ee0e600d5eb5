import GrammarDoc.Proofs.Command.Precedence
import GrammarDoc.Settings.Loose

namespace GrammarDoc

/-- The settings, one by one. -/
inductive Setting where
  | format
  | divs
  | encoding
  | logLevel
deriving Repr, DecidableEq

namespace Setting

def all : List Setting :=
  [format, divs, encoding, logLevel]

/-- The keys that a table may have for a setting, the best one first. -/
def keys : Setting → List String
  | format => ["output_format", "format"]
  | divs => ["divs"]
  | encoding => ["encoding"]
  | logLevel => ["log_level"]

/-- How the name of a setting's variable ends. -/
def ending : Setting → String
  | format => "FORMAT"
  | divs => "DIVS"
  | encoding => "ENCODING"
  | logLevel => "LOG_LEVEL"

/-- The value that the fields of a table have for a setting. -/
def find? (x : Setting) (fields : List (String × Value)) : Option Value :=
  (x.keys.filterMap fun key => Value.field? key fields).head?

/-- What becomes of a setting if a value is supplied for it. -/
def read? : Setting → Value → Option Value
  | format, v => (Override.formatOf? v).map fun format => .text format.word
  | divs, v => some (.bool v.isYes)
  | encoding, v => (Override.encodingOf? v).map .text
  | logLevel, v => (Override.logLevelOf? v).map fun level => .text level.word

end Setting

/-- The words that mean no. -/
def noWords : List String :=
  ["0", "false", "f", "no", "n", "off"]

/-- A value that means something for a setting. -/
inductive Recognized : Setting → Value → Prop
  | format {s : String} (word : Text.lower (Text.trim s) ∈ ["markdown", "ebnf"]) :
    Recognized .format (.text s)
  | flag (b : Bool) : Recognized .divs (.bool b)
  | int (n : Int) : Recognized .divs (.int n)
  | double (x : Double) : Recognized .divs (.double x)
  | word {s : String} (word : Text.lower (Text.trim s) ∈ yesWords ++ noWords) :
    Recognized .divs (.text s)
  | encoding {s : String} (name : Text.trim s ≠ "") : Recognized .encoding (.text s)
  | logLevel {s : String}
    (word : Text.upper (Text.trim s) ∈ ["DEBUG", "INFO", "WARNING", "ERROR", "CRITICAL"]) :
    Recognized .logLevel (.text s)

/-- What settings have for one of them. -/
def LooseSettings.value (s : LooseSettings) : Setting → Value
  | .format => s.format
  | .divs => s.divs
  | .encoding => s.encoding
  | .logLevel => s.logLevel

/-- What an override has for a setting. -/
def Override.value? (o : Override) : Setting → Option Value
  | .format => o.format?.map fun format => .text format.word
  | .divs => o.divs?.map .bool
  | .encoding => o.encoding?.map .text
  | .logLevel => o.logLevel?.map fun level => .text level.word

/-- Where settings are supplied: in a value, which is of use if it is a table, or in the variables
of an environment whose names start in a given way. -/
inductive Supply where
  | value (v : Value)
  | environment (env : List (String × String)) (start : String)

namespace Supply

/-- What a supply sets. -/
def override : Supply → Override
  | value v => .ofValue v
  | environment env start => .ofEnvironment env start

/-- The value that is supplied for a setting. An empty variable supplies none. -/
def value? : Supply → Setting → Option Value
  | value v, x => v.table?.bind x.find?
  | environment env start, x => (Override.set? env (start ++ x.ending)).map .text

/-- A supply without the keys and the variables that stand for no setting. -/
def known : Supply → Supply
  | value (.table fields) =>
    value (.table (fields.filter fun field => field.1 ∈ Setting.all.flatMap Setting.keys))
  | value v => value v
  | environment env start =>
    environment (env.filter fun entry => entry.1 ∈ Setting.all.map (start ++ ·.ending)) start

end Supply

/-- A setting stays as it is unless a value is supplied for it that means something. -/
def Ignores (base : LooseSettings) (supply : Supply) (x : Setting) : Prop :=
  (∀ v, supply.value? x = some v → ¬Recognized x v) →
    (base.apply supply.override).value x = base.value x

variable {x : Setting} {v : Value} {fields : List (String × Value)} {base : LooseSettings}

theorem Setting.mem_all (x : Setting) : x ∈ all := by
  cases x <;> decide

/-- Outside the divs, only what means something can be read. -/
theorem recognized_of_read? (hx : x ≠ .divs) {w : Value} (h : x.read? v = some w) :
    Recognized x v := by
  cases x with
  | divs => exact absurd rfl hx
  | format =>
    obtain ⟨format, hf, -⟩ := Option.map_eq_some_iff.mp h
    obtain ⟨s, rfl, hs⟩ := Override.formatOf?_eq_some_iff.mp hf
    refine .format ?_
    rw [hs]
    cases format <;> decide
  | encoding =>
    obtain ⟨name, hn, -⟩ := Option.map_eq_some_iff.mp h
    obtain ⟨s, rfl, rfl, hs⟩ := Override.encodingOf?_eq_some_iff.mp hn
    exact .encoding hs
  | logLevel =>
    obtain ⟨level, hl, -⟩ := Option.map_eq_some_iff.mp h
    obtain ⟨s, rfl, hs⟩ := Override.logLevelOf?_eq_some_iff.mp hl
    refine .logLevel ?_
    rw [hs]
    cases level <;> decide

/-- A value that means nothing counts as a no. -/
theorem isYes_of_not_recognized (h : ¬Recognized .divs v) : v.isYes = false := by
  cases v with
  | bool b => exact absurd (.flag b) h
  | int n => exact absurd (.int n) h
  | double d => exact absurd (.double d) h
  | text s =>
    rw [Value.isYes, ← Bool.not_eq_true, List.contains_iff_mem]
    exact fun hs => h (.word (List.mem_append_left _ hs))
  | null | moment | list | table => rfl

theorem LooseSettings.value_apply (base : LooseSettings) (o : Override) (x : Setting) :
    (base.apply o).value x = (o.value? x).getD (base.value x) := by
  cases x <;> rfl

theorem LooseSettings.eq_of_value {s : LooseSettings} (h : ∀ x, base.value x = s.value x) :
    base = s := by
  cases base
  cases s
  rw [LooseSettings.mk.injEq]
  exact ⟨h .format, h .divs, h .encoding, h .logLevel⟩

namespace Setting

theorem find?_of_keys {key : String} (h : x.keys = [key]) :
    x.find? fields = Value.field? key fields := by
  rw [find?, h]
  cases hf : Value.field? key fields <;> simp [hf]

theorem find?_format : format.find? fields =
    (Value.field? "output_format" fields).or (Value.field? "format" fields) := by
  rw [find?, keys]
  cases hl : Value.field? "output_format" fields with
  | some => simp [hl]
  | none => cases hs : Value.field? "format" fields <;> simp [hl, hs]

end Setting

namespace Override

/-- A table sets what can be read from its fields. -/
theorem value?_ofFields (fields : List (String × Value)) (x : Setting) :
    (ofFields fields).value? x = (x.find? fields).bind x.read? := by
  cases x with
  | format =>
    rw [Setting.find?_format, value?, ofFields, Option.map_bind]
    rfl
  | divs =>
    rw [Setting.find?_of_keys rfl, value?, ofFields, Option.map_map, Option.map_eq_bind]
    rfl
  | encoding =>
    rw [Setting.find?_of_keys rfl, value?, ofFields, Option.map_bind]
    rfl
  | logLevel =>
    rw [Setting.find?_of_keys rfl, value?, ofFields, Option.map_bind]
    rfl

theorem find?_environmentFields (env : List (String × String)) (start : String) (x : Setting) :
    x.find? (environmentFields env start) = (set? env (start ++ x.ending)).map .text := by
  cases x with
  | format =>
    rw [Setting.find?_format, field?_of_variable "FORMAT" (by decide), field?_format,
      Option.or_none]
    rfl
  | divs => exact (Setting.find?_of_keys rfl).trans (field?_of_variable "DIVS" (by decide))
  | encoding =>
    exact (Setting.find?_of_keys rfl).trans (field?_of_variable "ENCODING" (by decide))
  | logLevel =>
    exact (Setting.find?_of_keys rfl).trans (field?_of_variable "LOG_LEVEL" (by decide))

end Override

namespace Supply

variable (supply : Supply)

/-- A supply sets what can be read from its values. -/
theorem value?_override (x : Setting) :
    supply.override.value? x = (supply.value? x).bind x.read? := by
  cases supply with
  | environment env start =>
    rw [override, Override.ofEnvironment, Override.value?_ofFields,
      Override.find?_environmentFields, value?]
  | value v =>
    rw [override, Override.ofValue, value?]
    cases v.table? with
    | none => cases x <;> rfl
    | some fields => exact Override.value?_ofFields fields x

theorem find?_filter (fields : List (String × Value)) (x : Setting) :
    x.find? (fields.filter fun field => field.1 ∈ Setting.all.flatMap Setting.keys) =
      x.find? fields := by
  refine congrArg List.head? (List.filterMap_congr fun key hk => ?_)
  have hm : key ∈ Setting.all.flatMap Setting.keys := List.mem_flatMap.mpr ⟨x, x.mem_all, hk⟩
  exact lookup_filter (· ∈ Setting.all.flatMap Setting.keys) (decide_eq_true hm) fields

theorem value?_known (x : Setting) : supply.known.value? x = supply.value? x := by
  cases supply with
  | environment env start =>
    have hm : start ++ x.ending ∈ Setting.all.map (start ++ ·.ending) :=
      List.mem_map_of_mem x.mem_all
    have hf := lookup_filter (· ∈ Setting.all.map (start ++ ·.ending)) (decide_eq_true hm) env
    rw [known, value?, value?, Override.set?, hf]
    rfl
  | value v =>
    cases v with
    | table fields => exact find?_filter fields x
    | _ => rfl

end Supply

theorem value_apply_override (base : LooseSettings) (supply : Supply) (x : Setting) :
    (base.apply supply.override).value x =
      ((supply.value? x).bind x.read?).getD (base.value x) := by
  rw [LooseSettings.value_apply, supply.value?_override]

/-- No other setting is changed by a value that means nothing. -/
theorem ignores_of_ne (hx : x ≠ .divs) (base : LooseSettings) (supply : Supply) :
    Ignores base supply x := by
  intro h
  rw [value_apply_override]
  cases hv : supply.value? x with
  | none => rfl
  | some v =>
    have hread : x.read? v = none := by
      by_contra hne
      obtain ⟨w, hw⟩ := Option.ne_none_iff_exists'.mp hne
      exact h v hv (recognized_of_read? hx hw)
    rw [Option.bind_some, hread]
    rfl

/-- The divs are switched off by a value that means nothing. -/
theorem divs_of_not_recognized {supply : Supply} (hv : supply.value? .divs = some v)
    (h : ¬Recognized .divs v) : (base.apply supply.override).divs = .bool false := by
  have happly := value_apply_override base supply .divs
  rw [hv, Option.bind_some, Setting.read?, isYes_of_not_recognized h] at happly
  exact happly

/-- Values that mean nothing for their setting leave it alone, unless it is the divs and they are
not off. Other keys and variables change nothing. -/
theorem unrecognized_values_ignored (base : LooseSettings) (supply : Supply) :
    (∀ x, x ≠ .divs → Ignores base supply x) ∧
      (Ignores base supply .divs ↔
        ∀ v, supply.value? .divs = some v → ¬Recognized .divs v → base.divs = .bool false) ∧
      base.apply supply.known.override = base.apply supply.override := by
  refine ⟨fun x hx => ignores_of_ne hx base supply, ⟨fun h v hv hr => ?_, fun h hr => ?_⟩, ?_⟩
  · have hsame : (base.apply supply.override).divs = base.divs := h fun w hw => by
      cases hv.symm.trans hw
      exact hr
    exact hsame.symm.trans (divs_of_not_recognized hv hr)
  · cases hv : supply.value? .divs with
    | none => rw [value_apply_override, hv]; rfl
    | some v =>
      have hoff := h v hv (hr v hv)
      exact (divs_of_not_recognized hv (hr v hv)).trans hoff.symm
  · refine LooseSettings.eq_of_value fun x => ?_
    rw [value_apply_override, value_apply_override, supply.value?_known]

/-- A word that is neither a yes nor a no switches the divs off. -/
theorem divs_not_ignored :
    let base := Settings.loose { divs := true }
    let supply := Supply.value (.table [("divs", .text "maybe")])
    ¬Ignores base supply .divs := by
  intro base supply h
  have hv : supply.value? .divs = some (.text "maybe") := rfl
  have hr : ¬Recognized .divs (.text "maybe") := by
    rintro (_ | _ | _ | _ | hw)
    exact absurd hw (by decide +kernel)
  have hoff : (base.apply supply.override).divs = .bool false := divs_of_not_recognized hv hr
  have hon : (base.apply supply.override).divs = .bool true := by
    refine h fun v hw => ?_
    cases hv.symm.trans hw
    exact hr
  cases hoff.symm.trans hon

end GrammarDoc
