import GrammarDoc.Settings.Override

namespace GrammarDoc

/-- Settings as a caller supplies them. Nothing has checked them: any value may stand in a field. -/
structure LooseSettings where
  format : Value
  divs : Value
  encoding : Value
  logLevel : Value
deriving Repr, Inhabited

/-- Settings as loose ones. -/
def Settings.loose (s : Settings) : LooseSettings where
  format := .text s.format.word
  divs := .bool s.divs
  encoding := .text s.encoding
  logLevel := .text s.logLevel.word

namespace LooseSettings

/-- The settings that a table supplies. A field that it leaves out has its usual value. -/
def ofFields (fields : List (String × Value)) : LooseSettings :=
  let usual := Settings.loose {}
  { format := (Value.field? "output_format" fields).getD usual.format
    divs := (Value.field? "divs" fields).getD usual.divs
    encoding := (Value.field? "encoding" fields).getD usual.encoding
    logLevel := (Value.field? "log_level" fields).getD usual.logLevel }

/-- The table that supplies some settings. -/
def fields (s : LooseSettings) : List (String × Value) :=
  [("output_format", s.format), ("divs", s.divs), ("encoding", s.encoding),
    ("log_level", s.logLevel)]

/-- Replaces the settings that an override gives. The others stay as they are, valid or not. -/
def apply (s : LooseSettings) (o : Override) : LooseSettings where
  format := (o.format?.map fun format => Value.text format.word).getD s.format
  divs := (o.divs?.map Value.bool).getD s.divs
  encoding := (o.encoding?.map Value.text).getD s.encoding
  logLevel := (o.logLevel?.map fun level => Value.text level.word).getD s.logLevel

theorem apply_loose (s : Settings) (o : Override) : s.loose.apply o = (s.apply o).loose := by
  obtain ⟨format?, divs?, encoding?, logLevel?⟩ := o
  cases format? <;> cases divs? <;> cases encoding? <;> cases logLevel? <;> rfl

end LooseSettings
end GrammarDoc
