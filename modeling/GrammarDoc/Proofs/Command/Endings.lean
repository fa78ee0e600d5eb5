import GrammarDoc.Proofs.Command.Precedence
import GrammarDoc.Proofs.Files.Sessions
import GrammarDoc.Proofs.Rendering.Blocks
import GrammarDoc.Proofs.Rendering.EbnfReading

namespace GrammarDoc

namespace Command

open Files (Host Incoming ReadError Replaces Store WriteError Writing Written)

/-- Rules from grammar source can be rendered in either format. -/
theorem exists_render {text : String} {rules : List Rule}
    (h : (parseRules text).result = .ok rules) (settings : Settings) :
    ∃ document, render settings rules = .ok document := by
  have hw := wellFormed_of_parseRules h
  rw [render]
  cases settings.format with
  | ebnf => exact ⟨_, Ebnf.document_ok hw⟩
  | markdown =>
    obtain ⟨_, hd, -⟩ := Markdown.exists_document settings.divs hw
    exact ⟨_, hd⟩

/-- The file that a run writes, unless it writes to standard output. -/
def Options.outputPath? (o : Options) : Option String :=
  match o.output with
  | .given path => if Files.isStandard (some path) then none else some path
  | _ => none

/-- The arguments, the settings and the input of a run have been read. -/
structure Invocation.Reaches (inv : Invocation) (o : Options) (settings : Settings)
    (text : String) : Prop where
  arguments : readCommandLine inv.argv = .ok (.convert o)
  resolves : o.Resolves inv.store inv.env settings
  input : Files.readSource inv.store inv.incoming o.input? settings.encoding inv.host = .ok text

/-- What a run has read is a grammar, and gives a document. -/
def Invocation.Renders (inv : Invocation) (o : Options) (settings : Settings)
    (document : String) : Prop :=
  ∃ text rules, inv.Reaches o settings text ∧ (parseRules text).result = .ok rules ∧
    render settings rules = .ok document

/-- Where a run may have made directories: on the way to the file that it is to write. -/
def Invocation.OnTheWay (inv : Invocation) (place : Files.Place) : Prop :=
  ∃ o path, readCommandLine inv.argv = .ok (.convert o) ∧ o.outputPath? = some path ∧
    (Files.Path.ofText path).Above place

/-- A run has written nothing. Directories on the way may have been made. -/
structure Outcome.WritesNothing (out : Outcome) (inv : Invocation) : Prop where
  stdout : out.stdout = []
  grows : inv.store.Grows inv.OnTheWay out.store

/-- A run has written some bytes, to standard output or to a file, and nothing else. -/
inductive Outcome.Delivers (out : Outcome) (inv : Invocation) (o : Options)
    (bytes : List UInt8) : Prop
  | stream (destination : o.outputPath? = none) (stdout : out.stdout = bytes)
    (store : out.store = inv.store)
  | file {path : String} (destination : o.outputPath? = some path) (stdout : out.stdout = [])
    (replaces : Replaces (.ofText path) bytes inv.store out.store)

/-- Why a run ends without an exit code: a value of an option that is lost, a settings file or an
input that is broken beyond what a run answers for, a zero character in the path of the output, an
encoding that fails as it is not known to, or a draft that the disk does not let go. -/
inductive Invocation.Escapes (inv : Invocation) : Fault → Prop
  | lostConfig {o : Options} (arguments : readCommandLine inv.argv = .ok (.convert o))
    (lost : o.config = .lost) : Escapes inv .lostValue
  | loading {o : Options} {error : Settings.LoadError}
    (arguments : readCommandLine inv.argv = .ok (.convert o)) (kept : o.config ≠ .lost)
    (loading : (Settings.load inv.store inv.env o.configPath?).result = .error error)
    (undocumented : ∀ path failure?, error ≠ .config path failure?) :
    Escapes inv (.loading error)
  | reading {o : Options} {settings : Settings} {error : ReadError}
    (arguments : readCommandLine inv.argv = .ok (.convert o))
    (resolves : o.Resolves inv.store inv.env settings)
    (reading : Files.readSource inv.store inv.incoming o.input? settings.encoding inv.host =
      .error error)
    (unanswered : answersFor error = false) : Escapes inv (.reading error)
  | lostOutput {o : Options} {settings : Settings} {document : String}
    (renders : inv.Renders o settings document) (lost : o.output = .lost) : Escapes inv .lostValue
  | zeroInPath {o : Options} {settings : Settings} {document path : String}
    (renders : inv.Renders o settings document) (destination : o.outputPath? = some path)
    (zero : (Files.Path.ofText path).hasZero) : Escapes inv (.writing .zeroInPath)
  | unexpected {o : Options} {settings : Settings} {document : String} {error : CodecError}
    (renders : inv.Renders o settings document)
    (encoded : Codec.encodeAs inv.host.codings settings.encoding (document ++ "\n") = .error error)
    (unknown : error.ofEncoding = false) : Escapes inv (.writing (.ofCodec error))
  | stuck {o : Options} {settings : Settings} {document path text : String}
    (renders : inv.Renders o settings document) (destination : o.outputPath? = some path)
    (erasing : inv.host.erasing = some text) : Escapes inv (.writing (.stuck text))

/-- What a run can come to. Whatever stops it before there is a grammar, or keeps it from writing,
has the same exit code. -/
inductive Invocation.Course (inv : Invocation) (out : Outcome) : Prop
  | stopped (ending : out.ending = .ok exitOther) (nothing : out.WritesNothing inv)
  | helped (arguments : readCommandLine inv.argv = .ok .help) (ending : out.ending = .ok exitOk)
  | unconverted {o : Options} {settings : Settings} {text : String} {error : ConversionError}
    (reaches : inv.Reaches o settings text) (parsing : (parseRules text).result = .error error)
    (ending : out.ending = .ok exitConversion) (nothing : out.WritesNothing inv)
  | done {o : Options} {settings : Settings} {document : String} {bytes : List UInt8}
    (renders : inv.Renders o settings document)
    (encoded : inv.incoming.isTextual = false →
      Codec.encodeAs inv.host.codings settings.encoding (document ++ "\n") = .ok bytes)
    (ending : out.ending = .ok exitOk) (delivers : out.Delivers inv o bytes)
  | escaped {fault : Fault} (ending : out.ending = .error fault) (escapes : inv.Escapes fault)

variable {inv : Invocation} {o : Options} {settings : Settings} {p : Progress}
variable {text document path : String} {out : Outcome}

theorem outputPath?_eq_some_iff : o.outputPath? = some path ↔
    o.output = .given path ∧ Files.isStandard (some path) = false := by
  rw [Options.outputPath?]
  cases o.output with
  | absent => simp
  | lost => simp
  | given other =>
    dsimp only
    rw [OptionValue.given.injEq]
    by_cases hs : Files.isStandard (some other)
    · rw [if_pos hs]
      constructor
      · intro h
        cases h
      · rintro ⟨rfl, h⟩
        cases hs.symm.trans h
    · rw [if_neg hs, Option.some.injEq]
      refine ⟨?_, fun h => h.1⟩
      rintro rfl
      exact ⟨rfl, by simpa using hs⟩

theorem Outcome.WritesNothing.of_refused (hs : p.stdout = []) (hf : p.store = inv.store)
    (code : Nat) (message : String) : (p.refused code message).WritesNothing inv :=
  ⟨hs, hf ▸ Store.Grows.refl _ _⟩

/-- What a run shows on standard error does not matter. -/
theorem Invocation.Course.withStderr (h : inv.Course out) (stderr : String) :
    inv.Course { out with stderr := stderr } := by
  cases h with
  | stopped he hn => exact .stopped he ⟨hn.stdout, hn.grows⟩
  | helped ha he => exact .helped ha he
  | unconverted hr hp he hn => exact .unconverted hr hp he ⟨hn.stdout, hn.grows⟩
  | done hr hb he hd =>
    refine .done hr hb he ?_
    cases hd with
    | stream hd hs hf => exact .stream hd hs hf
    | file hd hs hr => exact .file hd hs hr
  | escaped he h => exact .escaped he h

/-- A run ended with what a write has left. -/
def Progress.wrote (p : Progress) (written : Written) : Outcome :=
  let p := { p with
    stdout := written.stdout
    store := written.store
    log := p.log ++ written.outcome.log }
  match written.outcome.result with
  | .error e => if e.isReason then p.refused exitOther e.message else p.ended (.error (.writing e))
  | .ok () => p.ended (.ok exitOk)

theorem write_eq (p : Progress) (inv : Invocation) (o : Options) (settings : Settings)
    (document : String) : write p inv o settings document =
      match o.output with
      | .absent => p.wrote (Files.writeOutput p.store inv.incoming.isTextual document none
          settings.encoding inv.host)
      | .given path => p.wrote (Files.writeOutput p.store inv.incoming.isTextual document
          (some path) settings.encoding inv.host)
      | .lost => p.ended (.error .lostValue) := by
  rw [write]
  cases o.output <;> rfl

/-- A write to standard output sends all of a text or nothing. -/
theorem writeStream_cases (store : Store) (textual : Bool) (payload encoding : String)
    (host : Host) :
    (∃ bytes, (textual = false → Codec.encodeAs host.codings encoding payload = .ok bytes) ∧
      Files.writeStream store textual payload encoding host = ⟨store, bytes, pure ()⟩) ∨
    (∃ error, error.isReason ∧
      Files.writeStream store textual payload encoding host = ⟨store, [], .fail error⟩) ∨
    ∃ error, Codec.encodeAs host.codings encoding payload = .error error ∧
      error.ofEncoding = false ∧
      Files.writeStream store textual payload encoding host =
        ⟨store, [], .fail (.ofCodec error)⟩ := by
  unfold Files.writeStream
  cases textual with
  | true => exact .inl ⟨_, nofun, rfl⟩
  | false =>
    rw [if_neg Bool.false_ne_true]
    cases Codec.encodeAs host.codings encoding payload with
    | ok bytes => exact .inl ⟨bytes, fun _ => rfl, rfl⟩
    | error error =>
      cases hk : error.ofEncoding with
      | true =>
        exact .inr (.inl ⟨.stream encoding error, rfl, by simp only [hk, if_true]⟩)
      | false =>
        exact .inr (.inr ⟨error, rfl, hk, by simp only [hk, Bool.false_eq_true, if_false]⟩)

/-- Errors that are reasons end a run with an exit code. -/
theorem wrote_of_reason (p : Progress) (written : Written) {error : WriteError}
    (hr : written.outcome.result = .error error) (hreason : error.isReason)
    (hs : written.stdout = []) (hg : inv.store.Grows inv.OnTheWay written.store) :
    (p.wrote written).ending = .ok exitOther ∧ (p.wrote written).WritesNothing inv := by
  simp only [Progress.wrote, hr, hreason, if_true]
  exact ⟨rfl, hs, hg⟩

/-- Other errors end it without one. -/
theorem wrote_of_escape (p : Progress) (written : Written) {error : WriteError}
    (hr : written.outcome.result = .error error) (hreason : error.isReason = false) :
    (p.wrote written).ending = .error (.writing error) := by
  simp only [Progress.wrote, hr, hreason, Bool.false_eq_true, if_false]
  rfl

theorem course_stream {path? : Option String} (hr : inv.Renders o settings document)
    (hd : o.outputPath? = none) (hf : p.store = inv.store) (hp : Files.isStandard path?) :
    inv.Course (p.wrote (Files.writeOutput p.store inv.incoming.isTextual document path?
      settings.encoding inv.host)) := by
  rw [Files.writeOutput, if_pos hp, hf]
  rcases writeStream_cases inv.store inv.incoming.isTextual (document ++ "\n")
      settings.encoding inv.host with ⟨bytes, he, hw⟩ | ⟨error, hreason, hw⟩ | ⟨error, he, hu, hw⟩
  · rw [hw]
    exact .done hr he rfl (.stream hd rfl rfl)
  · rw [hw]
    obtain ⟨he, hn⟩ := wrote_of_reason p ⟨inv.store, [], .fail error⟩ rfl hreason rfl
      (Store.Grows.refl _ _)
    exact .stopped he hn
  · rw [hw]
    exact .escaped (wrote_of_escape p _ rfl (WriteError.isReason_ofCodec error))
      (.unexpected hr he hu)

theorem course_file (hr : inv.Renders o settings document) (hd : o.outputPath? = some path)
    (hf : p.store = inv.store) :
    inv.Course (p.wrote (Files.writeOutput p.store inv.incoming.isTextual document (some path)
      settings.encoding inv.host)) := by
  obtain ⟨text, rules, hreaches, -⟩ := id hr
  have hgrows : ∀ {grown : Store}, inv.store.Grows (Files.Path.ofText path).Above grown →
      inv.store.Grows inv.OnTheWay grown := fun hg =>
    hg.mono fun place ha => ⟨o, path, hreaches.arguments, hd, ha⟩
  have heffect := Writing.toFile_effect inv.host (.ofText path) (document ++ "\n")
    settings.encoding inv.store
  rw [Files.writeOutput_file (outputPath?_eq_some_iff.mp hd).2, hf, Files.writeFile]
  -- Only what the write comes to matters from here, not how it goes about.
  generalize Writing.toFile inv.host (.ofText path) (document ++ "\n") settings.encoding
    inv.store = result at heffect
  cases heffect with
  | written _ hg _ _ _ _ he hreplace =>
    exact .done hr (fun _ => he) rfl (.file hd rfl (Files.replaces_of_replace hg hreplace))
  | refused hg hreason =>
    obtain ⟨he, hn⟩ := wrote_of_reason p ⟨_, [], .fail _⟩ rfl hreason rfl (hgrows hg)
    exact .stopped he hn
  | zeroInPath _ hz => exact .escaped (wrote_of_escape p _ rfl rfl) (.zeroInPath hr hd hz)
  | unexpected _ _ he hu =>
    exact .escaped (wrote_of_escape p _ rfl (WriteError.isReason_ofCodec _))
      (.unexpected hr he hu)
  | stuck _ _ herasing => exact .escaped (wrote_of_escape p _ rfl rfl) (.stuck hr hd herasing)

theorem course_write (hr : inv.Renders o settings document) (hf : p.store = inv.store) :
    inv.Course (write p inv o settings document) := by
  rw [write_eq]
  cases ho : o.output with
  | absent => exact course_stream hr (by rw [Options.outputPath?, ho]) hf rfl
  | lost => exact .escaped rfl (.lostOutput hr ho)
  | given path =>
    cases hp : Files.isStandard (some path) with
    | true =>
      have hd : o.outputPath? = none := by
        rw [Options.outputPath?, ho]
        exact if_pos hp
      exact course_stream hr hd hf hp
    | false => exact course_file hr (outputPath?_eq_some_iff.mpr ⟨ho, hp⟩) hf

theorem course_convert (hr : inv.Reaches o settings text) (hs : p.stdout = [])
    (hf : p.store = inv.store) : inv.Course (convert p inv o settings text) := by
  cases hp : (parseRules text).result with
  | error e =>
    simp only [convert, hp]
    refine .unconverted hr hp rfl (.of_refused ?_ ?_ _ _)
    · exact hs
    · exact hf
  | ok rules =>
    obtain ⟨document, hd⟩ := exists_render hp settings
    simp only [convert, hp, hd]
    refine course_write ⟨text, rules, hr, hp, hd⟩ ?_
    exact hf

theorem course_readAndConvert (ha : readCommandLine inv.argv = .ok (.convert o))
    (hs : o.Resolves inv.store inv.env settings) :
    inv.Course (readAndConvert inv o settings) := by
  cases hr : Files.readSource inv.store inv.incoming o.input? settings.encoding inv.host with
  | ok text =>
    simp only [readAndConvert, hr]
    exact course_convert ⟨ha, hs, hr⟩ rfl rfl
  | error e =>
    cases hanswer : answersFor e with
    | true =>
      simp only [readAndConvert, hr, hanswer, if_true]
      exact .stopped rfl (.of_refused rfl rfl _ _)
    | false =>
      simp only [readAndConvert, hr, hanswer, Bool.false_eq_true, if_false]
      exact .escaped rfl (.reading ha hs hr hanswer)

theorem course_convertLoading (ha : readCommandLine inv.argv = .ok (.convert o))
    (hk : o.config ≠ .lost) : inv.Course (convertLoading inv o o.configPath?) := by
  refine Invocation.Course.withStderr ?_ _
  cases hl : (Settings.load inv.store inv.env o.configPath?).result with
  | ok base => exact course_readAndConvert ha ⟨hk, base, hl, rfl⟩
  | error e =>
    cases e with
    | config => exact .stopped rfl (.of_refused rfl rfl _ _)
    | badBytes => exact .escaped rfl (.loading ha hk hl nofun)
    | longInteger => exact .escaped rfl (.loading ha hk hl nofun)
    | zeroInPath => exact .escaped rfl (.loading ha hk hl nofun)

theorem convertWith_eq (hk : o.config ≠ .lost) :
    convertWith inv o = convertLoading inv o o.configPath? := by
  rw [convertWith, Options.configPath?]
  cases hc : o.config with
  | lost => exact absurd hc hk
  | _ => rfl

theorem run_course (inv : Invocation) : inv.Course (run inv) := by
  rw [run]
  cases ha : readCommandLine inv.argv with
  | error e => exact .stopped rfl ⟨rfl, Store.Grows.refl _ _⟩
  | ok request =>
    cases request with
    | help => exact .helped ha rfl
    | convert o =>
      change inv.Course (convertWith inv o)
      by_cases hc : o.config = .lost
      · rw [convertWith, hc]
        exact .escaped rfl (.lostConfig ha hc)
      · rw [convertWith_eq hc]
        exact course_convertLoading ha hc

theorem ending_of_reaches {error : ConversionError} (h : inv.Reaches o settings text)
    (hp : (parseRules text).result = .error error) : (run inv).ending = .ok exitConversion := by
  obtain ⟨ha, ⟨hk, base, hl, rfl⟩, hi⟩ := h
  simp only [run, ha, convertWith_eq hk, convertLoading, hl, readAndConvert, hi, convert, hp]
  rfl

/-- A run ends with a code of its own if it has read its input and finds no grammar in it. -/
theorem ending_eq_conversion_iff : (run inv).ending = .ok exitConversion ↔
    ∃ o settings text error, inv.Reaches o settings text ∧
      (parseRules text).result = .error error := by
  constructor
  · intro h
    cases run_course inv with
    | unconverted hr hp _ _ => exact ⟨_, _, _, _, hr, hp⟩
    | stopped he _ => cases he.symm.trans h
    | helped _ he => cases he.symm.trans h
    | done _ _ he _ => cases he.symm.trans h
    | escaped he _ => cases he.symm.trans h
  · rintro ⟨o, settings, text, error, hr, hp⟩
    exact ending_of_reaches hr hp

theorem writesNothing_of_ending {code : Nat} (h : (run inv).ending = .ok code)
    (hc : code ≠ exitOk) : (run inv).WritesNothing inv := by
  cases run_course inv with
  | stopped _ hn => exact hn
  | unconverted _ _ _ hn => exact hn
  | helped _ he => exact absurd (Except.ok.inj (h.symm.trans he)) hc
  | done _ _ he _ => exact absurd (Except.ok.inj (h.symm.trans he)) hc
  | escaped he _ => cases he.symm.trans h

theorem code_of_ending {code : Nat} (h : (run inv).ending = .ok code) :
    code ∈ [exitOk, exitConversion, exitOther] := by
  cases run_course inv with
  | escaped he _ => cases he.symm.trans h
  | stopped he _ => simp [Except.ok.inj (h.symm.trans he)]
  | helped _ he => simp [Except.ok.inj (h.symm.trans he)]
  | unconverted _ _ he _ => simp [Except.ok.inj (h.symm.trans he)]
  | done _ _ he _ => simp [Except.ok.inj (h.symm.trans he)]

/-- A run that fails writes nothing, and one that succeeds writes its document and nothing else. -/
theorem run_writes_result_or_nothing {code : Nat} (hbinary : inv.incoming.isTextual = false)
    (h : (run inv).ending = .ok code) :
    (code ≠ exitOk → (run inv).WritesNothing inv) ∧
    (code = exitOk → readCommandLine inv.argv = .ok .help ∨
      ∃ o settings text rules document bytes, inv.Reaches o settings text ∧
        (parseRules text).result = .ok rules ∧ render settings rules = .ok document ∧
        Codec.encodeAs inv.host.codings settings.encoding (document ++ "\n") = .ok bytes ∧
        (run inv).Delivers inv o bytes) ∧
    (code = exitConversion ↔ ∃ o settings text error, inv.Reaches o settings text ∧
      (parseRules text).result = .error error) ∧
    code ∈ [exitOk, exitConversion, exitOther] := by
  have hcode : code = exitConversion ↔ (run inv).ending = .ok exitConversion := by
    rw [h, Except.ok.injEq]
  refine ⟨writesNothing_of_ending h, ?_, hcode.trans ending_eq_conversion_iff, code_of_ending h⟩
  rintro rfl
  cases run_course inv with
  | helped ha _ => exact .inl ha
  | done hr hb _ hd =>
    obtain ⟨text, rules, hreaches, hp, hrender⟩ := hr
    exact .inr ⟨_, _, text, rules, _, _, hreaches, hp, hrender, hb hbinary, hd⟩
  | stopped he _ => cases he.symm.trans h
  | unconverted _ _ he _ => cases he.symm.trans h
  | escaped he _ => cases he.symm.trans h

theorem ending_eq_ok {code : Nat} (h : out.ending.toOption = some code) :
    out.ending = .ok code := by
  cases he : out.ending with
  | error =>
    rw [he] at h
    cases h
  | ok =>
    rw [he] at h
    exact congrArg _ (Option.some.inj h)

/-- Of three runs one writes its document, one finds a file on the way to its output, and one meets
a disk that is full after a part of the document. -/
theorem run_writes_result_or_nothing_to_file :
    let store := oneGrammar (Encoding.Utf8.encode "grammar G; a : 'x' ;".toList)
    let full : Host := { filling := some (3, "[Errno 28] No space left on device") }
    let good : Invocation := ⟨["g.g4", "-e", "-o", "docs/out"], .bytes [], [], store, {}⟩
    let bad : Invocation := ⟨["g.g4", "-o", "g.g4/out"], .bytes [], [], store, {}⟩
    let cut : Invocation := ⟨["g.g4", "-e", "-o", "g.g4"], .bytes [], [], store, full⟩
    ((run good).ending = .ok exitOk ∧ ∃ o settings text rules document bytes,
      good.Reaches o settings text ∧ (parseRules text).result = .ok rules ∧
      render settings rules = .ok document ∧
      Codec.encodeAs good.host.codings settings.encoding (document ++ "\n") = .ok bytes ∧
      (run good).Delivers good o bytes) ∧
    (run good).store.read (.ofText "docs/out") = .ok (Encoding.Utf8.encode "a ::= 'x'\n".toList) ∧
    ((run bad).ending = .ok exitOther ∧ (run bad).WritesNothing bad) ∧
    (run cut).ending = .ok exitOther ∧ (run cut).WritesNothing cut := by
  intro store full good bad cut
  have hgood : (run good).ending = .ok exitOk := ending_eq_ok (by decide +kernel)
  have hbad : (run bad).ending = .ok exitOther := ending_eq_ok (by decide +kernel)
  have hcut : (run cut).ending = .ok exitOther := ending_eq_ok (by decide +kernel)
  have hdelivers := (run_writes_result_or_nothing rfl hgood).2.1 rfl
  have hhelp : readCommandLine good.argv ≠ .ok .help := by decide +kernel
  exact ⟨⟨hgood, hdelivers.resolve_left hhelp⟩, by decide +kernel,
    ⟨hbad, (run_writes_result_or_nothing rfl hbad).1 (by decide)⟩,
    hcut, (run_writes_result_or_nothing rfl hcut).1 (by decide)⟩

end Command
end GrammarDoc
