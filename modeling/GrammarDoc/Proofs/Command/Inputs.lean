import GrammarDoc.Command.Run
import GrammarDoc.Proofs.Encoding.Decoding
import GrammarDoc.Proofs.Extraction.LineBreaks

namespace GrammarDoc

namespace Codec

variable {encoding : String} {bytes : List UInt8} {codec : Codec} {others : Codings}

/-- Bytes that are read alike from a file and from a stream. The encoding is known even if there is
nothing to decode, a byte order mark is there as a whole or not at all, an encoding that is not
described here makes the same of both, and all line breaks of the text do alike. -/
structure ReadsAlike (others : Codings) (encoding : String) (bytes : List UInt8) : Prop where
  notSystem : encoding ≠ systemName
  known : bytes = [] → (ofName? encoding).isSome ∨ (others encoding).isSome
  whole : ofName? encoding = some .utf8Marked → bytes ∉ [[0xEF], [0xEF, 0xBB]]
  ordered : ofName? encoding = some .utf16Marked → 2 ≤ bytes.length →
    (Encoding.Utf16.markedOrder? bytes).isSome
  other : ∀ coding, ofName? encoding = none → others encoding = some coding →
    coding.decodeFile bytes = if bytes = [] then .ok [] else coding.decode bytes
  breaks : ∀ text, decodeStream others encoding bytes = .ok text → Source.BreaksAlike text.toList

theorem decodeFile_nil (codec : Codec) : codec.decodeFile [] = .ok [] := by
  have hutf8 : Encoding.Utf8.decode [] = .ok [] := by
    rw [Encoding.Utf8.decode, Encoding.Utf8.decodeFrom]
  cases codec with
  | utf8 =>
    simp only [decodeFile, decode, hutf8]
    rfl
  | singleByte table => rfl
  | _ => rfl

/-- A prefix of the mark that is neither empty nor all of it. -/
theorem mem_of_isPrefixOf_mark (hb : bytes ≠ []) (hl : bytes.length < 3)
    (hp : bytes.isPrefixOf markUtf8) : bytes ∈ [[0xEF], [0xEF, 0xBB]] := by
  match bytes with
  | [] => exact absurd rfl hb
  | [a] => simpa [markUtf8] using hp
  | [a, b] => simpa [markUtf8] using hp
  | _ :: _ :: _ :: bytes =>
    simp only [List.length_cons] at hl
    omega

theorem decodeFile_eq_decode (h : ReadsAlike others encoding bytes)
    (hc : ofName? encoding = some codec) (hb : bytes ≠ []) :
    codec.decodeFile bytes = (codec.decode bytes).mapError .badBytes := by
  have hwhole : ¬(codec = .utf8Marked ∧ bytes.length < 3 ∧ bytes.isPrefixOf markUtf8) := by
    rintro ⟨rfl, hl, hp⟩
    exact h.whole hc (mem_of_isPrefixOf_mark hb hl hp)
  have hordered : ¬(codec = .utf16Marked ∧ 2 ≤ bytes.length ∧
      (Encoding.Utf16.markedOrder? bytes).isNone) := by
    rintro ⟨rfl, hl, hm⟩
    have hsome := h.ordered hc hl
    rw [Option.isNone_iff_eq_none.mp hm] at hsome
    cases hsome
  rw [decodeFile, if_neg hwhole]
  cases codec.decode bytes with
  | error => rfl
  | ok cs =>
    have hif : ∀ x y : Except CodecError (List Char), (if codec = .utf16Marked ∧
        2 ≤ bytes.length ∧ (Encoding.Utf16.markedOrder? bytes).isNone then x else y) = y :=
      fun _ _ => if_neg hordered
    exact hif _ _

/-- Every encoding makes of a file what it makes of a stream, and no text of no bytes. -/
theorem decodeFile_eq (h : ReadsAlike others encoding bytes) {coding : Coding}
    (hn : named others encoding = .ok coding) :
    coding.decodeFile bytes = if bytes = [] then .ok [] else coding.decode bytes := by
  obtain ⟨-, ⟨codec, hc, rfl⟩ | ⟨hc, ho⟩⟩ := named_eq_ok_iff.mp hn
  · by_cases hb : bytes = []
    · subst hb
      exact decodeFile_nil codec
    · rw [if_neg hb]
      exact decodeFile_eq_decode h hc hb
  · exact h.other coding hc ho

/-- A file gives the text of a stream with other line breaks. -/
theorem readFile_eq_decodeStream (h : ReadsAlike others encoding bytes) :
    readFile others encoding bytes = (decodeStream others encoding bytes).map fun text =>
      String.ofList (unifyLineBreaks text.toList) := by
  rw [readFile, if_neg h.notSystem, decodeStream]
  cases hn : named others encoding with
  | error e =>
    have hfails : ¬(bytes.isEmpty ∧ ¬hasZero encoding) := by
      rintro ⟨hb, hz⟩
      have hz : hasZero encoding = false := by simpa using hz
      have hnamed : ∃ coding, named others encoding = .ok coding := by
        cases hc : ofName? encoding with
        | some codec => exact ⟨_, named_of_ofName? others hz hc⟩
        | none =>
          have hsome := (h.known (List.isEmpty_iff.mp hb)).resolve_left (by simp [hc])
          obtain ⟨coding, ho⟩ := Option.isSome_iff_exists.mp hsome
          exact ⟨coding, named_eq_ok_iff.mpr ⟨hz, .inr ⟨hc, ho⟩⟩⟩
      obtain ⟨coding, hok⟩ := hnamed
      cases hn.symm.trans hok
    rw [if_neg hfails]
    rfl
  | ok coding =>
    have hz : ¬hasZero encoding := by
      rw [(named_eq_ok_iff.mp hn).1]
      exact Bool.false_ne_true
    change (coding.decodeFile bytes >>= _) = _
    rw [decodeFile_eq h hn]
    by_cases hb : bytes = []
    · subst hb
      rw [if_pos rfl, if_pos ⟨rfl, hz⟩]
      rfl
    · have hfails : ¬(bytes.isEmpty ∧ ¬hasZero encoding) := by
        rintro ⟨he, -⟩
        exact hb (List.isEmpty_iff.mp he)
      rw [if_neg hb, if_neg hfails]
      change _ = Except.map _ (coding.decode bytes >>= _)
      cases coding.decode bytes with
      | error => rfl
      | ok cs =>
        change Except.ok _ = Except.ok (String.ofList (unifyLineBreaks (String.ofList cs).toList))
        rw [String.toList_ofList]

end Codec

namespace Command

open Files (Host Incoming Store)

/-- Two runs end alike, with the same output and the same files. -/
structure Outcome.Agrees (o o' : Outcome) : Prop where
  ending : o.ending = o'.ending
  stdout : o.stdout = o'.stdout
  store : o.store = o'.store

section Runs

variable {p p' : Progress} {inv inv' : Invocation} {o o' : Options} {settings : Settings}
variable {text text' : String}

theorem agrees_ended (hs : p.stdout = p'.stdout) (hf : p.store = p'.store)
    (ending : Except Fault Nat) : (p.ended ending).Agrees (p'.ended ending) :=
  ⟨rfl, hs, hf⟩

/-- What a run is ended with in its log does not matter. -/
theorem agrees_refused (hs : p.stdout = p'.stdout) (hf : p.store = p'.store) (code : Nat)
    (message message' : String) : (p.refused code message).Agrees (p'.refused code message') :=
  ⟨rfl, hs, hf⟩

theorem agrees_write (hs : p.stdout = p'.stdout) (hf : p.store = p'.store)
    (ht : inv.incoming.isTextual = inv'.incoming.isTextual) (hh : inv.host = inv'.host)
    (ho : o.output = o'.output)
    (document : String) :
    (write p inv o settings document).Agrees (write p' inv' o' settings document) := by
  unfold write
  rw [hf, ht, hh, ho]
  cases o'.output with
  | lost => exact agrees_ended hs hf _
  | absent =>
    dsimp only
    split
    next => split <;> exact ⟨rfl, rfl, rfl⟩
    next => exact ⟨rfl, rfl, rfl⟩
  | given path =>
    dsimp only
    split
    next => split <;> exact ⟨rfl, rfl, rfl⟩
    next => exact ⟨rfl, rfl, rfl⟩

theorem agrees_convert (hs : p.stdout = p'.stdout) (hf : p.store = p'.store)
    (ht : inv.incoming.isTextual = inv'.incoming.isTextual) (hh : inv.host = inv'.host)
    (ho : o.output = o'.output)
    (hr : ∀ rules, (parseRules text).result = .ok rules ↔ (parseRules text').result = .ok rules) :
    (convert p inv o settings text).Agrees (convert p' inv' o' settings text') := by
  have hs' : (p.noting (parseRules text).log).stdout = (p'.noting (parseRules text').log).stdout :=
    hs
  have hf' : (p.noting (parseRules text).log).store = (p'.noting (parseRules text').log).store :=
    hf
  cases hp : (parseRules text).result with
  | ok rules =>
    have hp' := (hr rules).mp hp
    simp only [convert, hp, hp']
    cases render settings rules with
    | error => exact agrees_ended hs' hf' _
    | ok document => exact agrees_write hs' hf' ht hh ho document
  | error e =>
    cases hp' : (parseRules text').result with
    | ok rules => cases hp.symm.trans ((hr rules).mpr hp')
    | error e' =>
      simp only [convert, hp, hp']
      exact agrees_refused hs' hf' _ _ _

variable {path : String} {std? : Option String} {bytes : List UInt8}

theorem agrees_readAndConvert (hi : o.input? = some path) (hi' : o'.input? = std?)
    (hstd : Files.isStandard std?) (hpath : Files.isStandard (some path) = false)
    (hz : (Files.Path.ofText path).hasZero = false) (ho : o.output = o'.output)
    (hfile : inv.store.read (Files.Path.ofText path) = .ok bytes)
    (hstore : inv.store = inv'.store) (hstream : inv'.incoming = .bytes bytes)
    (hhost : inv.host = inv'.host) (ht : inv.incoming.isTextual = false)
    (h : Codec.ReadsAlike inv'.host.codings settings.encoding bytes) :
    (readAndConvert inv o settings).Agrees (readAndConvert inv' o' settings) := by
  have hstreamed :
      Files.readSource inv'.store inv'.incoming o'.input? settings.encoding inv'.host =
        (Codec.decodeStream inv'.host.codings settings.encoding bytes).mapError .codec := by
    unfold Files.readSource
    rw [hi', if_pos hstd, hstream]
  have hread : Files.readSource inv.store inv.incoming o.input? settings.encoding inv.host =
      (Codec.readFile inv'.host.codings settings.encoding bytes).mapError .codec := by
    unfold Files.readSource
    rw [hi, if_neg (by simp [hpath]), hhost]
    by_cases hn : Codec.hasZero settings.encoding
    · have hnamed : Codec.named inv'.host.codings settings.encoding = .error .zeroInName :=
        if_pos hn
      rw [if_pos hn, Codec.readFile, if_neg h.notSystem, hnamed]
      rfl
    · simp only [Option.getD_some, if_neg hn, hz, hfile]
      rfl
  rw [Codec.readFile_eq_decodeStream h] at hread
  unfold readAndConvert
  rw [hread, hstreamed]
  cases hd : Codec.decodeStream inv'.host.codings settings.encoding bytes with
  | error e =>
    simp only [Except.map, Except.mapError]
    split
    · refine agrees_refused ?_ ?_ _ _ _
      · rfl
      · exact hstore
    · refine agrees_ended ?_ ?_ _
      · rfl
      · exact hstore
  | ok text =>
    have hbreaks := h.breaks text hd
    refine agrees_convert rfl hstore ?_ hhost ho fun rules =>
      parseRules_ok_unifyLineBreaks_iff hbreaks
    rw [ht, hstream]
    rfl

/-- The settings file that is asked for. -/
def Options.configPath? (o : Options) : Option String :=
  match o.config with
  | .given path => some path
  | _ => none

theorem Outcome.Agrees.withStderr {r r' : Outcome} (h : r.Agrees r') (stderr stderr' : String) :
    Outcome.Agrees { r with stderr := stderr } { r' with stderr := stderr' } :=
  ⟨h.ending, h.stdout, h.store⟩

variable {argv argv' : List String} {env : List (String × String)} {store : Store}
variable {other : List UInt8} {host : Host}

theorem agrees_convertLoading {config? : Option String}
    (hpath : Files.isStandard (some path) = false) (hstd : Files.isStandard std?)
    (hz : (Files.Path.ofText path).hasZero = false)
    (hfile : store.read (Files.Path.ofText path) = .ok bytes)
    (hread : ∀ settings, (Settings.load store env config?).result = .ok settings →
      Codec.ReadsAlike host.codings settings.encoding bytes) :
    (convertLoading ⟨argv, .bytes other, env, store, host⟩ { o with input? := some path }
      config?).Agrees
      (convertLoading ⟨argv', .bytes bytes, env, store, host⟩ { o with input? := std? }
        config?) := by
  unfold convertLoading
  refine Outcome.Agrees.withStderr ?_ _ _
  dsimp only
  cases hl : (Settings.load store env config?).result with
  | ok settings =>
    exact agrees_readAndConvert rfl rfl hstd hpath hz rfl hfile rfl rfl rfl rfl
      (hread settings hl)
  | error e =>
    cases e with
    | config => exact agrees_refused rfl rfl _ _ _
    | _ => exact ⟨rfl, rfl, rfl⟩

/-- A grammar converts alike from a file and from standard input, if its bytes are read alike. -/
theorem run_agrees_on_inputs
    (hargv : readCommandLine argv = .ok (.convert { o with input? := some path }))
    (hargv' : readCommandLine argv' = .ok (.convert { o with input? := std? }))
    (hpath : Files.isStandard (some path) = false) (hstd : Files.isStandard std?)
    (hz : (Files.Path.ofText path).hasZero = false)
    (hfile : store.read (Files.Path.ofText path) = .ok bytes)
    (hread : ∀ settings, (Settings.load store env o.configPath?).result = .ok settings →
      Codec.ReadsAlike host.codings settings.encoding bytes) :
    (run ⟨argv, .bytes other, env, store, host⟩).Agrees
      (run ⟨argv', .bytes bytes, env, store, host⟩) := by
  obtain ⟨_, markdown, ebnf, divs, output, config, verbose⟩ := o
  simp only [run, hargv, hargv', convertWith]
  cases config with
  | lost => exact ⟨rfl, rfl, rfl⟩
  | absent =>
    exact agrees_convertLoading (o := ⟨none, markdown, ebnf, divs, output, .absent, verbose⟩)
      hpath hstd hz hfile hread
  | given file =>
    exact agrees_convertLoading (o := ⟨none, markdown, ebnf, divs, output, .given file, verbose⟩)
      hpath hstd hz hfile hread

/-- A store with one grammar in it. -/
def oneGrammar (bytes : List UInt8) : Store :=
  ⟨"/work", [(⟨"", ["g.g4"]⟩, .file bytes)]⟩

/-- The encoding of the settings is one that is not described here, and has a byte for every
character of the text. -/
theorem run_agrees_on_mixed_lines :
    let text := "grammar G;\r\na : 'x' // é\r\n ;\rb : a /* \r */ ;\n"
    let bytes := text.toList.map fun c => UInt8.ofNat c.toNat
    let env := [("GRAMMAR_CONVERTER_ENCODING", "cp1252")]
    let host : Host := { codings := fun name =>
      if name = "cp1252" then some (Codec.coding (.singleByte .latin1)) else none }
    let fromFile := run ⟨["g.g4", "-e"], .bytes [], env, oneGrammar bytes, host⟩
    let fromStream := run ⟨["-", "-e"], .bytes bytes, env, oneGrammar bytes, host⟩
    fromFile.Agrees fromStream ∧
      fromFile.stdout = Encoding.Utf8.encode "a ::= 'x'\nb ::= a\n".toList := by
  intro text bytes env host fromFile fromStream
  have hencoding : (Settings.load (oneGrammar bytes) env none).result.toOption.map
      Settings.encoding = some "cp1252" := by decide +kernel
  have hdecode : (Codec.decodeStream host.codings "cp1252" bytes).toOption = some text := by
    decide +kernel
  have hbreaks : Source.BreaksAlike text.toList :=
    ⟨by decide +kernel, by decide +kernel, by decide +kernel⟩
  have hnone : Codec.ofName? "cp1252" = none := by decide +kernel
  have hreads : Codec.ReadsAlike host.codings "cp1252" bytes :=
    { notSystem := by decide
      known := fun _ => .inr rfl
      whole := by simp [hnone]
      ordered := by simp [hnone]
      other := fun coding _ hc => by
        cases Option.some.inj hc
        decide +kernel
      breaks := fun text' ht => by
        rw [ht] at hdecode
        cases Option.some.inj hdecode
        exact hbreaks }
  refine ⟨run_agrees_on_inputs (o := { ebnf := true }) rfl rfl rfl rfl rfl rfl ?_,
    by decide +kernel⟩
  intro settings hs
  have hs : (Settings.load (oneGrammar bytes) env none).result = .ok settings := hs
  have he : settings.encoding = "cp1252" := by
    rw [hs] at hencoding
    exact Option.some.inj hencoding
  exact he ▸ hreads

/-- On standard input a line comment goes on after a carriage return. -/
theorem run_differs_on_inputs :
    let bytes := Encoding.Utf8.encode "grammar G; // c\ra : 'x' ;".toList
    let fromFile := run ⟨["g.g4", "-e"], .bytes [], [], oneGrammar bytes, {}⟩
    let fromStream := run ⟨["-", "-e"], .bytes bytes, [], oneGrammar bytes, {}⟩
    fromFile.stdout = Encoding.Utf8.encode "a ::= 'x'\n".toList ∧
      fromStream.stdout = Encoding.Utf8.encode "\n".toList ∧ ¬fromFile.Agrees fromStream := by
  intro bytes fromFile fromStream
  have hfile : fromFile.stdout = Encoding.Utf8.encode "a ::= 'x'\n".toList := by decide +kernel
  have hstream : fromStream.stdout = Encoding.Utf8.encode "\n".toList := by decide +kernel
  refine ⟨hfile, hstream, fun h => ?_⟩
  have hsame := h.stdout
  rw [hfile, hstream] at hsame
  exact absurd hsame (by decide +kernel)

end Runs

end Command

end GrammarDoc
