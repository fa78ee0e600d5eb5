import GrammarDoc.Proofs.Parsing.Prefixes
import GrammarDoc.Proofs.Source.Acceptance
import GrammarDoc.Proofs.Source.Stretches

namespace GrammarDoc

namespace Source

/-- How many other constructs a smallest match of a construct has one inside the other. -/
def Construct.height : Construct → Nat
  | grammarSpec => 2
  | grammarDecl => 1
  | prequelConstruct => 1
  | delegateGrammars => 2
  | delegateGrammar => 1
  | ruleSpec => 3
  | parserRuleSpec => 4
  | throwsSpec => 1
  | rulePrequel => 1
  | ruleBlock => 3
  | ruleAltList => 2
  | labeledAlt => 1
  | altList => 1
  | labeledElement => 2
  | ebnf => 3
  | blockSuffix => 1
  | block => 2
  | atom => 1
  | notSet => 1
  | blockSet => 1
  | lexerRuleSpec => 2
  | lexerAltList => 1
  | labeledLexerElement => 1
  | lexerBlock => 2
  | lexerCommands => 1
  | modeSpec => 1
  | _ => 0

theorem grammar_productive : grammar.Productive Construct.height where
  hasMatch c := by cases c <;> rfl

theorem kind_surjective : Function.Surjective Token.kind :=
  fun kind => ⟨⟨kind, "", default⟩, rfl⟩

/-- Some sentence of the grammar starts with these tokens. -/
abbrev Viable (ts : List Token) : Prop :=
  grammar.Viable Token.kind ts

variable {ts : List Token} {t : Token}

/-- The parser refuses exactly the first token that no sentence has there. -/
theorem derivations_error_iff : derivations ts = .error t ↔
    ∃ pre post, ts = pre ++ t :: post ∧ Viable pre ∧ ¬Viable (pre ++ [t]) := by
  rw [← Parsing.run_error_iff grammar_layered grammar_productive kind_surjective, derivations]
  cases grammar.run Token.kind grammar.initial ts with
  | error other =>
    constructor
    · intro h
      cases h
      rfl
    · intro h
      cases h
      rfl
  | ok last =>
    constructor
    · intro h
      cases h
    · intro h
      cases h

theorem exists_derivations_iff : (∃ ds, derivations ts = .ok ds) ↔ Viable ts := by
  have hrun : (∃ last, grammar.run Token.kind grammar.initial ts = .ok last) ↔
      grammar.Viable Token.kind ts :=
    Parsing.run_ok_iff_viable grammar_layered grammar_productive kind_surjective
  rw [Viable, ← hrun, derivations]
  cases grammar.run Token.kind grammar.initial ts with
  | error other =>
    constructor
    · rintro ⟨ds, h⟩
      cases h
    · rintro ⟨last, h⟩
      cases h
  | ok last => exact ⟨fun _ => ⟨last, rfl⟩, fun _ => ⟨_, rfl⟩⟩

/-- Tokens that no sentence starts with have a first one that is not allowed. -/
theorem viable_or_exists_first (ts : List Token) :
    Viable ts ∨ ∃ pre t post, ts = pre ++ t :: post ∧ Viable pre ∧ ¬Viable (pre ++ [t]) := by
  cases h : derivations ts with
  | ok ds => exact .inl (exists_derivations_iff.mp ⟨ds, h⟩)
  | error t =>
    obtain ⟨pre, post, he, hpre, hno⟩ := derivations_error_iff.mp h
    exact .inr ⟨pre, t, post, he, hpre, hno⟩

theorem derivationOf_of_error {reading : Reading} (h : derivations reading.tokens = .error t) :
    derivationOf reading = .error (.unexpectedToken t.span.first) := by
  rw [derivationOf, h]

theorem derivationOf_of_stop {reading : Reading} {place : Text.Position}
    (hv : Viable reading.tokens) (hs : reading.stop? = some place) :
    derivationOf reading = .error (.unexpectedCharacter place) := by
  obtain ⟨ds, hd⟩ := exists_derivations_iff.mpr hv
  rw [derivationOf, hd, hs]

theorem derivationOf_of_no_sentence {reading : Reading} (hv : Viable reading.tokens)
    (hs : reading.stop? = none) (hno : ∀ d, ¬Sentence reading.tokens d) :
    derivationOf reading = .error .unexpectedEnd := by
  obtain ⟨ds, hd⟩ := exists_derivations_iff.mpr hv
  have hnil : ds = [] :=
    List.eq_nil_iff_forall_not_mem.mpr fun d hm => hno d ((mem_derivations_iff hd).mp hm)
  rw [derivationOf, hd, hs, hnil]

theorem lexeme?_drop_readTo (cs : List Char) :
    lexeme? ((maskChars cs).drop (readTo cs)) = none := by
  have hdrop : (maskChars cs).drop (readTo cs) = (lexemes (maskChars cs)).2 := by
    conv_lhs => rw [← lexemes_text (maskChars cs)]
    exact List.drop_left
  rw [hdrop]
  exact lexeme?_unread _

theorem readTo_lt {cs : List Char} (h : (readTokens (maskChars cs)).stop? ≠ none) :
    readTo cs < cs.length := by
  have hne : (lexemes (maskChars cs)).2 ≠ [] := by
    intro hn
    rw [stop?_eq_readTo, if_pos hn] at h
    exact h rfl
  have hl := congrArg List.length (lexemes_text (maskChars cs))
  have hm := (masks_maskChars cs).length_eq
  have hp := List.length_pos_iff.mpr hne
  rw [List.length_append] at hl
  rw [readTo]
  omega

end Source

open Source

/-- A refusal that tells an offset of a text. -/
def SyntaxRefusal.atOffset (what : String) (cs : List Char) (offset : Nat) : SyntaxRefusal :=
  ⟨what, some (Text.lineAt cs offset), some (Text.columnAt cs offset)⟩

theorem parseGrammar_of_refusal {text : String} {r : Refusal}
    (h : derivationOf (readTokens (maskChars text.toList)) = .error r) :
    (parseGrammar text).result = .error (.refused (.ofRefusal r)) := by
  have hp : parse text = .error r := by
    rw [parse, derive, h]
    rfl
  rw [parseGrammar, hp]
  rfl

theorem parseGrammar_refuses_token {text : String} {pre post : List Token} {t : Token}
    (he : (readTokens (maskChars text.toList)).tokens = pre ++ t :: post) (hpre : Viable pre)
    (hno : ¬Viable (pre ++ [t])) :
    ∃ s ∈ lexed text.toList, tokenIn text.toList s = some t ∧
      (parseGrammar text).result =
        .error (.refused (.atOffset "UnexpectedToken" text.toList s.first)) := by
  have ht : t ∈ (readTokens (maskChars text.toList)).tokens := by
    rw [he]
    simp
  obtain ⟨s, hs, hst⟩ := exists_lexed_of_mem_tokens ht
  have herror := derivations_error_iff.mpr ⟨pre, post, he, hpre, hno⟩
  refine ⟨s, hs, hst, (parseGrammar_of_refusal (derivationOf_of_error herror)).trans ?_⟩
  obtain ⟨kind, -, rfl⟩ := Option.map_eq_some_iff.mp hst
  rfl

theorem parseGrammar_refuses_character {text : String}
    (hv : Viable (readTokens (maskChars text.toList)).tokens)
    (hstop : (readTokens (maskChars text.toList)).stop? ≠ none) :
    (parseGrammar text).result =
      .error (.refused (.atOffset "UnexpectedCharacters" text.toList (readTo text.toList))) := by
  have hs := stop?_eq_readTo text.toList
  split at hs
  next => exact absurd hs hstop
  next => exact parseGrammar_of_refusal (derivationOf_of_stop hv hs)

/-- A refusal tells the first place where the text stops being grammar source: the first token that
no sentence has after the ones before it, or else the first character where no lexeme stands, or
else the end. What is a sentence is not refused. -/
theorem parseGrammar_refuses_first (text : String) :
    let cs := text.toList
    let reading := readTokens (maskChars cs)
    (Viable reading.tokens ∨ ∃ pre t post, reading.tokens = pre ++ t :: post ∧ Viable pre ∧
      ¬Viable (pre ++ [t])) ∧
    (∀ pre t post, reading.tokens = pre ++ t :: post → Viable pre → ¬Viable (pre ++ [t]) →
      ∃ s ∈ lexed cs, tokenIn cs s = some t ∧
        (parseGrammar text).result =
          .error (.refused (.atOffset "UnexpectedToken" cs s.first))) ∧
    (Viable reading.tokens → reading.stop? ≠ none →
      readTo cs < cs.length ∧ lexeme? ((maskChars cs).drop (readTo cs)) = none ∧
        (parseGrammar text).result =
          .error (.refused (.atOffset "UnexpectedCharacters" cs (readTo cs)))) ∧
    (Viable reading.tokens → reading.stop? = none → (∀ d, ¬Sentence reading.tokens d) →
      (parseGrammar text).result = .error (.refused ⟨"UnexpectedEOF", none, none⟩)) ∧
    (reading.stop? = none → ∀ d, Sentence reading.tokens d →
      ∃ tree, (parseGrammar text).result = .ok tree) := by
  intro cs reading
  refine ⟨viable_or_exists_first _, ?_, ?_, ?_, ?_⟩
  · intro pre t post he hpre hno
    exact parseGrammar_refuses_token he hpre hno
  · intro hv hstop
    exact ⟨readTo_lt hstop, lexeme?_drop_readTo cs, parseGrammar_refuses_character hv hstop⟩
  · intro hv hstop hno
    exact parseGrammar_of_refusal (derivationOf_of_no_sentence hv hstop hno)
  · intro hstop d hd
    obtain ⟨d', h⟩ := exists_derivationOf hstop hd
    exact ⟨_, parseGrammar_result_ok_iff.mpr (parse_eq_ok_iff.mpr ⟨d', h, rfl⟩)⟩

end GrammarDoc
