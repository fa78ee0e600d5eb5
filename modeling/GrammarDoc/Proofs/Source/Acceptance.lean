import GrammarDoc.Conversion
import GrammarDoc.Proofs.Source.Layering
import GrammarDoc.Proofs.Source.Trees

namespace GrammarDoc

namespace Source

open Parsing

variable {ts : List Token} {d : Derivation}

/-- A list of tokens is a sentence of the grammar, with a derivation for it. -/
abbrev Sentence (ts : List Token) (d : Derivation) : Prop :=
  Parsing.Derivation.Derives Token.kind grammar.form grammar.start ts d

/-- The parser finds all derivations of a list of tokens and no other trees. -/
theorem mem_derivations_iff {ds : List Derivation} (h : derivations ts = .ok ds) :
    d ∈ ds ↔ Sentence ts d := by
  unfold derivations at h
  cases hr : grammar.run Token.kind grammar.initial ts with
  | error token =>
    rw [hr] at h
    cases h
  | ok last =>
    rw [hr] at h
    cases h
    exact grammar_layered.mem_finish_run_iff hr

theorem not_sentence_of_derivations_error {token : Token} (h : derivations ts = .error token) :
    ¬Sentence ts d := by
  unfold derivations at h
  cases hr : grammar.run Token.kind grammar.initial ts with
  | error t =>
    obtain ⟨pre, post, -, rfl, -, hno⟩ := grammar_layered.not_derives_of_run_error hr
    exact hno post d
  | ok last =>
    rw [hr] at h
    cases h

/-- A reading has the derivation that is found for it only if nothing stopped it. -/
theorem derivationOf_ok {reading : Reading} (h : derivationOf reading = .ok d) :
    reading.stop? = none ∧ Sentence reading.tokens d := by
  unfold derivationOf at h
  split at h
  next => cases h
  next ds hds =>
    split at h
    next => cases h
    next => cases h
    next d' ds' hs =>
      cases h
      exact ⟨hs, (mem_derivations_iff hds).mp (by simp)⟩

theorem exists_derivationOf {reading : Reading} (hs : reading.stop? = none)
    (h : Sentence reading.tokens d) : ∃ d', derivationOf reading = .ok d' := by
  unfold derivationOf
  split
  next token ht => exact absurd h (not_sentence_of_derivations_error ht)
  next ds hds =>
    have hd := (mem_derivations_iff hds).mpr h
    cases ds with
    | nil => simp at hd
    | cons d' ds => exact ⟨d', by rw [hs]⟩

theorem parse_eq_ok_iff {text : String} {tree : SyntaxTree} :
    parse text = .ok tree ↔ ∃ d, derive text = .ok d ∧ SyntaxTree.ofDerivation d = tree := by
  unfold parse
  cases derive text with
  | error e =>
    constructor
    · intro h
      cases h
    · rintro ⟨d, h, -⟩
      cases h
  | ok d =>
    constructor
    · intro h
      cases h
      exact ⟨d, rfl, rfl⟩
    · rintro ⟨_, h, rfl⟩
      cases h
      rfl

theorem instantiates_ofDerivation (h : Sentence ts d) :
    SyntaxTree.Instantiates (.rule .grammarSpec) [SyntaxTree.ofDerivation d] ts := by
  have hm := derives_iff_matches.mp h
  obtain ⟨⟨ds, rfl⟩, -⟩ := h
  exact .of_matches hm

theorem leaves_ofDerivation (h : Sentence ts d) :
    (SyntaxTree.ofDerivation d).leaves = d.shownTokens := by
  obtain ⟨⟨ds, rfl⟩, -⟩ := h
  exact SyntaxTree.leavesOfAll_shownOfAll ds

end Source

open Source Parsing

theorem parseGrammar_result_ok_iff {text : String} {tree : SyntaxTree} :
    (parseGrammar text).result = .ok tree ↔ parse text = .ok tree := by
  unfold parseGrammar
  split
  next e he => simp [Logged.fail, he]
  next t ht => simp [Logged.note, bind, Logged.andThen, pure, ht]

/-- Grammar source is accepted exactly if it can be read to its end and its tokens are a sentence of
the grammar. The tree is then a derivation of just these tokens without those that are left out. -/
theorem parseGrammar_accepts_sentences (text : String) :
    let reading := readTokens (maskChars text.toList)
    ((∃ tree, (parseGrammar text).result = .ok tree) ↔
      reading.stop? = none ∧ ∃ d, Sentence reading.tokens d) ∧
    ∀ tree, (parseGrammar text).result = .ok tree → ∃ d, Sentence reading.tokens d ∧
      tree = SyntaxTree.ofDerivation d ∧ tree.leaves = d.shownTokens ∧
      SyntaxTree.Instantiates (.rule .grammarSpec) [tree] reading.tokens := by
  intro reading
  refine ⟨⟨?_, ?_⟩, ?_⟩
  · rintro ⟨tree, h⟩
    obtain ⟨d, hd, -⟩ := parse_eq_ok_iff.mp (parseGrammar_result_ok_iff.mp h)
    obtain ⟨hs, hd⟩ := derivationOf_ok hd
    exact ⟨hs, d, hd⟩
  · rintro ⟨hs, d, hd⟩
    obtain ⟨d', h⟩ := exists_derivationOf hs hd
    exact ⟨_, parseGrammar_result_ok_iff.mpr (parse_eq_ok_iff.mpr ⟨d', h, rfl⟩)⟩
  · intro tree h
    obtain ⟨d, hd, rfl⟩ := parse_eq_ok_iff.mp (parseGrammar_result_ok_iff.mp h)
    obtain ⟨-, hd⟩ := derivationOf_ok hd
    exact ⟨d, hd, rfl, leaves_ofDerivation hd, instantiates_ofDerivation hd⟩

end GrammarDoc
