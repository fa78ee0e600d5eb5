import GrammarDoc.Proofs.Extraction.Decorations
import GrammarDoc.Proofs.Source.Deciding

namespace GrammarDoc

open Parsing (Form Matches)
open Source
open Source.SyntaxTree

variable {f : Form TokenKind Construct} {ds : List Derivation} {ts us : List Token}

theorem Source.Token.kind_eq_of_essence {t u : Token} (h : u.essence = t.essence) :
    u.kind = t.kind :=
  congrArg Prod.fst h

/-- What is left of a token depends on nothing but its essence. -/
theorem bareIn_token_congr {t u : Token} (h : u.essence = t.essence) (p : Construct) :
    bareIn p (.token u) = bareIn p (.token t) := by
  rw [bareIn, bareIn, h, Token.kind_eq_of_essence h]

theorem bareAllIn_shown_node {es : List Derivation} (c : Construct)
    (h : ∀ p, bareAllIn p (shownOfAll es) = bareAllIn p (shownOfAll ds)) (p : Construct) :
    bareAllIn p (shownOfAll [.node c es]) = bareAllIn p (shownOfAll [.node c ds]) := by
  have hs : ∀ ds : List Derivation, shownOfAll [.node c ds] =
      if c.isInlined then shownOfAll ds else [.node c (spanOfAll ds) (shownOfAll ds)] := by
    intro ds
    exact List.append_nil _
  rw [hs, hs]
  split
  · exact h p
  · rw [bareAllIn_singleton, bareAllIn_singleton, bareIn, bareIn, h c]

/-- Tokens with the same essence have the same derivations, up to what is left of these. -/
theorem exists_matches_of_essence (h : Matches Token.kind Construct.form f ds ts)
    (he : us.map Token.essence = ts.map Token.essence) :
    ∃ es, Matches Token.kind Construct.form f es us ∧
      ∀ p, bareAllIn p (shownOfAll es) = bareAllIn p (shownOfAll ds) := by
  induction h generalizing us with
  | empty =>
    cases List.map_eq_nil_iff.mp he
    exact ⟨[], .empty, fun _ => rfl⟩
  | shown t =>
    obtain ⟨u, rfl, hu⟩ := List.map_eq_singleton_iff.mp he
    rw [← Token.kind_eq_of_essence hu]
    exact ⟨_, .shown u, fun p => congrArg (· ++ []) (bareIn_token_congr hu p)⟩
  | hidden t =>
    obtain ⟨u, rfl, hu⟩ := List.map_eq_singleton_iff.mp he
    rw [← Token.kind_eq_of_essence hu]
    exact ⟨_, .hidden u, fun _ => rfl⟩
  | @rule c ds ts _ ih =>
    obtain ⟨es, hm, hb⟩ := ih he
    exact ⟨_, .rule hm, bareAllIn_shown_node c hb⟩
  | seq _ _ ihf ihg =>
    rw [List.map_append] at he
    obtain ⟨us₁, us₂, rfl, h₁, h₂⟩ := List.map_eq_append_iff.mp he
    obtain ⟨es, hf, hb⟩ := ihf h₁
    obtain ⟨es', hg, hb'⟩ := ihg h₂
    refine ⟨_, .seq hf hg, fun p => ?_⟩
    rw [shownOfAll_append, shownOfAll_append, bareAllIn_append, bareAllIn_append, hb, hb']
  | altLeft _ ih =>
    obtain ⟨es, hm, hb⟩ := ih he
    exact ⟨es, .altLeft hm, hb⟩
  | altRight _ ih =>
    obtain ⟨es, hm, hb⟩ := ih he
    exact ⟨es, .altRight hm, hb⟩
  | manyNil =>
    cases List.map_eq_nil_iff.mp he
    exact ⟨[], .manyNil, fun _ => rfl⟩
  | manyCons _ _ ihf ihm =>
    rw [List.map_append] at he
    obtain ⟨us₁, us₂, rfl, h₁, h₂⟩ := List.map_eq_append_iff.mp he
    obtain ⟨es, hf, hb⟩ := ihf h₁
    obtain ⟨es', hm, hb'⟩ := ihm h₂
    refine ⟨_, .manyCons hf hm, fun p => ?_⟩
    rw [shownOfAll_append, shownOfAll_append, bareAllIn_append, bareAllIn_append, hb, hb']

variable {text text' : String} {tree : SyntaxTree} {rules : List Rule}

/-- A text is accepted if its tokens have the essence of an instance of the grammar, and the bare
trees are the same. -/
theorem exists_tree_of_instance (h : Instantiates (.rule .grammarSpec) [tree] ts)
    (hs : (readTokens (maskChars text.toList)).stop? = none)
    (he : (readTokens (maskChars text.toList)).tokens.map Token.essence = ts.map Token.essence) :
    ∃ tree', (parseGrammar text).result = .ok tree' ∧ tree'.bare = tree.bare := by
  obtain ⟨ds, hmatches, hds⟩ := h.exists_matches
  obtain ⟨es, hm, hb⟩ := exists_matches_of_essence hmatches he
  obtain ⟨es, rfl, -⟩ := Parsing.matches_rule_iff.mp hm
  refine ⟨_, parseGrammar_of_instance hs (.of_matches hm), ?_⟩
  have hbare : bareAllIn .grammarSpec [ofDerivation (.node .grammarSpec es)] =
      bareAllIn .grammarSpec [tree] := hds ▸ hb .grammarSpec
  rwa [bareAllIn_singleton, bareAllIn_singleton] at hbare

theorem ok_of_mapError_eq {ε ε' α : Type} {x y : Except ε α} {u : ε → ε'} {a : α}
    (h : x.mapError u = y.mapError u) (hy : y = .ok a) : x = .ok a := by
  subst hy
  cases x with
  | ok b => exact congrArg Except.ok (Except.ok.inj h)
  | error => cases h

/-- A text gives the rules of an instance of the grammar if its tokens have the same essence. -/
theorem parseRules_of_instance (h : Instantiates (.rule .grammarSpec) [tree] ts)
    (hr : (tree.parserRules.map Node.ofSyntaxTree).mapM Node.ruleOf = .ok rules)
    (hs : (readTokens (maskChars text.toList)).stop? = none)
    (he : (readTokens (maskChars text.toList)).tokens.map Token.essence = ts.map Token.essence) :
    (parseRules text).result = .ok rules := by
  obtain ⟨tree', ht, hb⟩ := exists_tree_of_instance h hs he
  obtain ⟨cs, rfl, hi⟩ := exists_instance_of_parseGrammar ht
  exact parseRules_ok_iff.mpr
    ⟨_, ht, ok_of_mapError_eq (mapM_ruleOf_of_bare (.node rfl hi) h hb) hr⟩

/-- What is left of a word when its text is dropped unless extraction reads it. -/
def essenceOf (w : Word) : Word :=
  (w.1, if w.1 ∈ [.ruleName, .tokenName, .literal] then w.2 else "")

theorem map_essence (ts : List Token) :
    ts.map Token.essence = (ts.map Token.word).map essenceOf := by
  rw [List.map_map]
  rfl

/-- Grammar source gives the rules of any grammar source whose words have the same essence. -/
theorem parseRules_of_spells {ws ws' : List Word} (h : (parseRules text).result = .ok rules)
    (hs : Spells (maskChars text.toList) ws []) (hs' : Spells (maskChars text'.toList) ws' [])
    (he : ws'.map essenceOf = ws.map essenceOf) : (parseRules text').result = .ok rules := by
  obtain ⟨tree, ht, hr⟩ := parseRules_ok_iff.mp h
  obtain ⟨cs, rfl, hi⟩ := exists_instance_of_parseGrammar ht
  obtain ⟨-, hwords⟩ := readFrom_of_spells hs .start
  obtain ⟨hstop, hwords'⟩ := readFrom_of_spells hs' .start
  refine parseRules_of_instance (.node rfl hi) hr hstop ?_
  rw [map_essence, map_essence, readTokens, hwords', readTokens, hwords, he]

end GrammarDoc
