import GrammarDoc.Proofs.Extraction.Declared

namespace GrammarDoc

open Parsing (Form)
open Source
open Source.SyntaxTree

variable {trees : List SyntaxTree} {ts us : List Token}

/-- What a grammar consists of: its declaration, what stands before its rules, its rules, and its
modes, each with the tokens it covers. -/
structure GrammarParts (decl prequels rules modes : List SyntaxTree) (us vs rs ms : List Token) :
    Prop where
  decl : Instantiates Construct.grammarDecl.form decl us
  prequels : Instantiates (.many (.rule .prequelConstruct)) prequels vs
  rules : Instantiates Construct.rules.form rules rs
  modes : Instantiates (.many (.rule .modeSpec)) modes ms

theorem instantiates_grammarSpec_iff : Instantiates Construct.grammarSpec.form trees ts ↔
    ∃ decl prequels rules modes us vs rs ms, GrammarParts decl prequels rules modes us vs rs ms ∧
      trees = [.node .grammarDecl (Token.spanOf us) decl] ++
        (prequels ++ ([.node .rules (Token.spanOf rs) rules] ++ modes)) ∧
      ts = us ++ (vs ++ (rs ++ ms)) := by
  constructor
  · intro h
    obtain ⟨_, _, us, _, rfl, rfl, h₁, h₂⟩ := instantiates_seq_iff.mp h
    obtain ⟨prequels, _, vs, _, rfl, rfl, h₃, h₄⟩ := instantiates_seq_iff.mp h₂
    obtain ⟨_, modes, rs, ms, rfl, rfl, h₅, h₆⟩ := instantiates_seq_iff.mp h₄
    obtain ⟨decl, rfl, h₇⟩ := (instantiates_node_iff rfl).mp h₁
    obtain ⟨rules, rfl, h₈⟩ := (instantiates_node_iff rfl).mp h₅
    exact ⟨decl, prequels, rules, modes, us, vs, rs, ms, ⟨h₇, h₃, h₈, h₆⟩, rfl, rfl⟩
  · rintro ⟨decl, prequels, rules, modes, us, vs, rs, ms, h, rfl, rfl⟩
    exact .seq (.node rfl h.decl) (.seq h.prequels (.seq (.node rfl h.rules) h.modes))

variable {decl prequels rules modes : List SyntaxTree} {vs rs ms : List Token}

theorem GrammarParts.parserRules (h : GrammarParts decl prequels rules modes us vs rs ms)
    (span? span?' span?'' : Option Text.Span) :
    (SyntaxTree.node .grammarSpec span? ([.node .grammarDecl span?' decl] ++
      (prequels ++ ([.node .rules span?'' rules] ++ modes)))).parserRules =
        parserRulesOfAll rules := by
  obtain ⟨hd, -⟩ := no_rules_of_instantiates h.decl (by decide)
  obtain ⟨hp, -⟩ := no_rules_of_instantiates h.prequels (by decide)
  obtain ⟨hm, -⟩ := no_rules_of_instantiates h.modes (by decide)
  rw [SyntaxTree.parserRules, if_neg (by decide), parserRulesOfAll_append,
    parserRulesOfAll_append, parserRulesOfAll_append, hp, hm, parserRulesOfAll_singleton,
    parserRulesOfAll_singleton, SyntaxTree.parserRules, if_neg (by decide), hd,
    SyntaxTree.parserRules, if_neg (by decide), List.nil_append, List.nil_append, List.append_nil]

end GrammarDoc
