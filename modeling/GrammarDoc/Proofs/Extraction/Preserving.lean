import GrammarDoc.Proofs.Element.Equality
import GrammarDoc.Proofs.Extraction.Declared
import GrammarDoc.Proofs.Extraction.Meaning
import GrammarDoc.Proofs.Source.Acceptance
import GrammarDoc.Proofs.Source.Lexemes

namespace GrammarDoc

open Source
open Source.SyntaxTree
open Node (ofSyntaxTree)

variable {text : String} {tree : SyntaxTree} {rules : List Rule}

theorem quoted_of_mem_tokens {cs : List Char} {t : Token} (h : t ∈ (readTokens cs).tokens)
    (hk : t.kind = .literal) : Quoted t := by
  obtain ⟨body, -, hb⟩ := exists_body_of_mem_tokens h hk
  exact ⟨body, hb⟩

variable {cs : List SyntaxTree} {ts : List Token} {span? : Option Text.Span} {r : Rule}

theorem reads_parserRuleSpec (h : Instantiates Construct.parserRuleSpec.form cs ts)
    (hq : ∀ t ∈ ts, t.kind = .literal → Quoted t) :
    Reads (.node .parserRuleSpec span? cs) := by
  have hn : ∀ c ∈ Construct.parserRuleSpec.form.names, c.isReadable := by decide
  exact reads_node (by decide) h hq fun _ => reads_of_instantiates h hn hq

/-- There is exactly one element in a parser rule, so none is dropped. -/
theorem visit_of_ruleOf (h : Instantiates Construct.parserRuleSpec.form cs ts)
    (hq : ∀ t ∈ ts, t.kind = .literal → Quoted t)
    (hr : (ofSyntaxTree (.node .parserRuleSpec span? cs)).ruleOf = .ok r) :
    (ofSyntaxTree (.node .parserRuleSpec span? cs)).visit = .ok [r.right] := by
  obtain ⟨_, _, es, -, -, -, -, hv⟩ := exists_name_of_ruleOf h hr
  have hc := (reads_parserRuleSpec h hq).count 1 _ _ _ _ rfl rfl hv
  obtain rfl : es = [] := by simpa using hc
  exact hv

/-- A rule that is read has the name and the words of its parser rule. -/
theorem ruleOf_ok (h : Instantiates Construct.parserRuleSpec.form cs ts)
    (hq : ∀ t ∈ ts, t.kind = .literal → Quoted t)
    (hr : (ofSyntaxTree (.node .parserRuleSpec span? cs)).ruleOf = .ok r) :
    r.left = (SyntaxTree.node .parserRuleSpec span? cs).ruleName ∧
      r.right.language = (SyntaxTree.node .parserRuleSpec span? cs).language := by
  have hproduct := (reads_parserRuleSpec h hq).product _ (visit_of_ruleOf h hq hr)
  obtain ⟨_, _, _, rfl, -, -, hl, -⟩ := exists_name_of_ruleOf h hr
  exact ⟨hl, by simpa using hproduct⟩

/-- The extracted rules are the parser rules of the tree: each has the name and the words of its
own, in the order of the source. -/
theorem parseRules_preserves_languages (h : (parseRules text).result = .ok rules) :
    ∃ tree, (parseGrammar text).result = .ok tree ∧
      rules.map (fun r => (r.left, r.right.language)) =
        tree.parserRules.map fun t => (t.ruleName, t.language) := by
  obtain ⟨tree, ht, hm⟩ := parseRules_ok_iff.mp h
  refine ⟨tree, ht, ?_⟩
  obtain ⟨cs, rfl, hi⟩ := exists_instance_of_parseGrammar ht
  have hi : Instantiates (.rule .grammarSpec) [_] _ := .node rfl hi
  rw [List.mapM_map] at hm
  refine map_eq_of_mapM hm fun t ht r hr => ?_
  rw [← parserRulesOfAll_singleton] at ht
  obtain ⟨cs, us, rfl, hi, hu⟩ := exists_instance_of_mem_parserRules hi t ht
  obtain ⟨hl, hl'⟩ := ruleOf_ok hi (fun u hm => quoted_of_mem_tokens (hu u hm)) hr
  rw [hl, hl']

theorem parseRules_preserves_languages_labeled :
    let text := "grammar G;\na[int n] : x=('b' | C<assoc=right>)* \x7bact\x7d? d+? # One | e ;\n"
    let rules := [Rule.mk "a" (.choice [.seq [.star (.choice [.atom "b", .ref "C"]),
      .plus (.ref "d")], .ref "e"])]
    (parseRules text).result = .ok rules ∧
      ∃ tree, (parseGrammar text).result = .ok tree ∧
        rules.map (fun r => (r.left, r.right.language)) =
          tree.parserRules.map fun t => (t.ruleName, t.language) := by
  intro text rules
  have h : (parseRules text).result = .ok rules := eq_of_isRules (by decide +kernel)
  exact ⟨h, parseRules_preserves_languages h⟩

end GrammarDoc
