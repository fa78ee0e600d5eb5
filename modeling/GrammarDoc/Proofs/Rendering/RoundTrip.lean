import GrammarDoc.Proofs.Element.Equality
import GrammarDoc.Proofs.Rendering.ReadBack

namespace GrammarDoc

open Parsing (Form)
open Source
open Source.SyntaxTree
open Node (ofSyntaxTree ofSyntaxTrees visitAll)

namespace Ebnf

/-- A rule as grammar source. -/
def sourceRule (r : Rule) : Except NotAnElement String := do
  return r.left ++ " : " ++ (← element r.right) ++ " ;\n"

/-- Rules as the source of a grammar. -/
def source (rules : List Rule) : Except NotAnElement String := do
  return "grammar G;\n" ++ String.join (← rules.mapM sourceRule)

/-- A rule that can be written so that it reads the same. -/
def WellFormed (r : Rule) : Prop :=
  IsRuleName r.left ∧ r.right.WellFormed

def ruleChars (r : Rule) : List Char :=
  r.left.toList ++ ([' ', ':', ' '] ++ (Element.chars false r.right ++ [' ', ';', '\n']))

def ruleWords (r : Rule) : List Word :=
  [(.ruleName, r.left)] ++ ([(.colon, ":")] ++ (Element.words false r.right ++ [(.semicolon, ";")]))

variable {r : Rule} {rules : List Rule} {rest : List Char}

theorem mapM_eq_pure {α β : Type} {m : Type → Type} [Monad m] [LawfulMonad m] {f : α → m β}
    {g : α → β} {xs : List α} (h : ∀ x ∈ xs, f x = pure (g x)) :
    xs.mapM f = pure (xs.map g) := by
  induction xs with
  | nil => rfl
  | cons x xs ih =>
    rw [List.mapM_cons, h x List.mem_cons_self, ih fun y hy => h y (List.mem_cons_of_mem _ hy)]
    simp

theorem sourceRule_ok (h : WellFormed r) : sourceRule r = .ok (String.ofList (ruleChars r)) := by
  have hs : r.left ++ " : " ++ String.ofList (Element.chars false r.right) ++ " ;\n" =
      String.ofList (ruleChars r) := by
    apply String.toList_inj.mp
    simp [ruleChars]
  rw [sourceRule, element, Element.write_ok h.2, ← hs]
  rfl

theorem source_ok (h : ∀ r ∈ rules, WellFormed r) :
    source rules = .ok (String.ofList ("grammar G;\n".toList ++ rules.flatMap ruleChars)) := by
  have hm := mapM_eq_pure fun r hr => sourceRule_ok (h r hr)
  have hs : "grammar G;\n" ++ String.join (rules.map fun r => String.ofList (ruleChars r)) =
      String.ofList ("grammar G;\n".toList ++ rules.flatMap ruleChars) := by
    apply String.toList_inj.mp
    simp [String.toList_join, List.flatMap, Function.comp_def]
  rw [source, hm, ← hs]
  rfl

theorem untouched_ruleChars (h : WellFormed r) : Untouched (ruleChars r) :=
  untouched_append (untouched_name (fun _ => isNameChar_of_isSmall) h.1.1)
    (untouched_append (untouched_of_forall (by simp))
      (untouched_append (Element.untouched_chars h.2 false) (untouched_of_forall (by simp))))

theorem untouched_flatMap (h : ∀ r ∈ rules, WellFormed r) :
    Untouched (rules.flatMap ruleChars) := by
  induction rules with
  | nil => exact fun _ => rfl
  | cons r rules ih =>
    exact untouched_append (untouched_ruleChars (h r List.mem_cons_self))
      (ih fun q hq => h q (List.mem_cons_of_mem _ hq))

theorem isSpace_of_flatMap (h : ∀ r ∈ rules, WellFormed r) :
    ∀ d, (rules.flatMap ruleChars).head? = some d → isSpace d = false := by
  cases rules with
  | nil =>
    intro d hd
    cases hd
  | cons r rules =>
    have hn := (h r List.mem_cons_self).1
    have ho := Element.opens_name (fun _ => isNameChar_of_isSmall) hn.1
    exact Element.isSpace_of_opens (Element.opens_append (Element.opens_append ho))

theorem spells_ruleChars (h : WellFormed r)
    (hr : ∀ d, rest.head? = some d → isSpace d = false) :
    Spells (ruleChars r ++ rest) (ruleWords r) rest := by
  have hend : Element.Opens (';' :: '\n' :: rest) := ⟨';', _, rfl, rfl, by decide⟩
  have hlast : Spells (' ' :: ';' :: '\n' :: rest) [(.semicolon, ";")] rest :=
    .blank (lexeme?_space rfl (Element.isSpace_of_opens hend))
      (.word (lexeme?_mark rfl rfl fun _ _ => rfl) (.blank (lexeme?_space rfl hr) .done))
  have hbody := spells_append (Element.spelled_chars h.2 false _ (Element.fits_space hend)) hlast
  have hopens : Element.Opens
      (Element.chars false r.right ++ ' ' :: ';' :: '\n' :: rest) :=
    Element.opens_append (Element.opens_chars h.2 false)
  have hcolon : Element.Opens (':' :: ' ' ::
      (Element.chars false r.right ++ ' ' :: ';' :: '\n' :: rest)) :=
    ⟨':', _, rfl, rfl, by decide⟩
  have hafter : Spells (' ' :: ':' :: ' ' ::
      (Element.chars false r.right ++ ' ' :: ';' :: '\n' :: rest))
      [(.colon, ":")] (Element.chars false r.right ++ ' ' :: ';' :: '\n' :: rest) := by
    refine .blank (lexeme?_space rfl (Element.isSpace_of_opens hcolon)) ?_
    refine .word (lexeme?_mark rfl rfl ?_) ?_
    · rintro d ⟨⟩
      rfl
    · exact .blank (lexeme?_space rfl (Element.isSpace_of_opens hopens)) .done
  have hname := Element.spelled_ruleName h.1 _ (Element.fits_space hcolon)
  have hall := spells_append hname (spells_append hafter hbody)
  simpa [ruleChars, ruleWords] using hall

theorem spells_flatMap (h : ∀ r ∈ rules, WellFormed r) :
    Spells (rules.flatMap ruleChars) (rules.flatMap ruleWords) [] := by
  induction rules with
  | nil => exact .done
  | cons r rules ih =>
    have hlater : ∀ q ∈ rules, WellFormed q := fun q hq => h q (List.mem_cons_of_mem _ hq)
    exact spells_append
      (spells_ruleChars (h r List.mem_cons_self) (isSpace_of_flatMap hlater)) (ih hlater)

theorem spells_source (h : ∀ r ∈ rules, WellFormed r) :
    Spells ("grammar G;\n".toList ++ rules.flatMap ruleChars)
      (headerWords ++ rules.flatMap ruleWords) [] := by
  have hname : Element.Opens ('G' :: ';' :: '\n' :: rules.flatMap ruleChars) :=
    ⟨'G', _, rfl, rfl, by decide⟩
  have hfits := Element.fits_space hname
  have hkind : wordKind "grammar" (' ' :: 'G' :: ';' :: '\n' :: rules.flatMap ruleChars) =
      .grammar := by
    unfold wordKind
    rw [if_neg hfits.noBrace]
    rfl
  have hword : lexeme? ("grammar".toList ++ ' ' :: 'G' :: ';' :: '\n' ::
      rules.flatMap ruleChars) = _ :=
    lexeme?_word ⟨'g', _, rfl, rfl, List.all_eq_true.mp rfl⟩ hfits.noName
  rw [String.ofList_toList, hkind] at hword
  have hsemicolon : Element.Fits (';' :: '\n' :: rules.flatMap ruleChars) :=
    Element.fits_mark rfl rfl (by decide) (by decide)
  refine spells_append ?_ (spells_flatMap h)
  refine .word hword (.blank (lexeme?_space rfl (Element.isSpace_of_opens hname)) ?_)
  have hG : IsName isCapital ['G'] := ⟨'G', [], rfl, by decide, by simp⟩
  refine .word (lexeme?_tokenName hG hsemicolon.noName) ?_
  refine .word (lexeme?_mark rfl rfl fun _ _ => rfl) ?_
  exact .blank (lexeme?_space rfl (isSpace_of_flatMap h)) .done

/-- A written rule is a parser rule that is read back. -/
theorem exists_ruleSpec (h : WellFormed r) (hs : r.right.singlySuffixed) {ts : List Token}
    (hts : ts.map Token.word = ruleWords r) :
    ∃ tree t, Instantiates (.rule .ruleSpec) [tree] ts ∧ tree.parserRules = [t] ∧
      (ofSyntaxTree t).ruleOf = .ok r := by
  obtain ⟨us, vs, rfl, hus, hvs⟩ := List.map_eq_append_iff.mp hts
  obtain ⟨u, rfl, hu, hl⟩ := exists_token hus
  have hbody : Yields (.inOrder [.hidden .colon, .rule .ruleBlock, .hidden .semicolon,
      .many (.rule .exceptionHandler), .optional (.rule .finallyClause)])
      ([(.colon, ":")] ++ (Element.words false r.right ++ ([(.semicolon, ";")] ++ ([] ++ []))))
      ([] ++ ([r.right] ++ ([] ++ ([] ++ [])))) :=
    yields_seq yields_hidden (yields_seq (yields_ruleBlock h.2 hs)
      (yields_seq yields_hidden (yields_seq yields_manyNil (yields_altRight yields_empty))))
  have hrest : Yields (.inOrder [.optional (.shown .bracketBlock), .optional (.rule .ruleReturns),
      .optional (.rule .throwsSpec), .optional (.rule .localsSpec), .many (.rule .rulePrequel),
      .hidden .colon, .rule .ruleBlock, .hidden .semicolon, .many (.rule .exceptionHandler),
      .optional (.rule .finallyClause)]) _ _ :=
    yields_skip (yields_skip (yields_skip (yields_skip (yields_skipMany hbody))))
  obtain ⟨trees, hi, hv⟩ := hrest vs hvs
  have hf : Instantiates Construct.parserRuleSpec.form ([.token u] ++ trees) ([u] ++ vs) :=
    .seq (instantiates_token hu) hi
  refine ⟨_, _, .node rfl (.altLeft (.node rfl hf)), rfl, ?_⟩
  have hvisit : (ofSyntaxTree (.node .parserRuleSpec (Token.spanOf ([u] ++ vs))
      ([.token u] ++ trees))).visit = .ok [r.right] := by
    rw [Node.visit_plain (by decide), Node.ofSyntaxTrees_append]
    exact (Node.visitAll_empty_append rfl).trans hv
  rw [Node.ruleOf, hvisit]
  obtain ⟨k, text, span⟩ := u
  cases hu
  cases hl
  rfl

/-- The written rules are the parser rules that are read back. -/
theorem exists_rules (h : ∀ r ∈ rules, WellFormed r)
    (hs : ∀ r ∈ rules, r.right.singlySuffixed) {ts : List Token}
    (hts : ts.map Token.word = rules.flatMap ruleWords) :
    ∃ trees, Instantiates (.many (.rule .ruleSpec)) trees ts ∧
      ((parserRulesOfAll trees).map ofSyntaxTree).mapM Node.ruleOf = .ok rules := by
  induction rules generalizing ts with
  | nil =>
    cases List.map_eq_nil_iff.mp hts
    exact ⟨[], .manyNil, rfl⟩
  | cons r rules ih =>
    obtain ⟨us, vs, rfl, hus, hvs⟩ := List.map_eq_append_iff.mp hts
    obtain ⟨tree, t, hi, ht, hr⟩ :=
      exists_ruleSpec (h r List.mem_cons_self) (hs r List.mem_cons_self) hus
    obtain ⟨trees, him, hm⟩ := ih (fun q hq => h q (List.mem_cons_of_mem _ hq))
      (fun q hq => hs q (List.mem_cons_of_mem _ hq)) hvs
    refine ⟨[tree] ++ trees, .manyCons hi him, ?_⟩
    rw [parserRulesOfAll_append, parserRulesOfAll_singleton, ht, List.singleton_append,
      List.map_cons, List.mapM_cons, hr, hm]
    rfl

theorem exists_grammarSpec (h : ∀ r ∈ rules, WellFormed r)
    (hs : ∀ r ∈ rules, r.right.singlySuffixed) {ts : List Token}
    (hts : ts.map Token.word = headerWords ++ rules.flatMap ruleWords) :
    ∃ tree, Instantiates (.rule .grammarSpec) [tree] ts ∧
      (tree.parserRules.map ofSyntaxTree).mapM Node.ruleOf = .ok rules := by
  obtain ⟨us, vs, rfl, hus, hvs⟩ := List.map_eq_append_iff.mp hts
  obtain ⟨trees, hi, hm⟩ := exists_rules h hs hvs
  have hkind : Yields (.rule .grammarType) [(.grammar, "grammar")] [] :=
    yields_plain rfl (by decide) (yields_skip yields_shown)
  have hname : Yields (.rule .identifier) [(.tokenName, "G")] [] :=
    yields_plain rfl (by decide) (yields_altRight yields_shown)
  have hdecl : Yields (.rule .grammarDecl)
      ([(.grammar, "grammar")] ++ ([(.tokenName, "G")] ++ [(.semicolon, ";")])) [] :=
    yields_plain rfl (by decide) (yields_seq hkind (yields_seq hname yields_hidden))
  obtain ⟨decl, hd, -⟩ := hdecl us hus
  obtain ⟨hn, -⟩ := no_rules_of_instantiates hd (by decide)
  have hf : Instantiates Construct.grammarSpec.form
      (decl ++ ([] ++ ([.node .rules (Token.spanOf vs) trees] ++ []))) (us ++ ([] ++ (vs ++ []))) :=
    .seq hd (.seq .manyNil (.seq (.node rfl hi) .manyNil))
  simp only [List.nil_append, List.append_nil] at hf
  refine ⟨_, .node rfl hf, ?_⟩
  have hp : (SyntaxTree.node .grammarSpec (Token.spanOf (us ++ vs))
      (decl ++ [.node .rules (Token.spanOf vs) trees])).parserRules = parserRulesOfAll trees := by
    rw [parserRules, if_neg (by decide), parserRulesOfAll_append, hn, List.nil_append,
      parserRulesOfAll_singleton, parserRules, if_neg (by decide)]
  rw [hp, hm]

/-- Well-formed rules without stacked suffixes are read back from their source. -/
theorem parseRules_source (h : ∀ r ∈ rules, WellFormed r)
    (hs : ∀ r ∈ rules, r.right.singlySuffixed) :
    ∃ text, source rules = .ok text ∧ (parseRules text).result = .ok rules := by
  refine ⟨_, source_ok h, ?_⟩
  have hu : maskChars ("grammar G;\n".toList ++ rules.flatMap ruleChars) =
      "grammar G;\n".toList ++ rules.flatMap ruleChars :=
    maskChars_of_untouched (untouched_append (untouched_of_forall (by simp)) (untouched_flatMap h))
  obtain ⟨hstop, hwords⟩ := readFrom_of_spells (spells_source h) .start
  obtain ⟨tree, hi, hm⟩ := exists_grammarSpec h hs hwords
  refine parseRules_ok_iff.mpr ⟨tree, parseGrammar_of_instance ?_ ?_, hm⟩
  · rw [String.toList_ofList, hu]
    exact hstop
  · rw [String.toList_ofList, hu]
    exact hi

end Ebnf

theorem isRuleName_of_mem_tokens {cs : List Char} {t : Token} (h : t ∈ (readTokens cs).tokens)
    (hk : t.kind = .ruleName) : IsRuleName t.text := by
  obtain ⟨before, after, -, hl, -⟩ := exists_lexeme_of_mem_tokens h
  rw [hk] at hl
  obtain ⟨hn, hw⟩ := ruleName_of_lexeme? hl
  rw [String.ofList_toList] at hw
  exact ⟨hn, (wordKind_eq_ruleName_iff.mp hw).1⟩

/-- What is built from tokens can be written. -/
theorem wellFormed_of_builtFrom {cs : List Char} {e : Element}
    (h : e.BuiltFrom (readTokens cs).tokens) : e.WellFormed := by
  induction h with
  | @token t ht hk =>
    simp only [List.mem_cons, List.not_mem_nil, or_false] at hk
    rcases hk with hk | hk | hk
    · obtain ⟨_, _, -, hl, -⟩ := exists_lexeme_of_mem_tokens ht
      rw [hk] at hl
      rw [Token.element, if_neg (by simp [hk])]
      exact .tokenName (tokenName_of_lexeme? hl)
    · obtain ⟨body, hb, htext⟩ := exists_body_of_mem_tokens ht hk
      rw [Token.element, if_pos hk]
      refine .atom ?_
      simpa [Node.unquoted, htext] using hb
    · rw [Token.element, if_neg (by simp [hk])]
      exact .ruleName (isRuleName_of_mem_tokens ht hk)
  | opt _ ih => exact .opt ih
  | plus _ ih => exact .plus ih
  | star _ ih => exact .star ih
  | choice hl _ ih => exact .choice hl ih
  | seq hl _ ih => exact .seq hl ih

theorem wellFormed_of_parseRules {text : String} {rules : List Rule}
    (h : (parseRules text).result = .ok rules) : ∀ r ∈ rules, Ebnf.WellFormed r := by
  intro r hr
  obtain ⟨hb, t, ht, hk, hl⟩ := builtFrom_of_parseRules h r hr
  exact ⟨hl ▸ isRuleName_of_mem_tokens ht hk, wellFormed_of_builtFrom hb⟩

/-- Rules that were read from grammar source are read back from their own EBNF, unless a suffix
stands directly on another one. -/
theorem parseRules_reads_source_back {text : String} {rules : List Rule}
    (h : (parseRules text).result = .ok rules) (hs : ∀ r ∈ rules, r.right.singlySuffixed) :
    ∃ source, Ebnf.source rules = .ok source ∧ (parseRules source).result = .ok rules := by
  exact Ebnf.parseRules_source (wellFormed_of_parseRules h) hs

theorem parseRules_reads_source_back_quoted :
    let text := "grammar G;\noptions : ('\x7b' | '\\'' 'it // [')* (B c)? ;\nc : B+ ;\n"
    let rules := [Rule.mk "options" (.seq [.star (.choice [.atom "\x7b",
      .seq [.atom "\\'", .atom "it // ["]]), .opt (.seq [.ref "B", .ref "c"])]),
      Rule.mk "c" (.plus (.ref "B"))]
    ((parseRules text).result = .ok rules ∧ ∀ r ∈ rules, r.right.singlySuffixed) ∧
      ∃ source, Ebnf.source rules = .ok source ∧ (parseRules source).result = .ok rules := by
  intro text rules
  have h : (parseRules text).result = .ok rules := eq_of_isRules (by decide +kernel)
  have hs : ∀ r ∈ rules, r.right.singlySuffixed := by decide
  exact ⟨⟨h, hs⟩, parseRules_reads_source_back h hs⟩

end GrammarDoc
