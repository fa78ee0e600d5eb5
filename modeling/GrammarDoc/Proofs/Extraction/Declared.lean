import GrammarDoc.Extraction.Rules
import GrammarDoc.Proofs.Extraction.Language
import GrammarDoc.Proofs.Extraction.Visiting
import GrammarDoc.Proofs.Source.Acceptance

namespace GrammarDoc

open Parsing (Form)
open Source
open Source.SyntaxTree
open Node (ofSyntaxTree ofSyntaxTrees)

theorem Logged.bind_result {ε α β : Type} (x : Logged ε α) (f : α → Logged ε β) :
    (x >>= f).result = x.result >>= fun a => (f a).result := by
  obtain ⟨log, result⟩ := x
  cases result <;> rfl

variable {c : Construct} {f : Form TokenKind Construct} {trees : List SyntaxTree}
variable {ts : List Token} {span? : Option Text.Span} {t : SyntaxTree}

/-- The constructs that parser rules may stand in. -/
def Source.Construct.holdsRules (c : Construct) : Bool :=
  c ∈ [.grammarSpec, .rules, .ruleSpec, .parserRuleSpec]

theorem parserRulesOfAll_append (ts us : List SyntaxTree) :
    parserRulesOfAll (ts ++ us) = parserRulesOfAll ts ++ parserRulesOfAll us := by
  induction ts with
  | nil => rfl
  | cons t ts ih => simp [parserRulesOfAll, ih]

theorem parserRulesOfAll_singleton (t : SyntaxTree) : parserRulesOfAll [t] = t.parserRules :=
  List.append_nil _

theorem holdsRules_of_mem_names {d : Construct} (hc : c.holdsRules = false)
    (hd : d ∈ c.form.names) : d.holdsRules = false := by
  have h : c.form.names.all fun d => !d.holdsRules := by
    cases c <;> first | decide | cases hc
  simpa using List.all_eq_true.mp h d hd

/-- A declaration that is no rule holds none, and is not taken for one. -/
theorem no_rules_of_instantiates (h : Instantiates f trees ts)
    (hf : ∀ c ∈ f.names, c.holdsRules = false) :
    parserRulesOfAll trees = [] ∧
      ∀ t ∈ trees, (ofSyntaxTree t).kind? ∉ [some .rules, some .parserRuleSpec] := by
  induction h with
  | empty => simp [parserRulesOfAll]
  | shown => simp [parserRulesOfAll, parserRules, ofSyntaxTree, Node.kind?]
  | hidden => simp [parserRulesOfAll]
  | @node c trees ts _ h ih =>
    have hc := hf c (List.mem_singleton_self c)
    have ih := ih fun d hd => holdsRules_of_mem_names hc hd
    constructor
    · rw [parserRulesOfAll_singleton, parserRules, if_neg, ih.1]
      rintro rfl
      cases hc
    · intro t ht
      cases List.mem_singleton.mp ht
      rw [Node.kind?_ofSyntaxTree]
      cases c <;> first | decide | cases hc
  | @inlined c _ _ _ _ ih =>
    have hc := hf c (List.mem_singleton_self c)
    exact ih fun d hd => holdsRules_of_mem_names hc hd
  | seq _ _ ihf ihg =>
    simp only [Form.names, List.mem_append] at hf
    have ihf := ihf fun d hd => hf d (.inl hd)
    have ihg := ihg fun d hd => hf d (.inr hd)
    refine ⟨by rw [parserRulesOfAll_append, ihf.1, ihg.1]; rfl, ?_⟩
    intro t ht
    rcases List.mem_append.mp ht with ht | ht
    · exact ihf.2 t ht
    · exact ihg.2 t ht
  | altLeft _ ih => exact ih fun d hd => hf d (List.mem_append_left _ hd)
  | altRight _ ih => exact ih fun d hd => hf d (List.mem_append_right _ hd)
  | manyNil => simp [parserRulesOfAll]
  | manyCons _ _ ihf ihm =>
    refine ⟨by rw [parserRulesOfAll_append, (ihf hf).1, (ihm hf).1]; rfl, ?_⟩
    intro t ht
    rcases List.mem_append.mp ht with ht | ht
    · exact (ihf hf).2 t ht
    · exact (ihm hf).2 t ht

/-- Each parser rule of a tree is an instance of its right-hand side over some of the tokens. -/
theorem exists_instance_of_mem_parserRules (h : Instantiates f trees ts) :
    ∀ t ∈ parserRulesOfAll trees, ∃ cs us, t = .node .parserRuleSpec (Token.spanOf us) cs ∧
      Instantiates Construct.parserRuleSpec.form cs us ∧ ∀ u ∈ us, u ∈ ts := by
  induction h with
  | empty => simp [parserRulesOfAll]
  | shown => simp [parserRulesOfAll, parserRules]
  | hidden => simp [parserRulesOfAll]
  | @node c trees ts _ h ih =>
    intro t ht
    rw [parserRulesOfAll_singleton, parserRules] at ht
    split at ht
    next hc =>
      cases List.mem_singleton.mp ht
      cases hc
      exact ⟨trees, ts, rfl, h, fun u hu => hu⟩
    next => exact ih t ht
  | inlined _ _ ih => exact ih
  | seq _ _ ihf ihg =>
    intro t ht
    rw [parserRulesOfAll_append] at ht
    rcases List.mem_append.mp ht with ht | ht
    · obtain ⟨cs, us, rfl, hi, hu⟩ := ihf t ht
      exact ⟨cs, us, rfl, hi, fun u hm => List.mem_append_left _ (hu u hm)⟩
    · obtain ⟨cs, us, rfl, hi, hu⟩ := ihg t ht
      exact ⟨cs, us, rfl, hi, fun u hm => List.mem_append_right _ (hu u hm)⟩
  | altLeft _ ih => exact ih
  | altRight _ ih => exact ih
  | manyNil => simp [parserRulesOfAll]
  | manyCons _ _ ihf ihm =>
    intro t ht
    rw [parserRulesOfAll_append] at ht
    rcases List.mem_append.mp ht with ht | ht
    · obtain ⟨cs, us, rfl, hi, hu⟩ := ihf t ht
      exact ⟨cs, us, rfl, hi, fun u hm => List.mem_append_left _ (hu u hm)⟩
    · obtain ⟨cs, us, rfl, hi, hu⟩ := ihm t ht
      exact ⟨cs, us, rfl, hi, fun u hm => List.mem_append_right _ (hu u hm)⟩

theorem rulesOf_result (ns : List Node) :
    (Node.rulesOf ns).result = (ns.filterMap (Node.child? .parserRuleSpec)).mapM Node.ruleOf := by
  induction ns with
  | nil => rfl
  | cons n ns ih =>
    rw [Node.rulesOf, List.filterMap_cons]
    cases n.child? .parserRuleSpec with
    | none => exact ih
    | some body =>
      simp only [Logged.bind_result, List.mapM_cons, ih]
      rfl

/-- Of a rule node extraction takes the parser rule, if there is one. -/
theorem child?_parserRuleSpec (span? : Option Text.Span)
    (h : Instantiates Construct.ruleSpec.form trees ts) :
    ((ofSyntaxTree (.node .ruleSpec span? trees)).child? .parserRuleSpec).toList =
      (parserRulesOfAll trees).map ofSyntaxTree := by
  rcases instantiates_alt_iff.mp h with h | h
  · obtain ⟨cs, rfl, -⟩ := (instantiates_node_iff rfl).mp h
    rfl
  · obtain ⟨hn, -⟩ := no_rules_of_instantiates h (by decide)
    rw [hn]
    obtain ⟨cs, rfl, -⟩ := (instantiates_node_iff rfl).mp h
    rfl

theorem filterMap_child?_parserRuleSpec
    (h : ∀ t ∈ trees, ∃ cs us, t = .node .ruleSpec (Token.spanOf us) cs ∧
      Instantiates Construct.ruleSpec.form cs us) :
    (ofSyntaxTrees trees).filterMap (Node.child? .parserRuleSpec) =
      (parserRulesOfAll trees).map ofSyntaxTree := by
  induction trees with
  | nil => rfl
  | cons t trees ih =>
    obtain ⟨cs, us, rfl, hi⟩ := h t List.mem_cons_self
    have ih := ih fun t ht => h t (List.mem_cons_of_mem _ ht)
    have hc := child?_parserRuleSpec (Token.spanOf us) hi
    rw [parserRulesOfAll, parserRules, if_neg (by decide), List.map_append, ← ih, ← hc,
      ofSyntaxTrees, List.filterMap_cons]
    cases (ofSyntaxTree (.node .ruleSpec (Token.spanOf us) cs)).child? .parserRuleSpec <;> rfl

theorem find?_rules_eq_none
    (h : ∀ t ∈ trees, (ofSyntaxTree t).kind? ∉ [some .rules, some .parserRuleSpec]) :
    (ofSyntaxTrees trees).find? (·.kind? == some .rules) = none := by
  rw [List.find?_eq_none, Node.ofSyntaxTrees_eq_map]
  intro n hn
  obtain ⟨t, ht, rfl⟩ := List.mem_map.mp hn
  have hk := h t ht
  simp only [List.mem_cons, not_or] at hk
  simp [hk.1]

theorem ruleSpecs_eq (span? : Option Text.Span)
    (h : Instantiates Construct.grammarSpec.form trees ts) :
    ∃ rules, (ofSyntaxTree (.node .grammarSpec span? trees)).ruleSpecs = ofSyntaxTrees rules ∧
      (SyntaxTree.node .grammarSpec span? trees).parserRules = parserRulesOfAll rules ∧
      ∀ t ∈ rules, ∃ cs us, t = .node .ruleSpec (Token.spanOf us) cs ∧
        Instantiates Construct.ruleSpec.form cs us := by
  obtain ⟨decl, _, _, _, rfl, -, h₁, h₂⟩ := instantiates_seq_iff.mp h
  obtain ⟨prequel, _, _, _, rfl, -, h₃, h₄⟩ := instantiates_seq_iff.mp h₂
  obtain ⟨_, modes, us, _, rfl, -, h₅, h₆⟩ := instantiates_seq_iff.mp h₄
  obtain ⟨rules, rfl, h₇⟩ := (instantiates_node_iff rfl).mp h₅
  obtain ⟨hdecl, hdecl'⟩ := no_rules_of_instantiates h₁ (by decide)
  obtain ⟨hprequel, hprequel'⟩ := no_rules_of_instantiates h₃ (by decide)
  obtain ⟨hmodes, -⟩ := no_rules_of_instantiates h₆ (by decide)
  have hr : ∀ t ∈ rules, ∃ cs us, t = .node .ruleSpec (Token.spanOf us) cs ∧ _ :=
    exists_node_of_instantiates rfl h₇ rfl (by decide)
  refine ⟨rules, ?_, ?_, hr⟩
  · have hc : (ofSyntaxTree (.node .grammarSpec span? (decl ++ (prequel ++
        ([.node .rules (Token.spanOf us) rules] ++ modes))))).child? .rules =
        some (ofSyntaxTree (.node .rules (Token.spanOf us) rules)) := by
      rw [Node.child?, ofSyntaxTree, Node.children, Node.ofSyntaxTrees_append,
        Node.ofSyntaxTrees_append, List.find?_append, List.find?_append,
        find?_rules_eq_none hdecl', find?_rules_eq_none hprequel']
      rfl
    rw [Node.ruleSpecs, hc]
    refine List.filter_eq_self.mpr fun n hn => ?_
    rw [Option.getD_some, ofSyntaxTree, Node.children, Node.ofSyntaxTrees_eq_map] at hn
    obtain ⟨t, ht, rfl⟩ := List.mem_map.mp hn
    obtain ⟨cs, us, rfl, -⟩ := hr t ht
    rw [Node.kind?_ofSyntaxTree]
    decide
  · simp only [parserRules, parserRulesOfAll_append, hdecl, hprequel, hmodes, reduceCtorEq,
      ↓reduceIte, parserRulesOfAll, List.nil_append, List.append_nil]

/-- Extraction reads exactly the parser rules of a grammar, in order. -/
theorem extractRules_result (h : Instantiates Construct.grammarSpec.form trees ts) :
    (ofSyntaxTree (.node .grammarSpec span? trees)).extractRules.result =
      ((SyntaxTree.node .grammarSpec span? trees).parserRules.map ofSyntaxTree).mapM
        Node.ruleOf := by
  obtain ⟨rules, hs, hp, hr⟩ := ruleSpecs_eq span? h
  have hl : (ofSyntaxTree (.node .grammarSpec span? trees)).extractRules.result =
      (Node.rulesOf (ofSyntaxTree (.node .grammarSpec span? trees)).ruleSpecs).result := by
    simp only [Node.extractRules, Node.notATree?, ofSyntaxTree, Logged.bind_result]
    generalize (Node.rulesOf _).result = rules
    cases rules <;> rfl
  rw [hl, rulesOf_result, hs, filterMap_child?_parserRuleSpec hr, hp]

theorem forall₂_of_mapM {α β ε : Type} {f : α → Except ε β} {xs : List α} {ys : List β}
    (h : xs.mapM f = .ok ys) : List.Forall₂ (fun x y => x ∈ xs ∧ f x = .ok y) xs ys := by
  have hf : List.Forall₂ (fun x y => f x = .ok y) xs ys := by
    induction xs generalizing ys with
    | nil =>
      cases h
      exact .nil
    | cons x xs ih =>
      rw [List.mapM_cons] at h
      obtain ⟨y, hy, h⟩ := bind_ok h
      obtain ⟨zs, hz, h⟩ := bind_ok h
      cases h
      exact .cons hy (ih hz)
  exact (List.forall₂_and_left xs ys).mpr ⟨fun x hx => hx, hf⟩

theorem exists_mapM {α β ε : Type} {f : α → Except ε β} {P : α → β → Prop} {xs : List α}
    (h : ∀ x ∈ xs, ∃ y, f x = .ok y ∧ P x y) :
    ∃ ys, xs.mapM f = .ok ys ∧ List.Forall₂ P xs ys := by
  induction xs with
  | nil => exact ⟨[], rfl, .nil⟩
  | cons x xs ih =>
    obtain ⟨y, hy, hp⟩ := h x List.mem_cons_self
    obtain ⟨ys, hys, hps⟩ := ih fun z hz => h z (List.mem_cons_of_mem x hz)
    refine ⟨y :: ys, ?_, .cons hp hps⟩
    rw [List.mapM_cons, hy, hys]
    rfl

theorem forall_of_forall₂ {α β : Type} {P : β → Prop} {xs : List α} {ys : List β}
    (h : List.Forall₂ (fun _ y => P y) xs ys) : ∀ y ∈ ys, P y := by
  intro y hy
  obtain ⟨i, hi, rfl⟩ := List.getElem_of_mem hy
  exact h.get (h.length_eq ▸ hi) hi

theorem map_eq_of_mapM {α β γ ε : Type} {f : α → Except ε β} {g : α → γ} {k : β → γ}
    {xs : List α} {ys : List β} (h : xs.mapM f = .ok ys)
    (hf : ∀ x ∈ xs, ∀ y, f x = .ok y → k y = g x) : ys.map k = xs.map g := by
  have hmap : List.Forall₂ (fun x y => k y = g x) xs ys :=
    (forall₂_of_mapM h).imp fun x y hxy => hf x hxy.1 y hxy.2
  have heq := List.forall₂_map_left_iff.mpr (List.forall₂_map_right_iff.mpr hmap.flip)
  exact List.forall₂_eq_eq_eq ▸ heq

theorem exists_of_mem_mapM {α β ε : Type} {f : α → Except ε β} {xs : List α} {ys : List β}
    (h : xs.mapM f = .ok ys) : ∀ y ∈ ys, ∃ x ∈ xs, f x = .ok y := by
  intro y hy
  obtain ⟨i, hi, rfl⟩ := List.getElem_of_mem hy
  have hrel := forall₂_of_mapM h
  have hi' : i < xs.length := hrel.length_eq ▸ hi
  exact ⟨xs[i], hrel.get hi' hi⟩

variable {text : String} {tree : SyntaxTree} {rules : List Rule}

theorem exists_instance_of_parseGrammar (h : (parseGrammar text).result = .ok tree) :
    ∃ cs, tree = .node .grammarSpec (Token.spanOf (readTokens (maskChars text.toList)).tokens) cs ∧
      Instantiates Construct.grammarSpec.form cs (readTokens (maskChars text.toList)).tokens := by
  obtain ⟨d, hd, rfl⟩ := parse_eq_ok_iff.mp (parseGrammar_result_ok_iff.mp h)
  obtain ⟨-, hd⟩ := derivationOf_ok hd
  obtain ⟨cs, hc, hi⟩ := (instantiates_node_iff rfl).mp (instantiates_ofDerivation hd)
  exact ⟨cs, (List.cons.inj hc).1, hi⟩

/-- What grammar source gives is what the parser rules of its tree give. -/
theorem parseRules_result_of_tree (h : (parseGrammar text).result = .ok tree) :
    (parseRules text).result =
      ((tree.parserRules.map ofSyntaxTree).mapM Node.ruleOf).mapError .extraction := by
  obtain ⟨cs, rfl, hi⟩ := exists_instance_of_parseGrammar h
  rw [parseRules, Logged.bind_result, h, ← extractRules_result hi]
  rfl

/-- The rules of grammar source are those of its tree. -/
theorem parseRules_ok_iff : (parseRules text).result = .ok rules ↔
    ∃ tree, (parseGrammar text).result = .ok tree ∧
      (tree.parserRules.map ofSyntaxTree).mapM Node.ruleOf = .ok rules := by
  constructor
  · intro h
    rw [parseRules, Logged.bind_result] at h
    obtain ⟨tree, ht, -⟩ := bind_ok h
    have h : (parseRules text).result = .ok rules := by
      rwa [parseRules, Logged.bind_result]
    rw [parseRules_result_of_tree ht] at h
    refine ⟨tree, ht, ?_⟩
    cases hm : (tree.parserRules.map ofSyntaxTree).mapM Node.ruleOf with
    | error e =>
      rw [hm] at h
      cases h
    | ok rs =>
      rw [hm] at h
      cases h
      rfl
  · rintro ⟨tree, ht, hm⟩
    rw [parseRules_result_of_tree ht, hm]
    rfl

/-- A rule that is read has the name of its first token and the first element of its body. -/
theorem exists_name_of_ruleOf {r : Rule}
    (h : Instantiates Construct.parserRuleSpec.form trees ts)
    (hr : (ofSyntaxTree (.node .parserRuleSpec span? trees)).ruleOf = .ok r) :
    ∃ u rest es, trees = .token u :: rest ∧ u ∈ ts ∧ u.kind = .ruleName ∧ r.left = u.text ∧
      (ofSyntaxTree (.node .parserRuleSpec span? trees)).visit = .ok (r.right :: es) := by
  obtain ⟨_, _, _, _, rfl, rfl, h₁, -⟩ := instantiates_seq_iff.mp h
  obtain ⟨u, hu, rfl, rfl⟩ := instantiates_shown_iff.mp h₁
  unfold Node.ruleOf at hr
  split at hr
  · cases hr
  · cases hr
  next body es hv =>
    cases hr
    refine ⟨u, _, es, rfl, List.mem_cons_self, hu, ?_, hv⟩
    obtain ⟨_, _, _⟩ := u
    cases hu
    rfl

end GrammarDoc
