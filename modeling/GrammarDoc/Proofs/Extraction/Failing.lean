import GrammarDoc.Proofs.Extraction.Offences
import GrammarDoc.Proofs.Extraction.Preserving

namespace GrammarDoc

open Parsing (Form Matches)
open Parsing.Derivation (tokensOfAll)
open Source
open Source.SyntaxTree
open Node

/-- The error that a step ends with, if it fails. -/
def failure? {ε α : Type} : Except ε α → Option ε
  | .error e => some e
  | .ok _ => none

section Failure

variable {ε α β γ : Type}

/-- Of two steps the first one that fails counts. -/
theorem failure?_map₂ (x : Except ε α) (y : Except ε β) (g : α → β → γ) :
    failure? (do return g (← x) (← y)) = (failure? x).or (failure? y) := by
  cases x <;> cases y <;> rfl

theorem failure?_append (x y : Except ε (List α)) :
    failure? (do return (← x) ++ (← y)) = (failure? x).or (failure? y) :=
  failure?_map₂ x y (· ++ ·)

theorem failure?_map (x : Except ε α) (g : α → β) :
    failure? (do return g (← x)) = failure? x := by
  cases x <;> rfl

/-- A second step that never fails adds no failure. -/
theorem failure?_bind {x : Except ε α} {g : α → Except ε β}
    (h : ∀ a, x = .ok a → failure? (g a) = none) : failure? (x >>= g) = failure? x := by
  cases x with
  | error => rfl
  | ok a => exact h a rfl

theorem failure?_eq_none_iff {x : Except ε α} : failure? x = none ↔ ∃ a, x = .ok a := by
  cases x <;> simp [failure?]

theorem failure?_eq_some_iff {x : Except ε α} {e : ε} : failure? x = some e ↔ x = .error e := by
  cases x <;> simp [failure?]

end Failure

/-- The error of an offence while its rule is not told. -/
def Offence.raised (o : Offence) : ExtractionError :=
  o.error none o.line?

variable {c : Construct} {f : Form TokenKind Construct} {ds : List Derivation}
variable {trees : List SyntaxTree} {ts : List Token} {es : List Element} {span? : Option Text.Span}

theorem failure?_chosen (h : es ≠ []) : failure? (Node.chosen es) = none := by
  match es with
  | [] => exact absurd rfl h
  | [_] => rfl
  | _ :: _ :: _ => rfl

theorem failure?_sequenced (line? : Option Int) (h : es ≠ []) :
    failure? (Node.sequenced line? es) = none := by
  match es with
  | [] => exact absurd rfl h
  | [_] => rfl
  | _ :: _ :: _ => rfl

theorem first_line_spanOf (ts : List Token) :
    ((Token.spanOf ts).map fun s => (s.first.line : Int)) =
      ts.head?.map fun t => (t.span.first.line : Int) := by
  cases ts with
  | nil => rfl
  | cons t ts =>
    rw [Token.spanOf]
    cases Token.spanOf ts <;> rfl

theorem reads_of_matches (h : Matches Token.kind Construct.form f ds ts)
    (hf : ∀ c ∈ f.names, c.isReadable) (hq : ∀ t ∈ ts, t.kind = .literal → Quoted t) :
    ∀ t ∈ shownOfAll ds, Reads t :=
  reads_of_instantiates (.of_matches h) hf hq

/-- Alternatives with marks between them give at least one element. -/
theorem ne_nil_of_separated {mark : TokenKind} (hc : c.isInlined = false) (h1 : c.yield? = some 1)
    (h : Instantiates (Construct.separated mark (.rule c)) trees ts) (hr : ∀ t ∈ trees, Reads t)
    (hv : visitAll (ofSyntaxTrees trees) = .ok es) : es ≠ [] := by
  obtain ⟨_, _, _, _, rfl, -, h₁, h₂⟩ := instantiates_seq_iff.mp h
  obtain ⟨cs, rfl, -⟩ := (instantiates_node_iff hc).mp h₁
  obtain ⟨xs, ys, hx, -, rfl⟩ := visitAll_cons_ok hv
  have hl := (hr _ List.mem_cons_self).count 1 _ _ _ _ rfl h1 hx
  intro he
  rw [(List.append_eq_nil_iff.mp he).1] at hl
  cases hl

/-- An action gives no element, and any other part of an alternative gives one. -/
theorem elements_of_element (h : Matches Token.kind Construct.form Construct.element.form ds ts)
    (hq : ∀ t ∈ ts, t.kind = .literal → Quoted t) :
    (isElement (.node .element ds) = false ∧ visitAll (ofSyntaxTrees (shownOfAll ds)) = .ok []) ∨
      isElement (.node .element ds) ∧
        ∀ es, visitAll (ofSyntaxTrees (shownOfAll ds)) = .ok es → es ≠ [] := by
  have hone : ∀ {g}, Matches Token.kind Construct.form g ds ts →
      (∀ c ∈ g.names, c.isReadable) → g.yield? Construct.yield? = some 1 →
      ∀ es, visitAll (ofSyntaxTrees (shownOfAll ds)) = .ok es → es ≠ [] := by
    intro g hg hn h1 es hv he
    have hl := length_of_reads (.of_matches hg) (reads_of_matches hg hn hq) h1 hv
    rw [he] at hl
    cases hl
  rcases Parsing.matches_alt_iff.mp h with h | h
  · have hes := hone h (by decide) (by decide)
    obtain ⟨_, _, _, _, rfl, -, h₁, -⟩ := Parsing.matches_seq_iff.mp h
    obtain ⟨cs, rfl, -⟩ := Parsing.matches_rule_iff.mp h₁
    exact .inr ⟨rfl, hes⟩
  rcases Parsing.matches_alt_iff.mp h with h | h
  · have hes := hone h (by decide) (by decide)
    obtain ⟨_, _, _, _, rfl, -, h₁, -⟩ := Parsing.matches_seq_iff.mp h
    obtain ⟨cs, rfl, -⟩ := Parsing.matches_rule_iff.mp h₁
    exact .inr ⟨rfl, hes⟩
  rcases Parsing.matches_alt_iff.mp h with h | h
  · have hes := hone h (by decide) (by decide)
    obtain ⟨cs, rfl, -⟩ := Parsing.matches_rule_iff.mp h
    exact .inr ⟨rfl, hes⟩
  · obtain ⟨_, _, _, _, rfl, -, h₁, h₂⟩ := Parsing.matches_seq_iff.mp h
    obtain ⟨t, ht, rfl, -⟩ := Parsing.matches_shown_iff.mp h₁
    refine .inl ⟨by simp [isElement, ht], ?_⟩
    exact Node.visitAll_of_yield?_zero (.of_matches h) (by decide)

/-- An alternative has no element exactly if it holds nothing but actions. -/
theorem elements_of_alternative
    (h : Matches Token.kind Construct.form (.many (.rule .element)) ds ts)
    (hq : ∀ t ∈ ts, t.kind = .literal → Quoted t) :
    (ds.any isElement = false ∧ visitAll (ofSyntaxTrees (shownOfAll ds)) = .ok []) ∨
      ds.any isElement ∧ ∀ es, visitAll (ofSyntaxTrees (shownOfAll ds)) = .ok es → es ≠ [] := by
  generalize hf : Form.many (.rule Construct.element) = f at h
  induction h with
  | manyNil => exact .inl ⟨rfl, rfl⟩
  | @manyCons _ _ ds' _ _ h₁ _ _ ih =>
    cases hf
    simp only [List.mem_append] at hq
    have ih := ih (fun t ht => hq t (.inr ht)) rfl
    obtain ⟨cs, rfl, hm⟩ := Parsing.matches_rule_iff.mp h₁
    have hcons : ofSyntaxTrees (shownOfAll ([.node .element cs] ++ ds')) =
        [ofSyntaxTree (.node .element (spanOfAll cs) (shownOfAll cs))] ++
          ofSyntaxTrees (shownOfAll ds') := rfl
    rw [hcons, List.singleton_append, List.any_cons]
    rcases elements_of_element hm (fun t ht => hq t (.inl ht)) with ⟨hn, h0⟩ | ⟨hy, h1⟩
    · have hvisit : (ofSyntaxTree (.node .element (spanOfAll cs) (shownOfAll cs))).visit =
          .ok [] := by
        rw [Node.visit_element, h0]
        rfl
      rw [Node.visitAll_empty_append (by rw [Node.visitAll_singleton, hvisit]), hn]
      exact ih
    · refine .inr ⟨by rw [hy]; rfl, fun es hv he => ?_⟩
      obtain ⟨xs, ys, hx, -, rfl⟩ := Node.visitAll_append_ok hv
      rw [Node.visitAll_singleton, Node.visit_element] at hx
      obtain ⟨zs, hz, hx⟩ := bind_ok hx
      cases hx
      have hnil := (List.append_eq_nil_iff.mp he).1
      exact h1 zs hz (List.map_eq_nil_iff.mp hnil)
  | _ => cases hf

theorem offencesOfAll_of_leaves (h : Matches Token.kind Construct.form f ds ts)
    (hn : f.names = []) : offencesOfAll ds = [] := by
  induction h with
  | empty => rfl
  | shown => rfl
  | hidden => rfl
  | rule => cases hn
  | seq _ _ ihf ihg =>
    simp only [Form.names, List.append_eq_nil_iff] at hn
    rw [offencesOfAll_append, ihf hn.1, ihg hn.2]
    rfl
  | altLeft _ ih =>
    simp only [Form.names, List.append_eq_nil_iff] at hn
    exact ih hn.1
  | altRight _ ih =>
    simp only [Form.names, List.append_eq_nil_iff] at hn
    exact ih hn.2
  | manyNil => rfl
  | manyCons _ _ ihf ihm =>
    rw [offencesOfAll_append, ihf hn, ihm hn]
    rfl

theorem failure?_visit_alternative
    (h : Matches Token.kind Construct.form Construct.alternative.form ds ts)
    (hq : ∀ t ∈ ts, t.kind = .literal → Quoted t)
    (ih : failure? (visitAll (ofSyntaxTrees (shownOfAll ds))) =
      (offencesOfAll ds).head?.map Offence.raised) :
    failure? (ofSyntaxTree (.node .alternative (Token.spanOf ts) (shownOfAll ds))).visit =
      (offences (.node .alternative ds)).head?.map Offence.raised := by
  rw [Node.visit_alternative (.of_matches h)]
  have htokens := h.tokens
  obtain ⟨os, ds', us, vs, rfl, rfl, h₁, h₂⟩ := Parsing.matches_seq_iff.mp h
  have hos : os.any isElement = false := by
    rcases Parsing.matches_alt_iff.mp h₁ with h₁ | h₁
    · obtain ⟨t, -, rfl, -⟩ := Parsing.matches_shown_iff.mp h₁
      rfl
    · obtain ⟨rfl, -⟩ := Parsing.matches_empty_iff.mp h₁
      rfl
  have hvisit : visitAll (ofSyntaxTrees (shownOfAll (os ++ ds'))) =
      visitAll (ofSyntaxTrees (shownOfAll ds')) := by
    rw [shownOfAll_append, Node.ofSyntaxTrees_append]
    exact Node.visitAll_empty_append
      (Node.visitAll_of_yield?_zero (.of_matches h₁) (by decide))
  have hany : (os ++ ds').any isElement = ds'.any isElement := by
    rw [List.any_append, hos, Bool.false_or]
  rcases elements_of_alternative h₂ (fun t ht => hq t (List.mem_append_right _ ht)) with
    ⟨hn, h0⟩ | ⟨hy, h1⟩
  · have ho : offence? .alternative (os ++ ds') = some (.bareAlternative (us ++ vs).head?) := by
      change (if (os ++ ds').any isElement then none else _) = _
      rw [hany, hn, htokens]
      rfl
    rw [offences_of_some ho, hvisit, h0]
    change some (ExtractionError.emptyAlternative none _) = _
    rw [first_line_spanOf]
    rfl
  · have ho : offence? .alternative (os ++ ds') = none := by
      change (if (os ++ ds').any isElement then none else _) = _
      rw [hany, hy]
      rfl
    rw [offences_of_none ho, ← ih]
    refine failure?_bind fun es he => failure?_sequenced _ (h1 es ?_)
    rw [← hvisit, he]

theorem failure?_visit_atom (h : Matches Token.kind Construct.form Construct.atom.form ds ts) :
    failure? (ofSyntaxTree (.node .atom (Token.spanOf ts) (shownOfAll ds))).visit =
      (offences (.node .atom ds)).head?.map Offence.raised := by
  obtain ⟨c, es, hc, rfl, hm⟩ := atom_of_matches h
  have htokens := hm.tokens
  have hi := Instantiates.of_matches hm
  simp only [List.mem_cons, List.not_mem_nil, or_false] at hc
  rcases hc with rfl | rfl | rfl | rfl
  · obtain ⟨t, rest, us, hk, hs, -, hr⟩ := exists_token_of_terminal hi
    change failure? (ofSyntaxTree (.node .atom _ [.node .terminal _ (shownOfAll es)])).visit = _
    rw [hs, visit_terminal hk hr, offences_of_none rfl, offencesOfAll_singleton,
      offences_of_none rfl, offencesOfAll_of_leaves hm rfl]
    rfl
  · obtain ⟨t, rest, us, hk, hs, -, -⟩ := exists_token_of_ruleref hi
    change failure? (ofSyntaxTree (.node .atom _ [.node .ruleref _ (shownOfAll es)])).visit = _
    rw [hs, visit_ruleref hk, offences_of_none rfl, offencesOfAll_singleton,
      offences_of_none rfl, offencesOfAll_of_leaves hm rfl]
    rfl
  · have ho : offence? .atom [.node .notSet es] = some (.notSet ts.head?) := by
      rw [← htokens]
      rfl
    change failure? (ofSyntaxTree (.node .atom _ [.node .notSet _ (shownOfAll es)])).visit = _
    rw [visit_set_or_wildcard (.inl rfl), first_line_spanOf, offences_of_some ho]
    rfl
  · have ho : offence? .atom [.node .wildcard es] = some (.wildcard ts.head?) := by
      rw [← htokens]
      rfl
    change failure? (ofSyntaxTree (.node .atom _ [.node .wildcard _ (shownOfAll es)])).visit = _
    rw [visit_set_or_wildcard (.inr rfl), first_line_spanOf, offences_of_some ho]
    rfl

/-- A node that is no offence by itself fails where what is in it does. -/
theorem failure?_visit_node (hc : c.isReadable)
    (h : Matches Token.kind Construct.form c.form ds ts)
    (hq : ∀ t ∈ ts, t.kind = .literal → Quoted t)
    (ih : c ≠ .atom → failure? (visitAll (ofSyntaxTrees (shownOfAll ds))) =
      (offencesOfAll ds).head?.map Offence.raised) :
    failure? (ofSyntaxTree (.node c (Token.spanOf ts) (shownOfAll ds))).visit =
      (offences (.node c ds)).head?.map Offence.raised := by
  have hr : c ≠ .atom → ∀ t ∈ shownOfAll ds, Reads t := by
    intro ha
    exact reads_of_matches h (fun d hd => isReadable_of_mem_names hc ha hd) hq
  cases c with
  | ruleAltList =>
    rw [Node.visit_ruleAltList (.of_matches h), offences_of_none rfl, ← ih (by decide)]
    exact failure?_bind fun es he => failure?_chosen
      (ne_nil_of_separated rfl rfl (.of_matches h) (hr (by decide)) he)
  | altList =>
    rw [Node.visit_altList (.of_matches h), offences_of_none rfl, ← ih (by decide)]
    exact failure?_bind fun es he => failure?_chosen
      (ne_nil_of_separated rfl rfl (.of_matches h) (hr (by decide)) he)
  | alternative => exact failure?_visit_alternative h hq (ih (by decide))
  | element =>
    rw [Node.visit_element, failure?_map, ih (by decide), offences_of_none rfl]
  | ebnf =>
    rw [Node.visit_ebnf (.of_matches h), failure?_map, ih (by decide), offences_of_none rfl]
  | block =>
    rw [Node.visit_block (.of_matches h), ih (by decide), offences_of_none rfl]
  | atom => exact failure?_visit_atom h
  | _ =>
    first
    | exact absurd hc (by decide)
    | rw [Node.visit_plain (by decide), ih (by decide), offences_of_none rfl]

theorem failure?_visitAll_append {us vs : List Derivation}
    (hu : failure? (visitAll (ofSyntaxTrees (shownOfAll us))) =
      (offencesOfAll us).head?.map Offence.raised)
    (hv : failure? (visitAll (ofSyntaxTrees (shownOfAll vs))) =
      (offencesOfAll vs).head?.map Offence.raised) :
    failure? (visitAll (ofSyntaxTrees (shownOfAll (us ++ vs)))) =
      (offencesOfAll (us ++ vs)).head?.map Offence.raised := by
  rw [shownOfAll_append, ofSyntaxTrees_append, visitAll_append, failure?_append, hu, hv,
    offencesOfAll_append, List.head?_append, Option.map_or]

/-- The parts of a parser rule fail where the first offence among them is. -/
theorem failure?_visitAll (h : Matches Token.kind Construct.form f ds ts)
    (hf : ∀ c ∈ f.names, c.isReadable) (hq : ∀ t ∈ ts, t.kind = .literal → Quoted t) :
    failure? (visitAll (ofSyntaxTrees (shownOfAll ds))) =
      (offencesOfAll ds).head?.map Offence.raised := by
  induction h with
  | empty => rfl
  | shown => rfl
  | hidden => rfl
  | @rule c ds ts h ih =>
    have hc := hf c (List.mem_singleton_self c)
    have ih : c ≠ .atom → _ := fun ha => ih (fun d hd => isReadable_of_mem_names hc ha hd) hq
    rw [offencesOfAll_singleton, ← failure?_visit_node hc h hq ih]
    cases hi : c.isInlined with
    | false =>
      have hs : shownOfAll [.node c ds] = [.node c (spanOfAll ds) (shownOfAll ds)] := by
        simp [shownOfAll, shown, hi]
      rw [hs, spanOfAll_eq h, ofSyntaxTrees, ofSyntaxTrees, visitAll_singleton]
    | true =>
      have hs : shownOfAll [.node c ds] = shownOfAll ds := by
        simp [shownOfAll, shown, hi]
      rw [hs, visit_plain]
      cases c <;> first | decide | cases hi
  | seq _ _ ihf ihg =>
    simp only [Form.names, List.mem_append] at hf hq
    have ihf := ihf (fun c hc => hf c (.inl hc)) fun t ht => hq t (.inl ht)
    have ihg := ihg (fun c hc => hf c (.inr hc)) fun t ht => hq t (.inr ht)
    exact failure?_visitAll_append ihf ihg
  | altLeft _ ih => exact ih (fun c hc => hf c (List.mem_append_left _ hc)) hq
  | altRight _ ih => exact ih (fun c hc => hf c (List.mem_append_right _ hc)) hq
  | manyNil => rfl
  | manyCons _ _ ihf ihm =>
    simp only [List.mem_append] at hq
    have ihf := ihf hf fun t ht => hq t (.inl ht)
    have ihm := ihm hf fun t ht => hq t (.inr ht)
    exact failure?_visitAll_append ihf ihm

theorem Offence.within_error (o : Offence) (name : String) (line? : Option Int) :
    (o.error none line?).within name = o.error (some name) line? := by
  cases o <;> rfl

/-- A parser rule fails with its first offence, reported with the name of the rule. -/
theorem failure?_ruleOf
    (h : Matches Token.kind Construct.form Construct.parserRuleSpec.form ds ts)
    (hq : ∀ t ∈ ts, t.kind = .literal → Quoted t) :
    failure? (ofSyntaxTree (.node .parserRuleSpec (spanOfAll ds) (shownOfAll ds))).ruleOf =
      (offencesOfAll ds).head?.map fun o => o.error (some (ruleNameOf ds)) o.line? := by
  have hn : ∀ c ∈ Construct.parserRuleSpec.form.names, c.isReadable := by decide
  have hvisit : (ofSyntaxTree (.node .parserRuleSpec (spanOfAll ds) (shownOfAll ds))).visit =
      visitAll (ofSyntaxTrees (shownOfAll ds)) := visit_plain (by decide)
  have hname : ((ofSyntaxTree (.node .parserRuleSpec (spanOfAll ds) (shownOfAll ds))).childText?
      "RULE_REF").getD "None" = ruleNameOf ds := by
    obtain ⟨_, _, _, _, rfl, rfl, h₁, -⟩ := Parsing.matches_seq_iff.mp h
    obtain ⟨⟨_, _, _⟩, hk, rfl, rfl⟩ := Parsing.matches_shown_iff.mp h₁
    cases hk
    rfl
  have hfail := failure?_visitAll h hn hq
  rw [ruleOf, hvisit, hname]
  cases hv : visitAll (ofSyntaxTrees (shownOfAll ds)) with
  | error e =>
    rw [hv] at hfail
    obtain ⟨o, ho, rfl⟩ := Option.map_eq_some_iff.mp hfail.symm
    rw [ho]
    exact congrArg some (o.within_error _ _)
  | ok es =>
    rw [hv] at hfail
    have hl : es.length = 1 :=
      length_of_reads (.of_matches h) (reads_of_matches h hn hq) (by decide) hv
    obtain ⟨e, rfl⟩ := List.length_eq_one_iff.mp hl
    rw [Option.map_eq_none_iff.mp hfail.symm]
    rfl

/-- The tree of a parser rule with given children. -/
def ruleTree (ds : List Derivation) : SyntaxTree :=
  .node .parserRuleSpec (spanOfAll ds) (shownOfAll ds)

mutual

theorem parserRulesOfAll_shown (d : Derivation) :
    parserRulesOfAll (shown d) = (parserRulesIn d).map ruleTree := by
  match d with
  | .leaf t isShown => cases isShown <;> rfl
  | .node c ds =>
    have ih := parserRulesOfAll_shownOfAll ds
    rw [shown, parserRulesIn]
    split
    next hi =>
      rw [if_neg, ih]
      rintro rfl
      cases hi
    next =>
      rw [parserRulesOfAll_singleton, parserRules]
      split
      next hc =>
        subst hc
        rfl
      next => exact ih

/-- The parser rules of a syntax tree are those of its derivation. -/
theorem parserRulesOfAll_shownOfAll (ds : List Derivation) :
    parserRulesOfAll (shownOfAll ds) = (parserRulesInAll ds).map ruleTree := by
  match ds with
  | [] => rfl
  | d :: ds =>
    rw [shownOfAll, parserRulesOfAll_append, parserRulesOfAll_shown d,
      parserRulesOfAll_shownOfAll ds, parserRulesInAll, List.map_append]

end

theorem failure?_mapM_cons {ε α β : Type} (g : α → Except ε β) (x : α) (xs : List α) :
    failure? ((x :: xs).mapM g) = (failure? (g x)).or (failure? (xs.mapM g)) := by
  rw [List.mapM_cons]
  exact failure?_map₂ (g x) (xs.mapM g) List.cons

/-- Of steps in a row the first one that fails counts. -/
theorem failure?_mapM {ε α β : Type} (g : α → Except ε β) (xs : List α) :
    failure? (xs.mapM g) = xs.findSome? fun x => failure? (g x) := by
  induction xs with
  | nil => rfl
  | cons x xs ih =>
    rw [failure?_mapM_cons, ih, List.findSome?_cons]
    cases failure? (g x) <;> rfl

/-- The rules fail with the first offence of the first rule that has one. -/
theorem failure?_mapM_ruleOf {rules : List (List Derivation)}
    (h : ∀ ds ∈ rules, failure? (ofSyntaxTree (ruleTree ds)).ruleOf =
      (offencesOfAll ds).head?.map fun o => o.error (some (ruleNameOf ds)) o.line?) :
    failure? (((rules.map ruleTree).map ofSyntaxTree).mapM ruleOf) =
      (rules.flatMap fun ds => (offencesOfAll ds).map fun o => (ruleNameOf ds, o)).head?.map
        fun p => p.2.error (some p.1) p.2.line? := by
  induction rules with
  | nil => rfl
  | cons ds rules ih =>
    have ih := ih fun es he => h es (List.mem_cons_of_mem _ he)
    rw [List.map_cons, List.map_cons, failure?_mapM_cons, h ds List.mem_cons_self, ih,
      List.flatMap_cons, List.head?_append, Option.map_or, List.head?_map, Option.map_map]
    rfl

theorem failure?_mapError {ε ε' α : Type} (x : Except ε α) (g : ε → ε') :
    failure? (x.mapError g) = (failure? x).map g := by
  cases x <;> rfl

variable {text : String} {tree : SyntaxTree} {d : Derivation}

theorem matches_of_derive (h : derive text = .ok d) :
    Matches Token.kind Construct.form (.rule .grammarSpec) [d]
      (readTokens (maskChars text.toList)).tokens :=
  Parsing.derives_iff_matches.mp (derivationOf_ok h).2

/-- Every parser rule of grammar source is made of tokens of the source. -/
theorem ruleWithin_of_mem_parserRulesIn (h : derive text = .ok d) {ds : List Derivation}
    (hm : ds ∈ parserRulesIn d) :
    RuleWithin (readTokens (maskChars text.toList)).tokens ds := by
  rw [← parserRulesInAll_singleton] at hm
  exact ruleWithin_of_mem_parserRulesInAll (matches_of_derive h) ds hm

/-- The offences of grammar source start with its tokens. -/
theorem onLine_of_mem_ruleOffences (h : derive text = .ok d) {name : String} {o : Offence}
    (ho : (name, o) ∈ ruleOffences d) : o.OnLine text.toList o.line? := by
  obtain ⟨ds, hds, hm⟩ := List.mem_flatMap.mp ho
  obtain ⟨o', ho', he⟩ := List.mem_map.mp hm
  cases he
  obtain ⟨ts, hts, hmatch⟩ := ruleWithin_of_mem_parserRulesIn h hds
  exact onLine_of_startsIn ((startsIn_of_mem_offencesOfAll hmatch o ho').mono hts)

theorem parserRules_ofDerivation (h : derive text = .ok d) :
    (ofDerivation d).parserRules = (parserRulesIn d).map ruleTree := by
  obtain ⟨⟨ds, rfl⟩, -⟩ := (derivationOf_ok h).2
  have hs := parserRulesOfAll_shown (.node .grammarSpec ds)
  rw [← parserRulesOfAll_singleton]
  exact hs

theorem failure?_parseRules (h : derive text = .ok d) :
    failure? (parseRules text).result = (ruleOffences d).head?.map fun p =>
      .extraction (p.2.error (some p.1) p.2.line?) := by
  have ht : (parseGrammar text).result = .ok (ofDerivation d) :=
    parseGrammar_result_ok_iff.mpr (parse_eq_ok_iff.mpr ⟨d, h, rfl⟩)
  have hrules : ∀ ds ∈ parserRulesIn d, failure? (ofSyntaxTree (ruleTree ds)).ruleOf =
      (offencesOfAll ds).head?.map fun o => o.error (some (ruleNameOf ds)) o.line? := by
    intro ds hds
    obtain ⟨ts, hts, hm⟩ := ruleWithin_of_mem_parserRulesIn h hds
    exact failure?_ruleOf hm fun t ht hk => quoted_of_mem_tokens (hts ht) hk
  rw [parseRules_result_of_tree ht, failure?_mapError, parserRules_ofDerivation h,
    failure?_mapM_ruleOf hrules, Option.map_map]
  rfl

/-- Grammar source that is accepted gives its rules exactly if no parser rule holds an offence. Else
it fails with the first one, which is reported with its line and the name of its rule. -/
theorem parseRules_reports_first_offence (h : (parseGrammar text).result = .ok tree) :
    ∃ d, derive text = .ok d ∧ tree = ofDerivation d ∧
      ((∃ rules, (parseRules text).result = .ok rules) ↔ ruleOffences d = []) ∧
      ∀ name o later, ruleOffences d = (name, o) :: later →
        ∃ line?, o.OnLine text.toList line? ∧
          (parseRules text).result = .error (.extraction (o.error (some name) line?)) := by
  obtain ⟨d, hd, rfl⟩ := parse_eq_ok_iff.mp (parseGrammar_result_ok_iff.mp h)
  have hfail := failure?_parseRules hd
  refine ⟨d, hd, rfl, ?_, ?_⟩
  · rw [← failure?_eq_none_iff, hfail, Option.map_eq_none_iff, List.head?_eq_none_iff]
  · intro name o later ho
    have hm : (name, o) ∈ ruleOffences d := by
      rw [ho]
      exact List.mem_cons_self
    rw [ho] at hfail
    exact ⟨o.line?, onLine_of_mem_ruleOffences hd hm, failure?_eq_some_iff.mp hfail⟩

/-- A wildcard outside of parser rules is no offence, nor is what comes after the first one. -/
theorem parseRules_reports_first_offence_nested :
    let text := "grammar G;\nC : . ;\na : b ;\nb : c\n  | ( \x7bact\n\x7d | ~C ) ;\n"
    (parseRules text).result =
        .error (.extraction (.emptyAlternative (some "b") (some 5))) ∧
      ∃ d name o later line?, derive text = .ok d ∧ ruleOffences d = (name, o) :: later ∧
        o.OnLine text.toList line? ∧
        (parseRules text).result = .error (.extraction (o.error (some name) line?)) := by
  intro text
  have hfail : failure? (parseRules text).result =
      some (.extraction (.emptyAlternative (some "b") (some 5))) := by
    decide +kernel
  have hresult := failure?_eq_some_iff.mp hfail
  refine ⟨hresult, ?_⟩
  have haccept : (parseGrammar text).result.isOk := by decide +kernel
  cases ht : (parseGrammar text).result with
  | error e =>
    rw [ht] at haccept
    cases haccept
  | ok tree =>
    obtain ⟨d, hd, -, hiff, hfirst⟩ := parseRules_reports_first_offence ht
    cases ho : ruleOffences d with
    | nil =>
      obtain ⟨rules, hr⟩ := hiff.mpr ho
      cases hr.symm.trans hresult
    | cons p later =>
      obtain ⟨name, o⟩ := p
      obtain ⟨line?, hline, herror⟩ := hfirst name o later ho
      exact ⟨d, name, o, later, line?, hd, ho, hline, herror⟩

end GrammarDoc
