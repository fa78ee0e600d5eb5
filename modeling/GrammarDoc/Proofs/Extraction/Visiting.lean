import GrammarDoc.Extraction.Visit
import GrammarDoc.Proofs.Source.Shapes

namespace GrammarDoc

open Parsing (Form)
open Source (Construct SyntaxTree Token TokenKind)
open Source.SyntaxTree

namespace Source.Construct

/-- The kind of node that a construct is to extraction. -/
def kind? (c : Construct) : Option NodeKind :=
  NodeKind.all.find? fun kind => kind.construct == c

theorem ofLabel?_label (c : Construct) : NodeKind.ofLabel? c.label = c.kind? := by
  cases c <;> decide

/-- The number of elements that a construct in a parser rule stands for, if it is fixed. -/
def yield? : Construct → Option Nat
  | parserRuleSpec | ruleBlock | ruleAltList | labeledAlt | altList | alternative
  | labeledElement | ebnf | block | atom => some 1
  | ruleReturns | throwsSpec | localsSpec | rulePrequel | optionsSpec | ruleAction
  | exceptionHandler | finallyClause | blockPrequel | blockSuffix | ebnfSuffix
  | identifier => some 0
  | _ => none

end Source.Construct

/-- The element of the token that an atom starts with. -/
def Source.Token.element (t : Token) : Element :=
  if t.kind = .literal then .atom (Node.unquoted t.text) else .ref t.text

theorem bind_ok {ε α β : Type} {x : Except ε α} {f : α → Except ε β} {b : β}
    (h : x >>= f = .ok b) : ∃ a, x = .ok a ∧ f a = .ok b := by
  cases x with
  | error => cases h
  | ok a => exact ⟨a, rfl, h⟩

namespace Parsing.Form

variable {κ ρ : Type}

/-- The number of elements in every instance of a form, given that of each construct. -/
def yield? (yieldOf : ρ → Option Nat) : Form κ ρ → Option Nat
  | empty | shown _ | hidden _ => some 0
  | rule c => yieldOf c
  | seq f g => do return (← yield? yieldOf f) + (← yield? yieldOf g)
  | alt f g => if yield? yieldOf f = yield? yieldOf g then yield? yieldOf f else none
  | many f => if yield? yieldOf f = some 0 then some 0 else none

variable {yieldOf : ρ → Option Nat} {f g : Form κ ρ} {n : Nat}

theorem yield?_seq (h : (seq f g).yield? yieldOf = some n) :
    ∃ m k, f.yield? yieldOf = some m ∧ g.yield? yieldOf = some k ∧ n = m + k := by
  simp only [yield?, Option.bind_eq_bind, Option.bind_eq_some_iff, Option.pure_def,
    Option.some.injEq] at h
  obtain ⟨m, hm, k, hk, rfl⟩ := h
  exact ⟨m, k, hm, hk, rfl⟩

theorem yield?_alt (h : (alt f g).yield? yieldOf = some n) :
    f.yield? yieldOf = some n ∧ g.yield? yieldOf = some n := by
  simp only [yield?] at h
  split at h
  next he => exact ⟨h, he ▸ h⟩
  next => cases h

theorem yield?_many (h : (many f).yield? yieldOf = some n) :
    f.yield? yieldOf = some 0 ∧ n = 0 := by
  simp only [yield?] at h
  split at h
  next hf =>
    cases h
    exact ⟨hf, rfl⟩
  next => cases h

end Parsing.Form

namespace Node

variable {xs ys es : List Element} {ns ms : List Node} {kind : NodeKind}

theorem visitAll_append (ns ms : List Node) :
    visitAll (ns ++ ms) = do return (← visitAll ns) ++ (← visitAll ms) := by
  induction ns with
  | nil =>
    simp only [List.nil_append, visitAll]
    cases visitAll ms <;> rfl
  | cons n ns ih =>
    simp only [List.cons_append, visitAll, ih]
    cases visit n with
    | error => rfl
    | ok xs =>
      cases visitAll ns with
      | error => rfl
      | ok ys =>
        cases visitAll ms with
        | error => rfl
        | ok zs => exact congrArg Except.ok (List.append_assoc ..).symm

theorem visitAll_append_ok (h : visitAll (ns ++ ms) = .ok es) :
    ∃ xs ys, visitAll ns = .ok xs ∧ visitAll ms = .ok ys ∧ es = xs ++ ys := by
  rw [visitAll_append] at h
  obtain ⟨xs, hx, h⟩ := bind_ok h
  obtain ⟨ys, hy, h⟩ := bind_ok h
  cases h
  exact ⟨xs, ys, hx, hy, rfl⟩

theorem visitAll_singleton (n : Node) : visitAll [n] = n.visit := by
  simp only [visitAll]
  cases visit n with
  | error => rfl
  | ok xs => exact congrArg Except.ok (List.append_nil xs)

theorem visitAll_append_empty (h : visitAll ms = .ok []) : visitAll (ns ++ ms) = visitAll ns := by
  rw [visitAll_append, h]
  cases visitAll ns with
  | error => rfl
  | ok xs => exact congrArg Except.ok (List.append_nil xs)

theorem visitAll_empty_append (h : visitAll ns = .ok []) : visitAll (ns ++ ms) = visitAll ms := by
  rw [visitAll_append, h]
  cases visitAll ms <;> rfl

/-- Nodes that stand for nothing may be passed over. -/
theorem visitEach_eq_visitAll (h : ∀ n ∈ ns, n.kind? = some kind ∨ n.visit = .ok []) :
    visitEach kind ns = visitAll ns := by
  induction ns with
  | nil => rfl
  | cons n ns ih =>
    have ih := ih fun m hm => h m (List.mem_cons_of_mem _ hm)
    simp only [visitEach, visitAll, ih]
    split
    next => rfl
    next hk =>
      rw [(h n List.mem_cons_self).resolve_left hk]
      cases visitAll ns <;> rfl

/-- The first node of a kind may stand for all nodes if the other ones stand for nothing. -/
theorem visitFirst_eq_visitAll (ns : List Node) {n : Node} (hn : n.kind? = some kind)
    (hkind : ∀ m ∈ ns, m.kind? ≠ some kind) (hns : visitAll ns = .ok [])
    (hms : visitAll ms = .ok []) :
    visitFirst kind (ns ++ n :: ms) = visitAll (ns ++ n :: ms) := by
  rw [visitAll_empty_append hns, ← List.singleton_append, visitAll_append_empty hms,
    visitAll_singleton]
  clear hns
  induction ns with
  | nil => simp [visitFirst, hn]
  | cons m ns ih =>
    have hm := hkind m List.mem_cons_self
    simp only [List.cons_append, visitFirst, hm, ↓reduceIte]
    exact ih fun k hk => hkind k (List.mem_cons_of_mem _ hk)

theorem ofSyntaxTrees_eq_map (ts : List SyntaxTree) : ofSyntaxTrees ts = ts.map ofSyntaxTree := by
  induction ts with
  | nil => rfl
  | cons t ts ih => rw [ofSyntaxTrees, ih, List.map_cons]

theorem ofSyntaxTrees_append (ts us : List SyntaxTree) :
    ofSyntaxTrees (ts ++ us) = ofSyntaxTrees ts ++ ofSyntaxTrees us := by
  simp only [ofSyntaxTrees_eq_map, List.map_append]

theorem kind?_ofSyntaxTree (c : Construct) (span? : Option Text.Span) (ts : List SyntaxTree) :
    (ofSyntaxTree (.node c span? ts)).kind? = c.kind? :=
  Construct.ofLabel?_label c

section Visited

variable {c : Construct} {f : Form TokenKind Construct} {trees : List SyntaxTree} {ts : List Token}
variable {span? : Option Text.Span}

/-- A construct that extraction treats in no special way stands for what is in it. -/
theorem visit_plain
    (hc : c ∉ [.ruleAltList, .altList, .alternative, .element, .ebnf, .block, .atom]) :
    (ofSyntaxTree (.node c span? trees)).visit = visitAll (ofSyntaxTrees trees) := by
  simp only [List.mem_cons, List.not_mem_nil, or_false, not_or] at hc
  rw [ofSyntaxTree, visit, Construct.ofLabel?_label]
  cases c <;> first | rfl | simp at hc

theorem form_yield?_of_yield?_zero (hc : c.yield? = some 0) :
    c.form.yield? Construct.yield? = some 0 := by
  cases c <;> first | decide | cases hc

/-- What stands for no element is visited without any effect. -/
theorem visitAll_of_yield?_zero (h : Instantiates f trees ts)
    (hf : f.yield? Construct.yield? = some 0) : visitAll (ofSyntaxTrees trees) = .ok [] := by
  induction h with
  | empty => rfl
  | shown => rfl
  | hidden => rfl
  | @node c trees ts hc h ih =>
    have ih := ih (form_yield?_of_yield?_zero hf)
    rw [ofSyntaxTrees, ofSyntaxTrees, visitAll_singleton, visit_plain, ih]
    cases c <;> first | decide | cases hf
  | inlined hc h ih => exact ih (form_yield?_of_yield?_zero hf)
  | seq _ _ ihf ihg =>
    obtain ⟨m, k, hm, hk, hmk⟩ := Form.yield?_seq hf
    obtain ⟨rfl, rfl⟩ := Nat.add_eq_zero_iff.mp hmk.symm
    rw [ofSyntaxTrees_append, visitAll_empty_append (ihf hm), ihg hk]
  | altLeft _ ih => exact ih (Form.yield?_alt hf).1
  | altRight _ ih => exact ih (Form.yield?_alt hf).2
  | manyNil => rfl
  | manyCons _ _ ihf ihm =>
    rw [ofSyntaxTrees_append, visitAll_empty_append (ihf (Form.yield?_many hf).1), ihm hf]

/-- A labeled alternative is its alternative; the label stands for nothing. -/
theorem visitFirst_alternative (h : Instantiates Construct.labeledAlt.form trees ts) :
    visitFirst .alternative (ofSyntaxTrees trees) = visitAll (ofSyntaxTrees trees) := by
  obtain ⟨first, others, _, _, rfl, -, h₁, h₂⟩ := instantiates_seq_iff.mp h
  obtain ⟨cs, rfl, -⟩ := (instantiates_node_iff rfl).mp h₁
  have h₂ := visitAll_of_yield?_zero h₂ (by decide)
  exact visitFirst_eq_visitAll [] (kind?_ofSyntaxTree ..) (by simp) rfl h₂

theorem visitFirst_block (h : Instantiates Construct.ebnf.form trees ts) :
    visitFirst .block (ofSyntaxTrees trees) = visitAll (ofSyntaxTrees trees) := by
  obtain ⟨first, others, _, _, rfl, -, h₁, h₂⟩ := instantiates_seq_iff.mp h
  obtain ⟨cs, rfl, -⟩ := (instantiates_node_iff rfl).mp h₁
  have h₂ := visitAll_of_yield?_zero h₂ (by decide)
  exact visitFirst_eq_visitAll [] (kind?_ofSyntaxTree ..) (by simp) rfl h₂

theorem visitFirst_altList (h : Instantiates Construct.block.form trees ts) :
    visitFirst .altList (ofSyntaxTrees trees) = visitAll (ofSyntaxTrees trees) := by
  obtain ⟨_, _, _, _, rfl, -, h₁, h₂⟩ := instantiates_seq_iff.mp h
  obtain ⟨_, -, rfl, -⟩ := instantiates_hidden_iff.mp h₁
  obtain ⟨prequel, _, _, _, rfl, -, h₃, h₄⟩ := instantiates_seq_iff.mp h₂
  obtain ⟨_, _, _, _, rfl, -, h₅, h₆⟩ := instantiates_seq_iff.mp h₄
  obtain ⟨cs, rfl, -⟩ := (instantiates_node_iff rfl).mp h₅
  obtain ⟨_, -, rfl, -⟩ := instantiates_hidden_iff.mp h₆
  have hp := visitAll_of_yield?_zero h₃ (by decide)
  rw [List.nil_append, ofSyntaxTrees_append]
  refine visitFirst_eq_visitAll _ (kind?_ofSyntaxTree ..) ?_ hp rfl
  rcases instantiates_optional_iff.mp h₃ with h₇ | ⟨rfl, -⟩
  · obtain ⟨ds, rfl, -⟩ := (instantiates_node_iff rfl).mp h₇
    intro m hm
    cases List.mem_singleton.mp hm
    rw [kind?_ofSyntaxTree]
    decide
  · simp [ofSyntaxTrees]

/-- On the children of a row of alternatives the labels make no difference. -/
theorem visitLabeled_eq_visitAll
    (h : ∀ t ∈ trees, ∃ cs us, t = .node .labeledAlt (Token.spanOf us) cs ∧
      Instantiates Construct.labeledAlt.form cs us) :
    visitLabeled (ofSyntaxTrees trees) = visitAll (ofSyntaxTrees trees) := by
  induction trees with
  | nil => rfl
  | cons t trees ih =>
    have ih := ih fun t ht => h t (List.mem_cons_of_mem _ ht)
    obtain ⟨cs, us, rfl, hi⟩ := h t List.mem_cons_self
    have hv : (ofSyntaxTree (.node .labeledAlt (Token.spanOf us) cs)).visit =
        visitAll (ofSyntaxTrees cs) := visit_plain (by decide)
    rw [ofSyntaxTrees, visitAll, hv, ← visitFirst_alternative hi, ← ih]
    rfl

theorem visit_ruleAltList (h : Instantiates Construct.ruleAltList.form trees ts) :
    (ofSyntaxTree (.node .ruleAltList span? trees)).visit =
      visitAll (ofSyntaxTrees trees) >>= chosen := by
  rw [← visitLabeled_eq_visitAll (exists_node_of_instantiates rfl h rfl (by decide))]
  rfl

theorem visitEach_of_nodes {k : NodeKind}
    (h : ∀ t ∈ trees, ∃ cs us, t = .node k.construct (Token.spanOf us) cs ∧
      Instantiates k.construct.form cs us) :
    visitEach k (ofSyntaxTrees trees) = visitAll (ofSyntaxTrees trees) := by
  refine visitEach_eq_visitAll fun n hn => .inl ?_
  rw [ofSyntaxTrees_eq_map] at hn
  obtain ⟨t, ht, rfl⟩ := List.mem_map.mp hn
  obtain ⟨cs, us, rfl, -⟩ := h t ht
  rw [kind?_ofSyntaxTree]
  cases k <;> decide

theorem visit_altList (h : Instantiates Construct.altList.form trees ts) :
    (ofSyntaxTree (.node .altList span? trees)).visit =
      visitAll (ofSyntaxTrees trees) >>= chosen := by
  have he : visitEach .alternative (ofSyntaxTrees trees) = visitAll (ofSyntaxTrees trees) :=
    visitEach_of_nodes (exists_node_of_instantiates rfl h rfl (by decide))
  rw [← he]
  rfl

theorem visit_alternative (h : Instantiates Construct.alternative.form trees ts) :
    (ofSyntaxTree (.node .alternative span? trees)).visit =
      visitAll (ofSyntaxTrees trees) >>= sequenced (span?.map fun s => s.first.line) := by
  obtain ⟨options, elements, _, _, rfl, -, h₁, h₂⟩ := instantiates_seq_iff.mp h
  have he : visitEach .element (ofSyntaxTrees elements) = visitAll (ofSyntaxTrees elements) :=
    visitEach_of_nodes (exists_node_of_instantiates rfl h₂ rfl (by decide))
  have ho := visitAll_of_yield?_zero h₁ (by decide)
  rw [ofSyntaxTrees_append, visitAll_empty_append ho, ← he]
  rcases instantiates_optional_iff.mp h₁ with h₁ | ⟨rfl, -⟩
  · obtain ⟨t, -, rfl, -⟩ := instantiates_shown_iff.mp h₁
    rfl
  · rfl

theorem visit_block (h : Instantiates Construct.block.form trees ts) :
    (ofSyntaxTree (.node .block span? trees)).visit = visitAll (ofSyntaxTrees trees) := by
  rw [← visitFirst_altList h]
  rfl

theorem visit_element :
    (ofSyntaxTree (.node .element span? trees)).visit = do
      return (← visitAll (ofSyntaxTrees trees)).map
        (Element.applySuffix ((ofSyntaxTree (.node .element span? trees)).child? .ebnfSuffix)) :=
  rfl

theorem visit_ebnf (h : Instantiates Construct.ebnf.form trees ts) :
    (ofSyntaxTree (.node .ebnf span? trees)).visit = do
      return (← visitAll (ofSyntaxTrees trees)).map
        (Element.applySuffix (ofSyntaxTree (.node .ebnf span? trees)).blockSuffix?) := by
  rw [← visitFirst_block h]
  rfl

end Visited

section Atoms

variable {c : Construct} {trees : List SyntaxTree} {ts : List Token} {s s' : Option Text.Span}
variable {t : Token}

theorem options_of_instantiates (h : Instantiates (.optional (.shown .angleBlock)) trees ts) :
    trees = [] ∨ ∃ t : Token, t.kind = .angleBlock ∧ trees = [.token t] := by
  rcases instantiates_optional_iff.mp h with h | ⟨rfl, -⟩
  · obtain ⟨t, hk, rfl, -⟩ := instantiates_shown_iff.mp h
    exact .inr ⟨t, hk, rfl⟩
  · exact .inl rfl

theorem exists_token_of_terminal (h : Instantiates Construct.terminal.form trees ts) :
    ∃ t rest us, (t.kind = .tokenName ∨ t.kind = .literal) ∧ trees = .token t :: rest ∧
      ts = t :: us ∧ Instantiates (.optional (.shown .angleBlock)) rest us := by
  rcases instantiates_alt_iff.mp h with h | h <;>
    obtain ⟨_, rest, _, us, rfl, rfl, h₁, h₂⟩ := instantiates_seq_iff.mp h <;>
    obtain ⟨t, hk, rfl, rfl⟩ := instantiates_shown_iff.mp h₁
  · exact ⟨t, rest, us, .inl hk, rfl, rfl, h₂⟩
  · exact ⟨t, rest, us, .inr hk, rfl, rfl, h₂⟩

theorem exists_token_of_ruleref (h : Instantiates Construct.ruleref.form trees ts) :
    ∃ t rest us, t.kind = .ruleName ∧ trees = .token t :: rest ∧ ts = t :: us ∧
      Instantiates (.inOrder [.optional (.shown .bracketBlock), .optional (.shown .angleBlock)])
        rest us := by
  obtain ⟨_, rest, _, us, rfl, rfl, h₁, h₂⟩ := instantiates_seq_iff.mp h
  obtain ⟨t, hk, rfl, rfl⟩ := instantiates_shown_iff.mp h₁
  exact ⟨t, rest, us, hk, rfl, rfl, h₂⟩

theorem visit_terminal (ht : t.kind = .tokenName ∨ t.kind = .literal)
    (h : Instantiates (.optional (.shown .angleBlock)) trees ts) :
    (ofSyntaxTree (.node .atom s [.node .terminal s' (.token t :: trees)])).visit =
      .ok [t.element] := by
  obtain ⟨k, text, span⟩ := t
  rcases ht with rfl | rfl <;>
    rcases options_of_instantiates h with rfl | ⟨⟨_, text', span'⟩, rfl, rfl⟩ <;> rfl

theorem visit_ruleref (ht : t.kind = .ruleName) :
    (ofSyntaxTree (.node .atom s [.node .ruleref s' (.token t :: trees)])).visit =
      .ok [t.element] := by
  obtain ⟨k, text, span⟩ := t
  cases ht
  rfl

theorem visit_set_or_wildcard (hc : c = .notSet ∨ c = .wildcard) :
    (ofSyntaxTree (.node .atom s [.node c s' trees])).visit =
      .error (.unrecognizedAtom c.label (s.map fun s => s.first.line)) := by
  rcases hc with rfl | rfl <;> rfl

/-- An atom that can be read starts with a name or a literal, holds no other one, and stands for
it. -/
theorem exists_token_of_visit_atom {es : List Element}
    (h : Instantiates Construct.atom.form trees ts)
    (hv : (ofSyntaxTree (.node .atom s trees)).visit = .ok es) :
    ∃ c s' t rest, (c = .terminal ∨ c = .ruleref) ∧ trees = [.node c s' (.token t :: rest)] ∧
      t.kind ∈ [.tokenName, .literal, .ruleName] ∧
      (∀ u ∈ leavesOfAll rest, u.kind ∉ [.tokenName, .literal, .ruleName]) ∧ t ∈ ts ∧
      es = [t.element] := by
  rcases instantiates_alt_iff.mp h with h | h
  · obtain ⟨cs, rfl, hi⟩ := (instantiates_node_iff rfl).mp h
    obtain ⟨t, rest, us, hk, rfl, rfl, hr⟩ := exists_token_of_terminal hi
    rw [visit_terminal hk hr] at hv
    cases hv
    have hrest : ∀ u ∈ leavesOfAll rest, u.kind ∉ [.tokenName, .literal, .ruleName] := by
      intro u hu
      have hshown : u.kind ∈ [.angleBlock] := kind_mem_shows hr rfl u hu
      rw [List.mem_singleton.mp hshown]
      decide
    refine ⟨_, _, t, rest, .inl rfl, rfl, ?_, hrest, List.mem_cons_self, rfl⟩
    rcases hk with hk | hk <;> simp [hk]
  rcases instantiates_alt_iff.mp h with h | h
  · obtain ⟨cs, rfl, hi⟩ := (instantiates_node_iff rfl).mp h
    obtain ⟨t, rest, us, hk, rfl, rfl, hr⟩ := exists_token_of_ruleref hi
    cases hv.symm.trans (visit_ruleref hk)
    have hrest : ∀ u ∈ leavesOfAll rest, u.kind ∉ [.tokenName, .literal, .ruleName] := by
      intro u hu
      have hshown : u.kind ∈ [.bracketBlock, .angleBlock] := kind_mem_shows hr rfl u hu
      simp only [List.mem_cons, List.not_mem_nil, or_false] at hshown
      rcases hshown with hk | hk <;> simp [hk]
    exact ⟨_, _, t, rest, .inr rfl, rfl, by simp [hk], hrest, List.mem_cons_self, rfl⟩
  rcases instantiates_alt_iff.mp h with h | h <;>
    obtain ⟨cs, rfl, -⟩ := (instantiates_node_iff rfl).mp h
  · rw [visit_set_or_wildcard (.inl rfl)] at hv
    cases hv
  · rw [visit_set_or_wildcard (.inr rfl)] at hv
    cases hv

end Atoms

end Node
end GrammarDoc
