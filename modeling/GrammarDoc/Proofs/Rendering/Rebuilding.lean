import GrammarDoc.Proofs.Extraction.Declared
import GrammarDoc.Proofs.Extraction.Visiting
import GrammarDoc.Proofs.Rendering.Writing

namespace GrammarDoc

open Parsing (Form)
open Source
open Source.SyntaxTree
open Node (ofSyntaxTree ofSyntaxTrees visitAll)

/-- Tokens with some words are an instance of a form from which some elements are extracted. -/
def Yields (f : Form TokenKind Construct) (ws : List Word) (es : List Element) : Prop :=
  ∀ ts : List Token, ts.map Token.word = ws →
    ∃ trees, Instantiates f trees ts ∧ visitAll (ofSyntaxTrees trees) = .ok es

variable {f g : Form TokenKind Construct} {c : Construct} {ws vs : List Word}
variable {xs ys es : List Element} {e : Element} {k : TokenKind} {s : String}

section Forms

theorem yields_empty : Yields .empty [] [] := by
  intro ts hts
  cases List.map_eq_nil_iff.mp hts
  exact ⟨[], .empty, rfl⟩

theorem exists_token {ts : List Token} (h : ts.map Token.word = [(k, s)]) :
    ∃ t : Token, ts = [t] ∧ t.kind = k ∧ t.text = s := by
  match ts with
  | [t] =>
    cases h
    exact ⟨t, rfl, rfl, rfl⟩

theorem yields_shown : Yields (.shown k) [(k, s)] [] := by
  intro ts hts
  obtain ⟨t, rfl, rfl, -⟩ := exists_token hts
  exact ⟨[.token t], .shown t, rfl⟩

theorem yields_hidden : Yields (.hidden k) [(k, s)] [] := by
  intro ts hts
  obtain ⟨t, rfl, rfl, -⟩ := exists_token hts
  exact ⟨[], .hidden t, rfl⟩

theorem visitAll_append_of_ok {ns ms : List Node} (hn : visitAll ns = .ok xs)
    (hm : visitAll ms = .ok ys) : visitAll (ns ++ ms) = .ok (xs ++ ys) := by
  rw [Node.visitAll_append, hn, hm]
  rfl

theorem yields_seq (hf : Yields f ws xs) (hg : Yields g vs ys) :
    Yields (.seq f g) (ws ++ vs) (xs ++ ys) := by
  intro ts hts
  obtain ⟨ts₁, ts₂, rfl, h₁, h₂⟩ := List.map_eq_append_iff.mp hts
  obtain ⟨trees₁, hi₁, hv₁⟩ := hf ts₁ h₁
  obtain ⟨trees₂, hi₂, hv₂⟩ := hg ts₂ h₂
  refine ⟨trees₁ ++ trees₂, .seq hi₁ hi₂, ?_⟩
  rw [Node.ofSyntaxTrees_append]
  exact visitAll_append_of_ok hv₁ hv₂

theorem yields_altRight (h : Yields g ws es) : Yields (.alt f g) ws es := by
  intro ts hts
  obtain ⟨trees, hi, hv⟩ := h ts hts
  exact ⟨trees, .altRight hi, hv⟩

theorem yields_manyNil : Yields (.many f) [] [] := by
  intro ts hts
  cases List.map_eq_nil_iff.mp hts
  exact ⟨[], .manyNil, rfl⟩

theorem yields_manyCons (hf : Yields f ws xs) (hm : Yields (.many f) vs ys) :
    Yields (.many f) (ws ++ vs) (xs ++ ys) := by
  intro ts hts
  obtain ⟨ts₁, ts₂, rfl, h₁, h₂⟩ := List.map_eq_append_iff.mp hts
  obtain ⟨trees₁, hi₁, hv₁⟩ := hf ts₁ h₁
  obtain ⟨trees₂, hi₂, hv₂⟩ := hm ts₂ h₂
  refine ⟨trees₁ ++ trees₂, .manyCons hi₁ hi₂, ?_⟩
  rw [Node.ofSyntaxTrees_append]
  exact visitAll_append_of_ok hv₁ hv₂

/-- A part that may be left out is left out. -/
theorem yields_skip (h : Yields g ws es) : Yields (.seq f.optional g) ws es :=
  yields_seq (yields_altRight yields_empty) h

theorem yields_skipMany (h : Yields g ws es) : Yields (.seq (.many f) g) ws es :=
  yields_seq yields_manyNil h

/-- One mark stands between each two parts. -/
theorem yields_separated (mark : TokenKind) (s : String) {rows : List (List Word × Element)}
    (hl : rows ≠ []) (h : ∀ row ∈ rows, Yields f row.1 [row.2]) :
    Yields (Construct.separated mark f) ([(mark, s)].intercalate (rows.map Prod.fst))
      (rows.map Prod.snd) := by
  match rows with
  | row :: rows =>
    have hrow := h row List.mem_cons_self
    have hrows : ∀ r ∈ rows, Yields f r.1 [r.2] := fun r hr => h r (List.mem_cons_of_mem _ hr)
    have hm : Yields (.many (.seq (.hidden mark) f)) (rows.flatMap fun r => (mark, s) :: r.1)
        (rows.map Prod.snd) := by
      clear h hl
      induction rows with
      | nil => exact yields_manyNil
      | cons r rows ih =>
        have hr : Yields (.seq (.hidden mark) f) ((mark, s) :: r.1) [r.2] :=
          yields_seq yields_hidden (hrows r List.mem_cons_self)
        exact yields_manyCons hr (ih fun q hq => hrows q (List.mem_cons_of_mem _ hq))
    have hw : [(mark, s)].intercalate ((row :: rows).map Prod.fst) =
        row.1 ++ rows.flatMap fun r => (mark, s) :: r.1 := by
      clear h hl hm hrow hrows
      induction rows generalizing row with
      | nil => simp
      | cons r rows ih =>
        have ih := ih r
        simp only [List.map_cons, List.intercalate_cons_cons, List.flatMap_cons] at ih ⊢
        rw [ih]
        simp
    rw [hw]
    exact yields_seq hrow hm

end Forms

section Constructs

/-- How the elements of a construct come from those of the row below it. -/
theorem yields_rule (hc : c.isInlined = false) (h : Yields c.form ws xs)
    (hv : ∀ trees ts, Instantiates c.form trees ts → visitAll (ofSyntaxTrees trees) = .ok xs →
      (ofSyntaxTree (.node c (Token.spanOf ts) trees)).visit = .ok es) :
    Yields (.rule c) ws es := by
  intro ts hts
  obtain ⟨trees, hi, hx⟩ := h ts hts
  refine ⟨_, .node hc hi, ?_⟩
  rw [ofSyntaxTrees, ofSyntaxTrees, Node.visitAll_singleton]
  exact hv trees ts hi hx

theorem yields_plain (hi : c.isInlined = false)
    (hc : c ∉ [.ruleAltList, .altList, .alternative, .element, .ebnf, .block, .atom])
    (h : Yields c.form ws es) : Yields (.rule c) ws es :=
  yields_rule hi h fun _ _ _ hv => (Node.visit_plain hc).trans hv

theorem yields_block (h : Yields Construct.block.form ws es) : Yields (.rule .block) ws es :=
  yields_rule rfl h fun _ _ hi hv => (Node.visit_block hi).trans hv

theorem yields_altList (h : Yields Construct.altList.form ws xs)
    (he : Element.choiceOf xs = .ok e) : Yields (.rule .altList) ws [e] := by
  refine yields_rule rfl h fun trees ts hi hv => ?_
  rw [Node.visit_altList hi, hv]
  show Node.chosen xs = _
  rw [Node.chosen, he]

theorem yields_ruleAltList (h : Yields Construct.ruleAltList.form ws xs)
    (he : Element.choiceOf xs = .ok e) : Yields (.rule .ruleAltList) ws [e] := by
  refine yields_rule rfl h fun trees ts hi hv => ?_
  rw [Node.visit_ruleAltList hi, hv]
  show Node.chosen xs = _
  rw [Node.chosen, he]

theorem yields_alternative (h : Yields (.many (.rule .element)) ws xs)
    (he : Element.seqOf xs = .ok e) : Yields (.rule .alternative) ws [e] := by
  refine yields_rule rfl (yields_skip h) fun trees ts hi hv => ?_
  rw [Node.visit_alternative hi, hv]
  show Node.sequenced _ xs = _
  cases xs with
  | nil => cases he
  | cons x xs =>
    rw [Node.sequenced, he]
    rfl

theorem yields_labeledAlt (h : Yields (.rule .alternative) ws es) :
    Yields (.rule .labeledAlt) ws es := by
  have hn : Yields Construct.labeledAlt.form (ws ++ []) (es ++ []) :=
    yields_seq h (yields_altRight yields_empty)
  rw [List.append_nil, List.append_nil] at hn
  exact yields_plain rfl (by decide) hn

theorem instantiates_token {t : Token} (hk : t.kind = k) :
    Instantiates (.shown k) [.token t] [t] :=
  instantiates_shown_iff.mpr ⟨t, hk, rfl, rfl⟩

theorem instantiates_without {trees : List SyntaxTree} {ts : List Token}
    (h : Instantiates f trees ts) : Instantiates (.seq f g.optional) trees ts := by
  have hs : Instantiates (.seq f g.optional) (trees ++ []) (ts ++ []) :=
    .seq h (.altRight .empty)
  rwa [List.append_nil, List.append_nil] at hs

theorem yields_terminal (hk : k = .tokenName ∨ k = .literal)
    (he : ∀ t : Token, t.word = (k, s) → t.element = e) : Yields (.rule .atom) [(k, s)] [e] := by
  intro ts hts
  obtain ⟨t, rfl, rfl, rfl⟩ := exists_token hts
  have hi : Instantiates Construct.terminal.form [.token t] [t] := by
    rcases hk with hk | hk
    · exact .altLeft (instantiates_without (instantiates_token hk))
    · exact .altRight (instantiates_without (instantiates_token hk))
  refine ⟨_, .node rfl (.altLeft (.node rfl hi)), ?_⟩
  rw [ofSyntaxTrees, ofSyntaxTrees, Node.visitAll_singleton,
    Node.visit_terminal hk (.altRight .empty), he t rfl]

theorem yields_ruleref (he : ∀ t : Token, t.word = (.ruleName, s) → t.element = e) :
    Yields (.rule .atom) [(.ruleName, s)] [e] := by
  intro ts hts
  obtain ⟨t, rfl, hk, rfl⟩ := exists_token hts
  have hn : Instantiates (.seq (.optional (.shown .bracketBlock)) (.optional (.shown .angleBlock)))
      [] [] := instantiates_without (.altRight .empty)
  have hi : Instantiates Construct.ruleref.form [.token t] [t] := .seq (instantiates_token hk) hn
  refine ⟨_, .node rfl (.altRight (.altLeft (.node rfl hi))), ?_⟩
  rw [ofSyntaxTrees, ofSyntaxTrees, Node.visitAll_singleton, Node.visit_ruleref hk,
    he t (congrArg (·, t.text) hk)]

/-- An element with a suffix of one mark. -/
def Element.marked : TokenKind → Element → Element
  | .question, e => .opt e
  | .plus, e => .plus e
  | .star, e => .star e
  | _, e => e

theorem instantiates_suffix {t : Token} (hk : t.kind ∈ [.question, .star, .plus]) :
    Instantiates (.rule .ebnfSuffix) [.node .ebnfSuffix (Token.spanOf [t]) [.token t]] [t] := by
  have hm : Instantiates (.oneOf [.shown .question, .shown .star, .shown .plus])
      [.token t] [t] := by
    simp only [List.mem_cons, List.not_mem_nil, or_false] at hk
    rcases hk with hk | hk | hk
    · exact .altLeft (instantiates_token hk)
    · exact .altRight (.altLeft (instantiates_token hk))
    · exact .altRight (.altRight (instantiates_token hk))
  exact .node rfl (instantiates_without hm)

theorem applySuffix_marked {t : Token} (hk : t.kind ∈ [.question, .star, .plus])
    (span? : Option Text.Span) (e : Element) :
    e.applySuffix (some (ofSyntaxTree (.node .ebnfSuffix span? [.token t]))) =
      e.marked t.kind := by
  obtain ⟨k, text, span⟩ := t
  simp only [List.mem_cons, List.not_mem_nil, or_false] at hk
  rcases hk with rfl | rfl | rfl <;> rfl

theorem yields_element_atom (h : Yields (.rule .atom) ws [e]) :
    Yields (.rule .element) ws [e] := by
  intro ts hts
  obtain ⟨trees, hi, hv⟩ := h ts hts
  obtain ⟨cs, rfl, -⟩ := (instantiates_node_iff rfl).mp hi
  refine ⟨_, .node rfl (.altRight (.altLeft (instantiates_without hi))), ?_⟩
  rw [ofSyntaxTrees, ofSyntaxTrees, Node.visitAll_singleton, Node.visit_element, hv]
  rfl

theorem yields_element_ebnf (h : Yields (.rule .ebnf) ws [e]) :
    Yields (.rule .element) ws [e] := by
  intro ts hts
  obtain ⟨trees, hi, hv⟩ := h ts hts
  obtain ⟨cs, rfl, -⟩ := (instantiates_node_iff rfl).mp hi
  refine ⟨_, .node rfl (.altRight (.altRight (.altLeft hi))), ?_⟩
  rw [ofSyntaxTrees, ofSyntaxTrees, Node.visitAll_singleton, Node.visit_element, hv]
  rfl

theorem yields_ebnf (h : Yields (.rule .block) ws [e]) : Yields (.rule .ebnf) ws [e] := by
  intro ts hts
  obtain ⟨trees, hi, hv⟩ := h ts hts
  obtain ⟨cs, rfl, -⟩ := (instantiates_node_iff rfl).mp hi
  have hf : Instantiates Construct.ebnf.form _ ts := instantiates_without hi
  refine ⟨_, .node rfl hf, ?_⟩
  rw [ofSyntaxTrees, ofSyntaxTrees, Node.visitAll_singleton, Node.visit_ebnf hf, hv]
  rfl

/-- The tokens of a suffixed text are those of the text and one mark. -/
theorem exists_mark_of_map {ts : List Token} (h : ts.map Token.word = ws ++ [(k, s)]) :
    ∃ us t, ts = us ++ [t] ∧ us.map Token.word = ws ∧ t.kind = k := by
  obtain ⟨us, vs, rfl, hus, hvs⟩ := List.map_eq_append_iff.mp h
  obtain ⟨t, rfl, hk, -⟩ := exists_token hvs
  exact ⟨us, t, rfl, hus, hk⟩

theorem yields_element_marked (hk : k ∈ [.question, .star, .plus])
    (h : Yields (.rule .atom) ws [e]) :
    Yields (.rule .element) (ws ++ [(k, s)]) [e.marked k] := by
  intro ts hts
  obtain ⟨us, t, rfl, hus, rfl⟩ := exists_mark_of_map hts
  obtain ⟨trees, hi, hv⟩ := h us hus
  obtain ⟨cs, rfl, -⟩ := (instantiates_node_iff rfl).mp hi
  have hs := instantiates_suffix hk
  refine ⟨_, .node rfl (.altRight (.altLeft (.seq hi (.altLeft hs)))), ?_⟩
  have hn := Node.visitAll_of_yield?_zero hs (by decide)
  rw [ofSyntaxTrees, ofSyntaxTrees, Node.visitAll_singleton, Node.visit_element,
    Node.ofSyntaxTrees_append, Node.visitAll_append_empty hn, hv]
  exact congrArg (fun e => Except.ok [e]) (applySuffix_marked hk _ e)

theorem yields_ebnf_marked (hk : k ∈ [.question, .star, .plus])
    (h : Yields (.rule .block) ws [e]) :
    Yields (.rule .ebnf) (ws ++ [(k, s)]) [e.marked k] := by
  intro ts hts
  obtain ⟨us, t, rfl, hus, rfl⟩ := exists_mark_of_map hts
  obtain ⟨trees, hi, hv⟩ := h us hus
  obtain ⟨cs, rfl, -⟩ := (instantiates_node_iff rfl).mp hi
  have hs : Instantiates (.rule .blockSuffix) _ [t] := .node rfl (instantiates_suffix hk)
  have hf : Instantiates Construct.ebnf.form _ (us ++ [t]) := .seq hi (.altLeft hs)
  refine ⟨_, .node rfl hf, ?_⟩
  have hn := Node.visitAll_of_yield?_zero hs (by decide)
  rw [ofSyntaxTrees, ofSyntaxTrees, Node.visitAll_singleton, Node.visit_ebnf hf,
    Node.ofSyntaxTrees_append, Node.visitAll_append_empty hn, hv]
  exact congrArg (fun e => Except.ok [e]) (applySuffix_marked hk _ e)

end Constructs

end GrammarDoc
