import GrammarDoc.Proofs.Extraction.Bare
import GrammarDoc.Proofs.Extraction.Failing
import GrammarDoc.Proofs.Extraction.Parts

namespace GrammarDoc

open Parsing (Form)
open Source (Construct SyntaxTree Token TokenKind)
open Source.SyntaxTree
open Node (ofSyntaxTree ofSyntaxTrees visitAll visit)
open ExtractionError (unplaced)

variable {p c : Construct} {f : Form TokenKind Construct} {trees : List SyntaxTree}
variable {ts : List Token} {span? : Option Text.Span} {ns : List Node} {line? : Option Int}

namespace Node

theorem kind?_tree (c : Construct) (line? : Option Int) (ns : List Node) :
    (tree c.label line? ns).kind? = c.kind? :=
  Construct.ofLabel?_label c

theorem visit_tree_plain
    (hc : c ∉ [.ruleAltList, .altList, .alternative, .element, .ebnf, .block, .atom]) :
    (tree c.label line? ns).visit = visitAll ns := by
  simp only [List.mem_cons, List.not_mem_nil, or_false, not_or] at hc
  rw [visit, Construct.ofLabel?_label]
  cases c <;> first | rfl | simp at hc

theorem visitEach_of_kind (kind : NodeKind) (h : ∀ n ∈ ns, n.kind? = some kind) :
    visitEach kind ns = visitAll ns :=
  visitEach_eq_visitAll fun n hn => .inl (h n hn)

theorem visitFirst_singleton {kind : NodeKind} {n : Node} (h : n.kind? = some kind) :
    visitFirst kind [n] = visitAll [n] :=
  visitFirst_eq_visitAll [] h (by simp) rfl rfl

theorem visitLabeled_of_kind
    (h : ∀ n ∈ ns, ∃ m, n = tree Construct.labeledAlt.label none [m] ∧
      m.kind? = some .alternative) :
    visitLabeled ns = visitAll ns := by
  induction ns with
  | nil => rfl
  | cons n ns ih =>
    obtain ⟨m, rfl, hm⟩ := h n List.mem_cons_self
    have ih := ih fun n hn => h n (List.mem_cons_of_mem _ hn)
    have hk : NodeKind.ofLabel? Construct.labeledAlt.label = some .labeledAlt := by decide
    have hv : (tree Construct.labeledAlt.label none [m]).visit = visitAll [m] :=
      visit_tree_plain (by decide)
    rw [visitLabeled, if_pos hk, visitFirst_singleton hm, ih, ← hv]
    rfl

end Node

section Visited

/-- A suffix as extraction sees it; its second mark makes no difference. -/
theorem bare_of_ebnfSuffix (p : Construct)
    (h : Instantiates (.optional (.rule .ebnfSuffix)) trees ts) :
    (trees = [] ∧ bareAllIn p trees = []) ∨
      ∃ span? cs suffix, trees = [.node .ebnfSuffix span? cs] ∧ bareAllIn p trees = [suffix] ∧
        suffix.kind? = some .ebnfSuffix ∧ suffix.visit = .ok [] ∧ ∀ e : Element,
          e.applySuffix suffix = e.applySuffix (ofSyntaxTree (.node .ebnfSuffix span? cs)) := by
  rcases instantiates_optional_iff.mp h with h | ⟨rfl, -⟩
  · obtain ⟨cs, rfl, hi⟩ := (instantiates_node_iff rfl).mp h
    obtain ⟨⟨k, text, span⟩, hk, hcs⟩ := exists_mark hi
    refine .inr ⟨Token.spanOf ts, cs, .tree Construct.ebnfSuffix.label none [.token k.label ""],
      rfl, ?_, rfl, rfl, fun e => ?_⟩
    · rw [bareAllIn_node (by cases p <;> rfl)]
      rcases hk with rfl | rfl | rfl <;> rcases hcs with rfl | ⟨⟨_, _, _⟩, rfl, rfl⟩ <;> rfl
    · rcases hk with rfl | rfl | rfl <;> rcases hcs with rfl | ⟨⟨_, _, _⟩, rfl, rfl⟩ <;> rfl
  · exact .inl ⟨rfl, rfl⟩

theorem bare_of_blockSuffix (h : Instantiates (.optional (.rule .blockSuffix)) trees ts) :
    (trees = [] ∧ bareAllIn .ebnf trees = []) ∨
      ∃ span? cs span?' suffix, trees = [.node .blockSuffix span? [.node .ebnfSuffix span?' cs]] ∧
        bareAllIn .ebnf trees = [suffix] ∧ suffix.kind? = some .ebnfSuffix ∧
        suffix.visit = .ok [] ∧ ∀ e : Element,
          e.applySuffix suffix = e.applySuffix (ofSyntaxTree (.node .ebnfSuffix span?' cs)) := by
  rcases instantiates_optional_iff.mp h with h | ⟨rfl, -⟩
  · obtain ⟨_, rfl, hi⟩ := (instantiates_node_iff rfl).mp h
    obtain ⟨cs, rfl, -⟩ := (instantiates_node_iff rfl).mp hi
    rcases bare_of_ebnfSuffix .blockSuffix (.altLeft hi) with ⟨hn, -⟩ | ⟨_, _, suffix, he, hb, hs⟩
    · cases hn
    · cases he
      exact .inr ⟨_, cs, _, suffix, rfl, by rw [bareAllIn_node rfl, hb]; rfl, hs⟩
  · exact .inl ⟨rfl, rfl⟩

/-- What is left of something that may have a suffix, and the suffix. -/
theorem visit_bare_suffixed {first : Node} {suffixes : List Node} {suffix? : Option Node}
    {x : Except ExtractionError (List Element)} (hk : first.kind? ≠ some .ebnfSuffix)
    (hs : (suffixes = [] ∧ suffix? = none) ∨ ∃ s s', suffixes = [s] ∧ suffix? = some s' ∧
      s.kind? = some .ebnfSuffix ∧ s.visit = .ok [] ∧
      ∀ e : Element, e.applySuffix s = e.applySuffix s')
    (hv : visitAll (first :: suffixes) = x.mapError unplaced) :
    visit (.tree Construct.element.label none (first :: suffixes)) =
      (do return (← x).map (Element.applySuffix suffix?)).mapError unplaced := by
  have hn : (first.kind? == some .ebnfSuffix) = false := by simpa using hk
  have he : (Node.tree Construct.element.label none (first :: suffixes)).child? .ebnfSuffix =
      suffixes.find? (·.kind? == some .ebnfSuffix) := by
    rw [Node.child?, Node.children, List.find?_cons_of_neg (by simp [hn])]
  have hvisit : visit (.tree Construct.element.label none (first :: suffixes)) = do
      return (← visitAll (first :: suffixes)).map (Element.applySuffix
        ((Node.tree Construct.element.label none (first :: suffixes)).child? .ebnfSuffix)) := rfl
  rw [hvisit, hv, he]
  rcases hs with ⟨rfl, rfl⟩ | ⟨s, s', rfl, rfl, hs, -, ha⟩
  · cases x <;> rfl
  · have ha : Element.applySuffix (some s) = Element.applySuffix (some s') := funext ha
    rw [List.find?_cons_of_pos (by simp [hs]), ha]
    cases x <;> rfl

/-- A label leaves the atom or the block that it stands on. -/
theorem bare_of_labeledElement (h : Instantiates Construct.labeledElement.form trees ts) :
    ∃ n, bareAllIn .labeledElement trees = [n] ∧
      (n.kind? = some .atom ∨ n.kind? = some .block) := by
  obtain ⟨_, _, _, _, rfl, -, h₁, h₂⟩ := instantiates_seq_iff.mp h
  obtain ⟨_, _, _, _, rfl, -, h₃, h₄⟩ := instantiates_seq_iff.mp h₂
  have hname := bareAllIn_eq_nil (p := .labeledElement) h₁ (by decide) (by decide)
  have hmark := bareAllIn_eq_nil (p := .labeledElement) h₃ (by decide) (by decide)
  rw [bareAllIn_append, bareAllIn_append, hname, hmark]
  rcases instantiates_alt_iff.mp h₄ with h₄ | h₄ <;>
    obtain ⟨cs, rfl, -⟩ := (instantiates_node_iff rfl).mp h₄ <;>
    refine ⟨_, bareAllIn_node rfl, ?_⟩
  · exact .inl (Node.kind?_tree .atom none _)
  · exact .inr (Node.kind?_tree .block none _)

theorem visit_bare_ebnf (h : Instantiates Construct.ebnf.form trees ts)
    (ih : visitAll (bareAllIn .ebnf trees) = (visitAll (ofSyntaxTrees trees)).mapError unplaced) :
    visit (.tree Construct.element.label none (bareAllIn .ebnf trees)) =
      (visit (ofSyntaxTree (.node .ebnf span? trees))).mapError unplaced := by
  rw [Node.visit_ebnf h]
  obtain ⟨_, suffixes, us, _, rfl, -, h₁, h₂⟩ := instantiates_seq_iff.mp h
  obtain ⟨cs, rfl, -⟩ := (instantiates_node_iff rfl).mp h₁
  have hb : bareAllIn .ebnf ([.node .block (Token.spanOf us) cs] ++ suffixes) =
      .tree Construct.block.label none (bareAllIn .block cs) :: bareAllIn .ebnf suffixes := rfl
  rw [hb] at ih ⊢
  refine visit_bare_suffixed (by rw [Node.kind?_tree]; decide) ?_ ih
  rcases bare_of_blockSuffix h₂ with ⟨rfl, hn⟩ | ⟨_, ds, _, s, rfl, hs, hk, hv, ha⟩
  · exact .inl ⟨hn, rfl⟩
  · exact .inr ⟨s, _, hs, rfl, hk, hv, ha⟩

/-- An element that is no action and no block keeps its suffix. -/
theorem visitAll_bare_of_suffixed {first suffixes : List SyntaxTree} {us : List Token} {n : Node}
    (hs : Instantiates (.optional (.rule .ebnfSuffix)) suffixes us)
    (hn : bareAllIn .element first = [n]) (hk : n.kind? = some .atom ∨ n.kind? = some .block)
    (hfirst : ∃ d s cs, first = [.node d s cs] ∧ d.kind? ≠ some .ebnfSuffix)
    (ih : visitAll (bareAllIn .element (first ++ suffixes)) =
      (visitAll (ofSyntaxTrees (first ++ suffixes))).mapError unplaced) :
    visitAll (Construct.element.around (bareAllIn .element (first ++ suffixes))) =
      (visit (ofSyntaxTree (.node .element span? (first ++ suffixes)))).mapError unplaced := by
  obtain ⟨d, s, cs, rfl, hd⟩ := hfirst
  have hb : bareAllIn .element ([.node d s cs] ++ suffixes) = n :: bareAllIn .element suffixes := by
    rw [bareAllIn_append, hn]
    rfl
  rw [hb] at ih ⊢
  have hall : (n :: bareAllIn .element suffixes).all (·.kind? == some .element) = false := by
    rcases hk with hk | hk <;> rw [List.all_cons, hk] <;> rfl
  rw [Construct.around, if_neg (by simp [hall]), Node.visitAll_singleton, Node.visit_element]
  have hne : n.kind? ≠ some .ebnfSuffix := by rcases hk with hk | hk <;> rw [hk] <;> decide
  refine visit_bare_suffixed hne ?_ ih
  have hc : (ofSyntaxTree (.node .element span? ([.node d s cs] ++ suffixes))).child? .ebnfSuffix =
      (ofSyntaxTrees suffixes).find? (·.kind? == some .ebnfSuffix) := by
    have hd' : ((ofSyntaxTree (.node d s cs)).kind? == some .ebnfSuffix) = false := by
      simpa [Node.kind?_ofSyntaxTree] using hd
    exact List.find?_cons_of_neg (by simp [hd'])
  rcases bare_of_ebnfSuffix .element hs with ⟨rfl, hn⟩ | ⟨_, ds, s, rfl, hs, hk, hv, ha⟩
  · exact .inl ⟨hn, hc⟩
  · exact .inr ⟨s, _, hs, hc, hk, hv, ha⟩

theorem visitAll_bare_element (h : Instantiates Construct.element.form trees ts)
    (ih : visitAll (bareAllIn .element trees) =
      (visitAll (ofSyntaxTrees trees)).mapError unplaced) :
    visitAll (Construct.element.around (bareAllIn .element trees)) =
      (visit (ofSyntaxTree (.node .element span? trees))).mapError unplaced := by
  rcases instantiates_alt_iff.mp h with h | h
  · obtain ⟨_, _, _, _, rfl, -, h₁, h₂⟩ := instantiates_seq_iff.mp h
    obtain ⟨cs, rfl, hi⟩ := (instantiates_node_iff rfl).mp h₁
    obtain ⟨n, hn, hk⟩ := bare_of_labeledElement hi
    exact visitAll_bare_of_suffixed h₂ ((bareAllIn_node rfl).trans hn) hk
      ⟨_, _, cs, rfl, by decide⟩ ih
  rcases instantiates_alt_iff.mp h with h | h
  · obtain ⟨_, _, _, _, rfl, -, h₁, h₂⟩ := instantiates_seq_iff.mp h
    obtain ⟨cs, rfl, -⟩ := (instantiates_node_iff rfl).mp h₁
    exact visitAll_bare_of_suffixed h₂ (bareAllIn_node rfl) (.inl (Node.kind?_tree .atom none _))
      ⟨_, _, cs, rfl, by decide⟩ ih
  rcases instantiates_alt_iff.mp h with h | h
  · obtain ⟨cs, rfl, -⟩ := (instantiates_node_iff rfl).mp h
    have hb : bareAllIn .element [.node .ebnf (Token.spanOf ts) cs] =
        [.tree Construct.element.label none (bareAllIn .ebnf cs)] := rfl
    have hall : [Node.tree Construct.element.label none (bareAllIn .ebnf cs)].all
        (·.kind? == some .element) := by
      rw [List.all_cons, Node.kind?_tree]
      rfl
    have hsuffix : (ofSyntaxTree (.node .element span?
        [.node .ebnf (Token.spanOf ts) cs])).child? .ebnfSuffix = none := rfl
    rw [hb] at ih ⊢
    rw [Construct.around, if_pos hall, ih, Node.visit_element, hsuffix]
    cases visitAll (ofSyntaxTrees [.node .ebnf (Token.spanOf ts) cs]) with
    | error => rfl
    | ok es => exact congrArg Except.ok (List.map_id es).symm
  · have hnil := bareAllIn_eq_nil (p := .element) h (by decide) (by decide)
    have hv := Node.visitAll_of_yield?_zero h (by decide)
    rw [hnil, Node.visit_element, hv]
    rfl

theorem bare_of_labeledAlt (h : Instantiates Construct.labeledAlt.form trees ts) :
    ∃ n, bareAllIn .labeledAlt trees = [n] ∧ n.kind? = some .alternative := by
  obtain ⟨_, _, _, _, rfl, -, h₁, h₂⟩ := instantiates_seq_iff.mp h
  obtain ⟨cs, rfl, -⟩ := (instantiates_node_iff rfl).mp h₁
  have hlabel := bareAllIn_eq_nil (p := .labeledAlt) h₂ (by decide) (by decide)
  rw [bareAllIn_append, hlabel, List.append_nil]
  exact ⟨_, bareAllIn_node rfl, Node.kind?_tree .alternative none _⟩

theorem bare_of_block (h : Instantiates Construct.block.form trees ts) :
    ∃ n, bareAllIn .block trees = [n] ∧ n.kind? = some .altList := by
  obtain ⟨_, _, _, _, rfl, -, h₁, h₂⟩ := instantiates_seq_iff.mp h
  obtain ⟨_, -, rfl, -⟩ := instantiates_hidden_iff.mp h₁
  obtain ⟨_, _, _, _, rfl, -, h₃, h₄⟩ := instantiates_seq_iff.mp h₂
  obtain ⟨_, _, _, _, rfl, -, h₅, h₆⟩ := instantiates_seq_iff.mp h₄
  obtain ⟨cs, rfl, -⟩ := (instantiates_node_iff rfl).mp h₅
  obtain ⟨_, -, rfl, -⟩ := instantiates_hidden_iff.mp h₆
  have hprequel := bareAllIn_eq_nil (p := .block) h₃ (by decide) (by decide)
  rw [List.nil_append, List.append_nil, bareAllIn_append, hprequel, List.nil_append]
  exact ⟨_, bareAllIn_node rfl, Node.kind?_tree .altList none _⟩

theorem visit_bare_ruleAltList (h : Instantiates Construct.ruleAltList.form trees ts) :
    visit (.tree Construct.ruleAltList.label none (bareAllIn .ruleAltList trees)) =
      visitAll (bareAllIn .ruleAltList trees) >>= Node.chosen := by
  have hn : ∀ t ∈ trees, ∃ cs us, t = .node .labeledAlt (Token.spanOf us) cs ∧ _ :=
    exists_node_of_instantiates rfl h rfl (by decide)
  rw [← Node.visitLabeled_of_kind]
  · rfl
  clear h
  induction trees with
  | nil => simp [bareAllIn]
  | cons t trees ih =>
    obtain ⟨cs, us, rfl, hi⟩ := hn t List.mem_cons_self
    have ih := ih fun t ht => hn t (List.mem_cons_of_mem _ ht)
    obtain ⟨m, hm, hk⟩ := bare_of_labeledAlt hi
    have hb : bareIn .ruleAltList (.node .labeledAlt (Token.spanOf us) cs) =
        [.tree Construct.labeledAlt.label none (bareAllIn .labeledAlt cs)] := rfl
    rw [bareAllIn, hb, hm]
    exact List.forall_mem_cons.mpr ⟨⟨m, rfl, hk⟩, ih⟩

theorem visit_bare_altList (h : Instantiates Construct.altList.form trees ts) :
    visit (.tree Construct.altList.label none (bareAllIn .altList trees)) =
      visitAll (bareAllIn .altList trees) >>= Node.chosen := by
  rw [← Node.visitEach_of_kind .alternative]
  · rfl
  refine kind?_of_mem_bareAllIn (c := .alternative) rfl ?_
    (exists_node_of_instantiates rfl h rfl (by decide))
  intro parts n hn
  cases List.mem_singleton.mp hn
  exact Node.kind?_tree .alternative none parts

theorem visit_bare_alternative (h : Instantiates Construct.alternative.form trees ts) :
    visit (.tree Construct.alternative.label none (bareAllIn .alternative trees)) =
      visitAll (bareAllIn .alternative trees) >>= Node.sequenced none := by
  obtain ⟨options, elements, _, _, rfl, -, h₁, h₂⟩ := instantiates_seq_iff.mp h
  have hoptions := bareAllIn_eq_nil (p := .alternative) h₁ (by decide) (by decide)
  rw [bareAllIn_append, hoptions, List.nil_append, ← Node.visitEach_of_kind .element]
  · rfl
  refine kind?_of_mem_bareAllIn (c := .element) rfl ?_
    (exists_node_of_instantiates rfl h₂ rfl (by decide))
  intro parts n hn
  rw [Construct.around] at hn
  split at hn
  next hall => simpa using List.all_eq_true.mp hall n hn
  next =>
    cases List.mem_singleton.mp hn
    exact Node.kind?_tree .element none parts

theorem visit_bare_block (h : Instantiates Construct.block.form trees ts) :
    visit (.tree Construct.block.label none (bareAllIn .block trees)) =
      visitAll (bareAllIn .block trees) := by
  obtain ⟨n, hn, hk⟩ := bare_of_block h
  rw [hn, ← Node.visitFirst_singleton hk]
  rfl

/-- An atom keeps the name or the literal that it consists of, and the kind of what cannot be
read. -/
theorem visit_bare_atom (h : Instantiates Construct.atom.form trees ts) :
    visit (.tree Construct.atom.label none (bareAllIn .atom trees)) =
      (visit (ofSyntaxTree (.node .atom span? trees))).mapError unplaced := by
  rcases instantiates_alt_iff.mp h with h | h
  · obtain ⟨cs, rfl, hi⟩ := (instantiates_node_iff rfl).mp h
    obtain ⟨⟨k, text, span⟩, rest, us, hk, rfl, rfl, hr⟩ := Node.exists_token_of_terminal hi
    rw [Node.visit_terminal hk hr]
    rcases hk with rfl | rfl <;>
      rcases Node.options_of_instantiates hr with rfl | ⟨⟨_, _, _⟩, rfl, rfl⟩ <;> rfl
  rcases instantiates_alt_iff.mp h with h | h
  · obtain ⟨cs, rfl, hi⟩ := (instantiates_node_iff rfl).mp h
    obtain ⟨⟨k, text, span⟩, rest, us, rfl, rfl, rfl, -⟩ := Node.exists_token_of_ruleref hi
    rw [Node.visit_ruleref rfl]
    rfl
  rcases instantiates_alt_iff.mp h with h | h <;>
    obtain ⟨cs, rfl, -⟩ := (instantiates_node_iff rfl).mp h
  · rw [Node.visit_set_or_wildcard (.inl rfl)]
    rfl
  · rw [Node.visit_set_or_wildcard (.inr rfl)]
    rfl

theorem visitAll_bare_ebnfSuffix (h : Instantiates Construct.ebnfSuffix.form trees ts) :
    visitAll (Construct.ebnfSuffix.around (bareAllIn .ebnfSuffix trees)) = .ok [] := by
  have hn : Instantiates (.optional (.rule .ebnfSuffix))
      [.node .ebnfSuffix (Token.spanOf ts) trees] ts := .altLeft (.node rfl h)
  rcases bare_of_ebnfSuffix .element hn with ⟨hn, -⟩ | ⟨_, _, suffix, -, hb, -, hv, -⟩
  · cases hn
  · rw [bareAllIn_node rfl] at hb
    rw [hb, Node.visitAll_singleton, hv]

theorem around_eq (parts : List Node)
    (hc : c ∉ [.labeledElement, .blockSuffix, .ebnf, .element, .ruleSpec, .ebnfSuffix]) :
    c.around parts = [.tree c.label none parts] := by
  cases c <;> first | rfl | simp at hc

/-- What is left of a node stands for the same elements as the node. -/
theorem visitAll_around (hc : c.isReadable) (h : Instantiates c.form trees ts)
    (ih : c ≠ .atom →
      visitAll (bareAllIn c trees) = (visitAll (ofSyntaxTrees trees)).mapError unplaced) :
    visitAll (c.around (bareAllIn c trees)) =
      (visit (ofSyntaxTree (.node c span? trees))).mapError unplaced := by
  cases c with
  | ruleAltList =>
    rw [around_eq _ (by decide), Node.visitAll_singleton, visit_bare_ruleAltList h,
      ih (by decide), Node.visit_ruleAltList h, mapError_bind]
    simp only [mapError_chosen]
  | altList =>
    rw [around_eq _ (by decide), Node.visitAll_singleton, visit_bare_altList h,
      ih (by decide), Node.visit_altList h, mapError_bind]
    simp only [mapError_chosen]
  | alternative =>
    rw [around_eq _ (by decide), Node.visitAll_singleton, visit_bare_alternative h,
      ih (by decide), Node.visit_alternative h, mapError_bind]
    simp only [mapError_sequenced]
  | element => exact visitAll_bare_element h (ih (by decide))
  | ebnf =>
    rw [Construct.around, Node.visitAll_singleton]
    exact visit_bare_ebnf h (ih (by decide))
  | block =>
    rw [around_eq _ (by decide), Node.visitAll_singleton, visit_bare_block h,
      Node.visit_block h, ih (by decide)]
  | atom =>
    rw [around_eq _ (by decide), Node.visitAll_singleton]
    exact visit_bare_atom h
  | ebnfSuffix =>
    rw [visitAll_bare_ebnfSuffix h, Node.visit_plain (by decide),
      Node.visitAll_of_yield?_zero h (by decide)]
    rfl
  | labeledElement | blockSuffix =>
    rw [Node.visit_plain (by decide), ← ih (by decide)]
    rfl
  | _ =>
    first
    | exact absurd hc (by decide)
    | rw [around_eq _ (by decide), Node.visitAll_singleton, Node.visit_tree_plain (by decide),
        Node.visit_plain (by decide), ih (by decide)]

theorem yield?_of_ignores (hc : c.isReadable) (hp : p.ignores c) : c.yield? = some 0 := by
  cases c <;> first | rfl | exact absurd hc (by decide) | cases hp

/-- Decorations and places stand for no element, and tell errors apart by their lines only. -/
theorem visitAll_bareAllIn (p : Construct) (h : Instantiates f trees ts)
    (hf : ∀ c ∈ f.names, c.isReadable) :
    visitAll (bareAllIn p trees) = (visitAll (ofSyntaxTrees trees)).mapError unplaced := by
  induction h generalizing p with
  | empty => rfl
  | shown t =>
    rw [bareAllIn_singleton, bareIn]
    split <;> rfl
  | hidden => rfl
  | @node c trees ts hi h ih =>
    have hc := hf c (List.mem_singleton_self c)
    rw [ofSyntaxTrees, ofSyntaxTrees, Node.visitAll_singleton]
    cases hp : p.ignores c with
    | true =>
      have hv : visitAll (ofSyntaxTrees [.node c (Token.spanOf ts) trees]) = .ok [] :=
        Node.visitAll_of_yield?_zero (.node hi h) (yield?_of_ignores hc hp)
      rw [ofSyntaxTrees, ofSyntaxTrees, Node.visitAll_singleton] at hv
      rw [bareAllIn_ignored hp, hv]
      rfl
    | false =>
      rw [bareAllIn_node hp]
      exact visitAll_around hc h fun ha => ih c fun d hd => isReadable_of_mem_names hc ha hd
  | @inlined c _ _ hi _ ih =>
    have hc := hf c (List.mem_singleton_self c)
    have ha : c ≠ .atom := by
      rintro rfl
      cases hi
    exact ih p fun d hd => isReadable_of_mem_names hc ha hd
  | seq _ _ ihf ihg =>
    simp only [Form.names, List.mem_append] at hf
    rw [bareAllIn_append, Node.ofSyntaxTrees_append, Node.visitAll_append, Node.visitAll_append,
      mapError_append, ihf p fun c hc => hf c (.inl hc), ihg p fun c hc => hf c (.inr hc)]
  | altLeft _ ih => exact ih p fun c hc => hf c (List.mem_append_left _ hc)
  | altRight _ ih => exact ih p fun c hc => hf c (List.mem_append_right _ hc)
  | manyNil => rfl
  | manyCons _ _ ihf ihm =>
    rw [bareAllIn_append, Node.ofSyntaxTrees_append, Node.visitAll_append, Node.visitAll_append,
      mapError_append, ihf p hf, ihm p hf]

end Visited

section Rules

theorem unplaced_within (e : ExtractionError) (name : String) :
    (e.within name).unplaced = e.unplaced.within name := by
  cases e <;> rfl

theorem ruleOf_bare (h : Instantiates Construct.parserRuleSpec.form trees ts) :
    (Node.tree Construct.parserRuleSpec.label none (bareAllIn .parserRuleSpec trees)).ruleOf =
      (ofSyntaxTree (.node .parserRuleSpec span? trees)).ruleOf.mapError unplaced := by
  have hv : visitAll (bareAllIn .parserRuleSpec trees) =
      (visitAll (ofSyntaxTrees trees)).mapError unplaced :=
    visitAll_bareAllIn .parserRuleSpec h (by decide)
  have hname : (Node.tree Construct.parserRuleSpec.label none
      (bareAllIn .parserRuleSpec trees)).childText? "RULE_REF" =
      (ofSyntaxTree (.node .parserRuleSpec span? trees)).childText? "RULE_REF" := by
    obtain ⟨_, _, _, _, rfl, -, h₁, -⟩ := instantiates_seq_iff.mp h
    obtain ⟨⟨k, text, span⟩, rfl, rfl, -⟩ := instantiates_shown_iff.mp h₁
    rfl
  unfold Node.ruleOf
  rw [Node.visit_tree_plain (by decide), Node.visit_plain (by decide), hv, hname]
  cases visitAll (ofSyntaxTrees trees) with
  | error e => exact congrArg Except.error (unplaced_within e _).symm
  | ok es => cases es <;> rfl

theorem mapM_ruleOf_bare
    (h : ∀ t ∈ trees, ∃ cs us, t = .node .ruleSpec (Token.spanOf us) cs ∧
      Instantiates Construct.ruleSpec.form cs us) :
    ((bareAllIn .rules trees).filterMap (Node.child? .parserRuleSpec)).mapM Node.ruleOf =
      (((parserRulesOfAll trees).map ofSyntaxTree).mapM Node.ruleOf).mapError unplaced := by
  induction trees with
  | nil => rfl
  | cons t trees ih =>
    obtain ⟨cs, us, rfl, hi⟩ := h t List.mem_cons_self
    have ih := ih fun t ht => h t (List.mem_cons_of_mem _ ht)
    rcases instantiates_alt_iff.mp hi with hi | hi <;>
      obtain ⟨ds, rfl, hd⟩ := (instantiates_node_iff rfl).mp hi
    · have hb : (bareAllIn .rules (.node .ruleSpec (Token.spanOf us)
          [.node .parserRuleSpec (Token.spanOf us) ds] :: trees)).filterMap
            (Node.child? .parserRuleSpec) =
          .tree Construct.parserRuleSpec.label none (bareAllIn .parserRuleSpec ds) ::
            (bareAllIn .rules trees).filterMap (Node.child? .parserRuleSpec) := rfl
      have hp : (parserRulesOfAll (.node .ruleSpec (Token.spanOf us)
          [.node .parserRuleSpec (Token.spanOf us) ds] :: trees)).map ofSyntaxTree =
          ofSyntaxTree (.node .parserRuleSpec (Token.spanOf us) ds) ::
            (parserRulesOfAll trees).map ofSyntaxTree := rfl
      rw [hb, hp, List.mapM_cons, List.mapM_cons, ih, ruleOf_bare hd, mapError_bind]
      cases (ofSyntaxTree (.node .parserRuleSpec (Token.spanOf us) ds)).ruleOf with
      | error => rfl
      | ok r => cases ((parserRulesOfAll trees).map ofSyntaxTree).mapM Node.ruleOf <;> rfl
    · have hb : bareAllIn .rules (.node .ruleSpec (Token.spanOf us)
          [.node .lexerRuleSpec (Token.spanOf us) ds] :: trees) = bareAllIn .rules trees := rfl
      have hp : parserRulesOfAll (.node .ruleSpec (Token.spanOf us)
          [.node .lexerRuleSpec (Token.spanOf us) ds] :: trees) = parserRulesOfAll trees := by
        have hn := (no_rules_of_instantiates hi (by decide)).1
        rw [parserRulesOfAll, parserRules, if_neg (by decide), hn]
        rfl
      rw [hb, hp, ih]

/-- Of a grammar its declaration and its parser rules are left. -/
theorem bareAllIn_grammarSpec (span? : Option Text.Span)
    (h : Instantiates Construct.grammarSpec.form trees ts) :
    ∃ decl rules, bareAllIn .grammarSpec trees =
        [.tree Construct.grammarDecl.label none decl,
          .tree Construct.rules.label none (bareAllIn .rules rules)] ∧
      (SyntaxTree.node .grammarSpec span? trees).parserRules = parserRulesOfAll rules ∧
      ∀ t ∈ rules, ∃ cs us, t = .node .ruleSpec (Token.spanOf us) cs ∧
        Instantiates Construct.ruleSpec.form cs us := by
  obtain ⟨decl, prequels, rules, modes, us, vs, rs, ms, hparts, rfl, -⟩ :=
    instantiates_grammarSpec_iff.mp h
  have hprequels := bareAllIn_eq_nil (p := .grammarSpec) hparts.prequels (by decide) (by decide)
  have hmodes := bareAllIn_eq_nil (p := .grammarSpec) hparts.modes (by decide) (by decide)
  refine ⟨bareAllIn .grammarDecl decl, rules, ?_, hparts.parserRules _ _ _,
    exists_node_of_instantiates rfl hparts.rules rfl (by decide)⟩
  rw [bareAllIn_append, bareAllIn_append, bareAllIn_append, hprequels, hmodes]
  rfl

end Rules

def ConversionError.unplaced : ConversionError → ConversionError
  | .refused refusal => .refused refusal
  | .extraction e => .extraction e.unplaced

section Conversion

variable {text text' : String} {tree tree' : SyntaxTree}

theorem mapError_extraction {α : Type} (x : Except ExtractionError α) :
    (x.mapError ConversionError.extraction).mapError ConversionError.unplaced =
      (x.mapError unplaced).mapError ConversionError.extraction := by
  cases x <;> rfl

/-- Up to the lines in its errors, what the parser rules of a tree give depends on nothing but the
bare tree. -/
theorem mapM_ruleOf_of_bare {ts' : List Token} (h : Instantiates (.rule .grammarSpec) [tree] ts)
    (h' : Instantiates (.rule .grammarSpec) [tree'] ts') (hb : tree.bare = tree'.bare) :
    ((tree.parserRules.map ofSyntaxTree).mapM Node.ruleOf).mapError unplaced =
      ((tree'.parserRules.map ofSyntaxTree).mapM Node.ruleOf).mapError unplaced := by
  obtain ⟨cs, hc, hi⟩ := (instantiates_node_iff rfl).mp h
  obtain ⟨cs', hc', hi'⟩ := (instantiates_node_iff rfl).mp h'
  cases hc
  cases hc'
  obtain ⟨decl, rules, hcs, hp, hr⟩ := bareAllIn_grammarSpec (Token.spanOf ts) hi
  obtain ⟨decl', rules', hcs', hp', hr'⟩ := bareAllIn_grammarSpec (Token.spanOf ts') hi'
  have hparts : bareAllIn .grammarSpec cs = bareAllIn .grammarSpec cs' := by
    simpa [bare, bareIn, Construct.ignores, Construct.around] using hb
  have hrules : bareAllIn .rules rules = bareAllIn .rules rules' := by
    rw [hcs, hcs'] at hparts
    simp only [List.cons.injEq, Node.tree.injEq, true_and, and_true] at hparts
    exact hparts.2
  rw [hp, hp', ← mapM_ruleOf_bare hr, ← mapM_ruleOf_bare hr', hrules]

/-- Up to the lines in its errors, the result of accepted grammar source depends on nothing but its
bare tree. -/
theorem parseRules_unplaced_of_bare (h : (parseGrammar text).result = .ok tree)
    (h' : (parseGrammar text').result = .ok tree') (hb : tree.bare = tree'.bare) :
    (parseRules text).result.mapError ConversionError.unplaced =
      (parseRules text').result.mapError ConversionError.unplaced := by
  have hinstance : ∀ {text tree}, (parseGrammar text).result = .ok tree →
      ∃ ts, Instantiates (.rule .grammarSpec) [tree] ts := by
    intro text tree h
    obtain ⟨cs, rfl, hi⟩ := exists_instance_of_parseGrammar h
    exact ⟨_, .node rfl hi⟩
  obtain ⟨ts, hi⟩ := hinstance h
  obtain ⟨ts', hi'⟩ := hinstance h'
  rw [parseRules_result_of_tree h, parseRules_result_of_tree h', mapError_extraction,
    mapError_extraction, mapM_ruleOf_of_bare hi hi' hb]

/-- Grammar source fails with an atom that names nothing or with an empty alternative. -/
theorem error_of_parseRules {e : ConversionError} (h : (parseGrammar text).result = .ok tree)
    (he : (parseRules text).result = .error e) :
    (∃ kind line?, e = .extraction (.unrecognizedAtom kind line?)) ∨
      ∃ name line?, e = .extraction (.emptyAlternative (some name) line?) := by
  obtain ⟨d, hd, -⟩ := Source.parse_eq_ok_iff.mp (parseGrammar_result_ok_iff.mp h)
  have hf := failure?_parseRules hd
  rw [he] at hf
  obtain ⟨⟨name, o⟩, -, rfl⟩ := Option.map_eq_some_iff.mp hf.symm
  cases o with
  | wildcard => exact .inl ⟨_, _, rfl⟩
  | notSet => exact .inl ⟨_, _, rfl⟩
  | bareAlternative => exact .inr ⟨name, _, rfl⟩

/-- Decorations are ignored: two accepted texts with the same bare tree give the same rules, or the
same error up to the line that it is reported with. -/
theorem parseRules_ignores_decorations (h : (parseGrammar text).result = .ok tree)
    (h' : (parseGrammar text').result = .ok tree') (hb : tree.bare = tree'.bare) :
    (∃ rules, (parseRules text).result = .ok rules ∧ (parseRules text').result = .ok rules) ∨
      (∃ kind line? line?',
        (parseRules text).result = .error (.extraction (.unrecognizedAtom kind line?)) ∧
        (parseRules text').result = .error (.extraction (.unrecognizedAtom kind line?'))) ∨
      ∃ name line? line?',
        (parseRules text).result = .error (.extraction (.emptyAlternative (some name) line?)) ∧
        (parseRules text').result =
          .error (.extraction (.emptyAlternative (some name) line?')) := by
  have heq := parseRules_unplaced_of_bare h h' hb
  cases hr : (parseRules text).result with
  | ok rules =>
    cases hr' : (parseRules text').result with
    | ok rules' =>
      rw [hr, hr'] at heq
      cases heq
      exact .inl ⟨rules, rfl, rfl⟩
    | error e' =>
      rw [hr, hr'] at heq
      cases heq
  | error e =>
    cases hr' : (parseRules text').result with
    | ok rules' =>
      rw [hr, hr'] at heq
      cases heq
    | error e' =>
      have he : e.unplaced = e'.unplaced := by
        rw [hr, hr'] at heq
        exact Except.error.inj heq
      rcases error_of_parseRules h hr with ⟨kind, line?, rfl⟩ | ⟨name, line?, rfl⟩ <;>
        rcases error_of_parseRules h' hr' with ⟨kind', line?', rfl⟩ | ⟨name', line?', rfl⟩ <;>
        cases he
      · exact .inr (.inl ⟨kind, line?, line?', rfl, rfl⟩)
      · exact .inr (.inr ⟨name, line?, line?', rfl, rfl⟩)

/-- A decorated rule beside a lexer rule, and the rule by itself. -/
theorem parseRules_ignores_decorations_of_rule :
    let text := "grammar G;\nr[i] @a\x7bb\x7d : x=A<o> \x7bc\x7d # L\n" ++
      "| y+=(b[1] | \x7bp\x7d? C)?? ;\nF : . ;\n"
    let plain := "grammar G;\nr : A | (b | C)? ;\n"
    ∃ tree tree' rules, (parseGrammar text).result = .ok tree ∧
      (parseGrammar plain).result = .ok tree' ∧ tree.bare = tree'.bare ∧
      (parseRules text).result = .ok rules ∧ (parseRules plain).result = .ok rules := by
  intro text plain
  have hsame : (parseGrammar text).result.toOption.map SyntaxTree.bare =
      (parseGrammar plain).result.toOption.map SyntaxTree.bare := by decide +kernel
  have htree : (parseGrammar text).result.isOk = true := by decide +kernel
  have hok : (parseRules plain).result.isOk = true := by decide +kernel
  cases h : (parseGrammar text).result with
  | error => rw [h] at htree; cases htree
  | ok tree =>
    cases h' : (parseGrammar plain).result with
    | error => rw [h, h'] at hsame; cases hsame
    | ok tree' =>
      rw [h, h'] at hsame
      have hb : tree.bare = tree'.bare := Option.some.inj hsame
      rcases parseRules_ignores_decorations h h' hb with
        ⟨rules, hr, hr'⟩ | ⟨_, _, _, -, he⟩ | ⟨_, _, _, -, he⟩
      · exact ⟨tree, tree', rules, rfl, rfl, hb, hr, hr'⟩
      · rw [he] at hok
        cases hok
      · rw [he] at hok
        cases hok

end Conversion

end GrammarDoc
