import GrammarDoc.Proofs.Extraction.Language
import GrammarDoc.Proofs.Extraction.Visiting

namespace GrammarDoc

open Parsing (Form)
open Source (Construct SyntaxTree Token TokenKind repeated)
open Source.SyntaxTree
open Node (ofSyntaxTree ofSyntaxTrees visitAll)

variable {c : Construct} {f g : Form TokenKind Construct} {trees : List SyntaxTree}
variable {ts : List Token} {span? : Option Text.Span} {es : List Element} {t : SyntaxTree}

section Suffix

/-- A suffix starts with its mark, and a question mark after it changes nothing. -/
theorem exists_mark (h : Instantiates Construct.ebnfSuffix.form trees ts) :
    ∃ m, (m.kind = .question ∨ m.kind = .star ∨ m.kind = .plus) ∧
      (trees = [.token m] ∨ ∃ q, q.kind = .question ∧ trees = [.token m, .token q]) := by
  obtain ⟨first, _, _, _, rfl, -, h₁, h₂⟩ := instantiates_seq_iff.mp h
  have hm : ∃ m : Token, (m.kind = .question ∨ m.kind = .star ∨ m.kind = .plus) ∧
      first = [.token m] := by
    rcases instantiates_alt_iff.mp h₁ with h₁ | h₁
    · obtain ⟨m, hk, rfl, -⟩ := instantiates_shown_iff.mp h₁
      exact ⟨m, .inl hk, rfl⟩
    · rcases instantiates_alt_iff.mp h₁ with h₁ | h₁
      · obtain ⟨m, hk, rfl, -⟩ := instantiates_shown_iff.mp h₁
        exact ⟨m, .inr (.inl hk), rfl⟩
      · obtain ⟨m, hk, rfl, -⟩ := instantiates_shown_iff.mp h₁
        exact ⟨m, .inr (.inr hk), rfl⟩
  obtain ⟨m, hk, rfl⟩ := hm
  refine ⟨m, hk, ?_⟩
  rcases instantiates_optional_iff.mp h₂ with h₂ | ⟨rfl, -⟩
  · obtain ⟨q, hq, rfl, -⟩ := instantiates_shown_iff.mp h₂
    exact .inr ⟨q, hq, rfl⟩
  · exact .inl rfl

theorem language_applySuffix (span? : Option Text.Span)
    (h : Instantiates Construct.ebnfSuffix.form trees ts) (e : Element) :
    (e.applySuffix (some (ofSyntaxTree (.node .ebnfSuffix span? trees)))).language =
      repeated (suffixMark? (.node .ebnfSuffix span? trees)) e.language := by
  obtain ⟨m, hk | hk | hk, rfl | ⟨q, hq, rfl⟩⟩ := exists_mark h <;>
    simp_all [Element.applySuffix, Node.childText?, Node.tokenText?, Node.children, ofSyntaxTree,
      ofSyntaxTrees, TokenKind.label, suffixMark?, repeated, Element.language]

/-- The suffix that extraction finds is the one that follows the first part. -/
theorem language_applySuffix_find {cs : List SyntaxTree} (hc : c.kind? ≠ some .ebnfSuffix)
    (h : Instantiates (.optional (.rule .ebnfSuffix)) trees ts) (e : Element) :
    (e.applySuffix ((ofSyntaxTree (.node c span? cs) :: ofSyntaxTrees trees).find?
      (·.kind? == some .ebnfSuffix))).language =
      repeated (trees.findSome? suffixMark?) e.language := by
  have hn : ((ofSyntaxTree (.node c span? cs)).kind? == some .ebnfSuffix) = false := by
    simpa [Node.kind?_ofSyntaxTree] using hc
  rw [List.find?_cons_of_neg (by simp [hn])]
  rcases instantiates_optional_iff.mp h with h | ⟨rfl, -⟩
  · obtain ⟨cs, rfl, hi⟩ := (instantiates_node_iff rfl).mp h
    rw [List.findSome?_singleton, ← language_applySuffix _ hi]
    rfl
  · rfl

theorem language_applySuffix_element (h : Instantiates Construct.element.form trees ts)
    (e : Element) :
    (e.applySuffix ((ofSyntaxTree (.node .element span? trees)).child? .ebnfSuffix)).language =
      repeated (trees.findSome? suffixMark?) e.language := by
  rcases instantiates_alt_iff.mp h with h | h
  · obtain ⟨_, _, _, _, rfl, -, h₁, h₂⟩ := instantiates_seq_iff.mp h
    obtain ⟨cs, rfl, -⟩ := (instantiates_node_iff rfl).mp h₁
    exact language_applySuffix_find (by decide) h₂ e
  rcases instantiates_alt_iff.mp h with h | h
  · obtain ⟨_, _, _, _, rfl, -, h₁, h₂⟩ := instantiates_seq_iff.mp h
    obtain ⟨cs, rfl, -⟩ := (instantiates_node_iff rfl).mp h₁
    exact language_applySuffix_find (by decide) h₂ e
  rcases instantiates_alt_iff.mp h with h | h
  · obtain ⟨cs, rfl, -⟩ := (instantiates_node_iff rfl).mp h
    rfl
  · obtain ⟨_, _, _, _, rfl, -, h₁, h₂⟩ := instantiates_seq_iff.mp h
    obtain ⟨_, -, rfl, -⟩ := instantiates_shown_iff.mp h₁
    rcases instantiates_optional_iff.mp h₂ with h₂ | ⟨rfl, -⟩
    · obtain ⟨_, -, rfl, -⟩ := instantiates_shown_iff.mp h₂
      rfl
    · rfl

theorem language_applySuffix_ebnf (h : Instantiates Construct.ebnf.form trees ts) (e : Element) :
    (e.applySuffix (ofSyntaxTree (.node .ebnf span? trees)).blockSuffix?).language =
      repeated (trees.findSome? suffixMark?) e.language := by
  obtain ⟨_, _, us, vs, rfl, -, h₁, h₂⟩ := instantiates_seq_iff.mp h
  obtain ⟨cs, rfl, -⟩ := (instantiates_node_iff rfl).mp h₁
  rcases instantiates_optional_iff.mp h₂ with h₂ | ⟨rfl, -⟩
  · obtain ⟨ds, rfl, hd⟩ := (instantiates_node_iff rfl).mp h₂
    obtain ⟨ms, rfl, hm⟩ := (instantiates_node_iff rfl).mp hd
    have hl := language_applySuffix (Token.spanOf vs) hm e
    rw [List.singleton_append, List.findSome?_cons_of_isNone rfl, List.findSome?_singleton,
      suffixMark?]
    exact hl
  · rfl

end Suffix

section Reading

/-- The elements of a tree have its words, and there are as many of them as its construct says. -/
structure Reads (t : SyntaxTree) : Prop where
  product : ∀ es, (ofSyntaxTree t).visit = .ok es → (es.map Element.language).prod = t.language
  count : ∀ n c span? cs es, t = .node c span? cs → c.yield? = some n →
    (ofSyntaxTree t).visit = .ok es → es.length = n

theorem visitAll_cons_ok (hv : visitAll (ofSyntaxTrees (t :: trees)) = .ok es) :
    ∃ xs ys, (ofSyntaxTree t).visit = .ok xs ∧ visitAll (ofSyntaxTrees trees) = .ok ys ∧
      es = xs ++ ys := by
  have hv : visitAll ([ofSyntaxTree t] ++ ofSyntaxTrees trees) = .ok es := hv
  obtain ⟨xs, ys, hx, hy, rfl⟩ := Node.visitAll_append_ok hv
  rw [Node.visitAll_singleton] at hx
  exact ⟨xs, ys, hx, hy, rfl⟩

theorem product_of_reads (hr : ∀ t ∈ trees, Reads t)
    (hv : visitAll (ofSyntaxTrees trees) = .ok es) :
    (es.map Element.language).prod = concatenationOf trees := by
  induction trees generalizing es with
  | nil =>
    cases hv
    rfl
  | cons t trees ih =>
    obtain ⟨xs, ys, hx, hy, rfl⟩ := visitAll_cons_ok hv
    have ht := (hr t List.mem_cons_self).product xs hx
    have hts := ih (fun u hu => hr u (List.mem_cons_of_mem _ hu)) hy
    rw [List.map_append, List.prod_append, ht, hts, concatenationOf]

theorem map_of_reads (hr : ∀ t ∈ trees, Reads t)
    (hn : ∀ t ∈ trees, ∃ c span? cs, t = .node c span? cs ∧ c.yield? = some 1)
    (hv : visitAll (ofSyntaxTrees trees) = .ok es) :
    es.map Element.language = trees.map language := by
  induction trees generalizing es with
  | nil =>
    cases hv
    rfl
  | cons t trees ih =>
    obtain ⟨xs, ys, hx, hy, rfl⟩ := visitAll_cons_ok hv
    obtain ⟨c, span?, cs, hc, h1⟩ := hn t List.mem_cons_self
    have ht := hr t List.mem_cons_self
    obtain ⟨e, rfl⟩ := List.length_eq_one_iff.mp (ht.count 1 c span? cs xs hc h1 hx)
    have he : e.language = t.language := by simpa using ht.product _ hx
    have hts := ih (fun u hu => hr u (List.mem_cons_of_mem _ hu))
      (fun u hu => hn u (List.mem_cons_of_mem _ hu)) hy
    rw [List.map_append, hts, List.map_cons, List.map_cons, he]
    rfl

theorem length_of_reads {n : Nat} (h : Instantiates f trees ts) (hr : ∀ t ∈ trees, Reads t)
    (hf : f.yield? Construct.yield? = some n) (hv : visitAll (ofSyntaxTrees trees) = .ok es) :
    es.length = n := by
  induction h generalizing n es with
  | empty =>
    cases hf
    cases hv
    rfl
  | shown =>
    cases hf
    cases hv
    rfl
  | hidden =>
    cases hf
    cases hv
    rfl
  | node hc h ih =>
    rw [ofSyntaxTrees, ofSyntaxTrees, Node.visitAll_singleton] at hv
    exact (hr _ (List.mem_singleton_self _)).count n _ _ _ _ rfl hf hv
  | @inlined c _ _ hc h ih =>
    cases c with
    | rulePrequel =>
      cases hf
      exact ih hr (by decide) hv
    | prequelConstruct => cases hf
    | _ => cases hc
  | seq _ _ ihf ihg =>
    obtain ⟨m, k, hm, hk, rfl⟩ := Form.yield?_seq hf
    rw [Node.ofSyntaxTrees_append] at hv
    obtain ⟨xs, ys, hx, hy, rfl⟩ := Node.visitAll_append_ok hv
    have hl := ihf (fun t ht => hr t (List.mem_append_left _ ht)) hm hx
    have hl' := ihg (fun t ht => hr t (List.mem_append_right _ ht)) hk hy
    rw [List.length_append, hl, hl']
  | altLeft _ ih => exact ih hr (Form.yield?_alt hf).1 hv
  | altRight _ ih => exact ih hr (Form.yield?_alt hf).2 hv
  | manyNil =>
    cases hv
    exact (Form.yield?_many hf).2.symm
  | manyCons hi him ihf ihm =>
    obtain ⟨h0, rfl⟩ := Form.yield?_many hf
    rw [Node.visitAll_of_yield?_zero (.manyCons hi him) hf] at hv
    cases hv
    rfl

theorem chosen_ok {xs : List Element} (h : Node.chosen xs = .ok es) :
    ∃ e, es = [e] ∧ Element.choiceOf xs = .ok e := by
  unfold Node.chosen at h
  split at h
  next => cases h
  next e he =>
    cases h
    exact ⟨e, rfl, he⟩

theorem sequenced_ok {line? : Option Int} {xs : List Element}
    (h : Node.sequenced line? xs = .ok es) : ∃ e, es = [e] ∧ Element.seqOf xs = .ok e := by
  unfold Node.sequenced at h
  split at h
  · cases h
  split at h
  next => cases h
  next e he =>
    cases h
    exact ⟨e, rfl, he⟩

/-- A literal is written between apostrophes. -/
def Quoted (t : Token) : Prop :=
  ∃ body, t.text.toList = '\'' :: (body ++ ['\''])

theorem language_element {u : Token} (hu : u.kind = .literal → Quoted u) :
    u.element.language = {[symbolOf u]} := by
  unfold Token.element symbolOf
  split
  next hk =>
    obtain ⟨body, hb⟩ := hu hk
    simp [Element.language, Node.unquoted, hb]
  next => rfl

theorem language_plain (hc : c ∉ [.ruleAltList, .altList, .element, .ebnf, .terminal, .ruleref,
    .notSet, .wildcard]) : (SyntaxTree.node c span? trees).language = concatenationOf trees := by
  cases c <;> first | rfl | simp at hc

theorem reads_token (u : Token) : Reads (.token u) where
  product := by
    intro es hv
    cases hv
    simp [language]
  count := by
    intro n c s cs es hc
    cases hc

/-- A node whose elements come to one, and mean what it means. -/
theorem reads_of_single (hc : c.yield? = some 1)
    (h : ∀ es, (ofSyntaxTree (.node c span? trees)).visit = .ok es →
      ∃ e, es = [e] ∧ e.language = (SyntaxTree.node c span? trees).language) :
    Reads (.node c span? trees) where
  product := by
    intro es hv
    obtain ⟨e, rfl, he⟩ := h es hv
    simpa using he
  count := by
    intro n d s cs es hd hn hv
    cases hd
    obtain ⟨e, rfl, -⟩ := h es hv
    cases hc.symm.trans hn
    rfl

theorem form_yield?_of_plain {n : Nat} (hn : c.yield? = some n)
    (hc : c ∉ [.ruleAltList, .altList, .alternative, .ebnf, .atom]) :
    c.form.yield? Construct.yield? = some n := by
  cases c <;> cases hn <;> first | decide | simp at hc

theorem reads_plain (h : Instantiates c.form trees ts) (hr : ∀ t ∈ trees, Reads t)
    (hc : c ∉ [.ruleAltList, .altList, .alternative, .element, .ebnf, .block, .atom])
    (hl : c ∉ [.terminal, .ruleref, .notSet, .wildcard]) : Reads (.node c span? trees) where
  product := by
    intro es hv
    rw [Node.visit_plain hc] at hv
    rw [product_of_reads hr hv, language_plain]
    simp only [List.mem_cons, List.not_mem_nil, or_false, not_or] at hc hl ⊢
    simp [hc, hl]
  count := by
    intro n d s cs es hd hn hv
    cases hd
    rw [Node.visit_plain hc] at hv
    refine length_of_reads h hr (form_yield?_of_plain hn ?_) hv
    simp only [List.mem_cons, List.not_mem_nil, or_false, not_or] at hc ⊢
    simp [hc]

theorem exists_union_of_chosen (d : Construct) {xs : List Element} (hd : d.yield? = some 1)
    (hn : ∀ t ∈ trees, ∃ cs us, t = .node d (Token.spanOf us) cs ∧ Instantiates d.form cs us)
    (hr : ∀ t ∈ trees, Reads t) (hx : visitAll (ofSyntaxTrees trees) = .ok xs)
    (hv : Node.chosen xs = .ok es) : ∃ e, es = [e] ∧ e.language = unionOf trees := by
  obtain ⟨e, rfl, he⟩ := chosen_ok hv
  refine ⟨e, rfl, ?_⟩
  rw [Element.language_choiceOf he, map_of_reads hr ?_ hx, ← unionOf_eq_sum]
  intro t ht
  obtain ⟨cs, us, rfl, -⟩ := hn t ht
  exact ⟨_, _, _, rfl, hd⟩

theorem reads_ruleAltList (h : Instantiates Construct.ruleAltList.form trees ts)
    (hr : ∀ t ∈ trees, Reads t) : Reads (.node .ruleAltList span? trees) := by
  refine reads_of_single rfl fun es hv => ?_
  rw [Node.visit_ruleAltList h] at hv
  obtain ⟨xs, hx, hv⟩ := bind_ok hv
  rw [language]
  exact exists_union_of_chosen .labeledAlt rfl
    (exists_node_of_instantiates rfl h rfl (by decide)) hr hx hv

theorem reads_altList (h : Instantiates Construct.altList.form trees ts)
    (hr : ∀ t ∈ trees, Reads t) : Reads (.node .altList span? trees) := by
  refine reads_of_single rfl fun es hv => ?_
  rw [Node.visit_altList h] at hv
  obtain ⟨xs, hx, hv⟩ := bind_ok hv
  rw [language]
  exact exists_union_of_chosen .alternative rfl
    (exists_node_of_instantiates rfl h rfl (by decide)) hr hx hv

theorem reads_alternative (h : Instantiates Construct.alternative.form trees ts)
    (hr : ∀ t ∈ trees, Reads t) : Reads (.node .alternative span? trees) := by
  refine reads_of_single rfl fun es hv => ?_
  rw [Node.visit_alternative h] at hv
  obtain ⟨xs, hx, hv⟩ := bind_ok hv
  obtain ⟨e, rfl, he⟩ := sequenced_ok hv
  refine ⟨e, rfl, ?_⟩
  rw [Element.language_seqOf he, product_of_reads hr hx, language_plain (by decide)]

theorem reads_block (h : Instantiates Construct.block.form trees ts)
    (hr : ∀ t ∈ trees, Reads t) : Reads (.node .block span? trees) := by
  refine reads_of_single rfl fun es hv => ?_
  rw [Node.visit_block h] at hv
  obtain ⟨e, rfl⟩ := List.length_eq_one_iff.mp (length_of_reads h hr (by decide) hv)
  have he := product_of_reads hr hv
  exact ⟨e, rfl, by simpa [language] using he⟩

theorem reads_ebnf (h : Instantiates Construct.ebnf.form trees ts)
    (hr : ∀ t ∈ trees, Reads t) : Reads (.node .ebnf span? trees) := by
  refine reads_of_single rfl fun es hv => ?_
  rw [Node.visit_ebnf h] at hv
  obtain ⟨xs, hx, hv⟩ := bind_ok hv
  obtain ⟨e, rfl⟩ := List.length_eq_one_iff.mp (length_of_reads h hr (by decide) hx)
  have he : e.language = concatenationOf trees := by simpa using product_of_reads hr hx
  cases hv
  refine ⟨_, rfl, ?_⟩
  rw [language_applySuffix_ebnf h, he, language]

/-- A suffix stands only after a single element; a predicate has its question mark elsewhere. -/
theorem single_or_bare_of_element (h : Instantiates Construct.element.form trees ts) :
    (∃ f, Instantiates f trees ts ∧ f.yield? Construct.yield? = some 1) ∨
      visitAll (ofSyntaxTrees trees) = .ok [] ∧ trees.findSome? suffixMark? = none := by
  rcases instantiates_alt_iff.mp h with h | h
  · exact .inl ⟨_, h, by decide⟩
  rcases instantiates_alt_iff.mp h with h | h
  · exact .inl ⟨_, h, by decide⟩
  rcases instantiates_alt_iff.mp h with h | h
  · exact .inl ⟨_, h, by decide⟩
  · obtain ⟨_, _, _, _, rfl, -, h₁, h₂⟩ := instantiates_seq_iff.mp h
    obtain ⟨_, -, rfl, -⟩ := instantiates_shown_iff.mp h₁
    rcases instantiates_optional_iff.mp h₂ with h₂ | ⟨rfl, -⟩
    · obtain ⟨_, -, rfl, -⟩ := instantiates_shown_iff.mp h₂
      exact .inr ⟨rfl, rfl⟩
    · exact .inr ⟨rfl, rfl⟩

theorem reads_element (h : Instantiates Construct.element.form trees ts)
    (hr : ∀ t ∈ trees, Reads t) : Reads (.node .element span? trees) where
  product := by
    intro es hv
    rw [Node.visit_element] at hv
    obtain ⟨xs, hx, hv⟩ := bind_ok hv
    cases hv
    have hp := product_of_reads hr hx
    have hs : ∀ e : Element, (e.applySuffix
        ((ofSyntaxTree (.node .element span? trees)).child? .ebnfSuffix)).language = _ :=
      language_applySuffix_element h
    rcases single_or_bare_of_element h with ⟨f, hf, h1⟩ | ⟨h0, hm⟩
    · obtain ⟨e, rfl⟩ := List.length_eq_one_iff.mp (length_of_reads hf hr h1 hx)
      have he : e.language = concatenationOf trees := by simpa using hp
      simp [hs, he, language]
    · cases hx.symm.trans h0
      rw [language, hm, ← hp]
      rfl
  count := by
    intro n c s cs es hc hn
    cases hc
    cases hn

theorem reads_atom (h : Instantiates Construct.atom.form trees ts)
    (hq : ∀ t ∈ ts, t.kind = .literal → Quoted t) : Reads (.node .atom span? trees) := by
  refine reads_of_single rfl fun es hv => ?_
  obtain ⟨c, s, u, rest, hc, rfl, -, -, hu, rfl⟩ := Node.exists_token_of_visit_atom h hv
  refine ⟨_, rfl, ?_⟩
  rw [language_element (hq u hu)]
  rcases hc with rfl | rfl <;> simp [language, concatenationOf, namedBy]

/-- The constructs of a parser rule, down to its atoms. -/
def Source.Construct.isReadable (c : Construct) : Bool :=
  c.yield?.isSome || c == .element

theorem isReadable_of_mem_names {d : Construct} (hc : c.isReadable) (ha : c ≠ .atom)
    (hd : d ∈ c.form.names) : d.isReadable := by
  have h : c.form.names.all Construct.isReadable := by
    cases c <;> first | decide | exact absurd hc (by decide) | exact absurd rfl ha
  exact List.all_eq_true.mp h d hd

theorem reads_node (hc : c.isReadable) (h : Instantiates c.form trees ts)
    (hq : ∀ t ∈ ts, t.kind = .literal → Quoted t)
    (hr : c ≠ .atom → ∀ t ∈ trees, Reads t) : Reads (.node c span? trees) := by
  cases c with
  | ruleAltList => exact reads_ruleAltList h (hr (by decide))
  | altList => exact reads_altList h (hr (by decide))
  | alternative => exact reads_alternative h (hr (by decide))
  | element => exact reads_element h (hr (by decide))
  | ebnf => exact reads_ebnf h (hr (by decide))
  | block => exact reads_block h (hr (by decide))
  | atom => exact reads_atom h hq
  | _ => first | exact absurd hc (by decide) | exact reads_plain h (hr (by decide)) (by decide) (by decide)

/-- Every part of a parser rule is read as it is meant. -/
theorem reads_of_instantiates (h : Instantiates f trees ts)
    (hf : ∀ c ∈ f.names, c.isReadable) (hq : ∀ t ∈ ts, t.kind = .literal → Quoted t) :
    ∀ t ∈ trees, Reads t := by
  induction h with
  | empty => simp
  | shown u =>
    intro t ht
    cases List.mem_singleton.mp ht
    exact reads_token u
  | hidden => simp
  | @node c trees ts _ h ih =>
    intro t ht
    cases List.mem_singleton.mp ht
    have hc := hf c (List.mem_singleton_self c)
    exact reads_node hc h hq fun ha => ih (fun d hd => isReadable_of_mem_names hc ha hd) hq
  | @inlined c _ _ hi _ ih =>
    have hc := hf c (List.mem_singleton_self c)
    have ha : c ≠ .atom := by
      rintro rfl
      cases hi
    exact ih (fun d hd => isReadable_of_mem_names hc ha hd) hq
  | seq _ _ ihf ihg =>
    simp only [Form.names, List.mem_append] at hf hq
    intro t ht
    rcases List.mem_append.mp ht with ht | ht
    · exact ihf (fun c hc => hf c (.inl hc)) (fun u hu => hq u (.inl hu)) t ht
    · exact ihg (fun c hc => hf c (.inr hc)) (fun u hu => hq u (.inr hu)) t ht
  | altLeft _ ih => exact ih (fun c hc => hf c (List.mem_append_left _ hc)) hq
  | altRight _ ih => exact ih (fun c hc => hf c (List.mem_append_right _ hc)) hq
  | manyNil => simp
  | manyCons _ _ ihf ihm =>
    intro t ht
    rcases List.mem_append.mp ht with ht | ht
    · exact ihf hf (fun u hu => hq u (List.mem_append_left _ hu)) t ht
    · exact ihm hf (fun u hu => hq u (List.mem_append_right _ hu)) t ht

end Reading

end GrammarDoc
