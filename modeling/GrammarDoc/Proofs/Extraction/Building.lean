import GrammarDoc.Proofs.Extraction.Declared
import GrammarDoc.Proofs.Extraction.Meaning

namespace GrammarDoc

open Parsing (Form)
open Source (Construct SyntaxTree Token TokenKind)
open Source.SyntaxTree
open Node (ofSyntaxTree ofSyntaxTrees visitAll)

/-- An element whose literals and names are tokens of a list, and whose groups have at least two
members. -/
inductive Element.BuiltFrom (ts : List Token) : Element → Prop
  | token {t : Token} :
      t ∈ ts → t.kind ∈ [.tokenName, .literal, .ruleName] → BuiltFrom ts t.element
  | opt {e : Element} : BuiltFrom ts e → BuiltFrom ts (.opt e)
  | plus {e : Element} : BuiltFrom ts e → BuiltFrom ts (.plus e)
  | star {e : Element} : BuiltFrom ts e → BuiltFrom ts (.star e)
  | choice {es : List Element} :
      2 ≤ es.length → (∀ e ∈ es, BuiltFrom ts e) → BuiltFrom ts (.choice es)
  | seq {es : List Element} :
      2 ≤ es.length → (∀ e ∈ es, BuiltFrom ts e) → BuiltFrom ts (.seq es)

variable {c : Construct} {f : Form TokenKind Construct} {trees : List SyntaxTree}
variable {ts us : List Token} {span? : Option Text.Span} {es : List Element} {e : Element}

theorem builtFrom_mono (h : e.BuiltFrom us) (hu : ∀ t ∈ us, t ∈ ts) : e.BuiltFrom ts := by
  induction h with
  | token ht hk => exact .token (hu _ ht) hk
  | opt _ ih => exact .opt ih
  | plus _ ih => exact .plus ih
  | star _ ih => exact .star ih
  | choice hl _ ih => exact .choice hl ih
  | seq hl _ ih => exact .seq hl ih

/-- What extraction makes of the elements of a row: the same ones, one group of them, or each of them
with a suffix. -/
inductive Wraps : List Element → List Element → Prop
  | same {es : List Element} : Wraps es es
  | choice {es : List Element} : 2 ≤ es.length → Wraps es [.choice es]
  | seq {es : List Element} : 2 ≤ es.length → Wraps es [.seq es]
  | suffixed {es : List Element} (suffix? : Option Node) :
      Wraps es (es.map (Element.applySuffix suffix?))

/-- What extraction makes of a row of trees over some tokens. -/
inductive Makes : List SyntaxTree → List Token → List Element → Prop
  | nothing {ts : List Token} : Makes [] ts []
  | token {t : Token} : Makes [.token t] [t] []
  | atom {span? : Option Text.Span} {trees : List SyntaxTree} {ts : List Token} {t : Token} :
      t ∈ ts → (leavesOfAll trees).filter (·.kind ∈ [.tokenName, .literal, .ruleName]) = [t] →
      Makes [.node .atom span? trees] ts [t.element]
  | node {c : Construct} {span? : Option Text.Span} {trees : List SyntaxTree} {ts : List Token}
      {xs es : List Element} :
      c ≠ .atom → Makes trees ts xs → Wraps xs es → Makes [.node c span? trees] ts es
  | append {trees trees' : List SyntaxTree} {ts us : List Token} {xs ys : List Element} :
      Makes trees ts xs → Makes trees' us ys → Makes (trees ++ trees') (ts ++ us) (xs ++ ys)

theorem two_le_length (hn : es ≠ []) (hs : ∀ e, es ≠ [e]) : 2 ≤ es.length := by
  match es with
  | [] => exact absurd rfl hn
  | [e] => exact absurd rfl (hs e)
  | _ :: _ :: _ => simp

theorem wraps_of_chosen {xs : List Element} (h : Node.chosen xs = .ok es) : Wraps xs es := by
  obtain ⟨e, rfl, he⟩ := chosen_ok h
  unfold Element.choiceOf at he
  split at he
  · cases he
  · cases he
    exact .same
  next hn hs =>
    cases he
    exact .choice (two_le_length hn hs)

theorem wraps_of_sequenced {line? : Option Int} {xs : List Element}
    (h : Node.sequenced line? xs = .ok es) : Wraps xs es := by
  obtain ⟨e, rfl, he⟩ := sequenced_ok h
  unfold Element.seqOf at he
  split at he
  · cases he
  · cases he
    exact .same
  next hn hs =>
    cases he
    exact .seq (two_le_length hn hs)

/-- Above its atoms extraction only wraps what it makes of the row below a node. -/
theorem exists_wraps_of_visit (hc : c.isReadable) (ha : c ≠ .atom)
    (h : Instantiates c.form trees ts)
    (hv : (ofSyntaxTree (.node c span? trees)).visit = .ok es) :
    ∃ xs, visitAll (ofSyntaxTrees trees) = .ok xs ∧ Wraps xs es := by
  cases c with
  | ruleAltList =>
    rw [Node.visit_ruleAltList h] at hv
    obtain ⟨xs, hx, hv⟩ := bind_ok hv
    exact ⟨xs, hx, wraps_of_chosen hv⟩
  | altList =>
    rw [Node.visit_altList h] at hv
    obtain ⟨xs, hx, hv⟩ := bind_ok hv
    exact ⟨xs, hx, wraps_of_chosen hv⟩
  | alternative =>
    rw [Node.visit_alternative h] at hv
    obtain ⟨xs, hx, hv⟩ := bind_ok hv
    exact ⟨xs, hx, wraps_of_sequenced hv⟩
  | element =>
    rw [Node.visit_element] at hv
    obtain ⟨xs, hx, hv⟩ := bind_ok hv
    cases hv
    exact ⟨xs, hx, .suffixed _⟩
  | ebnf =>
    rw [Node.visit_ebnf h] at hv
    obtain ⟨xs, hx, hv⟩ := bind_ok hv
    cases hv
    exact ⟨xs, hx, .suffixed _⟩
  | block =>
    rw [Node.visit_block h] at hv
    exact ⟨es, hv, .same⟩
  | atom => exact absurd rfl ha
  | _ =>
    first
    | exact absurd hc (by decide)
    | rw [Node.visit_plain (by decide)] at hv
      exact ⟨es, hv, .same⟩

theorem makes_atom (h : Instantiates Construct.atom.form trees ts)
    (hv : (ofSyntaxTree (.node .atom span? trees)).visit = .ok es) :
    Makes [.node .atom span? trees] ts es := by
  obtain ⟨_, _, t, rest, -, rfl, hk, hrest, ht, rfl⟩ := Node.exists_token_of_visit_atom h hv
  refine .atom ht ?_
  have hnil : (leavesOfAll rest).filter (·.kind ∈ [.tokenName, .literal, .ruleName]) = [] := by
    simpa [List.filter_eq_nil_iff] using hrest
  rw [leavesOfAll, leavesOfAll, leaves, leavesOfAll, leaves, List.append_nil, List.singleton_append,
    List.filter_cons_of_pos (by simpa using hk), hnil]

/-- What extraction makes of a row follows from its trees one by one. -/
theorem makes_of_visitAll (h : Instantiates f trees ts) (hf : ∀ c ∈ f.names, c.isReadable)
    (hv : visitAll (ofSyntaxTrees trees) = .ok es) : Makes trees ts es := by
  induction h generalizing es with
  | empty =>
    cases hv
    exact .nothing
  | shown =>
    cases hv
    exact .token
  | hidden =>
    cases hv
    exact .nothing
  | @node c trees ts _ h ih =>
    have hc := hf c (List.mem_singleton_self c)
    rw [ofSyntaxTrees, ofSyntaxTrees, Node.visitAll_singleton] at hv
    by_cases ha : c = .atom
    · subst ha
      exact makes_atom h hv
    · obtain ⟨xs, hx, hw⟩ := exists_wraps_of_visit hc ha h hv
      exact .node ha (ih (fun d hd => isReadable_of_mem_names hc ha hd) hx) hw
  | @inlined c _ _ hi _ ih =>
    have hc := hf c (List.mem_singleton_self c)
    have ha : c ≠ .atom := by
      rintro rfl
      cases hi
    exact ih (fun d hd => isReadable_of_mem_names hc ha hd) hv
  | seq _ _ ihf ihg =>
    simp only [Form.names, List.mem_append] at hf
    rw [Node.ofSyntaxTrees_append] at hv
    obtain ⟨xs, ys, hx, hy, rfl⟩ := Node.visitAll_append_ok hv
    exact .append (ihf (fun d hd => hf d (.inl hd)) hx) (ihg (fun d hd => hf d (.inr hd)) hy)
  | altLeft _ ih => exact ih (fun d hd => hf d (List.mem_append_left _ hd)) hv
  | altRight _ ih => exact ih (fun d hd => hf d (List.mem_append_right _ hd)) hv
  | manyNil =>
    cases hv
    exact .nothing
  | manyCons _ _ ihf ihm =>
    rw [Node.ofSyntaxTrees_append] at hv
    obtain ⟨xs, ys, hx, hy, rfl⟩ := Node.visitAll_append_ok hv
    exact .append (ihf hf hx) (ihm hf hy)

/-- What extraction makes of a parser rule. -/
theorem makes_parserRuleSpec (h : Instantiates Construct.parserRuleSpec.form trees ts)
    (hv : (ofSyntaxTree (.node .parserRuleSpec span? trees)).visit = .ok es) :
    Makes [.node .parserRuleSpec span? trees] ts es := by
  have hn : ∀ c ∈ Construct.parserRuleSpec.form.names, c.isReadable := by decide
  obtain ⟨xs, hx, hw⟩ := exists_wraps_of_visit (by decide) (by decide) h hv
  exact .node (by decide) (makes_of_visitAll h hn hx) hw

theorem builtFrom_applySuffix {suffix? : Option Node} (h : e.BuiltFrom ts) :
    (e.applySuffix suffix?).BuiltFrom ts := by
  unfold Element.applySuffix
  split
  · exact h
  · split
    · exact .plus h
    · split
      · exact .star h
      · split
        · exact .opt h
        · exact h

theorem builtFrom_of_wraps {xs : List Element} (hw : Wraps xs es)
    (h : ∀ x ∈ xs, x.BuiltFrom ts) : ∀ e ∈ es, e.BuiltFrom ts := by
  cases hw with
  | same => exact h
  | choice hl => simpa using Element.BuiltFrom.choice hl h
  | seq hl => simpa using Element.BuiltFrom.seq hl h
  | suffixed =>
    intro e he
    obtain ⟨x, hx, rfl⟩ := List.mem_map.mp he
    exact builtFrom_applySuffix (h x hx)

/-- Extraction only builds groups and suffixes on top of the tokens it reads. -/
theorem builtFrom_of_makes (h : Makes trees ts es) : ∀ e ∈ es, e.BuiltFrom ts := by
  induction h with
  | nothing => simp
  | token => simp
  | @atom _ trees ts t ht hr =>
    have hm : t ∈ (leavesOfAll trees).filter (·.kind ∈ [.tokenName, .literal, .ruleName]) := by
      rw [hr]
      exact List.mem_singleton_self t
    have hk := (List.mem_filter.mp hm).2
    simpa using Element.BuiltFrom.token ht (by simpa using hk)
  | node _ _ hw ih => exact builtFrom_of_wraps hw ih
  | append _ _ ih ih' =>
    intro e he
    rcases List.mem_append.mp he with he | he
    · exact builtFrom_mono (ih e he) fun t ht => List.mem_append_left _ ht
    · exact builtFrom_mono (ih' e he) fun t ht => List.mem_append_right _ ht

/-- The rules of grammar source are built from its tokens. -/
theorem builtFrom_of_parseRules {text : String} {rules : List Rule}
    (h : (parseRules text).result = .ok rules) :
    let ts := (Source.readTokens (Source.maskChars text.toList)).tokens
    ∀ r ∈ rules, r.right.BuiltFrom ts ∧ ∃ t ∈ ts, t.kind = .ruleName ∧ r.left = t.text := by
  intro ts r hr
  obtain ⟨tree, ht, hm⟩ := parseRules_ok_iff.mp h
  obtain ⟨cs, rfl, hi⟩ := exists_instance_of_parseGrammar ht
  have hi : Instantiates (.rule .grammarSpec) [_] _ := .node rfl hi
  rw [List.mapM_map] at hm
  obtain ⟨t, ht, hr⟩ := exists_of_mem_mapM hm r hr
  rw [← parserRulesOfAll_singleton] at ht
  obtain ⟨cs, us, rfl, hi, hu⟩ := exists_instance_of_mem_parserRules hi t ht
  obtain ⟨u, _, es, -, hm, hk, hl, hv⟩ := exists_name_of_ruleOf hi hr
  refine ⟨?_, u, hu u hm, hk, hl⟩
  have hb := builtFrom_of_makes (makes_parserRuleSpec hi hv)
  exact builtFrom_mono (hb _ List.mem_cons_self) hu

end GrammarDoc
