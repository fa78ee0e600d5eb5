import GrammarDoc.Proofs.Extraction.Building
import GrammarDoc.Proofs.Rendering.Rebuilding
import GrammarDoc.Proofs.Rendering.Spelled
import GrammarDoc.Proofs.Source.Deciding

namespace GrammarDoc

open Parsing (Form)
open Source
open Source.SyntaxTree
open Node (ofSyntaxTree ofSyntaxTrees visitAll)

namespace Element

def isSuffixed : Element → Bool
  | opt _ => true
  | plus _ => true
  | star _ => true
  | _ => false

mutual

/-- No suffix stands directly on another one. -/
def singlySuffixed : Element → Bool
  | opt e => !e.isSuffixed && singlySuffixed e
  | plus e => !e.isSuffixed && singlySuffixed e
  | star e => !e.isSuffixed && singlySuffixed e
  | choice es => allSinglySuffixed es
  | seq es => allSinglySuffixed es
  | atom _ => true
  | ref _ => true
  | foreign _ => true

def allSinglySuffixed : List Element → Bool
  | [] => true
  | e :: es => singlySuffixed e && allSinglySuffixed es

end

/-- What stands in the alternatives of an element that is not in parentheses. -/
def members : Element → List Element
  | choice es => es
  | seq es => es
  | e => [e]

theorem singlySuffixed_of_mem {es : List Element} (h : allSinglySuffixed es) :
    ∀ e ∈ es, e.singlySuffixed := by
  induction es with
  | nil => simp
  | cons x es ih =>
    simp only [allSinglySuffixed, Bool.and_eq_true] at h
    intro e he
    rcases List.mem_cons.mp he with rfl | he
    · exact h.1
    · exact ih h.2 e he

end Element

variable {e : Element} {es : List Element} {ws : List Word}

theorem yields_members
    (h : ∀ e ∈ es, Yields (.rule .element) (Element.words true e) [e]) :
    Yields (.many (.rule .element)) (Element.wordsOfAll es).flatten es := by
  induction es with
  | nil => exact yields_manyNil
  | cons e es ih =>
    exact yields_manyCons (h e List.mem_cons_self)
      (ih fun x hx => h x (List.mem_cons_of_mem _ hx))

theorem choiceOf_eq (h : 2 ≤ es.length) : Element.choiceOf es = .ok (.choice es) := by
  match es with
  | _ :: _ :: _ => rfl

theorem seqOf_eq (h : 2 ≤ es.length) : Element.seqOf es = .ok (.seq es) := by
  match es with
  | _ :: _ :: _ => rfl

/-- An element is read back from its alternatives, whatever constructs they stand in. -/
theorem yields_alternation {part whole : Construct} (hw : e.WellFormed)
    (hpart : ∀ ws xs e, Yields (.many (.rule .element)) ws xs → Element.seqOf xs = .ok e →
      Yields (.rule part) ws [e])
    (hwhole : ∀ ws xs e, Yields (Construct.separated .bar (.rule part)) ws xs →
      Element.choiceOf xs = .ok e → Yields (.rule whole) ws [e])
    (hm : ∀ x ∈ e.members, Yields (.rule .element) (Element.words true x) [x]) :
    Yields (.rule whole) (Element.words false e) [e] := by
  have hone : ∀ ws, Yields (.rule part) ws [e] → Yields (.rule whole) ws [e] := by
    intro ws h
    refine hwhole ws [e] e ?_ rfl
    have hr : ∀ row ∈ [(ws, e)], Yields (.rule part) row.1 [row.2] := by simpa using h
    simpa using yields_separated .bar "|" (by simp) hr
  have hsingle : e.members = [e] → Yields (.rule whole) (Element.words true e) [e] := by
    intro h
    rw [h] at hm
    have hms := yields_members hm
    rw [Element.wordsOfAll, Element.wordsOfAll, List.flatten_singleton] at hms
    exact hone _ (hpart _ [e] e hms rfl)
  cases hw with
  | atom _ => exact hsingle rfl
  | ruleName _ => exact hsingle rfl
  | tokenName _ => exact hsingle rfl
  | opt _ => exact hsingle rfl
  | plus _ => exact hsingle rfl
  | star _ => exact hsingle rfl
  | @choice es hl _ =>
    refine hwhole _ es _ ?_ (choiceOf_eq hl)
    have hr : ∀ row ∈ es.map fun x => (Element.words true x, x),
        Yields (.rule part) row.1 [row.2] := by
      intro row hrow
      obtain ⟨x, hx, rfl⟩ := List.mem_map.mp hrow
      have hx : Yields (.many (.rule .element)) (Element.wordsOfAll [x]).flatten [x] :=
        yields_members (by simpa using hm x hx)
      exact hpart _ [x] x (by simpa [Element.wordsOfAll] using hx) rfl
    have hs := yields_separated .bar "|" ?_ hr
    · simpa [Element.words, Element.grouped, Element.wordsOfAll_eq_map, Function.comp_def] using hs
    · intro hn
      simp [List.map_eq_nil_iff.mp hn] at hl
  | @seq es hl _ =>
    exact hone _ (hpart _ es _ (yields_members hm) (seqOf_eq hl))

theorem yields_block_of_members (hw : e.WellFormed)
    (hm : ∀ x ∈ e.members, Yields (.rule .element) (Element.words true x) [x]) :
    Yields (.rule .block) ((.openParen, "(") :: (Element.words false e ++ [(.closeParen, ")")]))
      [e] := by
  have ha : Yields (.rule .altList) (Element.words false e) [e] :=
    yields_alternation hw (fun _ _ _ => yields_alternative) (fun _ _ _ => yields_altList) hm
  have hf : Yields Construct.block.form
      ([(.openParen, "(")] ++ (Element.words false e ++ [(.closeParen, ")")]))
      ([] ++ ([e] ++ [])) :=
    yields_seq yields_hidden (yields_skip (yields_seq ha yields_hidden))
  exact yields_block hf

/-- A written element is read back, and so is what a suffix may be put on. -/
theorem yields_element (h : e.WellFormed) (hs : e.singlySuffixed) :
    Yields (.rule .element) (Element.words true e) [e] ∧
      (e.isSuffixed = false → Yields (.rule .atom) (Element.words true e) [e] ∨
        Yields (.rule .block) (Element.words true e) [e]) := by
  have hmarked : ∀ e : Element, ∀ k s, k ∈ [TokenKind.question, .star, .plus] →
      Yields (.rule .atom) (Element.words true e) [e] ∨
        Yields (.rule .block) (Element.words true e) [e] →
      Yields (.rule .element) (Element.words true e ++ [(k, s)]) [e.marked k] := by
    rintro e k s hk (h | h)
    · exact yields_element_marked hk h
    · exact yields_element_ebnf (yields_ebnf_marked hk h)
  induction h with
  | @atom s hb =>
    have ha : Yields (.rule .atom) (Element.words true (.atom s)) [.atom s] := by
      refine yields_terminal (.inr rfl) fun t ht => ?_
      obtain ⟨hk, ht⟩ := Prod.mk.inj ht
      simp [Token.element, Node.unquoted, hk, ht]
    exact ⟨yields_element_atom ha, fun _ => .inl ha⟩
  | @ruleName s hn =>
    have ha : Yields (.rule .atom) (Element.words true (.ref s)) [.ref s] := by
      rw [Element.words, Element.nameWord_ruleName hn]
      refine yields_ruleref fun t ht => ?_
      obtain ⟨_, _, _⟩ := t
      cases ht
      rfl
    exact ⟨yields_element_atom ha, fun _ => .inl ha⟩
  | @tokenName s hn =>
    have ha : Yields (.rule .atom) (Element.words true (.ref s)) [.ref s] := by
      rw [Element.words, Element.nameWord_tokenName hn]
      refine yields_terminal (.inl rfl) fun t ht => ?_
      obtain ⟨_, _, _⟩ := t
      cases ht
      rfl
    exact ⟨yields_element_atom ha, fun _ => .inl ha⟩
  | opt _ ih =>
    simp only [Element.singlySuffixed, Bool.and_eq_true, Bool.not_eq_true'] at hs
    exact ⟨hmarked _ .question "?" (by decide) ((ih hs.2).2 hs.1), fun h => by cases h⟩
  | plus _ ih =>
    simp only [Element.singlySuffixed, Bool.and_eq_true, Bool.not_eq_true'] at hs
    exact ⟨hmarked _ .plus "+" (by decide) ((ih hs.2).2 hs.1), fun h => by cases h⟩
  | star _ ih =>
    simp only [Element.singlySuffixed, Bool.and_eq_true, Bool.not_eq_true'] at hs
    exact ⟨hmarked _ .star "*" (by decide) ((ih hs.2).2 hs.1), fun h => by cases h⟩
  | choice hl hw ih =>
    have hb := yields_block_of_members (.choice hl hw)
      fun x hx => (ih x hx (Element.singlySuffixed_of_mem hs x hx)).1
    exact ⟨yields_element_ebnf (yields_ebnf hb), fun _ => .inr hb⟩
  | seq hl hw ih =>
    have hb := yields_block_of_members (.seq hl hw)
      fun x hx => (ih x hx (Element.singlySuffixed_of_mem hs x hx)).1
    exact ⟨yields_element_ebnf (yields_ebnf hb), fun _ => .inr hb⟩

theorem yields_ruleBlock (h : e.WellFormed) (hs : e.singlySuffixed) :
    Yields (.rule .ruleBlock) (Element.words false e) [e] := by
  have hm : ∀ x ∈ e.members, Yields (.rule .element) (Element.words true x) [x] := by
    intro x hx
    have he := (yields_element h hs).1
    cases h with
    | choice hl hw => exact (yields_element (hw x hx) (Element.singlySuffixed_of_mem hs x hx)).1
    | seq hl hw => exact (yields_element (hw x hx) (Element.singlySuffixed_of_mem hs x hx)).1
    | _ =>
      cases List.mem_singleton.mp hx
      exact he
  have ha : Yields (.rule .ruleAltList) (Element.words false e) [e] :=
    yields_alternation h (fun _ _ _ hx he => yields_labeledAlt (yields_alternative hx he))
      (fun _ _ _ => yields_ruleAltList) hm
  exact yields_plain rfl (by decide) ha

end GrammarDoc
