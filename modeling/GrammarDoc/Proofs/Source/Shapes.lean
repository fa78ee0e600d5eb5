import GrammarDoc.Proofs.Source.Trees

namespace GrammarDoc

namespace Parsing.Form

variable {κ ρ : Type}

/-- The constructs that a form names. -/
def names : Form κ ρ → List ρ
  | empty | shown _ | hidden _ => []
  | rule name => [name]
  | seq f g | alt f g => names f ++ names g
  | many f => names f

/-- The tokens that a form shows. -/
def shows : Form κ ρ → List κ
  | empty | hidden _ | rule _ => []
  | shown kind => [kind]
  | seq f g | alt f g => shows f ++ shows g
  | many f => shows f

/-- The tokens that a form leaves out. -/
def hides : Form κ ρ → List κ
  | empty | shown _ | rule _ => []
  | hidden kind => [kind]
  | seq f g | alt f g => hides f ++ hides g
  | many f => hides f

end Parsing.Form

namespace Source.SyntaxTree

open Parsing (Form)
open Construct

variable {f g : Form TokenKind Construct} {c : Construct} {trees : List SyntaxTree} {ts : List Token}

theorem instantiates_shown_iff {k : TokenKind} :
    Instantiates (.shown k) trees ts ↔ ∃ t, t.kind = k ∧ trees = [.token t] ∧ ts = [t] := by
  constructor
  · intro h
    cases h
    exact ⟨_, rfl, rfl, rfl⟩
  · rintro ⟨t, rfl, rfl, rfl⟩
    exact .shown t

theorem instantiates_hidden_iff {k : TokenKind} :
    Instantiates (.hidden k) trees ts ↔ ∃ t, t.kind = k ∧ trees = [] ∧ ts = [t] := by
  constructor
  · intro h
    cases h
    exact ⟨_, rfl, rfl, rfl⟩
  · rintro ⟨t, rfl, rfl, rfl⟩
    exact .hidden t

theorem instantiates_node_iff (hc : c.isInlined = false) :
    Instantiates (.rule c) trees ts ↔
      ∃ cs, trees = [.node c (Token.spanOf ts) cs] ∧ Instantiates c.form cs ts := by
  constructor
  · intro h
    cases h with
    | node _ h => exact ⟨_, rfl, h⟩
    | inlined hi _ => simp [hc] at hi
  · rintro ⟨cs, rfl, h⟩
    exact .node hc h

theorem instantiates_seq_iff :
    Instantiates (.seq f g) trees ts ↔ ∃ trees₁ trees₂ ts₁ ts₂, trees = trees₁ ++ trees₂ ∧
      ts = ts₁ ++ ts₂ ∧ Instantiates f trees₁ ts₁ ∧ Instantiates g trees₂ ts₂ := by
  constructor
  · intro h
    cases h with
    | seq hf hg => exact ⟨_, _, _, _, rfl, rfl, hf, hg⟩
  · rintro ⟨trees₁, trees₂, ts₁, ts₂, rfl, rfl, hf, hg⟩
    exact .seq hf hg

theorem instantiates_alt_iff :
    Instantiates (.alt f g) trees ts ↔ Instantiates f trees ts ∨ Instantiates g trees ts := by
  constructor
  · intro h
    cases h with
    | altLeft h => exact .inl h
    | altRight h => exact .inr h
  · rintro (h | h)
    · exact .altLeft h
    · exact .altRight h

theorem instantiates_optional_iff :
    Instantiates f.optional trees ts ↔ Instantiates f trees ts ∨ trees = [] ∧ ts = [] := by
  constructor
  · intro h
    cases h with
    | altLeft h => exact .inl h
    | altRight h =>
      cases h
      exact .inr ⟨rfl, rfl⟩
  · rintro (h | ⟨rfl, rfl⟩)
    · exact .altLeft h
    · exact .altRight .empty

/-- A form that names one construct and shows no tokens gives a row of nodes. -/
theorem exists_node_of_instantiates (hc : c.isInlined = false) (h : Instantiates f trees ts)
    (hs : f.shows = []) (hn : ∀ d ∈ f.names, d = c) :
    ∀ t ∈ trees, ∃ cs us, t = .node c (Token.spanOf us) cs ∧ Instantiates c.form cs us := by
  induction h with
  | empty => simp
  | shown => cases hs
  | hidden => simp
  | @node d cs us _ h _ =>
    cases hn d (List.mem_singleton_self d)
    intro t ht
    cases List.mem_singleton.mp ht
    exact ⟨cs, us, rfl, h⟩
  | @inlined d _ _ hd =>
    cases hn d (List.mem_singleton_self d)
    rw [hc] at hd
    cases hd
  | seq _ _ ihf ihg =>
    simp only [Form.shows, List.append_eq_nil_iff] at hs
    simp only [Form.names, List.mem_append] at hn
    intro t ht
    rcases List.mem_append.mp ht with ht | ht
    · exact ihf hs.1 (fun d hd => hn d (.inl hd)) t ht
    · exact ihg hs.2 (fun d hd => hn d (.inr hd)) t ht
  | altLeft _ ih =>
    simp only [Form.shows, List.append_eq_nil_iff] at hs
    simp only [Form.names, List.mem_append] at hn
    exact ih hs.1 fun d hd => hn d (.inl hd)
  | altRight _ ih =>
    simp only [Form.shows, List.append_eq_nil_iff] at hs
    simp only [Form.names, List.mem_append] at hn
    exact ih hs.2 fun d hd => hn d (.inr hd)
  | manyNil => simp
  | manyCons _ _ ihf ihm =>
    intro t ht
    rcases List.mem_append.mp ht with ht | ht
    · exact ihf hs hn t ht
    · exact ihm hs hn t ht

/-- Below a form that names no construct there are only the tokens it shows. -/
theorem kind_mem_shows (h : Instantiates f trees ts) (hn : f.names = []) :
    ∀ t ∈ leavesOfAll trees, t.kind ∈ f.shows := by
  induction h with
  | empty => simp [leavesOfAll]
  | shown => simp [leavesOfAll, leaves, Form.shows]
  | hidden => simp [leavesOfAll]
  | node => cases hn
  | inlined => cases hn
  | seq _ _ ihf ihg =>
    simp only [Form.names, List.append_eq_nil_iff] at hn
    intro t ht
    rw [leavesOfAll_append] at ht
    rcases List.mem_append.mp ht with ht | ht
    · exact List.mem_append_left _ (ihf hn.1 t ht)
    · exact List.mem_append_right _ (ihg hn.2 t ht)
  | altLeft _ ih =>
    simp only [Form.names, List.append_eq_nil_iff] at hn
    exact fun t ht => List.mem_append_left _ (ih hn.1 t ht)
  | altRight _ ih =>
    simp only [Form.names, List.append_eq_nil_iff] at hn
    exact fun t ht => List.mem_append_right _ (ih hn.2 t ht)
  | manyNil => simp [leavesOfAll]
  | manyCons _ _ ihf ihm =>
    intro t ht
    rw [leavesOfAll_append] at ht
    rcases List.mem_append.mp ht with ht | ht
    · exact ihf hn t ht
    · exact ihm hn t ht

/-- A token of a kind that no construct leaves out is a leaf. -/
theorem mem_leavesOfAll_iff {t : Token} (h : Instantiates f trees ts) (hf : t.kind ∉ f.hides)
    (hk : ∀ c : Construct, t.kind ∉ c.form.hides) : t ∈ leavesOfAll trees ↔ t ∈ ts := by
  induction h with
  | empty => simp [leavesOfAll]
  | shown => simp [leavesOfAll, leaves]
  | hidden u =>
    have hu : t ≠ u := by
      rintro rfl
      exact hf (List.mem_singleton_self _)
    simp [leavesOfAll, hu]
  | @node c _ _ _ _ ih => simp [leavesOfAll, leaves, ih (hk c)]
  | @inlined c _ _ _ _ ih => exact ih (hk c)
  | seq _ _ ihf ihg =>
    simp only [Form.hides, List.mem_append, not_or] at hf
    rw [leavesOfAll_append, List.mem_append, List.mem_append, ihf hf.1, ihg hf.2]
  | altLeft _ ih => exact ih fun hm => hf (List.mem_append_left _ hm)
  | altRight _ ih => exact ih fun hm => hf (List.mem_append_right _ hm)
  | manyNil => simp [leavesOfAll]
  | manyCons _ _ ihf ihm =>
    rw [leavesOfAll_append, List.mem_append, List.mem_append, ihf hf, ihm hf]

end Source.SyntaxTree
end GrammarDoc
