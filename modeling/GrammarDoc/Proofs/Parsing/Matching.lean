import GrammarDoc.Parsing.Derivation

namespace GrammarDoc.Parsing

variable {κ τ ρ : Type} {kind : τ → κ} {form : ρ → Form κ ρ}
variable {f g : Form κ ρ} {ds es : List (Derivation τ ρ)} {ts us : List τ}

/-- A row of trees matches a form and covers some tokens, all the way down. -/
inductive Matches (kind : τ → κ) (form : ρ → Form κ ρ) :
    Form κ ρ → List (Derivation τ ρ) → List τ → Prop
  | empty : Matches kind form .empty [] []
  | shown (token : τ) : Matches kind form (.shown (kind token)) [.leaf token true] [token]
  | hidden (token : τ) : Matches kind form (.hidden (kind token)) [.leaf token false] [token]
  | rule {name : ρ} {ds : List (Derivation τ ρ)} {ts : List τ} :
      Matches kind form (form name) ds ts → Matches kind form (.rule name) [.node name ds] ts
  | seq {f g : Form κ ρ} {ds es : List (Derivation τ ρ)} {ts us : List τ} :
      Matches kind form f ds ts → Matches kind form g es us →
      Matches kind form (.seq f g) (ds ++ es) (ts ++ us)
  | altLeft {f g : Form κ ρ} {ds : List (Derivation τ ρ)} {ts : List τ} :
      Matches kind form f ds ts → Matches kind form (.alt f g) ds ts
  | altRight {f g : Form κ ρ} {ds : List (Derivation τ ρ)} {ts : List τ} :
      Matches kind form g ds ts → Matches kind form (.alt f g) ds ts
  | manyNil {f : Form κ ρ} : Matches kind form (.many f) [] []
  | manyCons {f : Form κ ρ} {ds es : List (Derivation τ ρ)} {ts us : List τ} :
      Matches kind form f ds ts → Matches kind form (.many f) es us →
      Matches kind form (.many f) (ds ++ es) (ts ++ us)

namespace Matches

theorem fits (h : Matches kind form f ds ts) : Derivation.Fits kind f ds := by
  induction h with
  | empty => exact .empty
  | shown token => exact .shown token
  | hidden token => exact .hidden token
  | rule _ _ => exact .rule _ _
  | seq _ _ ihf ihg => exact .seq ihf ihg
  | altLeft _ ih => exact .altLeft ih
  | altRight _ ih => exact .altRight ih
  | manyNil => exact .manyNil
  | manyCons _ _ ihf ihm => exact .manyCons ihf ihm

theorem valid (h : Matches kind form f ds ts) : ∀ d ∈ ds, d.Valid kind form := by
  induction h with
  | empty => simp
  | shown token => simpa using .leaf token true
  | hidden token => simpa using .leaf token false
  | rule h ih => simpa using .node h.fits ih
  | seq _ _ ihf ihg => exact List.forall_mem_append.mpr ⟨ihf, ihg⟩
  | altLeft _ ih => exact ih
  | altRight _ ih => exact ih
  | manyNil => simp
  | manyCons _ _ ihf ihm => exact List.forall_mem_append.mpr ⟨ihf, ihm⟩

theorem tokens (h : Matches kind form f ds ts) : Derivation.tokensOfAll ds = ts := by
  induction h with
  | empty => rfl
  | shown token => rfl
  | hidden token => rfl
  | rule _ ih => simpa [Derivation.tokensOfAll, Derivation.tokens] using ih
  | seq _ _ ihf ihg => rw [Derivation.tokensOfAll_append, ihf, ihg]
  | altLeft _ ih => exact ih
  | altRight _ ih => exact ih
  | manyNil => rfl
  | manyCons _ _ ihf ihm => rw [Derivation.tokensOfAll_append, ihf, ihm]

/-- Matching the top of each tree and matching below it is enough. -/
theorem of_fits (h : Derivation.Fits kind f ds)
    (below : ∀ name es, .node name es ∈ ds →
      Matches kind form (form name) es (Derivation.tokensOfAll es)) :
    Matches kind form f ds (Derivation.tokensOfAll ds) := by
  induction h with
  | empty => exact .empty
  | shown token => exact .shown token
  | hidden token => exact .hidden token
  | rule name es =>
    have hm := below name es (by simp)
    simpa [Derivation.tokensOfAll, Derivation.tokens] using Matches.rule hm
  | seq _ _ ihf ihg =>
    rw [Derivation.tokensOfAll_append]
    exact .seq (ihf fun name es hd => below name es (List.mem_append_left _ hd))
      (ihg fun name es hd => below name es (List.mem_append_right _ hd))
  | altLeft _ ih => exact .altLeft (ih below)
  | altRight _ ih => exact .altRight (ih below)
  | manyNil => exact .manyNil
  | manyCons _ _ ihf ihm =>
    rw [Derivation.tokensOfAll_append]
    exact .manyCons (ihf fun name es hd => below name es (List.mem_append_left _ hd))
      (ihm fun name es hd => below name es (List.mem_append_right _ hd))

theorem of_valid {d : Derivation τ ρ} (h : d.Valid kind form) :
    ∀ name es, d = .node name es →
      Matches kind form (form name) es (Derivation.tokensOfAll es) := by
  induction h with
  | leaf => simp
  | node hf _ ih =>
    intro name es he
    cases he
    exact of_fits hf fun name es hd => ih _ hd name es rfl

end Matches

theorem derives_iff_matches {name : ρ} {d : Derivation τ ρ} :
    Derivation.Derives kind form name ts d ↔ Matches kind form (.rule name) [d] ts := by
  constructor
  · rintro ⟨⟨es, rfl⟩, hv, rfl⟩
    exact .rule (Matches.of_valid hv name es rfl)
  · intro h
    refine ⟨?_, h.valid d (by simp), ?_⟩
    · cases h
      exact ⟨_, rfl⟩
    · simpa [Derivation.tokensOfAll] using h.tokens

@[simp] theorem matches_empty_iff :
    Matches kind form .empty ds ts ↔ ds = [] ∧ ts = [] := by
  constructor
  · intro h
    cases h
    exact ⟨rfl, rfl⟩
  · rintro ⟨rfl, rfl⟩
    exact .empty

@[simp] theorem matches_shown_iff {k : κ} :
    Matches kind form (.shown k) ds ts ↔
      ∃ token, kind token = k ∧ ds = [.leaf token true] ∧ ts = [token] := by
  constructor
  · intro h
    cases h
    exact ⟨_, rfl, rfl, rfl⟩
  · rintro ⟨token, rfl, rfl, rfl⟩
    exact .shown token

@[simp] theorem matches_hidden_iff {k : κ} :
    Matches kind form (.hidden k) ds ts ↔
      ∃ token, kind token = k ∧ ds = [.leaf token false] ∧ ts = [token] := by
  constructor
  · intro h
    cases h
    exact ⟨_, rfl, rfl, rfl⟩
  · rintro ⟨token, rfl, rfl, rfl⟩
    exact .hidden token

@[simp] theorem matches_rule_iff {name : ρ} :
    Matches kind form (.rule name) ds ts ↔
      ∃ es, ds = [.node name es] ∧ Matches kind form (form name) es ts := by
  constructor
  · intro h
    cases h with
    | rule h => exact ⟨_, rfl, h⟩
  · rintro ⟨es, rfl, h⟩
    exact .rule h

@[simp] theorem matches_seq_iff :
    Matches kind form (.seq f g) ds ts ↔ ∃ ds₁ ds₂ ts₁ ts₂, ds = ds₁ ++ ds₂ ∧ ts = ts₁ ++ ts₂ ∧
      Matches kind form f ds₁ ts₁ ∧ Matches kind form g ds₂ ts₂ := by
  constructor
  · intro h
    cases h with
    | seq hf hg => exact ⟨_, _, _, _, rfl, rfl, hf, hg⟩
  · rintro ⟨ds₁, ds₂, ts₁, ts₂, rfl, rfl, hf, hg⟩
    exact .seq hf hg

@[simp] theorem matches_alt_iff :
    Matches kind form (.alt f g) ds ts ↔
      Matches kind form f ds ts ∨ Matches kind form g ds ts := by
  constructor
  · intro h
    cases h with
    | altLeft h => exact .inl h
    | altRight h => exact .inr h
  · rintro (h | h)
    · exact .altLeft h
    · exact .altRight h

theorem matches_many_iff :
    Matches kind form (.many f) ds ts ↔ (ds = [] ∧ ts = []) ∨
      ∃ ds₁ ds₂ ts₁ ts₂, ds = ds₁ ++ ds₂ ∧ ts = ts₁ ++ ts₂ ∧
        Matches kind form f ds₁ ts₁ ∧ Matches kind form (.many f) ds₂ ts₂ := by
  constructor
  · intro h
    cases h with
    | manyNil => exact .inl ⟨rfl, rfl⟩
    | manyCons hf hm => exact .inr ⟨_, _, _, _, rfl, rfl, hf, hm⟩
  · rintro (⟨rfl, rfl⟩ | ⟨ds₁, ds₂, ts₁, ts₂, rfl, rfl, hf, hm⟩)
    · exact .manyNil
    · exact .manyCons hf hm

/-- A form in front of another may be left unwritten when it is empty. -/
theorem matches_andThen_iff :
    Matches kind form (f.andThen g) ds ts ↔ Matches kind form (.seq f g) ds ts := by
  cases f with
  | empty =>
    constructor
    · intro h
      exact .seq .empty h
    · intro h
      cases h with
      | seq hf hg =>
        cases hf
        exact hg
  | _ => rfl

end GrammarDoc.Parsing
