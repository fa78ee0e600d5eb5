import GrammarDoc.Proofs.Parsing.Matching

namespace GrammarDoc.Parsing

/-- How a form takes its tokens: which side of each choice, where each part of a sequence ends, and
how many rounds of each repetition. -/
inductive Way (τ ρ : Type) where
  | nothing
  | token (token : τ) (shown : Bool)
  | inside (name : ρ) (way : Way τ ρ)
  | both (first second : Way τ ρ)
  | left (way : Way τ ρ)
  | right (way : Way τ ρ)
  | stop
  | round (first later : Way τ ρ)
deriving Repr, DecidableEq

variable {κ τ ρ : Type} {kind : τ → κ} {form : ρ → Form κ ρ}
variable {f : Form κ ρ} {w : Way τ ρ} {ds : List (Derivation τ ρ)} {ts : List τ}

/-- The row of trees that a way gives. -/
def Way.trees : Way τ ρ → List (Derivation τ ρ)
  | nothing => []
  | token t shown => [.leaf t shown]
  | inside name w => [.node name w.trees]
  | both w v => w.trees ++ v.trees
  | left w => w.trees
  | right w => w.trees
  | stop => []
  | round w v => w.trees ++ v.trees

/-- A form takes some tokens in a given way. -/
inductive Takes (kind : τ → κ) (form : ρ → Form κ ρ) : Form κ ρ → Way τ ρ → List τ → Prop
  | empty : Takes kind form .empty .nothing []
  | shown (token : τ) : Takes kind form (.shown (kind token)) (.token token true) [token]
  | hidden (token : τ) : Takes kind form (.hidden (kind token)) (.token token false) [token]
  | rule {name : ρ} {w : Way τ ρ} {ts : List τ} :
      Takes kind form (form name) w ts → Takes kind form (.rule name) (.inside name w) ts
  | seq {f g : Form κ ρ} {w v : Way τ ρ} {ts us : List τ} :
      Takes kind form f w ts → Takes kind form g v us →
      Takes kind form (.seq f g) (.both w v) (ts ++ us)
  | altLeft {f g : Form κ ρ} {w : Way τ ρ} {ts : List τ} :
      Takes kind form f w ts → Takes kind form (.alt f g) (.left w) ts
  | altRight {f g : Form κ ρ} {w : Way τ ρ} {ts : List τ} :
      Takes kind form g w ts → Takes kind form (.alt f g) (.right w) ts
  | manyNil {f : Form κ ρ} : Takes kind form (.many f) .stop []
  | manyCons {f : Form κ ρ} {w v : Way τ ρ} {ts us : List τ} :
      Takes kind form f w ts → Takes kind form (.many f) v us →
      Takes kind form (.many f) (.round w v) (ts ++ us)

theorem Takes.matches (h : Takes kind form f w ts) : Matches kind form f w.trees ts := by
  induction h with
  | empty => exact .empty
  | shown token => exact .shown token
  | hidden token => exact .hidden token
  | rule _ ih => exact .rule ih
  | seq _ _ ihf ihg => exact .seq ihf ihg
  | altLeft _ ih => exact .altLeft ih
  | altRight _ ih => exact .altRight ih
  | manyNil => exact .manyNil
  | manyCons _ _ ihf ihm => exact .manyCons ihf ihm

theorem Matches.exists_takes (h : Matches kind form f ds ts) :
    ∃ w, Takes kind form f w ts ∧ w.trees = ds := by
  induction h with
  | empty => exact ⟨_, .empty, rfl⟩
  | shown token => exact ⟨_, .shown token, rfl⟩
  | hidden token => exact ⟨_, .hidden token, rfl⟩
  | rule _ ih =>
    obtain ⟨w, hw, rfl⟩ := ih
    exact ⟨_, .rule hw, rfl⟩
  | seq _ _ ihf ihg =>
    obtain ⟨w, hw, rfl⟩ := ihf
    obtain ⟨v, hv, rfl⟩ := ihg
    exact ⟨_, .seq hw hv, rfl⟩
  | altLeft _ ih =>
    obtain ⟨w, hw, rfl⟩ := ih
    exact ⟨_, .altLeft hw, rfl⟩
  | altRight _ ih =>
    obtain ⟨w, hw, rfl⟩ := ih
    exact ⟨_, .altRight hw, rfl⟩
  | manyNil => exact ⟨_, .manyNil, rfl⟩
  | manyCons _ _ ihf ihm =>
    obtain ⟨w, hw, rfl⟩ := ihf
    obtain ⟨v, hv, rfl⟩ := ihm
    exact ⟨_, .manyCons hw hv, rfl⟩

theorem way_of_takes_shown {k : κ} (h : Takes kind form (.shown k) w ts) :
    ∃ token, w = .token token true ∧ ts = [token] := by
  cases h
  exact ⟨_, rfl, rfl⟩

theorem way_of_takes_hidden {k : κ} (h : Takes kind form (.hidden k) w ts) :
    ∃ token, w = .token token false ∧ ts = [token] := by
  cases h
  exact ⟨_, rfl, rfl⟩

end GrammarDoc.Parsing
