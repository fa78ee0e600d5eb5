import GrammarDoc.Parsing.Form

namespace GrammarDoc.Parsing

/-- A derivation tree. Every token of the text is a leaf, marked as shown or left out. -/
inductive Derivation (τ ρ : Type) where
  | leaf (token : τ) (shown : Bool)
  | node (rule : ρ) (children : List (Derivation τ ρ))
deriving Repr, Inhabited

namespace Derivation

variable {κ τ ρ : Type}

mutual

/-- The tokens of a tree from left to right. -/
def tokens : Derivation τ ρ → List τ
  | leaf token _ => [token]
  | node _ children => tokensOfAll children

def tokensOfAll : List (Derivation τ ρ) → List τ
  | [] => []
  | d :: ds => tokens d ++ tokensOfAll ds

end

/-- The children of a node match a right-hand side. -/
inductive Fits (kind : τ → κ) : Form κ ρ → List (Derivation τ ρ) → Prop
  | empty : Fits kind .empty []
  | shown (token : τ) : Fits kind (.shown (kind token)) [leaf token true]
  | hidden (token : τ) : Fits kind (.hidden (kind token)) [leaf token false]
  | rule (name : ρ) (children : List (Derivation τ ρ)) :
      Fits kind (.rule name) [node name children]
  | seq {f g : Form κ ρ} {ds es : List (Derivation τ ρ)} :
      Fits kind f ds → Fits kind g es → Fits kind (.seq f g) (ds ++ es)
  | altLeft {f g : Form κ ρ} {ds : List (Derivation τ ρ)} :
      Fits kind f ds → Fits kind (.alt f g) ds
  | altRight {f g : Form κ ρ} {ds : List (Derivation τ ρ)} :
      Fits kind g ds → Fits kind (.alt f g) ds
  | manyNil {f : Form κ ρ} : Fits kind (.many f) []
  | manyCons {f : Form κ ρ} {ds es : List (Derivation τ ρ)} :
      Fits kind f ds → Fits kind (.many f) es → Fits kind (.many f) (ds ++ es)

/-- Every node of the tree has children that match its rule. -/
inductive Valid (kind : τ → κ) (form : ρ → Form κ ρ) : Derivation τ ρ → Prop
  | leaf (token : τ) (shown : Bool) : Valid kind form (.leaf token shown)
  | node {name : ρ} {children : List (Derivation τ ρ)} :
      Fits kind (form name) children → (∀ d ∈ children, Valid kind form d) →
      Valid kind form (.node name children)

/-- A tree derives a list of tokens from a rule. -/
def Derives (kind : τ → κ) (form : ρ → Form κ ρ) (name : ρ) (ts : List τ)
    (d : Derivation τ ρ) : Prop :=
  (∃ children, d = node name children) ∧ d.Valid kind form ∧ d.tokens = ts

theorem tokensOfAll_append (ds es : List (Derivation τ ρ)) :
    tokensOfAll (ds ++ es) = tokensOfAll ds ++ tokensOfAll es := by
  induction ds with
  | nil => rfl
  | cons d ds ih => simp [tokensOfAll, ih]

end Derivation
end GrammarDoc.Parsing
