namespace GrammarDoc.Parsing

/-- The right-hand side of a grammar rule. A token is shown as a leaf of the tree or left out of
it. -/
inductive Form (κ ρ : Type) where
  | empty
  | shown (kind : κ)
  | hidden (kind : κ)
  | rule (name : ρ)
  | seq (first second : Form κ ρ)
  | alt (left right : Form κ ρ)
  | many (body : Form κ ρ)
deriving Repr

namespace Form

variable {κ ρ : Type}

def optional (form : Form κ ρ) : Form κ ρ :=
  alt form empty

/-- Several forms in a row. -/
def inOrder : List (Form κ ρ) → Form κ ρ
  | [] => empty
  | [form] => form
  | form :: forms => seq form (inOrder forms)

/-- One of several forms. -/
def oneOf : List (Form κ ρ) → Form κ ρ
  | [] => empty
  | [form] => form
  | form :: forms => alt form (oneOf forms)

/-- A form followed by another, where nothing is written for an empty first form. -/
def andThen : Form κ ρ → Form κ ρ → Form κ ρ
  | empty, second => second
  | first, second => seq first second

end Form

/-- A grammar has one right-hand side for each rule. `depth` bounds the rules that can be entered
one inside the other before a token is read. -/
structure Grammar (κ ρ : Type) where
  form : ρ → Form κ ρ
  start : ρ
  depth : Nat

end GrammarDoc.Parsing
