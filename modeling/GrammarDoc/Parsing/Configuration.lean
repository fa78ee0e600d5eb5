import GrammarDoc.Parsing.Derivation

namespace GrammarDoc.Parsing

variable {κ τ ρ : Type}

/-- A node under construction: its children so far, the last one first, and what is left of its
right-hand side. -/
structure Frame (κ τ ρ : Type) where
  rule : ρ
  done : List (Derivation τ ρ)
  rest : Form κ ρ
deriving Repr

/-- The nodes under construction at one point of the text, the innermost first. -/
abbrev Configuration (κ τ ρ : Type) := List (Frame κ τ ρ)

/-- A right-hand side after its first token: the nodes opened inside it, its own finished children,
the last one first, and what is left of it. -/
structure Entry (κ τ ρ : Type) where
  inner : Configuration κ τ ρ
  done : List (Derivation τ ρ)
  rest : Form κ ρ
deriving Repr

/-- The ways in which a form matches no token at all, given those of each rule. -/
def emptyMatches (trees : ρ → List (Derivation τ ρ)) : Form κ ρ → List (List (Derivation τ ρ))
  | .empty => [[]]
  | .shown _ => []
  | .hidden _ => []
  | .rule name => (trees name).map ([·])
  | .seq f g =>
    (emptyMatches trees f).flatMap fun ds => (emptyMatches trees g).map (ds ++ ·)
  | .alt f g => emptyMatches trees f ++ emptyMatches trees g
  | .many _ => [[]]

/-- The trees of a rule that cover no token, among those of limited depth. -/
def emptyTrees (form : ρ → Form κ ρ) : Nat → ρ → List (Derivation τ ρ)
  | 0, _ => []
  | depth + 1, name => (emptyMatches (emptyTrees form depth) (form name)).map (.node name)

/-- The ways in which a form can take a token as its first one, given those of each rule. -/
def entries [DecidableEq κ] (kind : τ → κ) (token : τ) (trees : ρ → List (Derivation τ ρ))
    (enter : ρ → List (Entry κ τ ρ)) : Form κ ρ → List (Entry κ τ ρ)
  | .empty => []
  | .shown k => if kind token = k then [⟨[], [.leaf token true], .empty⟩] else []
  | .hidden k => if kind token = k then [⟨[], [.leaf token false], .empty⟩] else []
  | .rule name =>
    (enter name).map fun e => ⟨e.inner ++ [⟨name, e.done, e.rest⟩], [], .empty⟩
  | .seq f g =>
    (entries kind token trees enter f).map (fun e => ⟨e.inner, e.done, e.rest.andThen g⟩) ++
      (emptyMatches trees f).flatMap fun ds =>
        (entries kind token trees enter g).map fun e =>
          ⟨e.inner, e.done ++ ds.reverse, e.rest⟩
  | .alt f g => entries kind token trees enter f ++ entries kind token trees enter g
  | .many f =>
    (entries kind token trees enter f).map fun e => ⟨e.inner, e.done, e.rest.andThen (.many f)⟩

/-- The ways in which a rule can take a token as its first one, entering no more than so many rules
one inside the other. -/
def ruleEntries [DecidableEq κ] (kind : τ → κ) (form : ρ → Form κ ρ) (token : τ)
    (trees : ρ → List (Derivation τ ρ)) : Nat → ρ → List (Entry κ τ ρ)
  | 0, _ => []
  | depth + 1, name =>
    entries kind token trees (ruleEntries kind form token trees depth) (form name)

namespace Grammar

variable (G : Grammar κ ρ)

/-- The trees of a rule that cover no token. -/
def blankTrees (name : ρ) : List (Derivation τ ρ) :=
  emptyTrees G.form G.depth name

/-- The ways in which a form matches no token at all. -/
def blanks (form : Form κ ρ) : List (List (Derivation τ ρ)) :=
  emptyMatches G.blankTrees form

/-- The ways in which a form can take a token as its first one. -/
def enter [DecidableEq κ] (kind : τ → κ) (token : τ) (form : Form κ ρ) : List (Entry κ τ ρ) :=
  entries kind token G.blankTrees
    (ruleEntries kind G.form token G.blankTrees G.depth) form

/-- The configurations after a token. It goes into the innermost node, or that node is finished and
it goes into one of those around it; `arrived` gives a node that has just been finished. It is asked
for only where the token goes in. -/
def advance [DecidableEq κ] (kind : τ → κ) (token : τ) (arrived : Unit → List (Derivation τ ρ)) :
    Configuration κ τ ρ → List (Configuration κ τ ρ)
  | [] => []
  | frame :: outer =>
    let done := fun (_ : Unit) => arrived () ++ frame.done
    ((G.enter kind token frame.rest).map fun e =>
        e.inner ++ ⟨frame.rule, e.done ++ done (), e.rest⟩ :: outer) ++
      (G.blanks frame.rest).flatMap fun ds =>
        advance kind token (fun _ => [.node frame.rule ((done ()).reverse ++ ds)]) outer

/-- The trees of a configuration at the end of the text. -/
def finish (arrived : List (Derivation τ ρ)) : Configuration κ τ ρ → List (Derivation τ ρ)
  | [] => arrived
  | frame :: outer =>
    (G.blanks frame.rest).flatMap fun ds =>
      finish [.node frame.rule ((arrived ++ frame.done).reverse ++ ds)] outer

/-- Before the first token only the start node is open. -/
def initial : List (Configuration κ τ ρ) :=
  [[⟨G.start, [], G.form G.start⟩]]

/-- The configurations after all tokens, or the first token that leaves none. -/
def run [DecidableEq κ] (kind : τ → κ) :
    List (Configuration κ τ ρ) → List τ → Except τ (List (Configuration κ τ ρ))
  | cs, [] => .ok cs
  | cs, token :: tokens =>
    match cs.flatMap (G.advance kind token fun _ => []) with
    | [] => .error token
    | next => run kind next tokens

end Grammar
end GrammarDoc.Parsing
