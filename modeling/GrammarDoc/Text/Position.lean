namespace GrammarDoc.Text

/-- A place in a text: line and column, both counted from one. -/
structure Position where
  line : Nat
  column : Nat
deriving Repr, DecidableEq, Inhabited

namespace Position

def start : Position := ⟨1, 1⟩

/-- Only a line feed starts a new line. -/
def step (p : Position) (c : Char) : Position :=
  if c = '\n' then ⟨p.line + 1, 1⟩ else ⟨p.line, p.column + 1⟩

/-- The place reached after passing some characters. -/
def after (p : Position) (cs : List Char) : Position :=
  cs.foldl step p

end Position

/-- From the first character of a piece of text to the place just past its last one. -/
structure Span where
  first : Position
  last : Position
deriving Repr, DecidableEq, Inhabited

/-- The span from the start of the first covered piece to the end of the last one. -/
def Span.join? : Option Span → Option Span → Option Span
  | none, s => s
  | s, none => s
  | some a, some b => some ⟨a.first, b.last⟩

end GrammarDoc.Text
