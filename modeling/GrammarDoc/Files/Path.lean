namespace GrammarDoc.Files

/-- A path: what it starts from, which is empty for the working directory, and the names on it. It
holds no empty names and no dots, but may hold double dots. -/
structure Path where
  root : String
  names : List String
deriving Repr, DecidableEq, Inhabited

namespace Path

/-- The parts of a text between slashes. -/
def cutAtSlashes : List Char → List (List Char)
  | [] => [[]]
  | c :: cs =>
    if c = '/' then [] :: cutAtSlashes cs
    else
      match cutAtSlashes cs with
      | [] => [[c]]
      | part :: parts => (c :: part) :: parts

/-- Two slashes at the start are kept, and three or more are one. -/
def rootOf (cs : List Char) : String :=
  match (cs.takeWhile (· = '/')).length with
  | 0 => ""
  | 2 => "//"
  | _ => "/"

/-- Reads a path. Empty names and single dots are dropped. -/
def ofText (s : String) : Path :=
  let names := (cutAtSlashes s.toList).map String.ofList
  ⟨rootOf s.toList, names.filter fun name => name ≠ "" ∧ name ≠ "."⟩

/-- Writes a path; the working directory is a dot. -/
def text (p : Path) : String :=
  if p.root = "" ∧ p.names = [] then "." else p.root ++ "/".intercalate p.names

/-- The last name, or no text. -/
def name (p : Path) : String :=
  p.names.getLastD ""

/-- Whether a zero character stands in a path. -/
def hasZero (p : Path) : Bool :=
  p.names.any fun name => name.toList.contains '\x00'

/-- The path without its last name. -/
def parent (p : Path) : Path :=
  ⟨p.root, p.names.dropLast⟩

/-- A path below another one. -/
def child (p : Path) (name : String) : Path :=
  ⟨p.root, p.names ++ [name]⟩

end Path
end GrammarDoc.Files
