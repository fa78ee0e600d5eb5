import GrammarDoc.Encoding.Utf8
import GrammarDoc.Toml.Scalars
import GrammarDoc.Toml.Tables

namespace GrammarDoc.Toml

/-- Passes over white space, line breaks and comments between the items of a list. `fuel` bounds
the number of comments. -/
def skipFiller : Nat → List Char → Except TomlError (List Char)
  | 0, cs => .ok cs
  | fuel + 1, cs =>
    match cs.dropWhile isSpaceOrBreak with
    | '#' :: rest => do skipFiller fuel (← skipComment ('#' :: rest))
    | rest => .ok rest

mutual

/-- A value. `fuel` bounds the steps; each takes a character or goes one level deeper. -/
def value : Nat → List Char → Except TomlError (Value × List Char)
  | 0, _ => .error .invalid
  | fuel + 1, cs =>
    match cs with
    | '"' :: rest => (string '"' rest).map fun p => (.text (String.ofList p.1), p.2)
    | '\'' :: rest => (string '\'' rest).map fun p => (.text (String.ofList p.1), p.2)
    | '[' :: rest => do
      let (items, rest) ← listItems fuel (← skipFiller fuel rest)
      return (.list items, rest)
    | '\x7b' :: rest => do
      match skipSpace rest with
      | '\x7d' :: rest => return (.table [], rest)
      | rest =>
        let (fields, rest) ← tableItems fuel [] [] rest
        return (.table fields, rest)
    | cs => scalar cs

/-- The items of a list and its closing bracket. A comma may stand after the last item. -/
def listItems : Nat → List Char → Except TomlError (List Value × List Char)
  | 0, _ => .error .invalid
  | fuel + 1, cs =>
    match cs with
    | ']' :: rest => .ok ([], rest)
    | cs => do
      let (v, rest) ← value fuel cs
      match ← skipFiller fuel rest with
      | ']' :: rest => return ([v], rest)
      | ',' :: rest =>
        let (vs, rest) ← listItems fuel (← skipFiller fuel rest)
        return (v :: vs, rest)
      | _ => throw .invalid

/-- A key and its value. -/
def pair : Nat → List Char → Except TomlError ((List String × Value) × List Char)
  | 0, _ => .error .invalid
  | fuel + 1, cs => do
    let (path, rest) ← key cs
    match rest with
    | '=' :: rest =>
      let (v, rest) ← value fuel (skipSpace rest)
      return ((path, v), rest)
    | _ => throw .invalid

/-- The fields of an inline table and its closing brace. Every comma is followed by a field. -/
def tableItems : Nat → Marks → Fields → List Char → Except TomlError (Fields × List Char)
  | 0, _, _, _ => .error .invalid
  | fuel + 1, marks, fields, cs => do
    let ((path, v), rest) ← pair fuel cs
    if marks.has path .frozen then throw .invalid
    match changeAt false (addField (path.getLastD "") v) path.dropLast fields with
    | none => throw .invalid
    | some fields =>
      match skipSpace rest with
      | '\x7d' :: rest => return (fields, rest)
      | ',' :: rest =>
        let marks := if isCollection v then (path, .frozen) :: marks else marks
        tableItems fuel marks fields (skipSpace rest)
      | _ => throw .invalid

end

/-- Enough steps for a text of a given length. -/
def steps (cs : List Char) : Nat :=
  3 * cs.length + 3

/-- What has been read of a document: its fields, the marks on its names, those that a following
header will set, and the header in force. -/
structure Progress where
  fields : Fields
  marks : Marks
  pending : List (List String)
  header : List String

namespace Progress

def start : Progress :=
  ⟨[], [], [], []⟩

/-- A header sets the marks that were left open before it. -/
def settled (p : Progress) : Progress :=
  { p with marks := p.pending.map (·, .closed) ++ p.marks, pending := [] }

/-- Opens the table of a header. -/
def openTable (p : Progress) (path : List String) : Except TomlError Progress :=
  if p.marks.has path .closed || p.marks.has path .frozen then .error .invalid
  else
    match changeAt true some path p.fields with
    | none => .error .invalid
    | some fields =>
      .ok { p with fields := fields, marks := (path, .closed) :: p.marks, header := path }

/-- Adds a table to the list of a header. -/
def openItem (p : Progress) (path : List String) : Except TomlError Progress :=
  if p.marks.has path .frozen then .error .invalid
  else
    match changeAt true (addToList (path.getLastD "")) path.dropLast p.fields with
    | none => .error .invalid
    | some fields =>
      let marks := (path, .closed) :: p.marks.clear path
      .ok { p with fields := fields, marks := marks, header := path }

/-- The names on the way to a dotted key, from the first on. -/
def stems (header path : List String) : List (List String) :=
  (List.range (path.length - 1)).map fun i => header ++ path.take (i + 1)

/-- Sets a key under the header in force. -/
def assign (p : Progress) (path : List String) (v : Value) : Except TomlError Progress :=
  let ways := stems p.header path
  let above := p.header ++ path.dropLast
  if ways.any (p.marks.has · .closed) || p.marks.has above .frozen then .error .invalid
  else
    match changeAt true (addField (path.getLastD "") v) above p.fields with
    | none => .error .invalid
    | some fields =>
      let marks := if isCollection v then (p.header ++ path, .frozen) :: p.marks else p.marks
      .ok { p with fields := fields, marks := marks, pending := ways ++ p.pending }

end Progress

/-- The header or the field at the start of a line that is neither empty nor a comment. -/
def statement (p : Progress) (cs : List Char) : Except TomlError (Progress × List Char) :=
  match cs with
  | '[' :: '[' :: rest => do
    let (path, rest) ← key (skipSpace rest)
    let p ← p.settled.openItem path
    match rest with
    | ']' :: ']' :: rest => return (p, rest)
    | _ => throw .invalid
  | '[' :: rest => do
    let (path, rest) ← key (skipSpace rest)
    let p ← p.settled.openTable path
    match rest with
    | ']' :: rest => return (p, rest)
    | _ => throw .invalid
  | cs => do
    let ((path, v), rest) ← pair (steps cs) cs
    return (← p.assign path v, rest)

/-- The lines of a document. `fuel` bounds their number. -/
def lines : Nat → Progress → List Char → Except TomlError Fields
  | 0, _, _ => .error .invalid
  | fuel + 1, p, cs =>
    match skipSpace cs with
    | [] => .ok p.fields
    | '\n' :: rest => lines fuel p rest
    | cs => do
      let (p, rest) ← if cs.head? = some '#' then pure (p, cs) else statement p cs
      match ← skipComment (skipSpace rest) with
      | [] => return p.fields
      | '\n' :: rest => lines fuel p rest
      | _ => throw .invalid

/-- A carriage return before a line feed is dropped. -/
def joinBreaks : List Char → List Char
  | [] => []
  | '\r' :: '\n' :: cs => '\n' :: joinBreaks cs
  | c :: cs => c :: joinBreaks cs

/-- The fields of a document. -/
def document (cs : List Char) : Except TomlError Fields :=
  let cs := joinBreaks cs
  lines cs.length.succ .start cs

/-- Why a file gives no fields. -/
inductive FileError where
  | badBytes (error : Encoding.BadBytes)
  | toml (error : TomlError)
deriving Repr, DecidableEq

/-- The fields of a file, which is UTF-8 whatever else is. -/
def ofBytes (bytes : List UInt8) : Except FileError Fields := do
  let cs ← (Encoding.Utf8.decode bytes).mapError .badBytes
  (document cs).mapError .toml

end GrammarDoc.Toml
