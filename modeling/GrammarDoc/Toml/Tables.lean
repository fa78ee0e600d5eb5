import GrammarDoc.Toml.Strings

namespace GrammarDoc.Toml

abbrev Fields := List (String × Value)

/-- Sets a field, in place of an older value. -/
def setField (key : String) (v : Value) : Fields → Fields
  | [] => [(key, v)]
  | (k, w) :: fields => if k = key then (k, v) :: fields else (k, w) :: setField key v fields

/-- Changes the table at the end of a path, which is made if it is not there. Where lists may be
entered, the last table of a list stands for it. There is no such table if another value is in the
way, or if the change refuses it. -/
def changeAt (intoLists : Bool) (change : Fields → Option Fields) :
    List String → Fields → Option Fields
  | [], fields => change fields
  | key :: path, fields =>
    match fields.lookup key with
    | none => (changeAt intoLists change path []).map fun sub => setField key (.table sub) fields
    | some (.table sub) =>
      (changeAt intoLists change path sub).map fun sub => setField key (.table sub) fields
    | some (.list items) =>
      match intoLists, items.getLast? with
      | true, some (.table sub) =>
        (changeAt intoLists change path sub).map fun sub =>
          setField key (.list (items.dropLast ++ [.table sub])) fields
      | _, _ => none
    | some _ => none

/-- Adds a field that is not there yet. -/
def addField (key : String) (v : Value) (fields : Fields) : Option Fields :=
  if (fields.lookup key).isSome then none else some (setField key v fields)

/-- Adds an empty table to the list of a field, which is made if it is not there. -/
def addToList (key : String) (fields : Fields) : Option Fields :=
  match fields.lookup key with
  | none => some (setField key (.list [.table []]) fields)
  | some (.list items) => some (setField key (.list (items ++ [.table []])) fields)
  | some _ => none

/-- What may not be done to a name: a closed one can no longer be opened by a header or a dotted
key, and a frozen one, with all below it, can no longer be changed. -/
inductive Mark where
  | closed
  | frozen
deriving Repr, DecidableEq

/-- The marks on the names of a document. -/
abbrev Marks := List (List String × Mark)

namespace Marks

/-- A frozen name freezes all below it; the document itself has no marks. -/
def has (marks : Marks) (path : List String) (mark : Mark) : Bool :=
  !path.isEmpty && marks.any fun p =>
    p.2 == mark && (p.1 == path || (mark == .frozen && p.1.isPrefixOf path))

/-- Takes all marks from a name and from those below it. -/
def clear (marks : Marks) (path : List String) : Marks :=
  marks.filter fun p => !path.isPrefixOf p.1

end Marks

/-- Lists and tables that were written as values. -/
def isCollection : Value → Bool
  | .list _ => true
  | .table _ => true
  | _ => false

end GrammarDoc.Toml
