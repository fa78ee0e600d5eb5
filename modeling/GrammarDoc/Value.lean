import GrammarDoc.Number.Shortest
import GrammarDoc.Text.Quoted

namespace GrammarDoc

/-- Loosely typed data, as a settings file or a caller may supply it. A `moment` is a date or a time
as it was written. -/
inductive Value where
  | null
  | bool (b : Bool)
  | int (n : Int)
  | double (x : Double)
  | text (s : String)
  | moment (s : String)
  | list (items : List Value)
  | table (fields : List (String × Value))
deriving Repr, Inhabited

namespace Value

/-- The finite number that a numeric value or a truth value stands for, as a whole number and the
power of two that it is scaled by. -/
def number? : Value → Option (Int × Int)
  | bool b => some (if b then 1 else 0, 0)
  | int n => some (n, 0)
  | double x => x.scaled?
  | _ => none

/-- Two scaled numbers are compared at the smaller of their exponents. -/
def sameNumber (a b : Int × Int) : Bool :=
  let low := min a.2 b.2
  a.1 * Nat.pow 2 (a.2 - low).toNat == b.1 * Nat.pow 2 (b.2 - low).toNat

/-- Equality of values without parts, under which a truth value is the number one or zero, and an
undefined number equals nothing. -/
def sameScalar : Value → Value → Bool
  | null, null => true
  | text a, text b => a == b
  | moment a, moment b => a == b
  | double (.infinite a), double (.infinite b) => a == b
  | a, b =>
    match a.number?, b.number? with
    | some m, some n => sameNumber m n
    | _, _ => false

mutual

/-- Equality of values. -/
def same : Value → Value → Bool
  | list as, list bs => sameItems as bs
  | table as, table bs => as.length == bs.length && sameFields as bs
  | a, b => sameScalar a b

/-- Equality of parts, under which an undefined number equals another one. -/
def samePart : Value → Value → Bool
  | double .undefined, double .undefined => true
  | list as, list bs => sameItems as bs
  | table as, table bs => as.length == bs.length && sameFields as bs
  | a, b => sameScalar a b

def sameItems : List Value → List Value → Bool
  | [], [] => true
  | a :: as, b :: bs => samePart a b && sameItems as bs
  | _, _ => false

/-- Whether all fields stand in a table too, in any order. -/
def sameFields : List (String × Value) → List (String × Value) → Bool
  | [], _ => true
  | (key, a) :: as, bs =>
    (match bs.lookup key with
    | none => false
    | some b => samePart a b) && sameFields as bs

end

mutual

/-- The exact form of a value, with texts in quotes, as long as it can be written. -/
def inspect : Value → String
  | null => "None"
  | bool true => "True"
  | bool false => "False"
  | int n => toString n
  | double x => x.text
  | text s => Text.quoted s
  | moment s => s
  | list items => "[" ++ ", ".intercalate (inspectItems items) ++ "]"
  | table fields => "\x7b" ++ ", ".intercalate (inspectFields fields) ++ "\x7d"

def inspectItems : List Value → List String
  | [] => []
  | v :: vs => inspect v :: inspectItems vs

def inspectFields : List (String × Value) → List String
  | [] => []
  | (key, v) :: rest => (Text.quoted key ++ ": " ++ inspect v) :: inspectFields rest

end

/-- The most digits that an integer is read or written with. -/
def digitLimit : Nat :=
  4300

/-- What is said of an integer with more digits than that. -/
def tooManyDigits (detail : String) : String :=
  "Exceeds the limit (" ++ toString digitLimit ++ " digits) for integer string conversion" ++
    detail ++ "; use sys.set_int_max_str_digits() to increase the limit"

mutual

/-- Whether a value can be written: no integer in it has too many digits. -/
def isWritable : Value → Bool
  | int n => n.natAbs < 10 ^ digitLimit
  | list items => areWritable items
  | table fields => fieldsWritable fields
  | _ => true

def areWritable : List Value → Bool
  | [] => true
  | v :: vs => isWritable v && areWritable vs

def fieldsWritable : List (String × Value) → Bool
  | [] => true
  | (_, v) :: rest => isWritable v && fieldsWritable rest

end

/-- The plain form of a value: a text stands for itself. -/
def plain : Value → String
  | text s => s
  | v => v.inspect

/-- The value of a key, the first one if it is repeated. -/
def field? (key : String) (fields : List (String × Value)) : Option Value :=
  fields.lookup key

end Value
end GrammarDoc
