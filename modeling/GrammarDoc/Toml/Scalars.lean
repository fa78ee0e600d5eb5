import GrammarDoc.Text.Digit
import GrammarDoc.Toml.Strings

namespace GrammarDoc.Toml

/-- More digits, each of which may follow an underscore. -/
def moreDigits (p : Char → Bool) : List Char → List Char × List Char
  | [] => ([], [])
  | '_' :: c :: cs =>
    if p c then
      let q := moreDigits p cs
      (c :: q.1, q.2)
    else ([], '_' :: c :: cs)
  | c :: cs =>
    if p c then
      let q := moreDigits p cs
      (c :: q.1, q.2)
    else ([], c :: cs)

/-- One or more digits. -/
def digits? (p : Char → Bool) : List Char → Option (List Char × List Char)
  | [] => none
  | c :: cs =>
    if p c then
      let q := moreDigits p cs
      some (c :: q.1, q.2)
    else none

/-- The number that digits of a base stand for. -/
def valueOf (base : Nat) (digits : List Char) : Nat :=
  digits.foldl (fun n c => base * n + (hexValue? c).getD 0) 0

/-- An integer in a base that is a power of two, after its first zero. -/
def basedInteger? : List Char → Option (Int × List Char)
  | 'x' :: cs => (digits? (fun c => (hexValue? c).isSome) cs).map fun p => (valueOf 16 p.1, p.2)
  | 'o' :: cs => (digits? (fun c => '0' ≤ c && c ≤ '7') cs).map fun p => (valueOf 8 p.1, p.2)
  | 'b' :: cs => (digits? (fun c => c == '0' || c == '1') cs).map fun p => (valueOf 2 p.1, p.2)
  | _ => none

/-- A sign at the start of the text, if there is one. -/
def sign : List Char → Int × List Char
  | '+' :: cs => (1, cs)
  | '-' :: cs => (-1, cs)
  | cs => (1, cs)

/-- The integer part of a decimal number: a single zero, or digits of which the first is none. -/
def integerPart? : List Char → Option (List Char × List Char)
  | '0' :: cs => some (['0'], cs)
  | cs => digits? Text.isAsciiDigit cs

def fraction? : List Char → Option (List Char × List Char)
  | '.' :: cs => digits? Text.isAsciiDigit cs
  | _ => none

def exponent? : List Char → Option (Int × List Char)
  | c :: cs =>
    if c = 'e' ∨ c = 'E' then
      let (s, cs) := sign cs
      (digits? Text.isAsciiDigit cs).map fun p => (s * valueOf 10 p.1, p.2)
    else none
  | [] => none

/-- A decimal number with its sign. -/
def decimalNumber? (cs : List Char) : Option (Except TomlError Value × List Char) := do
  let (s, cs) := sign cs
  let (whole, cs) ← integerPart? cs
  let (places, cs, fractional) := match fraction? cs with
    | some (places, cs) => (places, cs, true)
    | none => ([], cs, false)
  let (e, cs, scaled) := match exponent? cs with
    | some (e, cs) => (e, cs, true)
    | none => (0, cs, false)
  if fractional || scaled then
    let digits := valueOf 10 (whole ++ places)
    return (.ok (.double (.ofDecimal (s < 0) digits (e - places.length))), cs)
  else if Value.digitLimit < whole.length then
    return (.error (.longInteger whole.length), cs)
  else return (.ok (.int (s * valueOf 10 whole)), cs)

def number? : List Char → Option (Except TomlError Value × List Char)
  | '0' :: cs =>
    match basedInteger? cs with
    | some (n, rest) => some (.ok (.int n), rest)
    | none => decimalNumber? ('0' :: cs)
  | cs => decimalNumber? cs

/-- A number of exactly so many digits between two bounds. -/
def bounded? (count low high : Nat) (cs : List Char) : Option (Nat × List Char) :=
  let digits := cs.take count
  let n := valueOf 10 digits
  if digits.length = count ∧ digits.all Text.isAsciiDigit ∧ low ≤ n ∧ n ≤ high then
    some (n, cs.drop count)
  else none

def char? (c : Char) : List Char → Option (List Char)
  | d :: cs => if c = d then some cs else none
  | [] => none

/-- A fraction of a second, of any number of digits. -/
def skipFraction : List Char → List Char
  | '.' :: c :: cs => if Text.isAsciiDigit c then cs.dropWhile Text.isAsciiDigit else '.' :: c :: cs
  | cs => cs

/-- Passes over a time of day. -/
def time? (cs : List Char) : Option (List Char) := do
  let (_, cs) ← bounded? 2 0 23 cs
  let cs ← char? ':' cs
  let (_, cs) ← bounded? 2 0 59 cs
  let cs ← char? ':' cs
  let (_, cs) ← bounded? 2 0 59 cs
  return skipFraction cs

/-- Passes over a time offset, if there is one. -/
def skipOffset : List Char → List Char
  | [] => []
  | c :: cs =>
    if c = 'Z' ∨ c = 'z' then cs
    else if c = '+' ∨ c = '-' then
      let offset? := do
        let (_, cs) ← bounded? 2 0 23 cs
        let cs ← char? ':' cs
        let (_, cs) ← bounded? 2 0 59 cs
        return cs
      offset?.getD (c :: cs)
    else c :: cs

def isLeapYear (year : Nat) : Bool :=
  year % 4 == 0 && (year % 100 != 0 || year % 400 == 0)

def daysInMonth (year month : Nat) : Nat :=
  if month = 2 then (if isLeapYear year then 29 else 28)
  else if month = 4 ∨ month = 6 ∨ month = 9 ∨ month = 11 then 30
  else 31

/-- Passes over a date, and tells whether there is such a day. -/
def date? (cs : List Char) : Option (Bool × List Char) := do
  let (year, cs) ← bounded? 4 0 9999 cs
  let cs ← char? '-' cs
  let (month, cs) ← bounded? 2 1 12 cs
  let cs ← char? '-' cs
  let (day, cs) ← bounded? 2 1 31 cs
  return (1 ≤ year ∧ day ≤ daysInMonth year month, cs)

/-- A time after a date, with the mark between them and the offset, or nothing. -/
def skipTimeOfDate : List Char → List Char
  | [] => []
  | c :: cs =>
    if c = 'T' ∨ c = 't' ∨ c = ' ' then ((time? cs).map skipOffset).getD (c :: cs) else c :: cs

/-- A moment with the text that it was written as. -/
def momentUpTo (cs rest : List Char) : Value :=
  .moment (String.ofList (cs.take (cs.length - rest.length)))

/-- A date, a time or both. -/
def moment? (cs : List Char) : Option (Except TomlError Value × List Char) :=
  match date? cs with
  | some (false, rest) => some (.error .invalid, rest)
  | some (true, rest) =>
    let rest := skipTimeOfDate rest
    some (.ok (momentUpTo cs rest), rest)
  | none => (time? cs).map fun rest => (.ok (momentUpTo cs rest), rest)

/-- The text after a word that the text starts with. -/
def afterWord? (word : String) (cs : List Char) : Option (List Char) :=
  if word.toList.isPrefixOf cs then some (cs.drop word.length) else none

/-- The words that stand for values. -/
def wordValues : List (String × Value) :=
  [("true", .bool true), ("false", .bool false), ("inf", .double (.infinite false)),
    ("nan", .double .undefined), ("-inf", .double (.infinite true)),
    ("+inf", .double (.infinite false)), ("-nan", .double .undefined),
    ("+nan", .double .undefined)]

def word? (cs : List Char) : Option (Except TomlError Value × List Char) :=
  wordValues.findSome? fun p => (afterWord? p.1 cs).map fun rest => (.ok p.2, rest)

/-- A value that is neither a string nor has parts. -/
def scalar (cs : List Char) : Except TomlError (Value × List Char) :=
  match (moment? cs).or ((number? cs).or (word? cs)) with
  | none => .error .invalid
  | some (value, rest) => value.map fun v => (v, rest)

end GrammarDoc.Toml
