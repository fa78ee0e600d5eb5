import GrammarDoc.Value

namespace GrammarDoc.Toml

/-- Why a text is no TOML document. An integer may be well formed and still have too many digits. -/
inductive TomlError where
  | invalid
  | longInteger (digits : Nat)
deriving Repr, DecidableEq

/-- Control characters other than the tab may not stand in comments and strings. -/
def isControl (c : Char) : Bool :=
  (c.toNat < 0x20 && c != '\t') || c.toNat == 0x7F

def isSpace (c : Char) : Bool :=
  c == ' ' || c == '\t'

def isSpaceOrBreak (c : Char) : Bool :=
  isSpace c || c == '\n'

def skipSpace (cs : List Char) : List Char :=
  cs.dropWhile isSpace

/-- Passes over a comment, up to the end of its line. -/
def skipComment : List Char → Except TomlError (List Char)
  | '#' :: cs =>
    let line := cs.takeWhile (· ≠ '\n')
    if line.any isControl then .error .invalid else .ok (cs.dropWhile (· ≠ '\n'))
  | cs => .ok cs

def hexValue? (c : Char) : Option Nat :=
  if '0' ≤ c ∧ c ≤ '9' then some (c.toNat - '0'.toNat)
  else if 'a' ≤ c ∧ c ≤ 'f' then some (c.toNat - 'a'.toNat + 10)
  else if 'A' ≤ c ∧ c ≤ 'F' then some (c.toNat - 'A'.toNat + 10)
  else none

/-- A character given by so many hexadecimal digits. Surrogates are no characters. -/
def hexChar (count : Nat) (cs : List Char) : Except TomlError (List Char × List Char) :=
  match (cs.take count).mapM hexValue? with
  | none => .error .invalid
  | some digits =>
    let n := digits.foldl (fun n d => 16 * n + d) 0
    if digits.length = count ∧ n.isValidChar then .ok ([Char.ofNat n], cs.drop count)
    else .error .invalid

/-- Passes over a line break inside a string, with the white space around it. -/
def lineContinuation (cs : List Char) : Except TomlError (List Char × List Char) :=
  match skipSpace cs with
  | [] => .ok ([], [])
  | '\n' :: rest => .ok ([], rest.dropWhile isSpaceOrBreak)
  | _ => .error .invalid

/-- What an escape stands for, after its backslash. -/
def escape (multiline : Bool) : List Char → Except TomlError (List Char × List Char)
  | 'b' :: cs => .ok (['\x08'], cs)
  | 't' :: cs => .ok (['\t'], cs)
  | 'n' :: cs => .ok (['\n'], cs)
  | 'f' :: cs => .ok (['\x0C'], cs)
  | 'r' :: cs => .ok (['\r'], cs)
  | '"' :: cs => .ok (['"'], cs)
  | '\\' :: cs => .ok (['\\'], cs)
  | 'u' :: cs => hexChar 4 cs
  | 'U' :: cs => hexChar 8 cs
  | c :: cs =>
    if multiline && isSpaceOrBreak c then lineContinuation (c :: cs) else .error .invalid
  | [] => .error .invalid

/-- The rest of a string in double quotes. `fuel` bounds the steps; the length of the text is
enough. -/
def basicRest (multiline : Bool) : Nat → List Char → Except TomlError (List Char × List Char)
  | 0, _ => .error .invalid
  | _ + 1, [] => .error .invalid
  | fuel + 1, '\\' :: cs => do
    let (chars, rest) ← escape multiline cs
    let (more, rest) ← basicRest multiline fuel rest
    return (chars ++ more, rest)
  | fuel + 1, '"' :: cs =>
    if !multiline then .ok ([], cs)
    else if cs.take 2 = ['"', '"'] then .ok ([], cs.drop 2)
    else (basicRest multiline fuel cs).map fun p => ('"' :: p.1, p.2)
  | fuel + 1, c :: cs =>
    if isControl c && !(multiline && c == '\n') then .error .invalid
    else (basicRest multiline fuel cs).map fun p => (c :: p.1, p.2)

/-- The rest of a string in apostrophes. -/
def literalRest (multiline : Bool) : List Char → Except TomlError (List Char × List Char)
  | [] => .error .invalid
  | '\'' :: cs =>
    if !multiline then .ok ([], cs)
    else if cs.take 2 = ['\'', '\''] then .ok ([], cs.drop 2)
    else (literalRest multiline cs).map fun p => ('\'' :: p.1, p.2)
  | c :: cs =>
    if isControl c && !(multiline && c == '\n') then .error .invalid
    else (literalRest multiline cs).map fun p => (c :: p.1, p.2)

/-- Up to two more quotes may stand before the three that close a string. -/
def extraQuotes (quote : Char) (p : List Char × List Char) : List Char × List Char :=
  let extra := (p.2.take 2).takeWhile (· = quote)
  (p.1 ++ extra, p.2.drop extra.length)

/-- A line break right after the opening quotes of a string is dropped. -/
def dropFirstBreak : List Char → List Char
  | '\n' :: cs => cs
  | cs => cs

/-- A string on one line, after its opening quote. -/
def lineString (quote : Char) (cs : List Char) : Except TomlError (List Char × List Char) :=
  if quote = '"' then basicRest false cs.length.succ cs else literalRest false cs

/-- A string over several lines, after its three opening quotes. -/
def blockString (quote : Char) (cs : List Char) : Except TomlError (List Char × List Char) :=
  let cs := dropFirstBreak cs
  (if quote = '"' then basicRest true cs.length.succ cs else literalRest true cs).map
    (extraQuotes quote)

/-- A string in either kind of quotes, after the first one. -/
def string (quote : Char) (cs : List Char) : Except TomlError (List Char × List Char) :=
  if cs.take 2 = [quote, quote] then blockString quote (cs.drop 2) else lineString quote cs

def isBareKeyChar (c : Char) : Bool :=
  c.isAlphanum || c == '-' || c == '_'

/-- One part of a key: a bare word or a string on one line. -/
def keyPart : List Char → Except TomlError (String × List Char)
  | [] => .error .invalid
  | c :: cs =>
    if isBareKeyChar c then
      .ok (String.ofList (c :: cs.takeWhile isBareKeyChar), cs.dropWhile isBareKeyChar)
    else if c = '"' ∨ c = '\'' then
      (lineString c cs).map fun p => (String.ofList p.1, p.2)
    else .error .invalid

/-- The parts of a key, which points separate. `fuel` bounds their number. -/
def keyParts : Nat → List Char → Except TomlError (List String × List Char)
  | 0, _ => .error .invalid
  | fuel + 1, cs => do
    let (part, rest) ← keyPart cs
    match skipSpace rest with
    | '.' :: rest => (keyParts fuel (skipSpace rest)).map fun p => (part :: p.1, p.2)
    | rest => return ([part], rest)

def key (cs : List Char) : Except TomlError (List String × List Char) :=
  keyParts cs.length.succ cs

end GrammarDoc.Toml
