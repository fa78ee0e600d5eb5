import GrammarDoc.Text.Quoted

namespace GrammarDoc.Encoding

/-- Bytes that stand for no text: a run of them, the first one, and what is wrong with them. -/
structure BadBytes where
  codec : String
  first : Nat
  size : Nat
  byte : UInt8
  reason : String
deriving Repr, DecidableEq

/-- Characters that an encoding does not have: a run of them, and the first one. -/
structure BadChars where
  codec : String
  first : Nat
  size : Nat
  char : Char
  reason : String
deriving Repr, DecidableEq

def BadBytes.message (e : BadBytes) : String :=
  let run := if e.size = 1 then
    "byte 0x" ++ String.ofList (Text.hexDigits 2 e.byte.toNat) ++ " in position " ++
      toString e.first
  else "bytes in position " ++ toString e.first ++ "-" ++ toString (e.first + e.size - 1)
  "'" ++ e.codec ++ "' codec can't decode " ++ run ++ ": " ++ e.reason

def BadChars.message (e : BadChars) : String :=
  let run := if e.size = 1 then
    "character '" ++ String.ofList (Text.numericEscape e.char) ++ "' in position " ++
      toString e.first
  else "characters in position " ++ toString e.first ++ "-" ++ toString (e.first + e.size - 1)
  "'" ++ e.codec ++ "' codec can't encode " ++ run ++ ": " ++ e.reason

end GrammarDoc.Encoding
