import GrammarDoc.Encoding.Failure

namespace GrammarDoc.Encoding

/-- Which byte of a unit comes first. -/
inductive ByteOrder where
  | little
  | big
deriving Repr, DecidableEq

namespace Utf16

def codec : ByteOrder → String
  | .little => "utf-16-le"
  | .big => "utf-16-be"

/-- The two bytes of a unit. -/
def unitBytes (order : ByteOrder) (n : Nat) : List UInt8 :=
  match order with
  | .little => [.ofNat (n % 256), .ofNat (n / 256)]
  | .big => [.ofNat (n / 256), .ofNat (n % 256)]

/-- The unit of two bytes. -/
def unit (order : ByteOrder) (a b : UInt8) : Nat :=
  match order with
  | .little => a.toNat + 256 * b.toNat
  | .big => 256 * a.toNat + b.toNat

/-- Characters beyond the basic plane take a pair of surrogates. -/
def encodeChar (order : ByteOrder) (c : Char) : List UInt8 :=
  let n := c.toNat
  if n < 0x10000 then unitBytes order n
  else
    unitBytes order (0xD800 + (n - 0x10000) / 1024) ++
      unitBytes order (0xDC00 + (n - 0x10000) % 1024)

def encode (order : ByteOrder) (cs : List Char) : List UInt8 :=
  cs.flatMap (encodeChar order)

def isHighSurrogate (n : Nat) : Bool :=
  0xD800 ≤ n && n < 0xDC00

def isLowSurrogate (n : Nat) : Bool :=
  0xDC00 ≤ n && n < 0xE000

/-- Decodes bytes whose first one stands at a given offset. -/
def decodeFrom (order : ByteOrder) (offset : Nat) : List UInt8 → Except BadBytes (List Char)
  | [] => .ok []
  | [a] => .error ⟨codec order, offset, 1, a, "truncated data"⟩
  | a :: b :: rest =>
    let high := unit order a b
    if isLowSurrogate high then .error ⟨codec order, offset, 2, a, "illegal encoding"⟩
    else if isHighSurrogate high then
      match rest with
      | c :: d :: after =>
        let low := unit order c d
        if isLowSurrogate low then
          (decodeFrom order (offset + 4) after).map
            (Char.ofNat (0x10000 + (high - 0xD800) * 1024 + (low - 0xDC00)) :: ·)
        else .error ⟨codec order, offset, 2, a, "illegal UTF-16 surrogate"⟩
      | rest => .error ⟨codec order, offset, 2 + rest.length, a, "unexpected end of data"⟩
    else (decodeFrom order (offset + 2) rest).map (Char.ofNat high :: ·)

/-- The mark that a text starts with to show its byte order. -/
def mark (order : ByteOrder) : List UInt8 :=
  unitBytes order 0xFEFF

/-- The byte order that a text shows, if it does, and the bytes after the mark. -/
def markedOrder? : List UInt8 → Option (ByteOrder × List UInt8)
  | 0xFF :: 0xFE :: rest => some (.little, rest)
  | 0xFE :: 0xFF :: rest => some (.big, rest)
  | _ => none

end Utf16
end GrammarDoc.Encoding
