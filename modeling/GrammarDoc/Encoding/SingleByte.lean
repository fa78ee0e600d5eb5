import GrammarDoc.Encoding.Failure

namespace GrammarDoc.Encoding

/-- An encoding that has the first code points only, one byte for each. -/
structure SingleByte where
  codec : String
  size : Nat
deriving Repr, DecidableEq

namespace SingleByte

def ascii : SingleByte :=
  ⟨"ascii", 128⟩

def latin1 : SingleByte :=
  ⟨"latin-1", 256⟩

def reason (e : SingleByte) : String :=
  "ordinal not in range(" ++ toString e.size ++ ")"

/-- Encodes characters of which the first stands at a given offset. The first run of characters that
the encoding does not have is reported. -/
def encodeFrom (e : SingleByte) (offset : Nat) : List Char → Except BadChars (List UInt8)
  | [] => .ok []
  | c :: cs =>
    if c.toNat < e.size then
      (encodeFrom e (offset + 1) cs).map (UInt8.ofNat c.toNat :: ·)
    else
      let run := cs.takeWhile fun d => e.size ≤ d.toNat
      .error ⟨e.codec, offset, run.length + 1, c, e.reason⟩

/-- Decodes bytes of which the first stands at a given offset. -/
def decodeFrom (e : SingleByte) (offset : Nat) : List UInt8 → Except BadBytes (List Char)
  | [] => .ok []
  | b :: bytes =>
    if b.toNat < e.size then
      (decodeFrom e (offset + 1) bytes).map (Char.ofNat b.toNat :: ·)
    else .error ⟨e.codec, offset, 1, b, e.reason⟩

end SingleByte
end GrammarDoc.Encoding
