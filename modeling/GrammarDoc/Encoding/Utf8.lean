import GrammarDoc.Encoding.Failure

namespace GrammarDoc.Encoding.Utf8

/-- The byte that continues a character with six of its bits. -/
def continuation (n : Nat) : UInt8 :=
  .ofNat (0x80 + n % 64)

/-- One to four bytes for a character. -/
def encodeChar (c : Char) : List UInt8 :=
  let n := c.toNat
  if n < 0x80 then [.ofNat n]
  else if n < 0x800 then [.ofNat (0xC0 + n / 64), continuation n]
  else if n < 0x10000 then
    [.ofNat (0xE0 + n / 4096), continuation (n / 64), continuation n]
  else
    [.ofNat (0xF0 + n / 262144), continuation (n / 4096), continuation (n / 64), continuation n]

def encode (cs : List Char) : List UInt8 :=
  cs.flatMap encodeChar

/-- What a first byte says: how many bytes follow, the bounds of the next one, and the bits that it
contributes itself. -/
structure Lead where
  count : Nat
  low : Nat
  high : Nat
  bits : Nat

/-- The bounds of the second byte keep out forms that are too long, surrogates, and numbers beyond
the last code point. -/
def lead? (b : Nat) : Option Lead :=
  if b < 0x80 then some ⟨0, 0, 0, b⟩
  else if b < 0xC2 then none
  else if b < 0xE0 then some ⟨1, 0x80, 0xBF, b - 0xC0⟩
  else if b = 0xE0 then some ⟨2, 0xA0, 0xBF, 0⟩
  else if b = 0xED then some ⟨2, 0x80, 0x9F, 13⟩
  else if b < 0xF0 then some ⟨2, 0x80, 0xBF, b - 0xE0⟩
  else if b = 0xF0 then some ⟨3, 0x90, 0xBF, 0⟩
  else if b < 0xF4 then some ⟨3, 0x80, 0xBF, b - 0xF0⟩
  else if b = 0xF4 then some ⟨3, 0x80, 0x8F, 4⟩
  else none

/-- Why the bytes after a first one do not complete it, and how many of them still fit. -/
structure Broken where
  fitting : Nat
  reason : String

/-- Takes the bytes that complete a character. -/
def complete (count low high bits : Nat) (bytes : List UInt8) :
    Except Broken (Nat × List UInt8) :=
  match count, bytes with
  | 0, rest => .ok (bits, rest)
  | _ + 1, [] => .error ⟨0, "unexpected end of data"⟩
  | count + 1, b :: rest =>
    if low ≤ b.toNat ∧ b.toNat ≤ high then
      (complete count 0x80 0xBF (bits * 64 + (b.toNat - 0x80)) rest).mapError
        fun e => ⟨e.fitting + 1, e.reason⟩
    else .error ⟨0, "invalid continuation byte"⟩

theorem complete_length_le {count low high bits : Nat} {bytes : List UInt8}
    {p : Nat × List UInt8} (h : complete count low high bits bytes = .ok p) :
    p.2.length ≤ bytes.length := by
  induction count generalizing low high bits bytes with
  | zero =>
    simp only [complete] at h
    cases h
    exact Nat.le_refl _
  | succ count ih =>
    cases bytes with
    | nil => simp [complete] at h
    | cons b rest =>
      unfold complete at h
      split at h
      · cases hc : complete count 0x80 0xBF (bits * 64 + (b.toNat - 0x80)) rest with
        | error e => rw [hc] at h; cases h
        | ok q =>
          rw [hc] at h
          cases h
          exact Nat.le_succ_of_le (ih hc)
      · simp at h

/-- Decodes bytes whose first one stands at a given offset. The first run of bytes that is no
character is reported, as long as it could still have become one. -/
def decodeFrom (offset : Nat) (bytes : List UInt8) : Except BadBytes (List Char) :=
  match bytes with
  | [] => .ok []
  | b :: rest =>
    match lead? b.toNat with
    | none => .error ⟨"utf-8", offset, 1, b, "invalid start byte"⟩
    | some lead =>
      match h : complete lead.count lead.low lead.high lead.bits rest with
      | .error e => .error ⟨"utf-8", offset, e.fitting + 1, b, e.reason⟩
      | .ok (n, after) =>
        have : after.length < (b :: rest).length :=
          Nat.lt_succ_of_le (complete_length_le h)
        (decodeFrom (offset + lead.count + 1) after).map (Char.ofNat n :: ·)
termination_by bytes.length
decreasing_by exact this

def decode (bytes : List UInt8) : Except BadBytes (List Char) :=
  decodeFrom 0 bytes

end GrammarDoc.Encoding.Utf8
