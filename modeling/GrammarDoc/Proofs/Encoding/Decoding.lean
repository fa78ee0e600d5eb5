import GrammarDoc.Encoding.Codec
import Mathlib.Data.List.Basic

namespace GrammarDoc

namespace Encoding

variable {c : Char} {cs : List Char} {n offset : Nat} {bytes rest : List UInt8}

namespace Utf8

end Utf8

namespace Utf16

variable {order : ByteOrder}

end Utf16

end Encoding

namespace Codec

open Encoding

variable {codec : Codec} {cs : List Char} {bytes : List UInt8} {name text : String}
variable {others : Codings}

/-- A table of an encoding has no more code points than there are bytes. -/
def Fits : Codec → Prop
  | singleByte table => table.size ≤ 256
  | _ => True

theorem named_of_ofName? (others : Codings) (hz : hasZero name = false)
    (hc : ofName? name = some codec) : named others name = .ok codec.coding := by
  simp only [named, hz, hc, Bool.false_eq_true, if_false]

theorem named_eq_ok_iff {coding : Coding} : named others name = .ok coding ↔
    hasZero name = false ∧ ((∃ codec, ofName? name = some codec ∧ coding = codec.coding) ∨
      ofName? name = none ∧ others name = some coding) := by
  unfold named
  cases hz : hasZero name with
  | true => simp
  | false =>
    cases hc : ofName? name with
    | some codec => simp [eq_comm]
    | none => cases ho : others name <;> simp

end Codec
end GrammarDoc
