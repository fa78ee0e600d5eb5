import GrammarDoc.Number.Double

namespace GrammarDoc

/-- The number `digits * 10 ^ exponent`. -/
structure Decimal where
  digits : Nat
  exponent : Int
deriving Repr, DecidableEq

namespace Decimal

/-- The exponent of the leading digit of a positive quotient that is a finite double. -/
def leadOf (num den : Nat) : Int :=
  if den ≤ num then (toString (num / den)).length - 1
  else -(((List.range 330).find? fun places => den ≤ num * Nat.pow 10 places).getD 330 : Nat)

/-- The neighbours of a quotient among the multiples of a power of ten, the nearer one first; of two
that are equally near, the even one comes first. -/
def neighbours (num den : Nat) (exponent : Int) : List Decimal :=
  let (n, d) := Double.divideByPower 10 exponent num den
  let below := n / d
  let digits := if Double.roundQuotient n d = below then [below, below + 1] else [below + 1, below]
  digits.map (⟨·, exponent⟩)

/-- Whether a decimal is read as a given positive double. -/
def reads (d : Decimal) (mantissa : Nat) (exponent : Int) : Bool :=
  Double.ofDecimal false d.digits d.exponent == .finite false mantissa exponent

/-- The decimal with the fewest digits that is read as a given positive double, and the nearest one
of those. Seventeen digits are always enough; without them the value would be written in full. -/
def shortest (mantissa : Nat) (exponent : Int) : Decimal :=
  let (num, den) := Double.divideByPower 2 (-exponent) mantissa 1
  let lead := leadOf num den
  let found? := (List.range 17).findSome? fun (places : Nat) =>
    (neighbours num den (lead - places)).find? fun d => d.reads mantissa exponent
  found?.getD ⟨num * Nat.pow 5 (-exponent).toNat, min exponent 0⟩

/-- The digits without their trailing zeros, and the exponent of the last one left. The first
argument bounds the number of zeros. -/
def dropZeros : Nat → Nat → Int → Nat × Int
  | 0, n, e => (n, e)
  | fuel + 1, n, e => if n != 0 && n % 10 == 0 then dropZeros fuel (n / 10) (e + 1) else (n, e)

/-- A decimal is positional while its leading digit stands between the fourth place after the point
and the sixteenth before it, and scientific elsewhere. Its exponent has two digits or more. -/
def text (decimal : Decimal) : String :=
  let (digits, low) := dropZeros (toString decimal.digits).length decimal.digits decimal.exponent
  let ds := (toString digits).toList
  let lead := low + ds.length - 1
  let str := fun cs : List Char => String.ofList cs
  if digits = 0 then "0.0"
  else if lead < -4 || 16 ≤ lead then
    let fraction := if ds.length = 1 then "" else "." ++ str (ds.drop 1)
    let size := toString lead.natAbs
    str (ds.take 1) ++ fraction ++ (if lead < 0 then "e-" else "e+") ++
      (if size.length < 2 then "0" else "") ++ size
  else if lead < 0 then
    "0." ++ str (List.replicate (-lead - 1).toNat '0' ++ ds)
  else if low < 0 then
    let whole := (lead + 1).toNat
    str (ds.take whole) ++ "." ++ str (ds.drop whole)
  else
    str (ds ++ List.replicate low.toNat '0') ++ ".0"

end Decimal

/-- A number with the fewest digits that identify it. -/
def Double.text : Double → String
  | finite negative mantissa exponent =>
    (if negative then "-" else "") ++
      (if mantissa = 0 then ⟨0, 0⟩ else Decimal.shortest mantissa exponent : Decimal).text
  | infinite negative => if negative then "-inf" else "inf"
  | undefined => "nan"

end GrammarDoc
