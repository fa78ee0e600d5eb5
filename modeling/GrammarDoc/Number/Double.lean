namespace GrammarDoc

/-- A binary floating-point number of double width. A finite one is `mantissa * 2 ^ exponent` with
a sign in front; its mantissa has 53 bits unless the exponent is the least one. Zero has a sign
too. -/
inductive Double where
  | finite (negative : Bool) (mantissa : Nat) (exponent : Int)
  | infinite (negative : Bool)
  | undefined
deriving Repr, DecidableEq, Inhabited

namespace Double

/-- The least exponent of a finite number. -/
def leastExponent : Int :=
  -1074

/-- The greatest exponent of a finite number. -/
def greatestExponent : Int :=
  971

/-- The whole number nearest to a quotient. A tie goes to the even one. -/
def roundQuotient (num den : Nat) : Nat :=
  let whole := num / den
  let rest := num % den
  if 2 * rest < den then whole
  else if den < 2 * rest then whole + 1
  else whole + whole % 2

/-- A quotient divided by a power of a base. -/
def divideByPower (base : Nat) (exponent : Int) (num den : Nat) : Nat × Nat :=
  (num * Nat.pow base (-exponent).toNat, den * Nat.pow base exponent.toNat)

/-- The exponent at which a positive quotient has 53 bits before the point, or the least one if that
is greater. -/
def exponentOf (num den : Nat) : Int :=
  let guess : Int := num.log2 - den.log2 - 52
  let (n, d) := divideByPower 2 guess num den
  max leastExponent (if n < Nat.pow 2 52 * d then guess - 1 else guess)

/-- The number nearest to a quotient; a tie goes to the one with the even mantissa. -/
def ofQuotient (negative : Bool) (num den : Nat) : Double :=
  if num = 0 then finite negative 0 leastExponent
  else
    let exponent := exponentOf num den
    let (n, d) := divideByPower 2 exponent num den
    let mantissa := roundQuotient n d
    let (mantissa, exponent) :=
      if mantissa = Nat.pow 2 53 then (Nat.pow 2 52, exponent + 1) else (mantissa, exponent)
    if greatestExponent < exponent then infinite negative else finite negative mantissa exponent

/-- The number nearest to `digits * 10 ^ exponent`. A decimal beyond `10 ^ 310` is too great for a
finite number and one below `10 ^ -330` is nearest to zero, whatever their digits. -/
def ofDecimal (negative : Bool) (digits : Nat) (exponent : Int) : Double :=
  if digits = 0 then finite negative 0 leastExponent
  else if 310 < exponent then infinite negative
  else if exponent + digits.log2 / 3 + 1 < -330 then finite negative 0 leastExponent
  else
    let (n, d) := divideByPower 10 (-exponent) digits 1
    ofQuotient negative n d

/-- A finite number as a whole number and the power of two that it is scaled by. -/
def scaled? : Double → Option (Int × Int)
  | finite negative mantissa exponent =>
    some (if negative then -(mantissa : Int) else mantissa, exponent)
  | _ => none

/-- Whether a number is zero, with either sign. -/
def isZero : Double → Bool
  | finite _ mantissa _ => mantissa == 0
  | _ => false

end Double
end GrammarDoc
