namespace LinearProgram.Decimal

def pow2 (k : Nat) : Nat :=
  Nat.pow 2 k

def pow10 (k : Nat) : Nat :=
  Nat.pow 10 k

-- What the bits of a double stand for. A finite one is `mantissa * 2 ^ exponent` with its sign.
inductive Binary where
  | undefined
  | infinite (negative : Bool)
  | finite (negative : Bool) (mantissa : Nat) (exponent : Int)

-- The top exponent is kept for the infinities, the bottom one for numbers without a leading bit.
def Binary.ofFloat (x : Float) : Binary :=
  let bits := x.toBits.toNat
  let negative := decide (pow2 63 ≤ bits)
  let biased : Nat := bits / pow2 52 % pow2 11
  let fraction := bits % pow2 52
  if biased = 2047 then
    if fraction = 0 then .infinite negative else .undefined
  else if biased = 0 then
    .finite negative fraction (-1074)
  else
    .finite negative (pow2 52 + fraction) ((biased : Int) - 1075)

-- A fraction of natural numbers.
structure Ratio where
  num : Nat
  den : Nat

-- `mantissa * 2 ^ exponent`
def Ratio.ofBinary (mantissa : Nat) (exponent : Int) : Ratio :=
  ⟨mantissa * pow2 exponent.toNat, pow2 (-exponent).toNat⟩

-- `r / 10 ^ place`, the ratio counted in units of the decimal place.
def Ratio.inUnits (r : Ratio) (place : Int) : Ratio :=
  ⟨r.num * pow10 (-place).toNat, r.den * pow10 place.toNat⟩

-- Halves go to the even neighbour.
def Ratio.roundHalfEven (r : Ratio) : Nat :=
  let quotient := r.num / r.den
  let rest := r.num % r.den
  if 2 * rest < r.den ∨ (2 * rest = r.den ∧ quotient % 2 = 0) then quotient else quotient + 1

def digitCount (n : Nat) : Nat :=
  (Nat.toDigits 10 n).length

-- The number of digits before the point, for a positive ratio: it is below `10 ^ order` and not
-- below `10 ^ (order - 1)`. Scaling by the length of the denominator first makes it at least one.
def Ratio.order (r : Ratio) : Int :=
  let scale := digitCount r.den
  (digitCount (r.num * pow10 scale / r.den) : Int) - scale

end LinearProgram.Decimal
