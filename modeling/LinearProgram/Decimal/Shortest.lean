import LinearProgram.Decimal.Places

namespace LinearProgram.Decimal

-- The reals that round to `mantissa * 2 ^ exponent`, with all three numbers in quarters of the last
-- binary place. Below a power of two the neighbour is only half as far, unless the exponent is the
-- least one. The ends belong to the interval exactly for an even mantissa.
structure Interval where
  low : Nat
  value : Nat
  high : Nat
  closed : Bool

def Interval.ofBinary (mantissa : Nat) (exponent : Int) : Interval :=
  let gap := if mantissa = pow2 52 ∧ exponent ≠ -1074 then 1 else 2
  ⟨4 * mantissa - gap, 4 * mantissa, 4 * mantissa + 2, mantissa % 2 = 0⟩

-- Of the value's two neighbours on the grid `10 ^ place`, the nearer one of those that lie in the
-- interval. A tie goes up.
def neighbour? (mantissa : Nat) (exponent place : Int) : Option Nat :=
  let interval := Interval.ofBinary mantissa exponent
  let quarters := fun n => (Ratio.ofBinary n (exponent - 2)).inUnits place
  let value := quarters interval.value
  let low := (quarters interval.low).num
  let high := (quarters interval.high).num
  let down := value.num / value.den
  let below := down * value.den
  let above := below + value.den
  let downFits := low < below ∨ (low = below ∧ interval.closed)
  let upFits := above < high ∨ (above = high ∧ interval.closed)
  if downFits ∧ (¬upFits ∨ value.num - below < above - value.num) then
    some down
  else if upFits then
    some (down + 1)
  else
    none

-- `digits * 10 ^ place` without trailing zeros after the point.
def positional (digits : Nat) (place : Int) : String :=
  let cs := Nat.toDigits 10 digits
  let zeros := min (cs.reverse.takeWhile (· == '0')).length (-place).toNat
  let place := place + zeros
  pointed (digits / pow10 zeros * pow10 place.toNat) (-place).toNat

-- Seventeen digits always suffice.
def shortestDigits (mantissa : Nat) (exponent : Int) : String :=
  let order := (Ratio.ofBinary mantissa exponent).order
  let found := (List.range 17).findSome? fun k =>
    let place := order - (k + 1 : Nat)
    (neighbour? mantissa exponent place).map fun digits => positional digits place
  found.getD ""

-- The fewest digits that read back as the same double, written without a power of ten.
def shortest (x : Float) : String :=
  match Binary.ofFloat x with
  | .undefined => "NaN"
  | .infinite negative => signed negative "inf"
  | .finite negative 0 _ => signed negative "0"
  | .finite negative mantissa exponent => signed negative (shortestDigits mantissa exponent)

-- A zero is written without its sign.
def shortestUnsignedZero (x : Float) : String :=
  if x == 0 then "0" else shortest x

end LinearProgram.Decimal
