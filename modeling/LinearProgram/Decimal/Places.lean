import LinearProgram.Decimal.Binary

namespace LinearProgram.Decimal

-- At least `width` characters, filled with zeros on the left.
def zeroFilled (width : Nat) (digits : List Char) : List Char :=
  List.replicate (width - digits.length) '0' ++ digits

-- `digits / 10 ^ places`, with exactly that many digits after the point and none without one.
def pointed (digits places : Nat) : String :=
  if places = 0 then
    String.ofList (Nat.toDigits 10 digits)
  else
    let cs := zeroFilled (places + 1) (Nat.toDigits 10 digits)
    let whole := cs.length - places
    String.ofList (cs.take whole ++ '.' :: cs.drop whole)

-- The sign is written of a zero too.
def signed (negative : Bool) (text : String) : String :=
  if negative then "-" ++ text else text

-- At least `width` characters, filled with blanks on the left.
def aligned (width : Nat) (text : String) : String :=
  String.ofList (List.replicate (width - text.length) ' ') ++ text

-- Both forms round the exact value and send halves to the even digit.
-- Exactly `places` digits after the point.
def fixed (places : Nat) (x : Float) : String :=
  match Binary.ofFloat x with
  | .undefined => "NaN"
  | .infinite negative => signed negative "inf"
  | .finite negative mantissa exponent =>
    let units := (Ratio.ofBinary mantissa exponent).inUnits (-places)
    signed negative (pointed units.roundHalfEven places)

-- One digit before the point and exactly `places` after it, then the power of ten.
def scientific (places : Nat) (x : Float) : String :=
  match Binary.ofFloat x with
  | .undefined => "NaN"
  | .infinite negative => signed negative "inf"
  | .finite negative 0 _ => signed negative (pointed 0 places ++ "E0")
  | .finite negative mantissa exponent =>
    let value := Ratio.ofBinary mantissa exponent
    let power := value.order - 1
    let digits := (value.inUnits (power - places)).roundHalfEven
    if digits = pow10 (places + 1) then
      signed negative (pointed (pow10 places) places ++ "E" ++ toString (power + 1))
    else
      signed negative (pointed digits places ++ "E" ++ toString power)

end LinearProgram.Decimal
