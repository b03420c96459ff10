import LinearProgram.Decimal.Binary

namespace LinearProgram

structure TimeLimit where
  nanoseconds : Nat
deriving DecidableEq

namespace TimeLimit

def zero : TimeLimit :=
  ⟨0⟩

def perSecond : Nat :=
  1000000000

-- Every nanosecond of a 64-bit count of seconds.
def longest : TimeLimit :=
  ⟨0xFFFFFFFFFFFFFFFF * perSecond + (perSecond - 1)⟩

def wholeSeconds (t : TimeLimit) : Nat :=
  t.nanoseconds / perSecond

def subsecond (t : TimeLimit) : Nat :=
  t.nanoseconds % perSecond

-- Rounded to the nearest nanosecond, halves going to the even one. What is not positive is no time
-- at all, and what is too long is cut to the longest limit.
def ofSeconds (seconds : Float) : TimeLimit :=
  match Decimal.Binary.ofFloat seconds with
  | .finite false mantissa exponent =>
    let nanoseconds := ((Decimal.Ratio.ofBinary mantissa exponent).inUnits (-9)).roundHalfEven
    ⟨min nanoseconds longest.nanoseconds⟩
  | .infinite false => longest
  | _ => zero

end TimeLimit

end LinearProgram
