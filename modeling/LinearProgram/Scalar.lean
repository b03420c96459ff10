namespace LinearProgram

-- The operations the method needs. No law is asked for, since doubles keep none of them. Exact
-- rationals are scalars as well, so one definition of the method serves for computing and for
-- reasoning.
class Scalar (α : Type) extends
    Zero α, One α, Add α, Sub α, Mul α, Div α, Neg α, LT α, LE α, BEq α, OfScientific α where
  decidableLT : DecidableLT α
  decidableLE : DecidableLE α
  -- False of the infinities and of undefined results.
  isFinite : α → Bool
  -- The value of a sum without terms. It is neutral on the left of every addition.
  emptySum : α
  floor : α → α
  ceil : α → α
  -- The nearest integer, halves going away from zero.
  round : α → α

instance (priority := low) decidableLT {α : Type} [Scalar α] (x y : α) :
    Decidable (x < y) :=
  Scalar.decidableLT x y

instance (priority := low) decidableLE {α : Type} [Scalar α] (x y : α) :
    Decidable (x ≤ y) :=
  Scalar.decidableLE x y

instance : Scalar Float where
  zero := 0
  one := 1
  decidableLT := inferInstance
  decidableLE := inferInstance
  isFinite := Float.isFinite
  emptySum := -0.0
  floor := Float.floor
  ceil := Float.ceil
  round := Float.round

instance : Scalar Rat where
  zero := 0
  one := 1
  decidableLT := inferInstance
  decidableLE := inferInstance
  isFinite _ := true
  emptySum := 0
  floor x := x.floor
  ceil x := x.ceil
  round x := if x < 0 then (x - 1 / 2).ceil else (x + 1 / 2).floor

section
variable {α : Type} [Scalar α]

-- The tolerance of every zero and sign comparison.
def eps : α := 1e-9

-- The distance from the nearest integer up to which a value counts as integral.
def integralityEps : α := 1e-5

-- Terms are added from left to right.
def total (xs : List α) : α :=
  xs.foldl (· + ·) Scalar.emptySum

def magnitude (x : α) : α :=
  if x < 0 then -x else x

-- The positive part: zero for whatever is not above zero.
def clip (x : α) : α :=
  if 0 < x then x else 0

-- The first of two, unless the second is below it.
def lesser (x y : α) : α :=
  if y < x then y else x

-- The first of two, unless the second is above it.
def greater (x y : α) : α :=
  if x < y then y else x

end

end LinearProgram
