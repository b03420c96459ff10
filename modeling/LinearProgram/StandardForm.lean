import LinearProgram.Normal

namespace LinearProgram

-- Maximize `costs · x` subject to `matrix (x - lower) = rhs` and `lower ≤ x ≤ upper`.
structure StandardForm (α : Type) where
  -- The normalized model, so that columns can be read as variables again.
  model : Model α
  -- The caller's variables are the first columns.
  givenVars : Nat
  rows : Nat
  cols : Nat
  costs : Vector α cols
  matrix : Vector (Vector α cols) rows
  rhs : Vector α rows
  lower : Vector α cols
  upper : Vector (Option α) cols
  basis : Vector (Fin cols) rows
  artificial : List (Fin cols)

-- The first row whose basic column is `j`.
def rowOf? {m n : Nat} (basis : Vector (Fin n) m) (j : Fin n) : Option (Fin m) :=
  (List.finRange m).find? fun i => basis.get i = j

def Variable.column? (v : Variable) (n : Nat) : Option (Fin n) :=
  if h : v.index < n then some ⟨v.index, h⟩ else none

section
variable {α : Type} [Scalar α]

-- The variable in which a row starts: its artificial variable if it has one, else its slack.
def Constraint.basicColumn? (c : Constraint α) (n : Nat) : Option (Fin n) :=
  (c.artificial <|> c.extra).bind fun v => v.column? n

def dot {n : Nat} (x y : Vector α n) : α :=
  total (List.ofFn fun j : Fin n => x.get j * y.get j)

namespace StandardForm

def ofNormal (normal : Normal α) (givenVars : Nat) : Except (Error α) (StandardForm α) :=
  let model := normal.model
  let n := model.vars.length
  let matrix := model.rowFactors
  let bounds := model.rowBounds
  match h : model.rows.find? fun c => (c.basicColumn? n).isNone with
  | some c => .error (.noBasicVariable c)
  | none => .ok {
      model
      givenVars
      rows := model.rows.length
      cols := n
      costs := model.costs model.vars
      matrix
      rhs := Vector.ofFn fun i => bounds.get i - dot (matrix.get i) normal.bounds.lower
      lower := normal.bounds.lower
      upper := normal.bounds.upper
      basis := Vector.ofFn fun i => ((model.rows.get i).basicColumn? n).get (by
        have := List.find?_eq_none.1 h (model.rows.get i) (List.get_mem model.rows i)
        simpa [Option.isSome_iff_ne_none] using this)
      artificial := model.rows.filterMap fun c => c.artificial.bind fun v => v.column? n }

def ofModel (m : Model α) : Except (Error α) (StandardForm α) := do
  ofNormal (← Normal.ofModel m) m.vars.length

-- Every column is at its lower bound, except that a basic one has the right-hand side on top.
def initialPoint (form : StandardForm α) : Vector α form.cols :=
  Vector.ofFn fun j =>
    match rowOf? form.basis j with
    | some i => form.lower.get j + form.rhs.get i
    | none => form.lower.get j

end StandardForm

end

end LinearProgram
