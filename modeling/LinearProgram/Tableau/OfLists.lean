import LinearProgram.Tableau.Start

namespace LinearProgram

-- A tableau of any size.
structure AnyTableau (α : Type) where
  m : Nat
  n : Nat
  tableau : Tableau α m n

-- The first `n` entries, if there are as many.
def firstEntries? {β : Type} (xs : List β) (n : Nat) : Option (Vector β n) :=
  if h : n ≤ xs.length then
    some ⟨(xs.take n).toArray, by simp [h]⟩
  else
    none

namespace Tableau

variable {α : Type} [Scalar α] {m n : Nat}

-- The basis as columns, `none` when one of them is out of range. An earlier column that is not the
-- unit column of its row is reported first.
def basisOf? (matrix : Vector (Vector α n) m) (basis : Vector Nat m) :
    Except (Error α) (Option (Vector (Fin n) m)) :=
  let column? := fun i : Fin m => if h : basis.get i < n then some ⟨basis.get i, h⟩ else none
  let isFault := fun i => (column? i).all fun j => !isUnit matrix i j
  match h : (List.finRange m).find? isFault with
  | some i =>
    match column? i with
    | some j => .error (.notUnitColumn j i)
    | none => .ok none
  | none => .ok (some (Vector.ofFn fun i => (column? i).get (by
      have hi := List.find?_eq_none.1 h i (List.mem_finRange i)
      cases hc : column? i with
      | none => simp [isFault, hc] at hi
      | some j => rfl)))

-- `cols` is the number of columns, which a matrix without rows does not show. The numbers of rows
-- and columns are checked first, then the right-hand side, then the basis. The result is `none`
-- when a column is out of range or the bounds do not cover all columns.
def ofLists? (matrix : List (List α)) (cols : Nat) (rhs costs lower : List α)
    (upper : List (Option α)) (basis : List Nat) : Except (Error α) (Option (AnyTableau α)) :=
  let m := matrix.length
  if rhs.length ≠ m ∨ basis.length ≠ m ∨ costs.length ≠ cols then
    .error (.shapeMismatch m cols rhs.length basis.length costs.length)
  else
    match matrix.mapM fun row => firstEntries? row cols with
    | none => .ok none
    | some rows => do
      let m := rows.length
      let rows : Vector (Vector α cols) m := ⟨rows.toArray, by simp [m]⟩
      let some rhs := firstEntries? rhs m | return none
      let some costs := firstEntries? costs cols | return none
      let some basis := firstEntries? basis m | return none
      checkBounds rhs
      let some basis ← basisOf? rows basis | return none
      let some lower := firstEntries? lower cols | return none
      let some upper := firstEntries? upper cols | return none
      return some ⟨m, cols, start rows rhs costs lower upper basis⟩

end Tableau

end LinearProgram
