import LinearProgram.Proofs.Exact
import LinearProgram.Tableau.Move

namespace LinearProgram

theorem rowOf?_eq_none {m n : ℕ} {basis : Vector (Fin n) m} {j : Fin n} :
    rowOf? basis j = none ↔ ∀ i, basis.get i ≠ j := by
  simp [rowOf?, List.find?_eq_none]

theorem rowOf?_eq_some {m n : ℕ} {basis : Vector (Fin n) m} {j : Fin n} {i : Fin m}
    (hb : Function.Injective basis.get) : rowOf? basis j = some i ↔ basis.get i = j := by
  constructor
  · intro h
    simpa using List.find?_some h
  · intro h
    cases hr : rowOf? basis j with
    | none => exact absurd h (rowOf?_eq_none.mp hr i)
    | some k =>
      have hk : basis.get k = j := by simpa using List.find?_some hr
      rw [hb (hk.trans h.symm)]

namespace Tableau

variable {m n : ℕ}

theorem isBasic_iff (t : Tableau ℚ m n) (j : Fin n) :
    t.isBasic j = true ↔ ∃ i, t.basis.get i = j := by
  unfold isBasic Tableau.rowOf?
  constructor
  · intro h
    by_contra hn
    rw [rowOf?_eq_none.mpr (fun i hi => hn ⟨i, hi⟩)] at h
    simp at h
  · rintro ⟨i, hi⟩
    by_contra hn
    exact rowOf?_eq_none.mp (by simpa using hn) i hi

theorem isBasic_eq_false (t : Tableau ℚ m n) (j : Fin n) :
    t.isBasic j = false ↔ ∀ i, t.basis.get i ≠ j := by
  rw [← Bool.not_eq_true, isBasic_iff]
  push Not
  rfl

section Frame

variable (t : Tableau ℚ m n) (r : Fin m) (q : Fin n)

@[simp] theorem refresh_body : t.refresh.body = t.body := rfl
@[simp] theorem refresh_rhs : t.refresh.rhs = t.rhs := rfl
@[simp] theorem refresh_basis : t.refresh.basis = t.basis := rfl
@[simp] theorem refresh_costs : t.refresh.costs = t.costs := rfl
@[simp] theorem refresh_lower : t.refresh.lower = t.lower := rfl
@[simp] theorem refresh_span : t.refresh.span = t.span := rfl
@[simp] theorem refresh_complemented : t.refresh.complemented = t.complemented := rfl

theorem refresh_reduced (j : Fin n) :
    t.refresh.reduced.get j = if t.isBasic j then 0 else t.reduced.get j := by
  simp [refresh]

@[simp] theorem pivot_costs : (t.pivot r q).costs = t.costs := rfl
@[simp] theorem pivot_lower : (t.pivot r q).lower = t.lower := rfl
@[simp] theorem pivot_span : (t.pivot r q).span = t.span := rfl
@[simp] theorem pivot_complemented : (t.pivot r q).complemented = t.complemented := rfl

@[simp] theorem complementNonbasic_basis : (t.complementNonbasic q).basis = t.basis := rfl
@[simp] theorem complementNonbasic_costs : (t.complementNonbasic q).costs = t.costs := rfl
@[simp] theorem complementNonbasic_lower : (t.complementNonbasic q).lower = t.lower := rfl
@[simp] theorem complementNonbasic_span : (t.complementNonbasic q).span = t.span := rfl

@[simp] theorem complementBasic_basis : (t.complementBasic r).basis = t.basis := rfl
@[simp] theorem complementBasic_costs : (t.complementBasic r).costs = t.costs := rfl
@[simp] theorem complementBasic_lower : (t.complementBasic r).lower = t.lower := rfl
@[simp] theorem complementBasic_span : (t.complementBasic r).span = t.span := rfl
@[simp] theorem complementBasic_reduced : (t.complementBasic r).reduced = t.reduced := rfl

end Frame

section Pivot

variable (t : Tableau ℚ m n) (r : Fin m) (q : Fin n)

theorem eliminate_get (pivotRow row : Vector ℚ n) (q j : Fin n) :
    (eliminate pivotRow row q).get j =
      if j = q then 0 else row.get j - row.get q * pivotRow.get j := by
  unfold eliminate
  split_ifs with hz hj hj
  · subst hj
    simpa using hz
  · have hq : row.get q = 0 := by simpa using hz
    rw [hq, zero_mul, sub_zero]
  · simp [hj]
  · simp [hj]

-- The multiple of the new pivot row that is taken off row `i`. One formula serves for all rows, the
-- pivot row included.
def multiple (t : Tableau ℚ m n) (r : Fin m) (q : Fin n) (i : Fin m) : ℚ :=
  if i = r then t.entry r q - 1 else t.entry i q

theorem pivot_basis (i : Fin m) :
    (t.pivot r q).basis.get i = if i = r then q else t.basis.get i := by
  simp [pivot]

theorem pivot_entry (hp : t.entry r q ≠ 0) (i : Fin m) (j : Fin n) :
    (t.pivot r q).entry i j =
      t.entry i j - t.multiple r q i * (t.entry r j / t.entry r q) := by
  have he : (t.pivot r q).entry i j =
      if i = r then (if j = q then 1 else t.entry r j / t.entry r q) else
        if j = q then 0 else t.entry i j - t.entry i q * (t.entry r j / t.entry r q) := by
    simp only [pivot, refresh, entry, Vector.get_ofFn]
    split_ifs with hi hj hj <;> simp [eliminate_get, hj]
  rw [he]
  unfold multiple
  split_ifs with hi hj hj
  · subst hi hj
    field_simp
    ring
  · subst hi
    field_simp
    ring
  · subst hj
    field_simp
    ring
  · rfl

theorem pivot_rhs (hp : t.entry r q ≠ 0) (i : Fin m) :
    (t.pivot r q).rhs.get i =
      t.rhs.get i - t.multiple r q i * (t.rhs.get r / t.entry r q) := by
  simp only [pivot, refresh, Vector.get_ofFn, multiple]
  split_ifs with hi hz
  · subst hi
    field_simp
    ring
  · have hq : t.entry i q = 0 := by simpa using hz
    rw [hq, zero_mul, sub_zero]
  · rfl

theorem pivot_reduced (j : Fin n) :
    (t.pivot r q).reduced.get j =
      if (t.pivot r q).isBasic j then 0 else
        t.reduced.get j - t.reduced.get q * (t.entry r j / t.entry r q) := by
  have hq : (t.pivot r q).isBasic q = true :=
    (isBasic_iff _ q).mpr ⟨r, by rw [pivot_basis, if_pos rfl]⟩
  refine (refresh_reduced _ j).trans ?_
  change (if (t.pivot r q).isBasic j then 0 else _) = _
  split_ifs with hj
  · rfl
  · have hne : j ≠ q := by
      rintro rfl
      exact hj hq
    simp [eliminate_get, hne]

end Pivot

section Complement

variable (t : Tableau ℚ m n) (r : Fin m) (q : Fin n)

theorem complementNonbasic_entry (i : Fin m) (j : Fin n) :
    (t.complementNonbasic q).entry i j = if j = q then -t.entry i j else t.entry i j := by
  simp [complementNonbasic, entry]

theorem complementNonbasic_rhs (i : Fin m) :
    (t.complementNonbasic q).rhs.get i =
      t.rhs.get i - t.entry i q * (t.span.get q).getD 0 := by
  simp [complementNonbasic]

theorem complementNonbasic_reduced (j : Fin n) :
    (t.complementNonbasic q).reduced.get j =
      if t.isBasic j then 0 else if j = q then -t.reduced.get j else t.reduced.get j := by
  refine (refresh_reduced _ j).trans ?_
  change (if t.isBasic j then 0 else _) = _
  simp

theorem complementNonbasic_complemented (j : Fin n) :
    (t.complementNonbasic q).complemented.get j =
      if j = q then !t.complemented.get j else t.complemented.get j := by
  simp [complementNonbasic]

theorem complementBasic_entry (i : Fin m) (j : Fin n) :
    (t.complementBasic r).entry i j =
      if i = r ∧ j ≠ t.basis.get r then -t.entry i j else t.entry i j := by
  simp only [complementBasic, entry, Vector.get_ofFn]
  split_ifs <;> simp_all

theorem complementBasic_rhs (i : Fin m) :
    (t.complementBasic r).rhs.get i =
      if i = r then (t.span.get (t.basis.get r)).getD 0 - t.rhs.get r else t.rhs.get i := by
  simp only [complementBasic, Vector.get_ofFn]
  split_ifs with hi
  · rw [hi]
  · rfl

theorem complementBasic_complemented (j : Fin n) :
    (t.complementBasic r).complemented.get j =
      if j = t.basis.get r then !t.complemented.get j else t.complemented.get j := by
  simp [complementBasic]

theorem fixColumns_span (cols : List (Fin n)) (j : Fin n) :
    (t.fixColumns cols).span.get j = if j ∈ cols then some 0 else t.span.get j := by
  simp [fixColumns]

end Complement

end Tableau

end LinearProgram
