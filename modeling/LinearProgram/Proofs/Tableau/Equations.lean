import LinearProgram.Proofs.Tableau.Moves
import LinearProgram.Tableau.Start

namespace LinearProgram

namespace Tableau

variable {m n : ℕ}

-- The basic columns form the identity.
def Canonical (t : Tableau ℚ m n) : Prop :=
  ∀ i k, t.entry k (t.basis.get i) = if k = i then 1 else 0

-- Where the point lies in column `j`, measured from the bound that the column is measured from.
def coordinate (t : Tableau ℚ m n) (z : Fin n → ℚ) (j : Fin n) : ℚ :=
  if t.complemented.get j then
    (t.span.get j).getD 0 - (z j - t.lower.get j)
  else
    z j - t.lower.get j

-- How far the point is from satisfying row `i`.
def residual (t : Tableau ℚ m n) (z : Fin n → ℚ) (i : Fin m) : ℚ :=
  ∑ j, t.entry i j * t.coordinate z j - t.rhs.get i

-- A column is measured from its upper bound only if it has one.
structure Consistent (t : Tableau ℚ m n) : Prop where
  canonical : t.Canonical
  bounded : ∀ j, t.complemented.get j = true → ∃ s, t.span.get j = some s

-- No coordinate is past its bounds by more than `t`.
def Inside (tableau : Tableau ℚ m n) (t : ℚ) (z : Fin n → ℚ) : Prop :=
  ∀ j, -t ≤ tableau.coordinate z j ∧
    ∀ s, tableau.span.get j = some s → tableau.coordinate z j ≤ s + t

-- Turning a column around swaps its two bounds.
theorem Consistent.inside_iff {tableau : Tableau ℚ m n} (h : tableau.Consistent) (t : ℚ)
    (z : Fin n → ℚ) :
    tableau.Inside t z ↔ ∀ j, -t ≤ z j - tableau.lower.get j ∧
      ∀ s, tableau.span.get j = some s → z j - tableau.lower.get j ≤ s + t := by
  refine forall_congr' fun j => ?_
  unfold coordinate
  cases hc : tableau.complemented.get j with
  | false => simp
  | true =>
    obtain ⟨s, hs⟩ := h.bounded j hc
    simp only [hs, if_true, Option.getD_some, Option.some.injEq, forall_eq']
    constructor
    · rintro ⟨hl, hu⟩
      exact ⟨by linarith, by linarith⟩
    · rintro ⟨hl, hu⟩
      exact ⟨by linarith, by linarith⟩

theorem Canonical.injective {t : Tableau ℚ m n} (h : t.Canonical) :
    Function.Injective t.basis.get := by
  intro i k hik
  by_contra hne
  have hi := h i i
  rw [hik, h k i, if_neg hne, if_pos rfl] at hi
  exact zero_ne_one hi

section Pivot

variable {t : Tableau ℚ m n} {r : Fin m} {q : Fin n}

theorem Canonical.pivot (h : t.Canonical) (hp : t.entry r q ≠ 0) : (t.pivot r q).Canonical := by
  intro i k
  rw [pivot_basis, pivot_entry t r q hp]
  by_cases hi : i = r
  · subst hi
    rw [if_pos rfl, div_self hp, mul_one]
    unfold multiple
    split_ifs with hk
    · rw [hk]
      ring
    · ring
  · rw [if_neg hi, h i r, if_neg (Ne.symm hi), zero_div, mul_zero, sub_zero, h i k]

theorem pivot_coordinate (z : Fin n → ℚ) (j : Fin n) :
    (t.pivot r q).coordinate z j = t.coordinate z j := rfl

theorem pivot_residual (hp : t.entry r q ≠ 0) (z : Fin n → ℚ) (i : Fin m) :
    (t.pivot r q).residual z i =
      t.residual z i - t.multiple r q i * (t.residual z r / t.entry r q) := by
  have hs : ∑ j, (t.pivot r q).entry i j * t.coordinate z j =
      ∑ j, t.entry i j * t.coordinate z j -
        t.multiple r q i * ((∑ j, t.entry r j * t.coordinate z j) / t.entry r q) := by
    rw [Finset.sum_div, Finset.mul_sum, ← Finset.sum_sub_distrib]
    apply Finset.sum_congr rfl
    intro j _
    rw [pivot_entry t r q hp]
    ring
  simp only [residual, pivot_coordinate]
  rw [hs, pivot_rhs t r q hp]
  ring

theorem pivot_residual_eq_zero (hp : t.entry r q ≠ 0) (z : Fin n → ℚ) :
    (∀ i, (t.pivot r q).residual z i = 0) ↔ ∀ i, t.residual z i = 0 := by
  constructor
  · intro h
    have hr : t.residual z r = 0 := by
      have hz := h r
      rw [pivot_residual hp, multiple, if_pos rfl] at hz
      field_simp at hz
      linarith
    intro i
    have hi := h i
    rwa [pivot_residual hp, hr, zero_div, mul_zero, sub_zero] at hi
  · intro h i
    rw [pivot_residual hp, h i, h r, zero_div, mul_zero, sub_zero]

end Pivot

section Complement

variable {t : Tableau ℚ m n}

theorem Canonical.complementNonbasic (h : t.Canonical) {q : Fin n}
    (hq : ∀ i, t.basis.get i ≠ q) : (t.complementNonbasic q).Canonical := by
  intro i k
  rw [complementNonbasic_basis, complementNonbasic_entry, if_neg (hq i), h i k]

theorem complementNonbasic_coordinate (q : Fin n) (z : Fin n → ℚ) (j : Fin n) :
    (t.complementNonbasic q).coordinate z j =
      if j = q then (t.span.get q).getD 0 - t.coordinate z q else t.coordinate z j := by
  unfold coordinate
  rw [complementNonbasic_complemented]
  by_cases hj : j = q
  · subst hj
    cases t.complemented.get j <;> simp
  · simp [hj]

theorem sum_add_single (f : Fin n → ℚ) (k : Fin n) (c : ℚ) :
    ∑ j, (f j + if j = k then c else 0) = ∑ j, f j + c := by
  rw [Finset.sum_add_distrib, Finset.sum_ite_eq', if_pos (Finset.mem_univ k)]

-- Every row moves the span over to its right-hand side and stays the same equation.
theorem complementNonbasic_residual (q : Fin n) (z : Fin n → ℚ) (i : Fin m) :
    (t.complementNonbasic q).residual z i = t.residual z i := by
  have hs : ∀ j, (t.complementNonbasic q).entry i j * (t.complementNonbasic q).coordinate z j =
      t.entry i j * t.coordinate z j +
        if j = q then -(t.entry i q * (t.span.get q).getD 0) else 0 := by
    intro j
    rw [complementNonbasic_entry, complementNonbasic_coordinate]
    split_ifs with hj
    · rw [hj]
      ring
    · rw [add_zero]
  unfold residual
  rw [Finset.sum_congr rfl fun j _ => hs j, sum_add_single, complementNonbasic_rhs]
  ring

theorem Canonical.complementBasic (h : t.Canonical) (r : Fin m) :
    (t.complementBasic r).Canonical := by
  intro i k
  rw [complementBasic_basis, complementBasic_entry, h i k]
  split_ifs with hk hki hki
  · rw [← hki, hk.1] at hk
    exact absurd rfl hk.2
  · exact neg_zero
  · rfl
  · rfl

theorem complementBasic_coordinate (r : Fin m) (z : Fin n → ℚ) (j : Fin n) :
    (t.complementBasic r).coordinate z j =
      if j = t.basis.get r then
        (t.span.get (t.basis.get r)).getD 0 - t.coordinate z (t.basis.get r)
      else t.coordinate z j := by
  unfold coordinate
  rw [complementBasic_complemented]
  by_cases hj : j = t.basis.get r
  · subst hj
    cases t.complemented.get (t.basis.get r) <;> simp
  · simp [hj]

-- Only the row of the column changes, since the column is clear in every other row.
theorem complementBasic_residual (h : t.Canonical) (r : Fin m) (z : Fin n → ℚ) (i : Fin m) :
    (t.complementBasic r).residual z i = if i = r then -t.residual z r else t.residual z i := by
  have hs : ∀ j, (t.complementBasic r).entry i j * (t.complementBasic r).coordinate z j =
      (if i = r then -(t.entry r j * t.coordinate z j) else t.entry i j * t.coordinate z j) +
        if j = t.basis.get r then
          (if i = r then (t.span.get (t.basis.get r)).getD 0 else 0) else 0 := by
    intro j
    rw [complementBasic_entry, complementBasic_coordinate]
    by_cases hj : j = t.basis.get r
    · subst hj
      by_cases hi : i = r
      · subst hi
        rw [h i i]
        simp
        ring
      · simp [hi, h r i]
    · by_cases hi : i = r
      · simp [hi, hj]
      · simp [hi, hj]
  unfold residual
  rw [Finset.sum_congr rfl fun j _ => hs j, sum_add_single, complementBasic_rhs]
  split_ifs with hi
  · rw [Finset.sum_neg_distrib]
    ring
  · rw [add_zero]

theorem complementBasic_residual_eq_zero (h : t.Canonical) (r : Fin m) (z : Fin n → ℚ) :
    (∀ i, (t.complementBasic r).residual z i = 0) ↔ ∀ i, t.residual z i = 0 := by
  simp only [complementBasic_residual h]
  constructor
  · intro hz i
    have hi := hz i
    split_ifs at hi with hir
    · rw [hir]
      linarith
    · exact hi
  · intro hz i
    split_ifs with hir
    · rw [hz r, neg_zero]
    · exact hz i

end Complement

section Run

variable {t : Tableau ℚ m n}

-- The entering column of a legal move is not basic.
theorem nonbasic_of_canEnter {q : Fin n} (hq : t.canEnter q = true) (i : Fin m) :
    t.basis.get i ≠ q :=
  (t.isBasic_eq_false q).mp ((t.canEnter_iff q).mp hq).2.2 i

theorem complementBasic_pivot_ne_zero {r : Fin m} {q : Fin n} (hq : t.canEnter q = true)
    (hp : t.entry r q ≠ 0) : (t.complementBasic r).entry r q ≠ 0 := by
  rw [complementBasic_entry, if_pos ⟨rfl, Ne.symm (nonbasic_of_canEnter hq r)⟩]
  exact neg_ne_zero.mpr hp

theorem Canonical.apply (h : t.Canonical) {move : Move ℚ m n} (hm : t.Legal move) :
    (t.apply move).Canonical := by
  cases move with
  | optimal => exact h
  | unbounded q => exact h
  | flip q length => exact h.complementNonbasic (nonbasic_of_canEnter hm.1)
  | pivot r q atUpper length =>
    have hp := t.entry_ne_zero_of_limit? hm.2
    cases atUpper with
    | false => exact h.pivot hp
    | true => exact (h.complementBasic r).pivot (complementBasic_pivot_ne_zero hm.1 hp)

-- A column is turned around only if it has an upper bound.
theorem apply_turned {move : Move ℚ m n} (hm : t.Legal move) {j : Fin n}
    (hj : (t.apply move).complemented.get j ≠ t.complemented.get j) :
    ∃ s, t.span.get j = some s := by
  cases move with
  | optimal => exact absurd rfl hj
  | unbounded q => exact absurd rfl hj
  | flip q length =>
    by_cases hq : j = q
    · exact ⟨length, hq ▸ hm.2⟩
    · simp [Tableau.apply, complementNonbasic_complemented, hq] at hj
  | pivot r q atUpper length =>
    rcases t.limit?_eq_some.mp hm.2 with ⟨_, rfl, _⟩ | ⟨_, rfl, s, hs, _⟩
    · exact absurd rfl hj
    · by_cases hb : j = t.basis.get r
      · exact ⟨s, hb ▸ hs⟩
      · simp [Tableau.apply, complementBasic_complemented, hb] at hj

theorem Consistent.apply (h : t.Consistent) {move : Move ℚ m n} (hm : t.Legal move) :
    (t.apply move).Consistent := by
  refine ⟨h.canonical.apply hm, fun j hj => ?_⟩
  rw [apply_span]
  by_cases hsame : (t.apply move).complemented.get j = t.complemented.get j
  · exact h.bounded j (hsame ▸ hj)
  · exact apply_turned hm hsame

theorem apply_residual_eq_zero (h : t.Canonical) {move : Move ℚ m n} (hm : t.Legal move)
    (z : Fin n → ℚ) :
    (∀ i, (t.apply move).residual z i = 0) ↔ ∀ i, t.residual z i = 0 := by
  cases move with
  | optimal => exact Iff.rfl
  | unbounded q => exact Iff.rfl
  | flip q length =>
    exact forall_congr' fun i => by rw [apply, complementNonbasic_residual]
  | pivot r q atUpper length =>
    have hp := t.entry_ne_zero_of_limit? hm.2
    cases atUpper with
    | false => exact pivot_residual_eq_zero hp z
    | true =>
      exact (pivot_residual_eq_zero (complementBasic_pivot_ne_zero hm.1 hp) z).trans
        (complementBasic_residual_eq_zero h r z)

theorem Consistent.setCosts (h : t.Consistent) (costs : Vector ℚ n) :
    (t.setCosts costs).Consistent :=
  ⟨h.canonical, h.bounded⟩

theorem fixColumns_coordinate {cols : List (Fin n)}
    (hc : ∀ j ∈ cols, t.complemented.get j = false) (z : Fin n → ℚ) (j : Fin n) :
    (t.fixColumns cols).coordinate z j = t.coordinate z j := by
  unfold coordinate
  rw [fixColumns_span]
  change (if t.complemented.get j then _ - (z j - t.lower.get j) else z j - t.lower.get j) = _
  by_cases hj : j ∈ cols
  · simp [hc j hj]
  · simp [hj]

theorem Consistent.fixColumns (h : t.Consistent) {cols : List (Fin n)} :
    (t.fixColumns cols).Consistent := by
  refine ⟨h.canonical, fun j hj => ?_⟩
  rw [fixColumns_span]
  split_ifs
  · exact ⟨0, rfl⟩
  · exact h.bounded j hj

end Run

end Tableau

end LinearProgram
