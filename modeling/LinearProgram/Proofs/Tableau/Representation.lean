import LinearProgram.Proofs.Tableau.Equations

namespace LinearProgram

namespace Tableau

variable {m n : ℕ}

section Point

variable {t : Tableau ℚ m n}

-- What the tableau's own point has in column `j`: the right-hand side of a basic column.
def level (t : Tableau ℚ m n) (j : Fin n) : ℚ :=
  match t.rowOf? j with
  | some i => t.rhs.get i
  | none => 0

theorem values_get (t : Tableau ℚ m n) (j : Fin n) :
    t.values.get j = t.lower.get j +
      if t.complemented.get j then (t.span.get j).getD 0 - t.level j else t.level j := by
  rw [values, Vector.get_ofFn]
  rfl

theorem coordinate_values (t : Tableau ℚ m n) (j : Fin n) :
    t.coordinate t.values.get j = t.level j := by
  unfold coordinate
  rw [values_get]
  split_ifs <;> ring

theorem level_basic (h : t.Canonical) (i : Fin m) : t.level (t.basis.get i) = t.rhs.get i := by
  unfold level Tableau.rowOf?
  rw [(rowOf?_eq_some h.injective).mpr rfl]

theorem level_nonbasic {j : Fin n} (hj : ∀ i, t.basis.get i ≠ j) : t.level j = 0 := by
  unfold level Tableau.rowOf?
  rw [rowOf?_eq_none.mpr hj]

-- A row picks its own basic column out of what is zero outside the basis.
theorem sum_entry_mul_of_basic (h : t.Canonical) {f : Fin n → ℚ}
    (hf : ∀ j, (∀ k, t.basis.get k ≠ j) → f j = 0) (i : Fin m) :
    ∑ j, t.entry i j * f j = f (t.basis.get i) := by
  rw [Finset.sum_eq_single (t.basis.get i)]
  · rw [h i i, if_pos rfl, one_mul]
  · intro j _ hne
    by_cases hj : ∃ k, t.basis.get k = j
    · obtain ⟨k, rfl⟩ := hj
      rw [h k i, if_neg fun hik => hne (by rw [hik]), zero_mul]
    · rw [hf j fun k hk => hj ⟨k, hk⟩, mul_zero]
  · intro hn
    exact absurd (Finset.mem_univ _) hn

-- The levels solve the rows.
theorem sum_entry_mul_level (h : t.Canonical) (i : Fin m) :
    ∑ j, t.entry i j * t.level j = t.rhs.get i :=
  (sum_entry_mul_of_basic h (fun _ hj => level_nonbasic hj) i).trans (level_basic h i)

theorem values_residual (h : t.Canonical) (i : Fin m) : t.residual t.values.get i = 0 := by
  simp only [residual, coordinate_values]
  rw [sum_entry_mul_level h, sub_self]

end Point

section Start

variable {matrix : Vector (Vector ℚ n) m} {rhs : Vector ℚ m} {costs lower : Vector ℚ n}
  {upper : Vector (Option ℚ) n} {basis : Vector (Fin n) m} {t₀ t : Tableau ℚ m n}

-- The basic columns of the system are exact unit columns.
def UnitColumns (matrix : Vector (Vector ℚ n) m) (basis : Vector (Fin n) m) : Prop :=
  ∀ i k, (matrix.get k).get (basis.get i) = if k = i then 1 else 0

theorem eq_start_of_start? (h : start? matrix rhs costs lower upper basis = .ok t₀) :
    t₀ = start matrix rhs costs lower upper basis := by
  unfold start? at h
  simp only [bind, Except.bind] at h
  split at h
  · simp at h
  · split at h
    · simp at h
    · exact (Except.ok.inj h).symm

theorem start_consistent (hu : UnitColumns matrix basis) :
    (start matrix rhs costs lower upper basis).Consistent := by
  refine ⟨hu, fun j hj => ?_⟩
  simp [start, reprice] at hj

theorem start_coordinate (z : Fin n → ℚ) (j : Fin n) :
    (start matrix rhs costs lower upper basis).coordinate z j = z j - lower.get j := by
  simp [coordinate, start, reprice]

theorem start_residual (z : Fin n → ℚ) (i : Fin m) :
    (start matrix rhs costs lower upper basis).residual z i =
      ∑ j, (matrix.get i).get j * (z j - lower.get j) - max (rhs.get i) 0 := by
  unfold residual
  simp only [start_coordinate]
  simp [start, reprice, entry]

theorem start?_of_unitColumns (hu : UnitColumns matrix basis) (hb : ∀ b ∈ rhs.toList, -eps ≤ b) :
    start? matrix rhs costs lower upper basis =
      .ok (start matrix rhs costs lower upper basis) := by
  have hbounds : checkBounds rhs = .ok () := by
    unfold checkBounds
    rw [List.find?_eq_none.mpr fun b hmem => by simpa using hb b hmem]
  have hbasis : checkBasis matrix basis = .ok () := by
    unfold checkBasis
    rw [List.find?_eq_none.mpr]
    intro i _
    have hunit : isUnit matrix i (basis.get i) = true := by
      unfold isUnit
      rw [List.all_eq_true]
      intro k _
      simp [hu i k, eps_nonneg]
    simp [hunit]
  simp [start?, hbounds, hbasis, bind, Except.bind, pure, Except.pure]

-- What every sequence of operations keeps of the tableau it begins with.
structure Keeps (t₀ t : Tableau ℚ m n) : Prop where
  consistent : t.Consistent
  lower : t.lower = t₀.lower
  solutions : ∀ z, (∀ i, t.residual z i = 0) ↔ ∀ i, t₀.residual z i = 0

theorem Keeps.apply (h : Keeps t₀ t) {move : Move ℚ m n} (hm : t.Legal move) :
    Keeps t₀ (t.apply move) := by
  refine ⟨h.consistent.apply hm, (apply_lower t move).trans h.lower, fun z => ?_⟩
  exact (apply_residual_eq_zero h.consistent.canonical hm z).trans (h.solutions z)

theorem Reaches.keeps (h : Reaches t₀ t) (h₀ : t₀.Consistent) : Keeps t₀ t := by
  induction h with
  | refl => exact ⟨h₀, rfl, fun _ => Iff.rfl⟩
  | @iterate t bland _ ih => exact ih.apply (t.move_legal bland)
  | setCosts costs _ ih => exact ⟨ih.consistent.setCosts costs, ih.lower, ih.solutions⟩
  | fixColumns cols hc _ ih =>
    refine ⟨ih.consistent.fixColumns, ih.lower, fun z => ?_⟩
    rw [← ih.solutions z]
    unfold residual
    simp only [fixColumns_coordinate hc]
    rfl

-- The tableau is the system, solved for its basic columns. Each basic column belongs to one row, a
-- point solves the system just when its coordinates solve the rows, and the tableau's own point
-- solves it with every nonbasic column at one of its bounds.
structure Represents (t : Tableau ℚ m n) (matrix : Vector (Vector ℚ n) m) (rhs : Vector ℚ m)
    (lower : Vector ℚ n) : Prop where
  injective : Function.Injective t.basis.get
  identity : ∀ i k, t.entry k (t.basis.get i) = if k = i then 1 else 0
  lower_eq : t.lower = lower
  solutions : ∀ z : Fin n → ℚ,
    (∀ i, ∑ j, (matrix.get i).get j * (z j - lower.get j) = max (rhs.get i) 0) ↔
      ∀ i, ∑ j, t.entry i j * t.coordinate z j = t.rhs.get i
  values : ∀ i, ∑ j, (matrix.get i).get j * (t.values.get j - lower.get j) = max (rhs.get i) 0
  nonbasic : ∀ j, t.isBasic j = false → t.values.get j = lower.get j ∨
    ∃ s, t.span.get j = some s ∧ t.values.get j = lower.get j + s

theorem Keeps.represents
    (h : Keeps (start matrix rhs costs lower upper basis) t) : t.Represents matrix rhs lower := by
  have hcanonical := h.consistent.canonical
  have hl : t.lower = lower := h.lower
  have hz : ∀ z : Fin n → ℚ,
      (∀ i, ∑ j, (matrix.get i).get j * (z j - lower.get j) = max (rhs.get i) 0) ↔
        ∀ i, ∑ j, t.entry i j * t.coordinate z j = t.rhs.get i := by
    intro z
    have hsolutions := h.solutions z
    simp only [start_residual] at hsolutions
    simp only [residual, sub_eq_zero] at hsolutions
    exact hsolutions.symm
  refine ⟨hcanonical.injective, hcanonical, hl, hz, ?_, ?_⟩
  · refine (hz t.values.get).mpr fun i => ?_
    exact sub_eq_zero.mp (values_residual hcanonical i)
  · intro j hj
    rw [values_get, level_nonbasic ((t.isBasic_eq_false j).mp hj), hl]
    cases hc : t.complemented.get j with
    | false => exact Or.inl (add_zero _)
    | true =>
      obtain ⟨s, hspan⟩ := h.consistent.bounded j hc
      exact Or.inr ⟨s, hspan, by simp [hspan]⟩

theorem reachable_represents (hs : start? matrix rhs costs lower upper basis = .ok t₀)
    (hu : UnitColumns matrix basis) (h : Reaches t₀ t) : t.Represents matrix rhs lower := by
  obtain rfl := eq_start_of_start? hs
  exact (h.keeps (start_consistent hu)).represents

-- The second step lets `y` leave at its upper bound, so it ends up complemented.
theorem reachable_represents_after_departure_at_upper :
    let matrix : Vector (Vector ℚ 4) 2 := #v[#v[-1, 1, 1, 0], #v[1, 2, 0, 1]]
    let rhs : Vector ℚ 2 := #v[1, 10]
    let lower : Vector ℚ 4 := #v[0, 0, 0, 0]
    ∃ t₀ t, start? matrix rhs #v[1, 3, 0, 0] lower #v[none, some 2, none, none] #v[2, 3] = .ok t₀ ∧
      UnitColumns matrix #v[2, 3] ∧ Reaches t₀ t ∧ t.complemented.get 1 = true ∧
      t.Represents matrix rhs lower := by
  intro matrix rhs lower
  have hu : UnitColumns matrix #v[2, 3] := by
    unfold UnitColumns
    decide +kernel
  have hs : start? matrix rhs #v[1, 3, 0, 0] lower #v[none, some 2, none, none] #v[2, 3] = .ok _ :=
    start?_of_unitColumns hu (by decide +kernel)
  let first := start matrix rhs #v[1, 3, 0, 0] lower #v[none, some 2, none, none] #v[2, 3]
  have hsecond := ((Reaches.refl : Reaches first first).iterate false).iterate true
  have hlast := (hsecond.fixColumns [2] (by decide +kernel)).setCosts #v[1, 0, 2, 0]
  exact ⟨_, _, hs, hu, hlast, by decide +kernel, reachable_represents hs hu hlast⟩

end Start

end Tableau

end LinearProgram
