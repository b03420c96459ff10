import LinearProgram.Proofs.Tableau.Representation

namespace LinearProgram

namespace Tableau

variable {m n : ℕ}

-- The price of column `j` from scratch: its cost less what the basis earns by it.
def price (t : Tableau ℚ m n) (j : Fin n) : ℚ :=
  t.signedCost j - ∑ i, t.signedCost (t.basis.get i) * t.entry i j

-- The stored prices and the stored objective are those of the current basis.
structure Priced (t : Tableau ℚ m n) : Prop where
  reduced : ∀ j, t.reduced.get j = t.price j
  objective : t.objective = ∑ j, t.costs.get j * t.values.get j

section Price

variable {t : Tableau ℚ m n}

theorem price_basic (h : t.Canonical) (i : Fin m) : t.price (t.basis.get i) = 0 := by
  unfold price
  simp only [h i, mul_ite, mul_one, mul_zero]
  rw [Finset.sum_ite_eq', if_pos (Finset.mem_univ i), sub_self]

theorem Priced.reduced_basic (hp : t.Priced) (h : t.Canonical) (i : Fin m) :
    t.reduced.get (t.basis.get i) = 0 :=
  (hp.reduced _).trans (price_basic h i)

-- Clearing the prices of the basic columns changes nothing when they are right.
theorem price_eq_ite (h : t.Canonical) (j : Fin n) :
    (if t.isBasic j then 0 else t.price j) = t.price j := by
  split_ifs with hj
  · obtain ⟨i, rfl⟩ := (t.isBasic_iff j).mp hj
    exact (price_basic h i).symm
  · rfl

theorem refresh_objective (t : Tableau ℚ m n) :
    t.refresh.objective = ∑ j, t.costs.get j * t.values.get j := by
  refine (dot_eq_sum _ _).trans ?_
  exact Finset.sum_congr rfl fun j _ => mul_comm _ _

theorem reprice_priced (h : t.Canonical) : t.reprice.Priced := by
  refine ⟨fun j => ?_, refresh_objective _⟩
  refine (refresh_reduced _ j).trans ?_
  rw [← price_eq_ite (t := t.reprice) h j]
  change (if t.isBasic j then 0 else _) = if t.isBasic j then 0 else t.price j
  simp [price, total_eq_sum, List.sum_ofFn]

theorem pivot_signedCost (r : Fin m) (q j : Fin n) :
    (t.pivot r q).signedCost j = t.signedCost j := rfl

theorem pivot_price {r : Fin m} {q : Fin n} (hp : t.entry r q ≠ 0) (j : Fin n) :
    (t.pivot r q).price j = t.price j - t.price q * (t.entry r j / t.entry r q) := by
  have hs : ∀ i, t.signedCost ((t.pivot r q).basis.get i) * (t.pivot r q).entry i j =
      t.signedCost (t.basis.get i) *
          (t.entry i j - t.entry i q * (t.entry r j / t.entry r q)) +
        if i = r then t.signedCost q * (t.entry r j / t.entry r q) else 0 := by
    intro i
    rw [pivot_basis, pivot_entry t r q hp]
    unfold multiple
    split_ifs with hi
    · subst hi
      field_simp
      ring
    · rw [add_zero]
  have hd : ∑ i, t.signedCost (t.basis.get i) *
        (t.entry i j - t.entry i q * (t.entry r j / t.entry r q)) =
      ∑ i, t.signedCost (t.basis.get i) * t.entry i j -
        (∑ i, t.signedCost (t.basis.get i) * t.entry i q) * (t.entry r j / t.entry r q) := by
    rw [Finset.sum_mul, ← Finset.sum_sub_distrib]
    exact Finset.sum_congr rfl fun i _ => by ring
  simp only [price, pivot_signedCost]
  rw [Finset.sum_congr rfl fun i _ => hs i, sum_add_single, hd]
  ring

theorem Priced.pivot (hp : t.Priced) (h : t.Canonical) {r : Fin m} {q : Fin n}
    (hz : t.entry r q ≠ 0) : (t.pivot r q).Priced := by
  refine ⟨fun j => ?_, refresh_objective _⟩
  rw [pivot_reduced, hp.reduced j, hp.reduced q, ← pivot_price hz j, price_eq_ite (h.pivot hz)]

theorem complementNonbasic_signedCost (q j : Fin n) :
    (t.complementNonbasic q).signedCost j =
      if j = q then -t.signedCost j else t.signedCost j := by
  unfold signedCost
  rw [complementNonbasic_complemented]
  by_cases hj : j = q
  · subst hj
    cases t.complemented.get j <;> simp
  · simp [hj]

theorem complementNonbasic_price {q : Fin n} (hq : ∀ i, t.basis.get i ≠ q) (j : Fin n) :
    (t.complementNonbasic q).price j = if j = q then -t.price j else t.price j := by
  have hb : ∀ i, (t.complementNonbasic q).signedCost (t.basis.get i) =
      t.signedCost (t.basis.get i) := by
    intro i
    rw [complementNonbasic_signedCost, if_neg (hq i)]
  simp only [price, complementNonbasic_basis, hb, complementNonbasic_signedCost,
    complementNonbasic_entry]
  split_ifs
  · simp only [mul_neg, Finset.sum_neg_distrib]
    ring
  · rfl

theorem Priced.complementNonbasic (hp : t.Priced) (h : t.Canonical) {q : Fin n}
    (hq : ∀ i, t.basis.get i ≠ q) : (t.complementNonbasic q).Priced := by
  refine ⟨fun j => ?_, refresh_objective _⟩
  rw [complementNonbasic_reduced, hp.reduced j, ← complementNonbasic_price hq]
  exact price_eq_ite (h.complementNonbasic hq) j

theorem complementBasic_signedCost (r : Fin m) (j : Fin n) :
    (t.complementBasic r).signedCost j =
      if j = t.basis.get r then -t.signedCost j else t.signedCost j := by
  unfold signedCost
  rw [complementBasic_complemented]
  by_cases hj : j = t.basis.get r
  · subst hj
    cases t.complemented.get (t.basis.get r) <;> simp
  · simp [hj]

-- The cost of the basic column and its row turn around together.
theorem complementBasic_price (h : t.Canonical) (r : Fin m) (j : Fin n) :
    (t.complementBasic r).price j = t.price j := by
  by_cases hj : j = t.basis.get r
  · subst hj
    rw [price_basic h r]
    exact price_basic (h.complementBasic r) r
  · have hs : ∀ i, (t.complementBasic r).signedCost (t.basis.get i) *
        (t.complementBasic r).entry i j = t.signedCost (t.basis.get i) * t.entry i j := by
      intro i
      rw [complementBasic_signedCost, complementBasic_entry]
      by_cases hi : i = r
      · subst hi
        simp [hj]
      · have hb : t.basis.get i ≠ t.basis.get r := fun he => hi (h.injective he)
        simp [hi, hb]
    unfold price
    rw [complementBasic_basis, Finset.sum_congr rfl fun i _ => hs i, complementBasic_signedCost,
      if_neg hj]

end Price

section Run

variable {t : Tableau ℚ m n}

-- The objective cell waits for the pivot that follows, which writes it anew.
theorem Priced.complementBasic_pivot (hp : t.Priced) (h : t.Canonical) {r : Fin m} {q : Fin n}
    (hz : (t.complementBasic r).entry r q ≠ 0) : ((t.complementBasic r).pivot r q).Priced := by
  refine ⟨fun j => ?_, refresh_objective _⟩
  rw [pivot_reduced, complementBasic_reduced, hp.reduced j, hp.reduced q,
    ← complementBasic_price h r j, ← complementBasic_price h r q, ← pivot_price hz j]
  exact price_eq_ite ((h.complementBasic r).pivot hz) j

theorem Priced.apply (hp : t.Priced) (h : t.Canonical) {move : Move ℚ m n}
    (hm : t.Legal move) : (t.apply move).Priced := by
  cases move with
  | optimal => exact hp
  | unbounded q => exact hp
  | flip q length => exact hp.complementNonbasic h (nonbasic_of_canEnter hm.1)
  | pivot r q atUpper length =>
    have hz := t.entry_ne_zero_of_limit? hm.2
    cases atUpper with
    | false => exact hp.pivot h hz
    | true => exact hp.complementBasic_pivot h (complementBasic_pivot_ne_zero hm.1 hz)

theorem fixColumns_values {cols : List (Fin n)}
    (hc : ∀ j ∈ cols, t.complemented.get j = false) (j : Fin n) :
    (t.fixColumns cols).values.get j = t.values.get j := by
  rw [values_get, values_get, fixColumns_span]
  change t.lower.get j + (if t.complemented.get j then _ - t.level j else t.level j) = _
  by_cases hj : j ∈ cols
  · simp [hc j hj]
  · simp [hj]

theorem Priced.fixColumns (hp : t.Priced) {cols : List (Fin n)}
    (hc : ∀ j ∈ cols, t.complemented.get j = false) : (t.fixColumns cols).Priced := by
  refine ⟨hp.reduced, hp.objective.trans ?_⟩
  exact Finset.sum_congr rfl fun j _ => by rw [fixColumns_values hc]; rfl

theorem Reaches.priced {t₀ : Tableau ℚ m n} (h : Reaches t₀ t) (hc : t₀.Consistent)
    (hp : t₀.Priced) : t.Priced := by
  induction h with
  | refl => exact hp
  | @iterate t bland hr ih => exact ih.apply (hr.keeps hc).consistent.canonical (t.move_legal bland)
  | setCosts costs hr ih => exact reprice_priced (hr.keeps hc).consistent.canonical
  | fixColumns cols hfree _ ih => exact ih.fixColumns hfree

-- Two solutions of the rows differ in cost by what the prices make of their coordinates.
theorem cost_sub_cost (h : t.Priced) {z w : Fin n → ℚ} (hz : ∀ i, t.residual z i = 0)
    (hw : ∀ i, t.residual w i = 0) :
    ∑ j, t.costs.get j * (z j - w j) =
      ∑ j, t.reduced.get j * (t.coordinate z j - t.coordinate w j) := by
  have hcost : ∀ j, t.signedCost j * (t.coordinate z j - t.coordinate w j) =
      t.costs.get j * (z j - w j) := by
    intro j
    unfold signedCost coordinate
    split_ifs <;> ring
  have hrow : ∀ i, ∑ j, t.entry i j * (t.coordinate z j - t.coordinate w j) = 0 := by
    intro i
    have hzi := hz i
    have hwi := hw i
    unfold residual at hzi hwi
    simp only [mul_sub, Finset.sum_sub_distrib]
    linarith
  have hswap : ∑ j, (∑ i, t.signedCost (t.basis.get i) * t.entry i j) *
      (t.coordinate z j - t.coordinate w j) = 0 := by
    simp only [Finset.sum_mul]
    rw [Finset.sum_comm]
    apply Finset.sum_eq_zero
    intro i _
    rw [← mul_zero (t.signedCost (t.basis.get i)), ← hrow i, Finset.mul_sum]
    exact Finset.sum_congr rfl fun j _ => mul_assoc _ _ _
  calc ∑ j, t.costs.get j * (z j - w j)
      = ∑ j, t.signedCost j * (t.coordinate z j - t.coordinate w j) :=
        Finset.sum_congr rfl fun j _ => (hcost j).symm
    _ = ∑ j, t.signedCost j * (t.coordinate z j - t.coordinate w j) -
          ∑ j, (∑ i, t.signedCost (t.basis.get i) * t.entry i j) *
            (t.coordinate z j - t.coordinate w j) := by rw [hswap, sub_zero]
    _ = ∑ j, t.reduced.get j * (t.coordinate z j - t.coordinate w j) := by
        rw [← Finset.sum_sub_distrib]
        refine Finset.sum_congr rfl fun j _ => ?_
        rw [h.reduced j, price, sub_mul]

-- The tableau's own point has no part in the prices: its basic columns are free and its nonbasic
-- ones are at zero.
theorem cost_eq_objective_add (h : t.Canonical) (hp : t.Priced) {z : Fin n → ℚ}
    (hz : ∀ i, t.residual z i = 0) :
    ∑ j, t.costs.get j * z j =
      t.objective + ∑ j with t.isBasic j = false, t.reduced.get j * t.coordinate z j := by
  have hfree : ∀ j, t.reduced.get j * t.level j = 0 := by
    intro j
    by_cases hj : ∃ i, t.basis.get i = j
    · obtain ⟨i, rfl⟩ := hj
      rw [hp.reduced_basic h, zero_mul]
    · rw [level_nonbasic fun i hi => hj ⟨i, hi⟩, mul_zero]
  have hbasic : ∑ j with t.isBasic j = false, t.reduced.get j * t.coordinate z j =
      ∑ j, t.reduced.get j * t.coordinate z j := by
    apply Finset.sum_filter_of_ne
    intro j _ hne
    by_contra hj
    obtain ⟨i, rfl⟩ := (t.isBasic_iff j).mp (by simpa using hj)
    exact hne (by rw [hp.reduced_basic h, zero_mul])
  have hd := cost_sub_cost hp hz (values_residual h)
  simp only [coordinate_values, mul_sub, Finset.sum_sub_distrib, hfree, sub_zero] at hd
  rw [hbasic, hp.objective]
  linarith

-- Away from the tableau's own point in one nonbasic column only, a solution costs its price more.
theorem cost_eq_objective_add_single (h : t.Canonical) (hp : t.Priced) {q : Fin n}
    (hq : t.isBasic q = false) {z : Fin n → ℚ} (hz : ∀ i, t.residual z i = 0)
    (hrest : ∀ j, t.isBasic j = false → j ≠ q → t.coordinate z j = 0) :
    ∑ j, t.costs.get j * z j = t.objective + t.reduced.get q * t.coordinate z q := by
  rw [cost_eq_objective_add h hp hz, Finset.sum_eq_single q]
  · intro j hj hne
    rw [hrest j (Finset.mem_filter.mp hj).2 hne, mul_zero]
  · intro hn
    exact absurd (Finset.mem_filter.mpr ⟨Finset.mem_univ q, hq⟩) hn

theorem zRow_get (hp : t.Priced) (j : Fin n) :
    t.zRow.get j = ∑ i, t.signedCost (t.basis.get i) * t.entry i j := by
  rw [zRow, Vector.get_ofFn, hp.reduced j, price, sub_sub_cancel]

theorem zRhs_eq_sum (t : Tableau ℚ m n) :
    t.zRhs = ∑ i, t.signedCost (t.basis.get i) * t.rhs.get i := by
  rw [zRhs, total_eq_sum, List.sum_ofFn]

-- Pricing anew finds every price and the objective as they are.
theorem Priced.setCosts_costs (hp : t.Priced) (h : t.Canonical) : t.setCosts t.costs = t := by
  have hnew : (t.setCosts t.costs).Priced := reprice_priced h
  have hreduced : (t.setCosts t.costs).reduced = t.reduced := by
    apply Vector.ext
    intro j hj
    exact (hnew.reduced ⟨j, hj⟩).trans (hp.reduced ⟨j, hj⟩).symm
  have hobjective : (t.setCosts t.costs).objective = t.objective :=
    hnew.objective.trans hp.objective.symm
  calc t.setCosts t.costs
      = { t with
          reduced := (t.setCosts t.costs).reduced
          objective := (t.setCosts t.costs).objective } := rfl
    _ = t := by rw [hreduced, hobjective]

end Run

section Start

variable {matrix : Vector (Vector ℚ n) m} {rhs : Vector ℚ m} {costs lower : Vector ℚ n}
  {upper : Vector (Option ℚ) n} {basis : Vector (Fin n) m} {t₀ t : Tableau ℚ m n}

-- The prices that the moves update, the Z-row and the objective are those of pricing from scratch,
-- and they tell the cost of every solution of the system.
theorem reachable_prices (hs : start? matrix rhs costs lower upper basis = .ok t₀)
    (hu : UnitColumns matrix basis) (h : Reaches t₀ t) :
    (∀ j, t.reduced.get j =
      t.signedCost j - ∑ i, t.signedCost (t.basis.get i) * t.entry i j) ∧
    (∀ j, t.zRow.get j = ∑ i, t.signedCost (t.basis.get i) * t.entry i j) ∧
    t.zRhs = ∑ i, t.signedCost (t.basis.get i) * t.rhs.get i ∧
    t.objective = ∑ j, t.costs.get j * t.values.get j ∧
    t.setCosts t.costs = t ∧
    ∀ z : Fin n → ℚ,
      (∀ i, ∑ j, (matrix.get i).get j * (z j - lower.get j) = max (rhs.get i) 0) →
        ∑ j, t.costs.get j * z j =
          t.objective + ∑ j with t.isBasic j = false, t.reduced.get j * t.coordinate z j := by
  obtain rfl := eq_start_of_start? hs
  have hconsistent : (start matrix rhs costs lower upper basis).Consistent := start_consistent hu
  have hkeeps := h.keeps hconsistent
  have hpriced := h.priced hconsistent (reprice_priced hconsistent.canonical)
  have hcanonical := hkeeps.consistent.canonical
  refine ⟨hpriced.reduced, zRow_get hpriced, t.zRhs_eq_sum, hpriced.objective,
    hpriced.setCosts_costs hcanonical, fun z hz => ?_⟩
  refine cost_eq_objective_add hcanonical hpriced ((hkeeps.solutions z).mpr fun i => ?_)
  rw [start_residual, sub_eq_zero]
  exact hz i

-- The tableau has a column that is complemented after its departure at the upper bound, new costs
-- and a pinned column.
theorem reachable_prices_after_departure_at_upper :
    let matrix : Vector (Vector ℚ 4) 2 := #v[#v[-1, 1, 1, 0], #v[1, 2, 0, 1]]
    let rhs : Vector ℚ 2 := #v[1, 10]
    let lower : Vector ℚ 4 := #v[0, 0, 0, 0]
    ∃ t₀ t, start? matrix rhs #v[1, 3, 0, 0] lower #v[none, some 2, none, none] #v[2, 3] = .ok t₀ ∧
      UnitColumns matrix #v[2, 3] ∧ Reaches t₀ t ∧ t.complemented.get 1 = true ∧
      t.setCosts t.costs = t ∧
      t.costs.get 0 * 6 + t.costs.get 1 * 2 + t.costs.get 2 * 5 =
        t.objective + ∑ j with t.isBasic j = false,
          t.reduced.get j * t.coordinate ![6, 2, 5, 0] j := by
  intro matrix rhs lower
  have hu : UnitColumns matrix #v[2, 3] := by
    unfold UnitColumns
    decide +kernel
  have hs : start? matrix rhs #v[1, 3, 0, 0] lower #v[none, some 2, none, none] #v[2, 3] = .ok _ :=
    start?_of_unitColumns hu (by decide +kernel)
  let first := start matrix rhs #v[1, 3, 0, 0] lower #v[none, some 2, none, none] #v[2, 3]
  have hsecond := ((Reaches.refl : Reaches first first).iterate false).iterate true
  have hlast := (hsecond.fixColumns [2] (by decide +kernel)).setCosts #v[1, 0, 2, 0]
  obtain ⟨_, _, _, _, hsame, hcost⟩ := reachable_prices hs hu hlast
  have hpoint := hcost ![6, 2, 5, 0] (by decide +kernel)
  rw [Fin.sum_univ_four] at hpoint
  refine ⟨_, _, hs, hu, hlast, by decide +kernel, hsame, ?_⟩
  rw [← hpoint]
  simp

end Start

end Tableau

end LinearProgram
