import LinearProgram.Proofs.Tableau.Drift
import LinearProgram.Proofs.Tableau.Pricing

namespace LinearProgram

namespace Tableau

variable {m n : ℕ}

-- The three ways in which column `q` moves by `length`: to its other bound, or until a basic column
-- meets its lower or its upper bound.
inductive Advances (t : Tableau ℚ m n) (q : Fin n) (length : ℚ) : Tableau ℚ m n → Prop
  | flip (hs : t.span.get q = some length) : Advances t q length (t.complementNonbasic q)
  | atLower {r : Fin m} (hp : t.entry r q ≠ 0) (hl : length = t.rhs.get r / t.entry r q) :
      Advances t q length (t.pivot r q)
  | atUpper {r : Fin m} {s : ℚ} (hp : t.entry r q ≠ 0) (hs : t.span.get (t.basis.get r) = some s)
      (hl : length = (s - t.rhs.get r) / -t.entry r q) :
      Advances t q length ((t.complementBasic r).pivot r q)

-- What the step comes to. Coordinates are measured as the tableau before it does.
structure Progress (t u : Tableau ℚ m n) (q : Fin n) (length : ℚ) : Prop where
  nonneg : 0 ≤ length
  gain : u.objective = t.objective + t.reduced.get q * length
  improves : t.objective ≤ u.objective
  rows : ∀ i, u.basis.get i = q ∨ u.basis.get i = t.basis.get i ∧
    -t.slip q length i ≤ u.rhs.get i ∧ ∀ s, t.span.get (t.basis.get i) = some s →
      u.rhs.get i ≤ s + t.slip q length i
  entering : t.coordinate u.values.get q = length ∧
    ∀ s, t.span.get q = some s → length ≤ s + m * eps
  left : ∀ j, t.isBasic j = true → u.isBasic j = false →
    t.coordinate u.values.get j = 0 ∨ t.span.get j = some (t.coordinate u.values.get j)

section Pivot

variable {t : Tableau ℚ m n} {r : Fin m} {q j : Fin n}

theorem pivot_level_self (h : t.Canonical) (hp : t.entry r q ≠ 0) :
    (t.pivot r q).level q = t.rhs.get r / t.entry r q := by
  have hq : (t.pivot r q).basis.get r = q := by rw [pivot_basis, if_pos rfl]
  have hlevel := level_basic (h.pivot hp) r
  rwa [hq, pivot_rhs_self hp] at hlevel

theorem pivot_level_of_ne (hj : j ≠ q) (hb : ∀ i, t.basis.get i = j → i = r) :
    (t.pivot r q).level j = 0 := by
  refine level_nonbasic fun i hi => ?_
  rw [pivot_basis] at hi
  split_ifs at hi with hir
  · exact hj hi.symm
  · exact hir (hb i hi)

theorem pivot_coordinate_values (j : Fin n) :
    t.coordinate (t.pivot r q).values.get j = (t.pivot r q).level j :=
  coordinate_values (t.pivot r q) j

end Pivot

namespace Advances

variable {t u : Tableau ℚ m n} {q j : Fin n} {length : ℚ}

theorem coordinate_self (h : t.Advances q length u) (hc : t.Canonical)
    (hq : t.canEnter q = true) : t.coordinate u.values.get q = length := by
  have hbasis := nonbasic_of_canEnter hq
  cases h with
  | flip hs =>
    have hlevel := coordinate_values (t.complementNonbasic q) q
    rw [complementNonbasic_coordinate, if_pos rfl, hs, Option.getD_some,
      level_nonbasic (t := t.complementNonbasic q) hbasis, sub_eq_zero] at hlevel
    exact hlevel.symm
  | atLower hp hl => rw [pivot_coordinate_values, pivot_level_self hc hp, hl]
  | @atUpper r s hp hs hl =>
    have hlevel := pivot_level_self (hc.complementBasic r) (complementBasic_pivot_ne_zero hq hp)
    rwa [← pivot_coordinate_values, complementBasic_coordinate, if_neg (Ne.symm (hbasis r)),
      complementBasic_quotient (hbasis r) hs, ← hl] at hlevel

theorem coordinate_nonbasic (h : t.Advances q length u) (hj : ∀ i, t.basis.get i ≠ j)
    (hne : j ≠ q) : t.coordinate u.values.get j = 0 := by
  cases h with
  | flip hs =>
    have hlevel := coordinate_values (t.complementNonbasic q) j
    rwa [complementNonbasic_coordinate, if_neg hne,
      level_nonbasic (t := t.complementNonbasic q) hj] at hlevel
  | atLower hp hl =>
    rw [pivot_coordinate_values, pivot_level_of_ne hne fun i hi => absurd hi (hj i)]
  | @atUpper r s hp hs hl =>
    have hlevel := pivot_level_of_ne (t := t.complementBasic r) (r := r) hne
      fun i hi => absurd hi (hj i)
    rwa [← pivot_coordinate_values, complementBasic_coordinate, if_neg (Ne.symm (hj r))] at hlevel

-- The column that leaves is at the bound that it has met.
theorem coordinate_left (h : t.Advances q length u) (hj : t.isBasic j = true)
    (hout : u.isBasic j = false) :
    t.coordinate u.values.get j = 0 ∨ t.span.get j = some (t.coordinate u.values.get j) := by
  obtain ⟨i, rfl⟩ := (t.isBasic_iff j).mp hj
  rw [isBasic_eq_false] at hout
  cases h with
  | flip hs => exact absurd rfl (hout i)
  | @atLower r hp hl =>
    left
    exact (pivot_coordinate_values _).trans (level_nonbasic hout)
  | @atUpper r s hp hs hl =>
    obtain rfl : i = r := by
      by_contra hi
      exact hout i (by rw [pivot_basis, if_neg hi]; rfl)
    have hlevel := (pivot_coordinate_values (t.basis.get i)).trans (level_nonbasic hout)
    rw [complementBasic_coordinate, if_pos rfl, hs, Option.getD_some, sub_eq_zero] at hlevel
    right
    rw [hs, hlevel]

-- Each other row gives up what the movement takes off it.
theorem rows (h : t.Advances q length u) (hq : t.canEnter q = true) (i : Fin m) :
    u.basis.get i = q ∨ u.basis.get i = t.basis.get i ∧
      u.rhs.get i = t.rhs.get i - t.entry i q * length := by
  have hbasis := nonbasic_of_canEnter hq
  cases h with
  | flip hs =>
    right
    exact ⟨rfl, by rw [complementNonbasic_rhs, hs, Option.getD_some]⟩
  | @atLower r hp hl =>
    rw [pivot_basis]
    by_cases hi : i = r
    · exact .inl (if_pos hi)
    · exact .inr ⟨if_neg hi, by rw [pivot_rhs_of_ne hp hi, hl]⟩
  | @atUpper r s hp hs hl =>
    rw [pivot_basis]
    by_cases hi : i = r
    · exact .inl (if_pos hi)
    · refine .inr ⟨if_neg hi, ?_⟩
      rw [pivot_rhs_of_ne (complementBasic_pivot_ne_zero hq hp) hi, complementBasic_rhs, if_neg hi,
        complementBasic_entry_of_ne (hbasis r), if_neg hi, complementBasic_quotient (hbasis r) hs,
        hl]

end Advances

section Step

variable {t u : Tableau ℚ m n} {bland degenerate : Bool}

-- From a feasible tableau the limit that a row sets is the plain quotient.
theorem exists_advances (hf : t.Overshoot 0) (h : t.iterate bland = (.pivoted degenerate, u)) :
    ∃ q length, t.entering? bland = some q ∧ (t.leaving q).length? = some length ∧
      degenerate = decide (length < eps) ∧ 0 ≤ length ∧ t.Advances q length u := by
  have heps := eps_pos
  unfold iterate move at h
  cases he : t.entering? bland with
  | none =>
    rw [he] at h
    exact absurd (congrArg Prod.fst h) (by simp [Move.step])
  | some q =>
    have hq := (t.canEnter_iff q).mp (t.canEnter_of_entering? he)
    have hfits := t.leaving_fits q
    rw [he] at h
    simp only at h
    refine ⟨q, ?_⟩
    cases hv : t.leaving q with
    | never =>
      rw [hv] at h
      exact absurd (congrArg Prod.fst h) (by simp [Move.step])
    | otherBound length =>
      rw [hv] at h hfits
      obtain ⟨hstep, rfl⟩ := Prod.mk.inj h
      have hlarge := (t.isMovable_iff q).mp hq.2.1 length hfits
      exact ⟨length, rfl, rfl, (Step.pivoted.inj hstep).symm, by linarith, .flip hfits⟩
    | row r atUpper length =>
      rw [hv] at h hfits
      obtain ⟨hstep, rfl⟩ := Prod.mk.inj h
      obtain ⟨hlen, hl⟩ := hf.length_eq_quotient hfits
      refine ⟨length, rfl, rfl, (Step.pivoted.inj hstep).symm, hlen, ?_⟩
      have hp := t.entry_ne_zero_of_limit? hfits
      rcases t.limit?_eq_some.mp hfits with ⟨_, rfl, _⟩ | ⟨_, rfl, s, hs, _⟩
      · exact .atLower hp hl
      · rw [quotient, hs] at hl
        exact .atUpper hp hs hl

theorem Advances.gain {q : Fin n} {length : ℚ} (h : t.Advances q length u) (hc : t.Canonical)
    (hp : t.Priced) (hq : t.canEnter q = true) (hu : u.Priced) (hcosts : u.costs = t.costs)
    (hz : ∀ i, t.residual u.values.get i = 0) :
    u.objective = t.objective + t.reduced.get q * length := by
  have hnonbasic := ((t.canEnter_iff q).mp hq).2.2
  rw [hu.objective, hcosts, cost_eq_objective_add_single hc hp hnonbasic hz fun j hj hne =>
    h.coordinate_nonbasic ((t.isBasic_eq_false j).mp hj) hne, h.coordinate_self hc hq]

-- The basic columns form the identity, the prices are right, and every basic variable is within its
-- bounds. What is left of the last is told by the tolerances of the ratio test alone.
theorem iterate_progress (hc : t.Canonical) (hp : t.Priced)
    (hf : ∀ i, 0 ≤ t.rhs.get i ∧
      ∀ s, t.span.get (t.basis.get i) = some s → t.rhs.get i ≤ s)
    (h : t.iterate bland = (.pivoted degenerate, u)) :
    ∃ q length, t.entering? bland = some q ∧ (t.leaving q).length? = some length ∧
      degenerate = decide (length < eps) ∧ t.Progress u q length := by
  have hover : t.Overshoot 0 := by simpa [Overshoot] using hf
  obtain ⟨q, length, he, hlength, hdegenerate, hnonneg, hadv⟩ := exists_advances hover h
  have hq := t.canEnter_of_entering? he
  have hm := t.move_legal bland
  obtain rfl : t.apply (t.move bland) = u := congrArg Prod.snd h
  have hacc := t.accurate_of_leaving (t.sharp_eps q) eps_nonneg hlength
  have hz := (apply_residual_eq_zero hc hm _).mp (values_residual (hc.apply hm))
  have hgain := hadv.gain hc hp hq (hp.apply hc hm) (apply_costs t _) hz
  refine ⟨q, length, he, hlength, hdegenerate, hnonneg, hgain, ?_, fun i => ?_,
    ⟨hadv.coordinate_self hc hq, hacc.span⟩, fun j => hadv.coordinate_left⟩
  · have hprice := ((t.canEnter_iff q).mp hq).1
    rw [hgain]
    have hgrowth := mul_nonneg (eps_nonneg.trans hprice.le) hnonneg
    linarith
  · refine (hadv.rows hq i).imp_right fun ⟨hbasis, hrhs⟩ => ⟨hbasis, ?_⟩
    rw [hrhs]
    have hshift := hover.shift_row le_rfl hacc hnonneg i
    rwa [zero_add] at hshift

-- Column 0 enters and takes the basic column 1 to its upper bound, which is complemented for it.
theorem iterate_progress_of_departure_at_upper :
    let matrix : Vector (Vector ℚ 4) 2 := #v[#v[-1, 1, 1, 0], #v[1, 2, 0, 1]]
    let first := start matrix #v[1, 10] #v[1, 3, 0, 0] #v[0, 0, 0, 0] #v[none, some 2, none, none]
      #v[2, 3]
    let t := (first.iterate false).2
    t.Canonical ∧ t.Priced ∧
      (∀ i, 0 ≤ t.rhs.get i ∧ ∀ s, t.span.get (t.basis.get i) = some s → t.rhs.get i ≤ s) ∧
      t.objective = 3 ∧ t.reduced.get 0 = 4 ∧
      ∃ u, t.iterate true = (.pivoted false, u) ∧ t.Progress u 0 1 ∧ u.complemented.get 1 = true ∧
        u.objective = 7 := by
  intro matrix first t
  have hu : UnitColumns matrix #v[2, 3] := by
    unfold UnitColumns
    decide +kernel
  have hfirst : first.Consistent := start_consistent hu
  have hc : t.Canonical := hfirst.canonical.apply (first.move_legal false)
  have hp : t.Priced :=
    (reprice_priced hfirst.canonical).apply hfirst.canonical (first.move_legal false)
  have hf : t.Overshoot 0 := by decide +kernel
  have hbounds : ∀ i, 0 ≤ t.rhs.get i ∧
      ∀ s, t.span.get (t.basis.get i) = some s → t.rhs.get i ≤ s := by
    simpa [Overshoot] using hf
  have hstep : t.iterate true = (.pivoted false, (t.iterate true).2) :=
    Prod.ext (by decide +kernel) rfl
  obtain ⟨q, length, hq, hlength, _, hprogress⟩ := iterate_progress hc hp hbounds hstep
  have hzero : t.entering? true = some 0 := by decide +kernel
  obtain rfl : 0 = q := Option.some.inj (hzero.symm.trans hq)
  have hone : (t.leaving 0).length? = some 1 := by decide +kernel
  obtain rfl : 1 = length := Option.some.inj (hone.symm.trans hlength)
  have hobjective : t.objective = 3 := by decide +kernel
  have hprice : t.reduced.get 0 = 4 := by decide +kernel
  refine ⟨hc, hp, hbounds, hobjective, hprice, _, hstep, hprogress, by decide +kernel, ?_⟩
  rw [hprogress.gain, hobjective, hprice]
  norm_num

end Step

end Tableau

end LinearProgram
