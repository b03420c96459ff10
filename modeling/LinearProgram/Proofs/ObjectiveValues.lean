import LinearProgram.Proofs.Feasibility
import LinearProgram.Proofs.Operations

namespace LinearProgram

section Assignment

variable {s : Solution ℚ}

theorem length_assignment (s : Solution ℚ) : s.assignment.length = s.form.cols := by
  simp [Solution.assignment]

theorem assignment_getElem? (s : Solution ℚ) (j : Fin s.form.cols) :
    s.assignment[j.val]? = some (Solution.snap (s.tableau.values.get j)) := by
  unfold Solution.assignment
  rw [List.getElem?_map, Vector.getElem?_toList]
  simp
  rfl

end Assignment

section Objective

variable {m : Model ℚ} {s : Solution ℚ} {folded : Bounds ℚ m.vars.length} {o : Objective ℚ}
  {row : Fin s.form.rows → Constraint ℚ}

theorem objectiveValue_eq (hs : s.model = m) (ho : m.objective = some o) :
    s.objectiveValue = o.evaluate s.assignment := by
  unfold Solution.objectiveValue
  rw [hs, ho]

-- Neither merging atoms nor turning the direction around changes what is gained.
theorem normalizedObjectiveValue_eq_gain (hof : s.form.Of m folded o row) :
    s.normalizedObjectiveValue = o.gain s.assignment := by
  unfold Solution.normalizedObjectiveValue
  rw [hof.normalObjective]
  exact (Expression.evaluate_eq_valueAt _ _).trans (o.valueAt_asMaximize s.assignment)

-- The dense costs say the same of the assignment as the expression does.
theorem normalizedObjectiveValue_eq_sum (hof : s.form.Of m folded o row) :
    s.normalizedObjectiveValue =
      ∑ j, s.form.costs.get j * Solution.snap (s.tableau.values.get j) := by
  have ho : ∀ a ∈ o.simplify.asMaximize.expression.atoms, a.var.index < s.form.cols := by
    intro a ha
    have hlt := Objective.index_lt_asMaximize
      (fun b hb => Model.index_lt_of_owns (hof.wellFormed.objective o hof.objective b hb)) a ha
    exact hlt.trans_le hof.equalities.le
  simp only [hof.encodes.costs _ hof.normalObjective]
  rw [StandardForm.sum_eq_valueAt_spread ho]
  unfold Solution.normalizedObjectiveValue
  rw [hof.normalObjective]
  refine (Expression.evaluate_eq_valueAt _ _).trans ?_
  exact Expression.valueAt_congr _ fun a _ => assignment_getD s a.var.index

-- Each value has moved by less than the tolerance.
theorem abs_normalizedObjectiveValue_sub_le (hs : s.Arises m) (hof : s.form.Of m folded o row) :
    |s.normalizedObjectiveValue - s.tableau.objective| ≤
      eps * ∑ j : Fin s.form.cols, |o.asMaximize.expression.coefficient j| := by
  have hpriced := hs.reaches.priced hof.start_consistent hof.start_priced
  have hcost : ∀ j : Fin s.form.cols,
      s.form.costs.get j = o.asMaximize.expression.coefficient j := fun j =>
    (hof.encodes.costs _ hof.normalObjective j).trans (coefficient_asMaximize o j)
  rw [normalizedObjectiveValue_eq_sum hof, hpriced.objective, hs.costs, ← Finset.sum_sub_distrib,
    Finset.mul_sum]
  refine (Finset.abs_sum_le_sum_abs _ _).trans (Finset.sum_le_sum fun j _ => ?_)
  rw [← mul_sub, abs_mul, hcost, mul_comm]
  exact mul_le_mul_of_nonneg_right (abs_snap_sub_le _) (abs_nonneg _)

end Objective

-- The objective as the caller states it, as the normalized model has it and as the tableau has it
-- are the same up to the sign and to the small values that the assignment leaves out.
theorem objective_values_agree {solver : Solver} {m : Model ℚ} (hm : m.WellFormed)
    {s : Solution ℚ} (h : solver.solve m = .ok s) :
    (∃ o, m.objective = some o ∧
      s.normalizedObjectiveValue = (match o.direction with
        | .maximize => s.objectiveValue
        | .minimize => -s.objectiveValue) ∧
      |s.normalizedObjectiveValue - s.tableau.objective| ≤
        eps * ∑ j : Fin s.form.cols, |o.asMaximize.expression.coefficient j|) ∧
    s.assignment.length = s.form.model.vars.length ∧
    (∀ j : Fin s.form.cols, s.assignment[j.val]? =
      some (if |s.tableau.values.get j| < eps then 0 else s.tableau.values.get j)) ∧
    m.vars <+: s.form.model.vars ∧
    s.givenAssignment <+: s.assignment ∧ s.givenAssignment.length = m.vars.length := by
  have hs := arises_of_solve hm h
  obtain ⟨folded, o, row, hof⟩ := ofModel_eq_ok hm hs.form
  obtain ⟨normal, hnormal, hmodel, hcols⟩ := normal_of_solve h
  have hvars : m.vars <+: s.form.model.vars := hmodel ▸ (hm.normalize hnormal).2
  have hlength : s.assignment.length = s.form.model.vars.length := by
    rw [length_assignment, hcols]
  refine ⟨⟨o, hof.objective, ?_, abs_normalizedObjectiveValue_sub_le hs hof⟩, hlength, fun j => ?_,
    hvars, List.take_prefix _ _, ?_⟩
  · rw [normalizedObjectiveValue_eq_gain hof, objectiveValue_eq hs.model hof.objective]
    unfold Objective.gain
    cases o.direction <;> rfl
  · rw [assignment_getElem?, Solution.snap, magnitude_eq_abs]
  · rw [Solution.givenAssignment, List.length_take, hs.model, hlength]
    exact min_eq_left hvars.length_le

-- One atom is there twice and one variable not at all. The first step takes `y` to its upper bound,
-- the second is a pivot on the row, and the value of `z` is below the tolerance.
theorem objective_values_agree_of_merged :
    ∃ (m : Model ℚ) (s : Solution ℚ) (o : Objective ℚ), m.WellFormed ∧
      Solver.solve {} m = .ok s ∧ m.objective = some o ∧ o.direction = .minimize ∧
      s.tableau.basis.toList.map (·.val) = [3] ∧
      s.tableau.complemented.toList = [false, true, false, false, false, false] ∧
      s.normalizedObjectiveValue = -s.objectiveValue ∧ s.normalizedObjectiveValue = 5 ∧
      s.tableau.objective = 5 - 1 / 2 ^ 31 ∧
      |s.normalizedObjectiveValue - s.tableau.objective| ≤
        eps * ∑ j : Fin s.form.cols, |o.asMaximize.expression.coefficient j| := by
  let x : Variable := ⟨"x", 0⟩
  let y : Variable := ⟨"y", 1⟩
  let z : Variable := ⟨"z", 2⟩
  let w : Variable := ⟨"w", 3⟩
  let u : Variable := ⟨"u", 4⟩
  let m : Model ℚ := ⟨"m", [x, y, z, w, u],
    [⟨.ofTerms [(x, 1)], .ge, 1, none, none⟩, ⟨.ofTerms [(z, 1)], .ge, 1 / 2 ^ 31, none, none⟩,
      ⟨.ofTerms [(y, 1)], .le, 3, none, none⟩,
      ⟨.ofTerms [(x, 1), (y, 1), (w, 1), (u, 1)], .le, 6, none, none⟩],
    some ⟨.ofTerms [(x, 1), (z, 1), (y, -2), (w, -1), (x, 2)], .minimize⟩⟩
  have hm : m.WellFormed := by decide +kernel
  obtain ⟨s, hs, hcheck⟩ : ∃ s, Solver.solve {} m = .ok s ∧
      decide (s.tableau.basis.toList.map (·.val) = [3] ∧
        s.tableau.complemented.toList = [false, true, false, false, false, false] ∧
        s.normalizedObjectiveValue = 5 ∧ s.tableau.objective = 5 - 1 / 2 ^ 31) = true :=
    exists_eq_ok_and (by decide +kernel)
  obtain ⟨hbasis, hturned, hnormalized, hcell⟩ := of_decide_eq_true hcheck
  obtain ⟨⟨o, ho, hsign, hnear⟩, _⟩ := objective_values_agree hm hs
  obtain rfl := Option.some.inj ho
  exact ⟨m, s, _, hm, hs, rfl, rfl, hbasis, hturned, hsign, hnormalized, hcell, hnear⟩

end LinearProgram
