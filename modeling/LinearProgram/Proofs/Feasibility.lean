import LinearProgram.Proofs.Certificate
import LinearProgram.Proofs.Overshoot

namespace LinearProgram

-- What the constraint may miss when variables are past their bounds by `w`, values are off by
-- `snapped`, and upper bounds are too large by `lifted`. The tolerances of the solver are applied
-- to other quantities than the constraints: a row adds what was clipped off its right-hand side,
-- and a factor within the tolerance is not looked at.
def Constraint.tolerance (c : Constraint ℚ) (w snapped lifted : ℚ) (x : List ℚ) : ℚ :=
  if c.simplify.isPolynomial then
    eps + 2 * w + snapped * c.simplify.expression.weight
  else if eps < c.simplify.expression.weight then
    (w + lifted + snapped) * c.simplify.expression.weight
  else
    eps + |c.expression.evaluate x|

-- The constraints with at most one atom have a common point.
def Model.BoundsMeet (m : Model ℚ) : Prop :=
  ∃ x : List ℚ, (∀ v ∈ x, 0 ≤ v) ∧
    ∀ c ∈ m.constraints, c.simplify.isPolynomial = false → c.Holds x

-- What folding may add to an upper bound that lies below its lower bound.
def Model.Lifts (m : Model ℚ) (lifted : ℚ) : Prop :=
  eps ≤ lifted ∨ 0 ≤ lifted ∧ m.BoundsMeet

-- The largest change that setting small values to zero makes.
def Solution.snapped (s : Solution ℚ) : ℚ :=
  largest fun j => |Solution.snap (s.tableau.values.get j) - s.tableau.values.get j|

section Single

variable {c : Constraint ℚ} (hp : c.isPolynomial = false)

include hp

theorem exists_atom_of_weight (hw : eps < c.expression.weight) :
    ∃ a, c.expression.atoms = [a] ∧ c.expression.weight = |a.factor| := by
  rcases Bounds.atoms_of_not_isPolynomial hp with hnil | ⟨a, ha⟩
  · rw [Expression.weight, hnil] at hw
    exact absurd hw (not_lt.mpr eps_nonneg)
  · exact ⟨a, ha, by simp [Expression.weight, ha]⟩

theorem isConstant_of_weight (hw : c.expression.weight ≤ eps) : c.IsConstant := by
  intro a ha
  rcases Bounds.atoms_of_not_isPolynomial hp with hnil | ⟨b, hb⟩
  · rw [hnil] at ha
    exact absurd ha List.not_mem_nil
  · rw [hb, List.mem_singleton] at ha
    rw [ha]
    simpa [Expression.weight, hb] using hw

theorem valueAt_eq_zero_of_weight (hw : c.expression.weight = 0) (point : ℕ → ℚ) :
    c.expression.valueAt point = 0 := by
  rcases Bounds.atoms_of_not_isPolynomial hp with hnil | ⟨a, ha⟩
  · simp [Expression.valueAt, hnil]
  · have hfactor : a.factor = 0 := by simpa [Expression.weight, ha] using hw
    simp [Expression.valueAt, ha, hfactor]

end Single

theorem Constraint.Limits.mono {c : Constraint ℚ} {t t' : ℚ} {point : ℕ → ℚ}
    (h : c.Limits t point) (hle : t ≤ t') : c.Limits t' point :=
  fun a ha hlarge => (h a ha hlarge).mono (mul_le_mul_of_nonneg_left hle (abs_nonneg _))

section Point

variable {m : Model ℚ} {s : Solution ℚ} {w : ℚ}

-- The point of the tableau lies between the bounds as far as its basic variables do.
theorem Solution.Arises.inside_values (hs : s.Arises m) (hc : s.tableau.Canonical)
    (h : s.tableau.Overshoot w) (hw : 0 ≤ w) :
    s.tableau.Inside w s.tableau.values.get := by
  intro j
  rw [Tableau.coordinate_values]
  refine ⟨h.neg_le_level hw hc j, fun r hr => ?_⟩
  by_cases hj : ∃ i, s.tableau.basis.get i = j
  · obtain ⟨i, rfl⟩ := hj
    rw [Tableau.level_basic hc]
    exact (h i).2 r hr
  · rw [Tableau.level_nonbasic fun i hi => hj ⟨i, hi⟩]
    have hnonneg : 0 ≤ r := by
      rw [hs.span] at hr
      split_ifs at hr
      · exact (Option.some.inj hr).le
      · exact StandardForm.room_nonneg hr
    linarith

theorem abs_snap_sub_le (x : ℚ) : |Solution.snap x - x| ≤ eps := by
  unfold Solution.snap
  rw [magnitude_eq_abs]
  split_ifs with h
  · rw [zero_sub, abs_neg]
    exact h.le
  · rw [sub_self, abs_zero]
    exact eps_nonneg

theorem assignment_getD (s : Solution ℚ) (k : ℕ) :
    s.assignment.getD k 0 =
      StandardForm.spread (fun j => Solution.snap (s.tableau.values.get j)) k := by
  unfold Solution.assignment StandardForm.spread
  split_ifs with h
  · simp [List.getD_eq_getElem?_getD, h]
    rfl
  · simp [List.getD_eq_getElem?_getD, h]

theorem snapped_le_eps (s : Solution ℚ) : s.snapped ≤ eps :=
  largest_le eps_nonneg fun _ => abs_snap_sub_le _

theorem abs_assignment_sub_le (s : Solution ℚ) (k : ℕ) :
    |s.assignment.getD k 0 - StandardForm.spread s.tableau.values.get k| ≤ s.snapped := by
  rw [assignment_getD]
  unfold StandardForm.spread
  split_ifs
  · exact le_largest (fun j => |Solution.snap (s.tableau.values.get j) - s.tableau.values.get j|) _
  · rw [sub_zero, abs_zero]
    exact largest_nonneg _

end Point

section Constraints

variable {m : Model ℚ} {s : Solution ℚ} {folded : Bounds ℚ m.vars.length} {o : Objective ℚ}
  {row : Fin s.form.rows → Constraint ℚ} {w : ℚ}
  (hs : s.Arises m) (hof : s.form.Of m folded o row) (hover : s.tableau.Overshoot w) (hw : 0 ≤ w)

include hs hof hover hw

theorem value_bounds (j : Fin s.form.cols) :
    -w ≤ s.tableau.values.get j - s.form.lower.get j ∧
      (∀ r, s.form.room j = some r → s.tableau.values.get j - s.form.lower.get j ≤ r + w) ∧
      (j ∈ s.form.artificial → |s.tableau.values.get j| ≤ w) := by
  have hkeeps := hs.reaches.keeps hof.start_consistent
  have hinside := hs.inside_values hkeeps.consistent.canonical hover hw
  rw [hkeeps.consistent.inside_iff, show s.tableau.lower = s.form.lower from hkeeps.lower]
    at hinside
  obtain ⟨hlow, hhigh⟩ := hinside j
  refine ⟨hlow, fun r hr => hhigh r ?_, fun hj => ?_⟩
  · by_cases hj : j ∈ s.form.artificial
    · rw [hof.room_appended (hof.le_artificial hj)] at hr
      exact absurd hr (by simp)
    · rw [hs.span, if_neg hj, hr]
  · rw [hof.lower_appended (hof.le_artificial hj), sub_zero] at hlow hhigh
    have hpinned := hhigh 0 (by rw [hs.span, if_pos hj])
    exact abs_le.mpr ⟨hlow, by linarith⟩

-- A row is missed by what was clipped off and what its own columns are past zero.
theorem row_holdsWithin {c : Constraint ℚ} (hc : c ∈ m.simplify.constraints)
    (hp : c.isPolynomial = true) :
    c.relation.HoldsWithin (eps + 2 * w)
      (c.expression.valueAt (StandardForm.spread s.tableau.values.get)) c.bound := by
  have hkeeps := hs.reaches.keeps hof.start_consistent
  have hbounds := value_bounds hs hof hover hw
  obtain ⟨d, hd, k, l, hk, hl, hr⟩ := hof.equalities.exists_row hc hp
  obtain ⟨i, rfl⟩ := hof.encodes.exists_row hd (hr.isPolynomial hp)
  have hrow := hkeeps.represents.values i
  rw [hof.row_sum] at hrow
  have hclip : |(c.oriented folded.lower.toList).bound -
      (row i).expression.valueAt (StandardForm.spread s.tableau.values.get)| ≤ eps := by
    have hgt := hof.rhs_gt i
    have hmax : max (s.form.rhs.get i) 0 - s.form.rhs.get i ≤ eps := by
      rw [sub_le_iff_le_add]
      exact max_le (by linarith [eps_pos]) (by linarith)
    rw [← hr.bound_eq]
    exact abs_le.mpr ⟨by linarith, by linarith [le_max_left (s.form.rhs.get i) 0, eps_pos]⟩
  have hart : ∀ v, (row i).artificial = some v →
      |StandardForm.spread s.tableau.values.get v.index| ≤ w := by
    intro v hv
    have hlt : v.index < s.form.cols := (hr.artificial_index hv).2.trans_le hl
    rw [StandardForm.spread_of_lt _ hlt]
    exact (hbounds _).2.2 ((hof.encodes.artificial _).mpr ⟨i, v, hv, rfl⟩)
  have hown : ∀ j, k ≤ j → j < l → -w ≤ StandardForm.spread s.tableau.values.get j := by
    intro j hkj hjl
    have hlt : j < s.form.cols := hjl.trans_le hl
    have hj := (hbounds ⟨j, hlt⟩).1
    rw [hof.lower_appended (hk.trans hkj), sub_zero] at hj
    rwa [StandardForm.spread_of_lt _ hlt]
  rw [← holdsWithin_oriented c folded.lower.toList, add_comm]
  exact (hr.holdsWithin hw rfl hart hown).of_near_right hclip

-- The bounds are missed by what the variables are past them.
theorem within_folded : folded.Within w (StandardForm.spread s.tableau.values.get) := by
  refine (hof.within_iff w _).mpr fun j _ => ?_
  obtain ⟨hlow, hhigh, _⟩ := value_bounds hs hof hover hw j
  exact ⟨hlow, hhigh⟩

theorem neg_le_assignment {v : ℚ} (hv : v ∈ s.assignment) : -w ≤ v := by
  obtain ⟨x, hx, rfl⟩ := List.mem_map.mp hv
  unfold Solution.snap
  split_ifs
  · linarith
  · obtain ⟨k, hk, rfl⟩ := List.mem_iff_getElem.mp hx
    have hcols : k < s.form.cols := by simpa using hk
    have hj := (value_bounds hs hof hover hw ⟨k, hcols⟩).1
    have hlower : 0 ≤ s.form.lower.get ⟨k, hcols⟩ := by
      rw [hof.lower]
      split_ifs
      · exact hof.summarizes.lower_nonneg _
      · exact le_rfl
    change -w ≤ s.tableau.values.get ⟨k, hcols⟩
    linarith

theorem limits_of_lifts {lifted : ℚ} (hlift : m.Lifts lifted) :
    ∀ c ∈ m.simplify.constraints, c.isPolynomial = false →
      c.Limits (w + lifted) (StandardForm.spread s.tableau.values.get) := by
  intro c hc hp
  have hwithin := within_folded hs hof hover hw
  have hsingle : c ∈ m.simplify.constraints.filter fun c => !c.isPolynomial :=
    List.mem_filter.mpr ⟨hc, by simp [hp]⟩
  rcases hlift with hlarge | ⟨hnonneg, x, hpos, hholds⟩
  · exact (hof.summarizes.limits _ _ hwithin c hsingle).mono (by linarith)
  · have hcommon := limits_of_forall_holds hholds
    exact (hof.summarizes.limits_exactly ⟨_, fun j => getD_nonneg hpos j, hcommon⟩ _ _ hwithin c
      hsingle).mono (by linarith)

-- The three kinds of constraints: rows, bounds of one variable, and those that count as constant.
theorem holdsWithin_tolerance {lifted : ℚ} (hlift : m.Lifts lifted) {c : Constraint ℚ}
    (hc : c ∈ m.constraints) :
    c.relation.HoldsWithin (c.tolerance w s.snapped lifted s.assignment)
      (c.expression.evaluate s.assignment) c.bound := by
  have hmem : c.simplify ∈ m.simplify.constraints := List.mem_map_of_mem hc
  have hvalue : c.expression.evaluate s.assignment =
      c.simplify.expression.valueAt fun k => s.assignment.getD k 0 := by
    rw [Expression.evaluate_eq_valueAt]
    exact (Expression.valueAt_simplify _ _).symm
  have hnear := c.simplify.expression.abs_valueAt_sub_le (abs_assignment_sub_le s)
  unfold Constraint.tolerance
  split_ifs with hp hlarge
  · rw [hvalue]
    exact (row_holdsWithin hs hof hover hw hmem hp).of_near hnear
  · have hsingle : c.simplify.isPolynomial = false := by simpa using hp
    obtain ⟨a, ha, hweight⟩ := exists_atom_of_weight hsingle hlarge
    have hlimit := limits_of_lifts hs hof hover hw hlift _ hmem hsingle a
      (by rw [ha]; exact List.mem_cons_self) (hweight ▸ hlarge)
    have hz : c.simplify.expression.valueAt (StandardForm.spread s.tableau.values.get) =
        a.factor * StandardForm.spread s.tableau.values.get a.var.index := by
      simp [Expression.valueAt, ha]
    rw [hvalue, add_mul, mul_comm (w + lifted), hweight]
    rw [hz, hweight] at hnear
    exact hlimit.of_near hnear
  · have hsingle : c.simplify.isPolynomial = false := by simpa using hp
    have hzero := hof.summarizes.constant _ (List.mem_filter.mpr ⟨hmem, by simp [hsingle]⟩)
      (isConstant_of_weight hsingle (not_lt.mp hlarge))
    exact hzero.of_near (by rw [sub_zero])

end Constraints

-- Neither the model nor the answer leaves anything to a tolerance: no value was so small that it
-- was set to zero, no single factor so small that it was passed over, and the bounds meet.
structure Solution.Exact (s : Solution ℚ) : Prop where
  values : ∀ j, |s.tableau.values.get j| < eps → s.tableau.values.get j = 0
  factors : ∀ c ∈ s.model.constraints, c.simplify.isPolynomial = false →
    c.simplify.expression.weight = 0 ∨ eps < c.simplify.expression.weight
  bounds : s.model.BoundsMeet

section Feasible

variable {m : Model ℚ} {s : Solution ℚ} {folded : Bounds ℚ m.vars.length} {o : Objective ℚ}
  {row : Fin s.form.rows → Constraint ℚ}

theorem snapped_of_exact (h : s.Exact) : s.snapped = 0 := by
  refine largest_eq_zero fun j => ?_
  have hsnap : Solution.snap (s.tableau.values.get j) = s.tableau.values.get j := by
    unfold Solution.snap
    rw [magnitude_eq_abs]
    split_ifs with hsmall
    · exact (h.values j hsmall).symm
    · rfl
  rw [hsnap, sub_self, abs_zero]

theorem tolerance_le_of_exact (hs : s.Arises m) (h : s.Exact) {c : Constraint ℚ}
    (hc : c ∈ m.constraints) (x : List ℚ) : c.tolerance 0 s.snapped 0 x ≤ eps := by
  have heps := eps_pos
  rw [snapped_of_exact h]
  unfold Constraint.tolerance
  split_ifs with hp hlarge
  · linarith
  · linarith
  · have hsingle : c.simplify.isPolynomial = false := by simpa using hp
    have hzero := (h.factors c (by rwa [hs.model]) hsingle).resolve_right hlarge
    have hvalue : c.expression.evaluate x = 0 := by
      rw [← Expression.evaluate_simplify, Expression.evaluate_eq_valueAt]
      exact valueAt_eq_zero_of_weight hsingle hzero _
    rw [hvalue, abs_zero, add_zero]

theorem isFeasible_of_exact (hm : m.WellFormed) (hs : s.Arises m) (hover : s.tableau.Overshoot 0)
    (h : s.Exact) : s.isFeasible = true := by
  obtain ⟨folded, o, row, hof⟩ := ofModel_eq_ok hm hs.form
  have hlift : m.Lifts 0 := .inr ⟨le_rfl, hs.model ▸ h.bounds⟩
  unfold Solution.isFeasible Model.isFeasible
  rw [hs.model]
  simp only [Bool.and_eq_true, decide_eq_true_eq, List.all_eq_true]
  refine ⟨⟨?_, fun v hv => ?_⟩, fun c hc => ?_⟩
  · have hle := hof.equalities.le
    simpa [Solution.assignment] using hle
  · have hlow := neg_le_assignment hs hof hover le_rfl hv
    linarith [eps_pos]
  · refine (relates_iff _ _ _).mpr ?_
    exact (holdsWithin_tolerance hs hof hover le_rfl hlift hc).mono
      (tolerance_le_of_exact hs h hc _)

end Feasible

-- A solution misses a constraint by no more than what was really left to the tolerances. The budget
-- of the run is one number that no basic variable is further past its bounds, and it is zero when
-- no step has used a tolerance.
theorem solve_feasible_within {solver : Solver} {m : Model ℚ} (hm : m.WellFormed) {s : Solution ℚ}
    (h : solver.solve m = .ok s) :
    (∀ w lifted, 0 ≤ w → s.tableau.Overshoot w → m.Lifts lifted →
      (∀ v ∈ s.assignment, -w ≤ v) ∧
      ∀ c ∈ m.constraints,
        c.relation.HoldsWithin (c.tolerance w s.snapped lifted s.assignment)
          (c.expression.evaluate s.assignment) c.bound) ∧
    s.snapped ≤ eps ∧
    0 ≤ solver.drift s.form ∧ s.tableau.Overshoot (solver.drift s.form) ∧
    (solver.RunsClear s.form → solver.drift s.form = 0) ∧
    (solver.drift s.form = 0 → s.Exact → s.isFeasible = true) := by
  have hs := arises_of_solve hm h
  obtain ⟨hnonneg, hover⟩ := solve_overshoot hm h
  obtain ⟨folded, o, row, hof⟩ := ofModel_eq_ok hm hs.form
  refine ⟨fun w lifted hw hpast hlift => ⟨fun v hv => neg_le_assignment hs hof hpast hw hv,
    fun c hc => holdsWithin_tolerance hs hof hpast hw hlift hc⟩, snapped_le_eps s, hnonneg, hover,
    drift_eq_zero_of_runsClear hof, fun hzero => ?_⟩
  exact isFeasible_of_exact hm hs (hzero ▸ hover)

-- Both rows start from artificial variables, which the first phase drives out without a tolerance.
theorem solve_feasible_within_of_equation :
    let v : Variable := ⟨"x", 0⟩
    let w : Variable := ⟨"y", 1⟩
    let m : Model ℚ := {
      vars := [v, w]
      constraints := [⟨⟨[⟨v, 1⟩, ⟨w, 1⟩]⟩, .ge, 2, none, none⟩,
        ⟨⟨[⟨v, 1⟩, ⟨w, -1⟩]⟩, .eq, 1, none, none⟩, ⟨⟨[⟨w, 2⟩]⟩, .le, 6, none, none⟩]
      objective := some ⟨⟨[⟨v, 2⟩, ⟨w, 1⟩]⟩, .minimize⟩ }
    m.WellFormed ∧ ∃ s, Solver.solve ⟨10⟩ m = .ok s ∧ Solver.RunsClear ⟨10⟩ s.form ∧
      Solver.drift ⟨10⟩ s.form = 0 ∧ s.Exact ∧ s.isFeasible = true ∧ ∀ u ∈ s.assignment, 0 ≤ u := by
  intro v w m
  have hm : m.WellFormed := by decide
  obtain ⟨s, hs, hcheck⟩ : ∃ s, Solver.solve ⟨10⟩ m = .ok s ∧
      decide (Solver.RunsClear ⟨10⟩ s.form ∧ ∀ j, |s.tableau.values.get j| < eps →
        s.tableau.values.get j = 0) = true := exists_eq_ok_and (by decide +kernel)
  obtain ⟨hclear, hvalues⟩ := of_decide_eq_true hcheck
  obtain ⟨hwithin, _, _, hover, hdrift, hfeasible⟩ := solve_feasible_within hm hs
  have hzero := hdrift hclear
  have hexact : s.Exact := by
    refine ⟨hvalues, ?_, [0, 0], by decide, ?_⟩
    · rw [(solve_eq_ok hs).1]
      decide +kernel
    · rw [(solve_eq_ok hs).1]
      decide +kernel
  rw [hzero] at hover
  obtain ⟨hentries, _⟩ := hwithin 0 eps le_rfl hover (.inl le_rfl)
  exact ⟨hm, s, hs, hclear, hzero, hexact, hfeasible hzero hexact, fun u hu => by
    simpa using hentries u hu⟩

-- The second factor is within the tolerance and counts as none, so it does not keep `x` at zero.
theorem not_isFeasible_of_small_factor :
    let v : Variable := ⟨"x", 0⟩
    let m : Model ℚ := {
      vars := [v]
      constraints := [⟨⟨[⟨v, 1⟩]⟩, .le, 1000, none, none⟩,
        ⟨⟨[⟨v, 1 / 2 ^ 30⟩]⟩, .le, 0, none, none⟩]
      objective := some ⟨⟨[⟨v, 1⟩]⟩, .maximize⟩ }
    m.WellFormed ∧ ∃ s, Solver.solve ⟨10000⟩ m = .ok s ∧ s.isFeasible = false := by
  intro v m
  have hm : m.WellFormed := by decide
  obtain ⟨s, hs, hcheck⟩ : ∃ s, Solver.solve ⟨10000⟩ m = .ok s ∧ (!s.isFeasible) = true :=
    exists_eq_ok_and (by decide +kernel)
  exact ⟨hm, s, hs, by simpa using hcheck⟩

end LinearProgram
