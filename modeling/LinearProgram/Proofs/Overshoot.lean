import LinearProgram.Proofs.Solving
import LinearProgram.Proofs.Tableau.ClearRun

namespace LinearProgram

namespace StandardForm

-- The largest of the artificial variables that are still basic and above zero.
def leftOver (form : StandardForm ℚ) (t : Tableau ℚ form.rows form.cols) : ℚ :=
  largest fun i => if t.basis.get i ∈ form.artificial then t.rhs.get i else 0

-- The budget of the second phase's first tableau, when it is `w` at the end of the first phase.
-- What the artificial variables keep is past their bounds once they are pinned, and the test on
-- their sum lets them keep no more than its tolerance.
def retireDrift (form : StandardForm ℚ) (t : Tableau ℚ form.rows form.cols) (w : ℚ) : ℚ :=
  max w (min (eps * form.scale + form.artificial.length * w) (form.leftOver t))

end StandardForm

namespace Solver

def firstDrift (solver : Solver) (form : StandardForm ℚ) : ℚ :=
  if form.isTrivial then 0 else Tableau.driftFrom solver.maxIterations 0 form.start 0

-- The budget of both phases.
def drift (solver : Solver) (form : StandardForm ℚ) : ℚ :=
  Tableau.driftFrom solver.maxIterations 0 (form.retireArtificials (solver.afterFirst form))
    (form.retireDrift (solver.afterFirst form) (solver.firstDrift form))

-- No step of the two phases uses a tolerance, and the first one drives the artificial variables out
-- altogether.
structure RunsClear (solver : Solver) (form : StandardForm ℚ) : Prop where
  first : form.isTrivial = false → form.start.RunsClear solver.maxIterations 0
  artificial : form.infeasibility (solver.afterFirst form) ≤ 0
  second : (form.retireArtificials (solver.afterFirst form)).RunsClear solver.maxIterations 0

instance (solver : Solver) (form : StandardForm ℚ) : Decidable (solver.RunsClear form) :=
  decidable_of_iff
    ((form.isTrivial = false → form.start.RunsClear solver.maxIterations 0) ∧
      form.infeasibility (solver.afterFirst form) ≤ 0 ∧
      (form.retireArtificials (solver.afterFirst form)).RunsClear solver.maxIterations 0)
    ⟨fun ⟨hf, ha, hs⟩ => ⟨hf, ha, hs⟩, fun h => ⟨h.1, h.2, h.3⟩⟩

end Solver

section Parts

variable {w : ℚ}

theorem le_sum_add {ι : Type} {f : ι → ℚ} {js : List ι} (hf : ∀ j ∈ js, -w ≤ f j) (hw : 0 ≤ w)
    {j : ι} (hj : j ∈ js) : f j ≤ (js.map f).sum + js.length * w := by
  have hsum : ∀ ks : List ι, (∀ k ∈ ks, -w ≤ f k) → -(ks.length * w) ≤ (ks.map f).sum := by
    intro ks hks
    have hle := List.card_nsmul_le_sum (ks.map f) (-w) (by simpa using hks)
    rwa [List.length_map, nsmul_eq_mul, mul_neg] at hle
  obtain ⟨before, after, rfl⟩ := List.append_of_mem hj
  have hbefore := hsum before fun k hk => hf k (by simp [hk])
  have hafter := hsum after fun k hk => hf k (by simp [hk])
  simp only [List.map_append, List.map_cons, List.sum_append, List.sum_cons, List.length_append,
    List.length_cons]
  push_cast
  linarith

theorem scale_pos (form : StandardForm ℚ) : 0 < form.scale := by
  refine List.foldlRecOn form.rhs.toList _ (motive := fun largest : ℚ => 0 < largest) one_pos ?_
  intro largest h b _
  rw [greater_eq_max]
  exact lt_max_of_lt_left h

theorem Tableau.Overshoot.neg_le_level {m n : ℕ} {t : Tableau ℚ m n} (h : t.Overshoot w)
    (hw : 0 ≤ w) (hc : t.Canonical) (j : Fin n) : -w ≤ t.level j := by
  by_cases hj : ∃ i, t.basis.get i = j
  · obtain ⟨i, rfl⟩ := hj
    rw [Tableau.level_basic hc]
    exact (h i).1
  · rw [Tableau.level_nonbasic fun i hi => hj ⟨i, hi⟩]
    linarith

end Parts

section Phases

variable {m : Model ℚ} {form : StandardForm ℚ} {folded : Bounds ℚ m.vars.length} {o : Objective ℚ}
  {row : Fin form.rows → Constraint ℚ} {solver : Solver} {t : Tableau ℚ form.rows form.cols} {w : ℚ}

theorem start_overshoot (hof : form.Of m folded o row) : form.start.Overshoot 0 := by
  intro i
  refine ⟨?_, fun s hs => ?_⟩
  · rw [form.start_rhs, neg_zero]
    exact le_max_right _ _
  · have hnone : form.room (form.start.basis.get i) = none := hof.room_appended (hof.le_basis i)
    rw [form.start_span, hnone] at hs
    exact absurd hs (by simp)

-- A basic artificial variable is no more than what is left of the sum.
theorem artificial_rhs_le (hof : form.Of m folded o row) (hr : form.start.Reaches t)
    (hs : ∀ j, t.span.get j = form.room j) (h : t.Overshoot w) (hw : 0 ≤ w) {i : Fin form.rows}
    (hi : t.basis.get i ∈ form.artificial) :
    t.rhs.get i ≤ form.infeasibility t + form.artificial.length * w := by
  have hkeeps := hr.keeps hof.start_consistent
  have hlower : t.lower = form.lower := hkeeps.lower
  have hfree := not_complemented_of_artificial hof hr hs
  have hvalue : ∀ j ∈ form.artificial, t.value j = t.level j := by
    intro j hj
    have hget : t.value j = t.values.get j := by rw [Tableau.values, Vector.get_ofFn]
    rw [hget, Tableau.values_get, hfree j hj, hlower, hof.lower_appended (hof.le_artificial hj)]
    simp
  have hlow : ∀ j ∈ form.artificial, -w ≤ t.value j := by
    intro j hj
    rw [hvalue j hj]
    exact h.neg_le_level hw hkeeps.consistent.canonical j
  have hle := le_sum_add hlow hw hi
  rw [hvalue _ hi, Tableau.level_basic hkeeps.consistent.canonical] at hle
  unfold StandardForm.infeasibility
  rwa [total_eq_sum]

theorem overshoot_retire (hof : form.Of m folded o row) (hr : form.start.Reaches t)
    (hs : ∀ j, t.span.get j = form.room j) (h : t.Overshoot w) (hw : 0 ≤ w)
    (hsum : form.infeasibility t ≤ eps * form.scale) :
    (form.retireArtificials t).Overshoot (form.retireDrift t w) := by
  have hspan : ∀ j, (form.retireArtificials t).span.get j =
      if j ∈ form.artificial then some 0 else t.span.get j :=
    Tableau.fixColumns_span t form.artificial
  have hkept : w ≤ form.retireDrift t w := le_max_left _ _
  have hpinned : min (eps * form.scale + form.artificial.length * w) (form.leftOver t) ≤
      form.retireDrift t w := le_max_right _ _
  intro i
  obtain ⟨hlow, hhigh⟩ := h i
  refine ⟨?_, fun s hsome => ?_⟩
  · change _ ≤ t.rhs.get i
    linarith
  · change t.rhs.get i ≤ _
    rw [hspan] at hsome
    change (if t.basis.get i ∈ form.artificial then some 0 else _) = some s at hsome
    split_ifs at hsome with hart
    · obtain rfl := Option.some.inj hsome
      have htest := artificial_rhs_le hof hr hs h hw hart
      have hleft : t.rhs.get i ≤ form.leftOver t := by
        have hrow := le_largest
          (fun i => if t.basis.get i ∈ form.artificial then t.rhs.get i else 0) i
        simp only [if_pos hart] at hrow
        exact hrow
      have hboth := le_min (htest.trans (add_le_add_left hsum _)) hleft
      linarith
    · linarith [hhigh s hsome]

-- What both phases come to, whatever the solver makes of their end.
theorem afterFirst_overshoot (hof : form.Of m folded o row) (solver : Solver) :
    0 ≤ solver.firstDrift form ∧
      (solver.afterFirst form).Overshoot (solver.firstDrift form) := by
  unfold Solver.firstDrift Solver.afterFirst
  split_ifs
  · exact ⟨le_rfl, start_overshoot hof⟩
  · exact (start_overshoot hof).runFrom _ _ le_rfl

theorem solve_overshoot {s : Solution ℚ} (hm : m.WellFormed) (h : solver.solve m = .ok s) :
    0 ≤ solver.drift s.form ∧ s.tableau.Overshoot (solver.drift s.form) := by
  obtain ⟨_, hform, hsum, hfinal, _⟩ := solve_eq_ok h
  obtain ⟨folded, o, row, hof⟩ := ofModel_eq_ok hm hform
  obtain ⟨hreaches, hspan⟩ := reaches_afterFirst solver s.form
  obtain ⟨hnonneg, hfirst⟩ := afterFirst_overshoot hof solver
  have hretired := overshoot_retire hof hreaches hspan hfirst hnonneg hsum
  rw [hfinal]
  exact hretired.runFrom _ _ (hnonneg.trans (le_max_left _ _))

-- With nothing past its bounds, artificial variables whose sum is not positive are zero.
theorem retireDrift_eq_zero (hof : form.Of m folded o row) (hr : form.start.Reaches t)
    (hs : ∀ j, t.span.get j = form.room j) (h : t.Overshoot 0) (hsum : form.infeasibility t ≤ 0) :
    form.retireDrift t 0 = 0 := by
  have hleft : form.leftOver t = 0 := by
    refine largest_eq_zero fun i => ?_
    split_ifs with hart
    · have hle := artificial_rhs_le hof hr hs h le_rfl hart
      linarith
    · exact le_rfl
  unfold StandardForm.retireDrift
  rw [hleft]
  exact max_eq_left (min_le_right _ _)

theorem drift_eq_zero_of_runsClear (hof : form.Of m folded o row) (h : solver.RunsClear form) :
    solver.drift form = 0 := by
  obtain ⟨hreaches, hspan⟩ := reaches_afterFirst solver form
  have hzero : solver.firstDrift form = 0 := by
    unfold Solver.firstDrift
    split_ifs with htrivial
    · rfl
    · exact Tableau.driftFrom_eq_zero (start_overshoot hof) (h.first (by simpa using htrivial))
  obtain ⟨_, hfirst⟩ := afterFirst_overshoot hof solver
  rw [hzero] at hfirst
  have hretire := retireDrift_eq_zero hof hreaches hspan hfirst h.artificial
  have hretired := overshoot_retire hof hreaches hspan hfirst le_rfl
    (h.artificial.trans (mul_pos eps_pos (scale_pos form)).le)
  unfold Solver.drift
  rw [hzero, hretire]
  rw [hretire] at hretired
  exact Tableau.driftFrom_eq_zero hretired h.second

end Phases

end LinearProgram
