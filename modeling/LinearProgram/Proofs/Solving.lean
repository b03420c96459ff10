import LinearProgram.Proofs.FirstTableau
import LinearProgram.Solver

namespace LinearProgram

section Ends

variable {α : Type} {m n : ℕ} {solver : Solver} {endless e : Error α}
  {ended : Status × Tableau α m n} {t : Tableau α m n}

theorem endPhase_eq_ok_iff : solver.endPhase endless ended = .ok t ↔ ended = (.optimal, t) := by
  obtain ⟨status, u⟩ := ended
  cases status <;> simp [Solver.endPhase]

theorem endPhase_eq_error_iff :
    solver.endPhase endless ended = .error e ↔
      ended.1 = .unbounded ∧ e = endless ∨
      ended.1 = .iterationLimit ∧ e = .iterationLimit solver.maxIterations := by
  obtain ⟨status, u⟩ := ended
  cases status <;> simp [Solver.endPhase, eq_comm]

end Ends

-- Where the first phase ends when it succeeds.
def Solver.afterFirst (solver : Solver) (form : StandardForm ℚ) :
    Tableau ℚ form.rows form.cols :=
  if form.isTrivial then form.start else (form.start.run solver.maxIterations).2

-- Where a solution comes from and what its tableau is.
structure Solution.Arises (s : Solution ℚ) (m : Model ℚ) : Prop where
  model : s.model = m
  form : StandardForm.ofModel m = .ok s.form
  reaches : s.form.start.Reaches s.tableau
  span : ∀ j, s.tableau.span.get j = if j ∈ s.form.artificial then some 0 else s.form.room j
  costs : s.tableau.costs = s.form.costs
  optimal : ∀ j, s.tableau.canEnter j = false

section Phases

variable {solver : Solver} {form : StandardForm ℚ} {t u : Tableau ℚ form.rows form.cols}
  {e : Error ℚ}

theorem runFirstPhase_eq_ok (h : solver.runFirstPhase form form.start = .ok u) :
    u = solver.afterFirst form := by
  unfold Solver.runFirstPhase at h
  unfold Solver.afterFirst
  split_ifs at h ⊢
  · exact (Except.ok.inj h).symm
  · rw [endPhase_eq_ok_iff.mp h]

theorem runSecondPhase_eq_ok (h : solver.runSecondPhase form t = .ok u) :
    u = (t.run solver.maxIterations).2 ∧ (t.run solver.maxIterations).1 = .optimal := by
  have hrun := endPhase_eq_ok_iff.mp h
  exact ⟨(congrArg Prod.snd hrun).symm, congrArg Prod.fst hrun⟩

theorem secondTableau_eq_ok (h : form.secondTableau t = .ok u) :
    form.infeasibility t ≤ eps * form.scale ∧ u = form.retireArtificials t := by
  unfold StandardForm.secondTableau at h
  simp only at h
  split_ifs at h with hs
  exact ⟨not_lt.mp hs, (Except.ok.inj h).symm⟩

theorem secondTableau_eq_error (h : form.secondTableau t = .error e) :
    eps * form.scale < form.infeasibility t ∧
      e = .infeasible (.positiveArtificials (form.infeasibility t)) := by
  unfold StandardForm.secondTableau at h
  simp only at h
  split_ifs at h with hs
  exact ⟨hs, (Except.error.inj h).symm⟩

end Phases

-- The parts of a solve that gives a solution.
theorem solve_eq_ok {solver : Solver} {m : Model ℚ} {s : Solution ℚ}
    (h : solver.solve m = .ok s) :
    s.model = m ∧ StandardForm.ofModel m = .ok s.form ∧
      s.form.infeasibility (solver.afterFirst s.form) ≤ eps * s.form.scale ∧
      s.tableau =
        ((s.form.retireArtificials (solver.afterFirst s.form)).run solver.maxIterations).2 ∧
      ((s.form.retireArtificials (solver.afterFirst s.form)).run solver.maxIterations).1 =
        .optimal := by
  obtain ⟨form, hform, h⟩ := bind_eq_ok.mp h
  obtain ⟨first, hfirst, h⟩ := bind_eq_ok.mp h
  obtain ⟨t, ht, h⟩ := bind_eq_ok.mp h
  obtain ⟨second, hsecond, h⟩ := bind_eq_ok.mp h
  obtain ⟨final, hfinal, h⟩ := bind_eq_ok.mp h
  obtain rfl := Except.ok.inj h
  obtain rfl : first = form.start := Tableau.eq_start_of_start? hfirst
  obtain rfl := runFirstPhase_eq_ok ht
  obtain ⟨hsum, rfl⟩ := secondTableau_eq_ok hsecond
  obtain ⟨rfl, hoptimal⟩ := runSecondPhase_eq_ok hfinal
  exact ⟨rfl, hform, hsum, rfl, hoptimal⟩

section Run

variable {m : Model ℚ} {form : StandardForm ℚ} {folded : Bounds ℚ m.vars.length} {o : Objective ℚ}
  {row : Fin form.rows → Constraint ℚ} {solver : Solver} {t : Tableau ℚ form.rows form.cols}

theorem reaches_afterFirst (solver : Solver) (form : StandardForm ℚ) :
    form.start.Reaches (solver.afterFirst form) ∧
      ∀ j, (solver.afterFirst form).span.get j = form.room j := by
  unfold Solver.afterFirst
  split_ifs
  · exact ⟨.refl, form.start_span⟩
  · refine ⟨Tableau.Reaches.refl.runFrom _ _, fun j => ?_⟩
    rw [Tableau.run, Tableau.runFrom_span, form.start_span]

-- An artificial column has no upper bound before it is pinned, so it is not measured from there.
theorem not_complemented_of_artificial (hof : form.Of m folded o row)
    (hr : form.start.Reaches t) (hs : ∀ j, t.span.get j = form.room j) :
    ∀ j ∈ form.artificial, t.complemented.get j = false := by
  intro j hj
  have hconsistent := (hr.keeps hof.start_consistent).consistent
  by_contra hc
  obtain ⟨s, hspan⟩ := hconsistent.bounded j (by simpa using hc)
  rw [hs, hof.room_appended (hof.le_artificial hj)] at hspan
  exact absurd hspan (by simp)

-- Pinning the artificial variables is one of the operations on the way to the second phase.
theorem reaches_retired (hof : form.Of m folded o row) (solver : Solver) :
    form.start.Reaches (form.retireArtificials (solver.afterFirst form)) ∧
      ∀ j, (form.retireArtificials (solver.afterFirst form)).span.get j =
        if j ∈ form.artificial then some 0 else form.room j := by
  obtain ⟨hreaches, hspan⟩ := reaches_afterFirst solver form
  have hfree := not_complemented_of_artificial hof hreaches hspan
  refine ⟨(hreaches.fixColumns _ hfree).setCosts _, fun j => ?_⟩
  rw [← hspan j]
  exact Tableau.fixColumns_span _ _ _

theorem arises_of_solve {s : Solution ℚ} (hm : m.WellFormed) (h : solver.solve m = .ok s) :
    s.Arises m := by
  obtain ⟨hmodel, hform, _, hfinal, hoptimal⟩ := solve_eq_ok h
  obtain ⟨folded, o, row, hof⟩ := ofModel_eq_ok hm hform
  obtain ⟨hreaches, hspan⟩ := reaches_retired hof solver
  refine ⟨hmodel, hform, ?_, fun j => ?_, ?_, fun j => ?_⟩
  · rw [hfinal]
    exact hreaches.runFrom _ _
  · rw [hfinal, Tableau.run, Tableau.runFrom_span, hspan j]
  · rw [hfinal, Tableau.run, Tableau.runFrom_costs]
    rfl
  · rw [hfinal]
    exact Tableau.canEnter_of_runFrom_optimal _ _ _ hoptimal j

end Run

end LinearProgram
