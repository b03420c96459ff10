import LinearProgram.Proofs.Outcomes
import LinearProgram.Proofs.Tableau.Course

namespace LinearProgram

namespace Tableau

variable {m n : ℕ} {t : Tableau ℚ m n} {q : Fin n}

section Endless

variable (h : t.Endless q) (hc : t.Consistent)

include h

theorem Endless.isBasic_eq_false : t.isBasic q = false :=
  ((t.canEnter_iff q).mp h.enters).2.2

include hc

theorem Endless.ray_self : t.ray q q = 1 := by
  have hcomplemented : t.complemented.get q = false := by
    by_contra hq
    obtain ⟨s, hs⟩ := hc.bounded q (by simpa using hq)
    rw [h.span] at hs
    exact absurd hs (by simp)
  rw [ray, if_neg (by simp [hcomplemented]), course_self h.isBasic_eq_false]

-- A basic column without an upper bound may rise as it likes. One with an upper bound would have
-- ended the movement unless its entry counts as zero.
theorem Endless.ray_bounds (j : Fin n) :
    -eps ≤ t.ray q j ∧ ((∃ s, t.span.get j = some s) → t.ray q j ≤ eps) := by
  have heps := eps_pos
  by_cases hj : ∃ i, t.basis.get i = j
  · obtain ⟨i, rfl⟩ := hj
    obtain ⟨hhigh, hnone⟩ := t.limit?_eq_none.mp (h.rows i)
    have hlow : (∃ s, t.span.get (t.basis.get i) = some s) → -eps ≤ t.entry i q := by
      rintro ⟨s, hs⟩
      by_contra hlt
      rw [hnone (not_le.mp hlt)] at hs
      exact absurd hs (by simp)
    rw [ray, course_basic hc.canonical h.isBasic_eq_false, neg_neg]
    split_ifs with hcomplemented
    · exact ⟨hlow (hc.bounded _ hcomplemented), fun _ => hhigh⟩
    · exact ⟨by linarith, fun hs => by linarith [hlow hs]⟩
  · by_cases hne : j = q
    · subst hne
      rw [h.ray_self hc]
      refine ⟨by linarith, ?_⟩
      rintro ⟨s, hs⟩
      rw [h.span] at hs
      exact absurd hs (by simp)
    · rw [ray, course_nonbasic (fun i hi => hj ⟨i, hi⟩) hne, neg_zero, ite_self]
      exact ⟨by linarith, fun _ => heps.le⟩

end Endless

end Tableau

-- A direction of the standard form in which the objective grows by more than the tolerance. It
-- leads nowhere below zero, and not above it where there is an upper bound, up to the tolerance.
structure StandardForm.Ray (form : StandardForm ℚ) (r : Fin form.cols → ℚ) : Prop where
  rows : ∀ i, ∑ j, (form.matrix.get i).get j * r j = 0
  gain : eps < ∑ j, form.costs.get j * r j
  unlimited : ∃ j, r j = 1 ∧ form.upper.get j = none ∧ j ∉ form.artificial
  low : ∀ j, -eps ≤ r j
  high : ∀ j, form.upper.get j ≠ none ∨ j ∈ form.artificial → r j ≤ eps

section Solve

variable {m : Model ℚ} {form : StandardForm ℚ} {folded : Bounds ℚ m.vars.length} {o : Objective ℚ}
  {row : Fin form.rows → Constraint ℚ} {solver : Solver} {t : Tableau ℚ form.rows form.cols}
  {q : Fin form.cols}

theorem StandardForm.room_eq_none (form : StandardForm ℚ) (j : Fin form.cols) :
    form.room j = none ↔ form.upper.get j = none := by
  unfold room
  cases form.upper.get j with
  | none => simp [spanOf_none]
  | some u => simp [spanOf_some]

theorem StandardForm.Of.ray (hof : form.Of m folded o row) (hreaches : form.start.Reaches t)
    (hspan : ∀ j, t.span.get j = if j ∈ form.artificial then some 0 else form.room j)
    (hcosts : t.costs = form.costs) (h : t.Endless q) : form.Ray (t.ray q) := by
  have hkeeps := hreaches.keeps hof.start_consistent
  have hpriced := hreaches.priced hof.start_consistent hof.start_priced
  have hcanonical := hkeeps.consistent.canonical
  have hbounds := h.ray_bounds hkeeps.consistent
  refine ⟨fun i => ?_, ?_, ⟨q, h.ray_self hkeeps.consistent, ?_⟩, fun j => (hbounds j).1,
    fun j hj => (hbounds j).2 ?_⟩
  · have hvalues := (hkeeps.solutions _).mp (Tableau.values_residual hcanonical) i
    have hmoved := (hkeeps.solutions fun j => t.values.get j + t.ray q j).mp (fun i =>
      (Tableau.residual_add_ray hcanonical _ i).trans (Tableau.values_residual hcanonical i)) i
    have hvalues := (Tableau.start_residual _ i).symm.trans hvalues
    have hmoved := (Tableau.start_residual _ i).symm.trans hmoved
    simp only [add_sub_right_comm, mul_add, Finset.sum_add_distrib] at hmoved
    linarith
  · rw [← hcosts, Tableau.sum_costs_mul_ray hcanonical hpriced h.isBasic_eq_false]
    exact ((t.canEnter_iff q).mp h.enters).1
  · have hq := h.span
    rw [hspan] at hq
    split_ifs at hq with hart
    exact ⟨(form.room_eq_none q).mp hq, hart⟩
  · rw [hspan]
    split_ifs with hart
    · exact ⟨0, rfl⟩
    · have hsome : form.room j ≠ none := fun hnone =>
        (hj.resolve_right hart) ((form.room_eq_none j).mp hnone)
      exact Option.ne_none_iff_exists'.mp hsome

theorem StandardForm.ofModel_ne_unbounded : StandardForm.ofModel m ≠ .error .unbounded := by
  intro h
  cases hvalid : m.validate with
  | ok o =>
    obtain ⟨reason, hreason⟩ := ofModel_eq_error hvalid h
    exact absurd hreason (by simp)
  | error e =>
    have he : ofModel m = .error e := bind_eq_error.mpr (Or.inl (bind_eq_error.mpr (Or.inl hvalid)))
    obtain rfl := Except.error.inj (h.symm.trans he)
    rcases validate_eq_error hvalid with he | he <;> exact absurd he (by simp)

-- Only the second phase finds a model unbounded.
theorem solve_eq_unbounded (hm : m.WellFormed) (h : solver.solve m = .error .unbounded) :
    ∃ form first vertex second, StandardForm.ofModel m = .ok form ∧
      form.firstTableau = .ok first ∧ solver.runFirstPhase form first = .ok vertex ∧
      form.secondTableau vertex = .ok second ∧
      (second.run solver.maxIterations).1 = .unbounded := by
  cases Solver.fails_of_solve hm h with
  | form hform => exact absurd hform StandardForm.ofModel_ne_unbounded
  | firstPhase _ _ hfirst =>
    rcases Solver.runFirstPhase_eq_error hfirst with he | ⟨he, _⟩ <;> exact absurd he (by simp)
  | retire _ _ _ hsecond => exact absurd (secondTableau_eq_error hsecond).2 (by simp)
  | @secondPhase form vertex second hform hstart hfirst hsecond hfinal =>
    rcases Solver.runSecondPhase_eq_error hfinal with he | ⟨_, hrun⟩
    · exact absurd he (by simp)
    · exact ⟨form, form.start, vertex, second, hform, hstart, hfirst, hsecond, hrun⟩

end Solve

-- The last of the second phase's steps is the one that finds the direction, and it leaves its
-- tableau as it was.
theorem solve_unbounded_ray {solver : Solver} {m : Model ℚ} (hm : m.WellFormed)
    (h : solver.solve m = .error .unbounded) :
    ∃ form, StandardForm.ofModel m = .ok form ∧ (∃ r, form.Ray r) ∧
      ∃ first vertex second, form.firstTableau = .ok first ∧
        solver.runFirstPhase form first = .ok vertex ∧ form.secondTableau vertex = .ok second ∧
        ∃ k < solver.maxIterations, ∃ stalled last, second.Goes k 0 stalled last ∧
          last.iterate (stallLimit ≤ stalled) = (.unbounded, last) ∧
          second.run solver.maxIterations = (.unbounded, last) := by
  obtain ⟨form, first, vertex, second, hform, hfirst, hvertex, hsecond, hrun⟩ :=
    solve_eq_unbounded hm h
  obtain ⟨folded, o, row, hof⟩ := ofModel_eq_ok hm hform
  obtain ⟨k, hk, stalled, q, hgoes, hlast, hq⟩ :=
    Tableau.exists_endless_of_runFrom solver.maxIterations 0 second hrun
  refine ⟨form, hform, ⟨(second.run solver.maxIterations).2.ray q, ?_⟩, first, vertex, second,
    hfirst, hvertex, hsecond, k, hk, stalled, _, hgoes, hlast, Prod.ext hrun rfl⟩
  obtain rfl := Except.ok.inj (hof.firstTableau_eq.symm.trans hfirst)
  obtain rfl := runFirstPhase_eq_ok hvertex
  obtain ⟨_, rfl⟩ := secondTableau_eq_ok hsecond
  obtain ⟨hreaches, hspan⟩ := reaches_retired hof solver
  refine hof.ray (hreaches.runFrom _ _) (fun j => ?_) (Tableau.runFrom_costs _ _ _) hq
  rw [Tableau.run, Tableau.runFrom_span, hspan]

-- Both phases run, and `z` is at its upper bound when `y` turns out to have no limit.
theorem solve_unbounded_ray_past_upper_bound :
    let v : Variable := ⟨"x", 0⟩
    let w : Variable := ⟨"y", 1⟩
    let u : Variable := ⟨"z", 2⟩
    let m : Model ℚ := {
      vars := [v, w, u]
      constraints := [⟨⟨[⟨v, 1⟩, ⟨w, -1⟩]⟩, .le, 1, none, none⟩,
        ⟨⟨[⟨v, 1⟩, ⟨u, 1⟩]⟩, .ge, 2, none, none⟩, ⟨⟨[⟨u, 1⟩]⟩, .le, 3, none, none⟩]
      objective := some ⟨⟨[⟨v, 1⟩, ⟨u, 5⟩]⟩, .maximize⟩ }
    m.WellFormed ∧ Solver.solve ⟨10⟩ m = .error .unbounded ∧
      ∃ form r, StandardForm.ofModel m = .ok form ∧ form.Ray r := by
  intro v w u m
  have hm : m.WellFormed := by decide
  have hsolve : Solver.solve ⟨10⟩ m = .error .unbounded := by
    obtain ⟨e, he, hcheck⟩ : ∃ e, Solver.solve ⟨10⟩ m = .error e ∧
        (match e with | .unbounded => true | _ => false) = true :=
      exists_eq_error_and (by decide +kernel)
    cases e with
    | unbounded => exact he
    | _ => exact absurd hcheck (by simp)
  obtain ⟨form, hform, ⟨r, hr⟩, _⟩ := solve_unbounded_ray hm hsolve
  exact ⟨hm, hsolve, form, r, hform, hr⟩

end LinearProgram
