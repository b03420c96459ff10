import LinearProgram.Proofs.Acceptance
import LinearProgram.Proofs.Operations
import LinearProgram.Proofs.Solving
import LinearProgram.Proofs.Search.Visits
import LinearProgram.Proofs.Tableau.RatioTest

namespace LinearProgram

namespace StandardForm

variable {m : Model ℚ} {form : StandardForm ℚ} {folded : Bounds ℚ m.vars.length} {o : Objective ℚ}
  {row : Fin form.rows → Constraint ℚ} {t : Tableau ℚ form.rows form.cols} {q : Fin form.cols}
  {solver : Solver}

-- Each unit of column `q` takes more than the tolerance off the sum of the artificial variables,
-- though no more than the tolerance off any of them, so that no row ends its movement.
structure Thin (form : StandardForm ℚ) (t : Tableau ℚ form.rows form.cols) (q : Fin form.cols) :
    Prop where
  span : t.span.get q = none
  entries : ∀ i, t.entry i q ≤ eps
  sum : eps < ∑ i with t.basis.get i ∈ form.artificial, t.entry i q

section FirstPhase

-- The costs of the first phase count the artificial variables.
theorem firstCosts_get (form : StandardForm ℚ) (j : Fin form.cols) :
    form.firstCosts.get j = if j ∈ form.artificial then -1 else 0 := by
  simp [firstCosts]

theorem first_signedCost (hcosts : t.costs = form.firstCosts)
    (hfree : ∀ j ∈ form.artificial, t.complemented.get j = false) (j : Fin form.cols) :
    t.signedCost j = if j ∈ form.artificial then -1 else 0 := by
  unfold Tableau.signedCost
  rw [hcosts, firstCosts_get]
  by_cases hj : j ∈ form.artificial
  · simp [hj, hfree j hj]
  · simp [hj]

theorem first_price (hcosts : t.costs = form.firstCosts)
    (hfree : ∀ j ∈ form.artificial, t.complemented.get j = false) (q : Fin form.cols) :
    t.price q = (if q ∈ form.artificial then -1 else 0) +
      ∑ i with t.basis.get i ∈ form.artificial, t.entry i q := by
  unfold Tableau.price
  simp only [first_signedCost hcosts hfree, ite_mul, neg_one_mul, zero_mul]
  rw [← Finset.sum_filter, Finset.sum_neg_distrib, sub_neg_eq_add]

theorem thin_of_endless (hcosts : t.costs = form.firstCosts) (hpriced : t.Priced)
    (hfree : ∀ j ∈ form.artificial, t.complemented.get j = false) (h : t.Endless q) :
    form.Thin t q := by
  refine ⟨h.span, fun i => (t.limit?_eq_none.mp (h.rows i)).1, ?_⟩
  have hprice := ((t.canEnter_iff q).mp h.enters).1
  rw [hpriced.reduced, first_price hcosts hfree] at hprice
  have hown : (if q ∈ form.artificial then (-1 : ℚ) else 0) ≤ 0 := by
    split_ifs <;> norm_num
  linarith

-- One row alone cannot make up the sum.
theorem Thin.one_lt_card (h : form.Thin t q) :
    1 < (Finset.univ.filter fun i => t.basis.get i ∈ form.artificial).card := by
  by_contra hle
  have hbound := Finset.sum_le_card_nsmul
    (Finset.univ.filter fun i => t.basis.get i ∈ form.artificial) (fun i => t.entry i q) eps
    fun i _ => h.entries i
  have hone : ((Finset.univ.filter fun i => t.basis.get i ∈ form.artificial).card : ℚ) ≤ 1 := by
    exact_mod_cast not_lt.mp hle
  have hmul := mul_le_mul_of_nonneg_right hone eps_nonneg
  rw [nsmul_eq_mul] at hbound
  linarith [h.sum]

theorem Thin.one_lt_length (h : form.Thin t q) (hinj : Function.Injective t.basis.get) :
    1 < form.artificial.length := by
  have hsub : (Finset.univ.filter fun i => t.basis.get i ∈ form.artificial).image t.basis.get ⊆
      form.artificial.toFinset := by
    intro j hj
    obtain ⟨i, hi, rfl⟩ := Finset.mem_image.mp hj
    exact List.mem_toFinset.mpr (Finset.mem_filter.mp hi).2
  have hle := (Finset.card_le_card hsub).trans (List.toFinset_card_le _)
  rw [Finset.card_image_of_injective _ hinj] at hle
  exact h.one_lt_card.trans_le hle

theorem afterFirst_costs (solver : Solver) (form : StandardForm ℚ) :
    (solver.afterFirst form).costs = form.firstCosts := by
  unfold Solver.afterFirst
  split_ifs
  · rfl
  · exact Tableau.runFrom_costs _ _ _

theorem Of.thin_afterFirst (hof : form.Of m folded o row)
    (h : (solver.afterFirst form).Endless q) :
    1 < form.artificial.length ∧ form.Thin (solver.afterFirst form) q := by
  obtain ⟨hreaches, hspan⟩ := reaches_afterFirst solver form
  have hpriced := hreaches.priced hof.start_consistent hof.start_priced
  have hfree := not_complemented_of_artificial hof hreaches hspan
  have hthin := thin_of_endless (afterFirst_costs solver form) hpriced hfree h
  exact ⟨hthin.one_lt_length (hreaches.keeps hof.start_consistent).consistent.canonical.injective,
    hthin⟩

end FirstPhase

end StandardForm

namespace Solver

-- The first phase of the model ends at a thin column.
def EndsThin (solver : Solver) (m : Model ℚ) : Prop :=
  ∃ form q, StandardForm.ofModel m = .ok form ∧ 1 < form.artificial.length ∧
    form.Thin (solver.afterFirst form) q

-- The stage at which a solve fails, after the stages before it have succeeded.
inductive Fails (solver : Solver) (m : Model ℚ) (e : Error ℚ) : Prop
  | form (h : StandardForm.ofModel m = .error e)
  | firstPhase {form : StandardForm ℚ} (hform : StandardForm.ofModel m = .ok form)
      (hstart : form.firstTableau = .ok form.start)
      (h : solver.runFirstPhase form form.start = .error e)
  | retire {form : StandardForm ℚ} {t : Tableau ℚ form.rows form.cols}
      (hform : StandardForm.ofModel m = .ok form) (hstart : form.firstTableau = .ok form.start)
      (hfirst : solver.runFirstPhase form form.start = .ok t) (h : form.secondTableau t = .error e)
  | secondPhase {form : StandardForm ℚ} {t second : Tableau ℚ form.rows form.cols}
      (hform : StandardForm.ofModel m = .ok form) (hstart : form.firstTableau = .ok form.start)
      (hfirst : solver.runFirstPhase form form.start = .ok t)
      (hsecond : form.secondTableau t = .ok second)
      (h : solver.runSecondPhase form second = .error e)

section Errors

variable {solver : Solver} {m : Model ℚ} {form : StandardForm ℚ} {o : Objective ℚ} {e : Error ℚ}
  {t : Tableau ℚ form.rows form.cols}

theorem runFirstPhase_eq_error (h : solver.runFirstPhase form form.start = .error e) :
    e = .iterationLimit solver.maxIterations ∨
      e = .unboundedFirstPhase ∧ ∃ q, (solver.afterFirst form).Endless q := by
  unfold runFirstPhase at h
  unfold afterFirst
  split_ifs at h ⊢
  rcases endPhase_eq_error_iff.mp h with ⟨hrun, he⟩ | ⟨_, he⟩
  · obtain ⟨_, _, _, q, _, _, hq⟩ := Tableau.exists_endless_of_runFrom _ _ _ hrun
    exact Or.inr ⟨he, q, hq⟩
  · exact Or.inl he

theorem runSecondPhase_eq_error (h : solver.runSecondPhase form t = .error e) :
    e = .iterationLimit solver.maxIterations ∨
      e = .unbounded ∧ (t.run solver.maxIterations).1 = .unbounded := by
  rcases endPhase_eq_error_iff.mp h with ⟨hrun, he⟩ | ⟨_, he⟩
  · exact Or.inr ⟨he, hrun⟩
  · exact Or.inl he

theorem fails_of_solve (hm : m.WellFormed) (h : solver.solve m = .error e) :
    solver.Fails m e := by
  rcases bind_eq_error.mp h with hform | ⟨form, hform, h⟩
  · exact .form hform
  obtain ⟨folded, _, row, hof⟩ := ofModel_eq_ok hm hform
  rcases bind_eq_error.mp h with hstart | ⟨first, hstart, h⟩
  · rw [hof.firstTableau_eq] at hstart
    exact absurd hstart (by simp)
  obtain rfl := Except.ok.inj (hof.firstTableau_eq.symm.trans hstart)
  rcases bind_eq_error.mp h with hfirst | ⟨t, hfirst, h⟩
  · exact .firstPhase hform hstart hfirst
  rcases bind_eq_error.mp h with hsecond | ⟨second, hsecond, h⟩
  · exact .retire hform hstart hfirst hsecond
  rcases bind_eq_error.mp h with hfinal | ⟨final, _, h⟩
  · exact .secondPhase hform hstart hfirst hsecond hfinal
  · exact absurd h (by simp [pure, Except.pure])

theorem solve_eq_error (hm : m.WellFormed) (ho : m.validate = .ok o)
    (h : solver.solve m = .error e) :
    e.isSolveOutcome = true ∨ e = .unboundedFirstPhase ∧ solver.EndsThin m := by
  cases fails_of_solve hm h with
  | form hform =>
    obtain ⟨reason, rfl⟩ := StandardForm.ofModel_eq_error ho hform
    exact Or.inl rfl
  | @firstPhase form hform _ hfirst =>
    obtain ⟨folded, _, row, hof⟩ := ofModel_eq_ok hm hform
    rcases runFirstPhase_eq_error hfirst with rfl | ⟨he, q, hq⟩
    · exact Or.inl rfl
    · exact Or.inr ⟨he, form, q, hform, hof.thin_afterFirst hq⟩
  | retire _ _ _ hsecond =>
    obtain ⟨_, rfl⟩ := secondTableau_eq_error hsecond
    exact Or.inl rfl
  | secondPhase _ _ _ _ hfinal =>
    rcases runSecondPhase_eq_error hfinal with rfl | ⟨rfl, _⟩ <;> exact Or.inl rfl

end Errors

end Solver

section Search

variable {m node : Model ℚ} {o : Objective ℚ} {v : Variable} {value : ℚ} {s : Solution ℚ}
  {solver : Solver} {e : Error ℚ}

-- A branch has the variables and the objective of its node.
theorem Search.Visits.valid (h : Search.Visits solver.solve m node) (hm : m.WellFormed)
    (ho : m.validate = .ok o) : node.WellFormed ∧ node.validate = .ok o := by
  refine h.of_forall_nodes (P := fun node => node.WellFormed ∧ node.validate = .ok o) ⟨hm, ho⟩ ?_
  rintro node parts s v value ⟨hw, hvalid⟩ hsplits part hpart
  refine ⟨wellFormed_of_mem_branches hsplits.branches hw hpart, ?_⟩
  obtain ⟨bounds, rfl⟩ := narrows_of_mem_branches hsplits.branches (.refl node) hpart
  exact hvalid

theorem Search.visit_simplex_eq_error {search : Search ℚ} {rest : List (Model ℚ)}
    (hm : m.WellFormed) (ho : m.validate = .ok o)
    (h : search.visit solver.solve m rest = .error e) :
    e = .unboundedFirstPhase ∧ solver.EndsThin m := by
  rcases visit_eq_error h with ⟨hsolve, hno⟩ | ⟨s, v, value, hs, hf, hbranches⟩
  · refine (Solver.solve_eq_error hm ho hsolve).resolve_left fun hyes => ?_
    rw [hno] at hyes
    exact absurd hyes (by decide)
  · obtain ⟨parts, hparts⟩ := exists_branches (fractional?_eq_some hm (solve_eq_ok hs).1 hf).1 value
    rw [hparts] at hbranches
    exact absurd hbranches (by simp)

end Search

theorem error_is_outcome_or_thin {m : Model ℚ} (hm : m.WellFormed) :
    (∀ (solver : Solver) o e, m.validate = .ok o → solver.solve m = .error e →
      e.isSolveOutcome = true ∨ e = .unboundedFirstPhase ∧ solver.EndsThin m) ∧
    ∀ (solver : BranchAndBound) e, solver.search m = .error e →
      m.validate = .error e ∨ e = .unboundedFirstPhase ∧
        ∃ node, Search.Visits solver.simplex.solve m node ∧ solver.simplex.EndsThin node := by
  refine ⟨fun solver o e ho h => Solver.solve_eq_error hm ho h, fun solver e h => ?_⟩
  rcases bind_eq_error.mp h with hvalid | ⟨o, ho, hrun⟩
  · exact Or.inl hvalid
  · obtain ⟨node, last, rest, hvisits, hvisit⟩ := Search.Reaches.start.run_eq_error hrun
    obtain ⟨hw, hnode⟩ := hvisits.valid hm ho
    obtain ⟨he, hthin⟩ := Search.visit_simplex_eq_error hw hnode hvisit
    exact Or.inr ⟨he, node, hvisits, hthin⟩

-- Two rows that start from artificial variables. The factor of `x` counts as zero in each of them,
-- and the sum of the two factors does not.
def thinModel : Model ℚ :=
  let v : Variable := ⟨"x", 0⟩
  let e : Expression ℚ := ⟨[⟨v, 3 / 2 ^ 32⟩, ⟨⟨"y", 1⟩, -1⟩]⟩
  { name := "m"
    vars := [v, ⟨"y", 1⟩]
    constraints := [⟨e, .eq, 1, none, none⟩, ⟨e, .eq, 2, none, none⟩]
    objective := some ⟨⟨[⟨v, 1⟩]⟩, .maximize⟩ }

theorem error_is_outcome_or_thin_of_small_factors :
    thinModel.WellFormed ∧ Solver.solve ⟨10000⟩ thinModel = .error .unboundedFirstPhase ∧
      Solver.EndsThin ⟨10000⟩ thinModel ∧
      ∃ node, Search.Visits (Solver.solve ⟨10000⟩) thinModel node ∧
        Solver.EndsThin ⟨10000⟩ node := by
  have hm : thinModel.WellFormed := by decide
  obtain ⟨o, ho⟩ : ∃ o, thinModel.validate = .ok o := ⟨_, rfl⟩
  obtain ⟨e, hsolve, hno⟩ : ∃ e, Solver.solve ⟨10000⟩ thinModel = .error e ∧
      (!e.isSolveOutcome) = true := exists_eq_error_and (by decide +kernel)
  obtain ⟨e', hsearch, _⟩ : ∃ e, BranchAndBound.search ⟨.longest, ⟨10000⟩⟩ thinModel = .error e ∧
      (!e.isSolveOutcome) = true := exists_eq_error_and (by decide +kernel)
  obtain ⟨hsolves, hsearches⟩ := error_is_outcome_or_thin hm
  obtain ⟨rfl, hthin⟩ := (hsolves ⟨10000⟩ o e ho hsolve).resolve_left (by simpa using hno)
  obtain ⟨_, hnode⟩ := (hsearches ⟨.longest, ⟨10000⟩⟩ e' hsearch).resolve_left (by simp [ho])
  exact ⟨hm, hsolve, hthin, hnode⟩

-- The two equations exclude each other, so the outcome of a solve is that there is no point, and a
-- search ends without a solution. Neither of them gives an outcome.
theorem not_isSolveOutcome_of_small_factors :
    thinModel.Obtained ∧ (∃ o, thinModel.validate = .ok o) ∧ (∀ x, ¬thinModel.Admits x) ∧
      (∃ e, Solver.solve ⟨10000⟩ thinModel = .error e ∧ e.isSolveOutcome = false) ∧
      ∃ e, BranchAndBound.search ⟨.longest, ⟨10000⟩⟩ thinModel = .error e := by
  let v : Variable := ⟨"x", 0⟩
  let e : Expression ℚ := ⟨[⟨v, 3 / 2 ^ 32⟩, ⟨⟨"y", 1⟩, -1⟩]⟩
  have hcalls : thinModel = ({ name := "m" } : Model ℚ).performAll [
      .createVariable "x", .createVariable "y", .addConstraint e .eq 1, .addConstraint e .eq 2,
      .maximize ⟨[⟨v, 1⟩]⟩] := rfl
  have hobtained : thinModel.Obtained := hcalls ▸ (Model.Obtained.empty "m").performAll _
  have hnone : ∀ x, ¬thinModel.Admits x := by
    intro x hx
    have hfirst : e.evaluate x = 1 := hx.holds _ List.mem_cons_self
    have hsecond : e.evaluate x = 2 := hx.holds _ (List.mem_cons_of_mem _ List.mem_cons_self)
    exact absurd (hfirst.symm.trans hsecond) (by norm_num)
  obtain ⟨error, hsolve, hno⟩ : ∃ e, Solver.solve ⟨10000⟩ thinModel = .error e ∧
      (!e.isSolveOutcome) = true := exists_eq_error_and (by decide +kernel)
  obtain ⟨error', hsearch, _⟩ : ∃ e, BranchAndBound.search ⟨.longest, ⟨10000⟩⟩ thinModel = .error e ∧
      (!e.isSolveOutcome) = true := exists_eq_error_and (by decide +kernel)
  exact ⟨hobtained, ⟨_, rfl⟩, hnone, ⟨error, hsolve, by simpa using hno⟩, error', hsearch⟩

end LinearProgram
