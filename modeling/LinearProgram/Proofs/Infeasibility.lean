import LinearProgram.Proofs.Certificate
import LinearProgram.Proofs.Outcomes

namespace LinearProgram

namespace StandardForm

variable {m : Model ℚ} {form : StandardForm ℚ} {folded : Bounds ℚ m.vars.length} {o : Objective ℚ}
  {row : Fin form.rows → Constraint ℚ} {t : Tableau ℚ form.rows form.cols} {solver : Solver}
  {x : List ℚ} {target : Fin form.rows → ℚ} {z : Fin form.cols → ℚ}

section Scale

theorem isGreatest_foldl_greater (bs : List ℚ) (largest : ℚ) :
    IsGreatest (insert largest {v | ∃ b ∈ bs, v = |b|})
      (bs.foldl (fun largest b => greater largest (magnitude b)) largest) := by
  induction bs generalizing largest with
  | nil => simp [IsGreatest, upperBounds]
  | cons b rest ih =>
    obtain ⟨hmem, hupper⟩ := ih (greater largest (magnitude b))
    have hle := hupper (Set.mem_insert _ _)
    rw [List.foldl_cons]
    rw [greater_eq_max, magnitude_eq_abs] at hmem hupper hle ⊢
    refine ⟨?_, ?_⟩
    · rcases hmem with heq | ⟨c, hc, heq⟩
      · rw [heq]
        rcases max_choice largest |b| with hmax | hmax
        · rw [hmax]
          exact Set.mem_insert _ _
        · rw [hmax]
          exact Or.inr ⟨b, List.mem_cons_self, rfl⟩
      · exact Or.inr ⟨c, List.mem_cons_of_mem _ hc, heq⟩
    · rintro v (rfl | ⟨c, hc, rfl⟩)
      · exact (le_max_left _ _).trans hle
      · rcases List.mem_cons.mp hc with rfl | hrest
        · exact (le_max_right _ _).trans hle
        · exact hupper (Or.inr ⟨c, hrest, rfl⟩)

-- The scale of the tolerance is one or the largest right-hand side.
theorem isGreatest_scale (form : StandardForm ℚ) :
    IsGreatest (insert 1 (Set.range fun i => |form.rhs.get i|)) form.scale := by
  have hrange : (Set.range fun i => |form.rhs.get i|) = {v | ∃ b ∈ form.rhs.toList, v = |b|} := by
    ext v
    constructor
    · rintro ⟨i, rfl⟩
      exact ⟨_, Vector.mem_toList_iff.mpr (Vector.getElem_mem i.isLt), rfl⟩
    · rintro ⟨b, hb, rfl⟩
      obtain ⟨i, hi, rfl⟩ := Vector.mem_iff_getElem.mp (Vector.mem_toList_iff.mp hb)
      exact ⟨⟨i, hi⟩, rfl⟩
  rw [hrange]
  exact isGreatest_foldl_greater form.rhs.toList 1

end Scale

section Artificial

-- A row starts from its artificial variable, and no two rows start from the same column.
theorem Of.artificial_nodup (hof : form.Of m folded o row) (h : ofModel m = .ok form) :
    form.artificial.Nodup := by
  have hbasis : ∀ i j, ((row i).artificial.bind fun v => v.column? form.cols) = some j →
      form.basis.get i = j := by
    intro i j hj
    obtain ⟨v, hv, hvj⟩ := Option.bind_eq_some_iff.mp hj
    obtain ⟨u, hu, hui⟩ := hof.encodes.basis i
    rw [hv] at hu
    obtain rfl := Option.some.inj hu
    exact Fin.ext (hui.symm.trans (column?_eq_some.mp hvj))
  have hinjective : Function.Injective form.basis.get := hof.start_consistent.canonical.injective
  obtain ⟨normal, _, hform⟩ := bind_eq_ok.mp h
  rw [ofNormal_artificial hform, ← hof.encodes.rows, List.Nodup, List.pairwise_filterMap,
    List.pairwise_ofFn]
  intro i k hik j hj l hl hjl
  have heq : form.basis.get i = form.basis.get k := by
    rw [hbasis i j hj, hbasis k l hl, hjl]
  exact hik.ne (hinjective heq)

theorem infeasibility_eq_sum (hnodup : form.artificial.Nodup) (t : Tableau ℚ form.rows form.cols) :
    form.infeasibility t = ∑ j with j ∈ form.artificial, t.values.get j := by
  have hset : (Finset.univ.filter fun j => j ∈ form.artificial) = form.artificial.toFinset := by
    ext j
    simp
  have hvalues : t.values.get = t.value := by
    funext j
    rw [Tableau.values, Vector.get_ofFn]
  rw [infeasibility, total_eq_sum, hset, hvalues, List.sum_toFinset _ hnodup]

-- The first phase earns nothing at a point without artificial variables, and its objective is what
-- the artificial variables still cost.
theorem infeasibility_eq_neg_objective (hnodup : form.artificial.Nodup)
    (hcosts : t.costs = form.firstCosts) (hpriced : t.Priced) :
    form.infeasibility t = -t.objective := by
  rw [infeasibility_eq_sum hnodup, hpriced.objective, hcosts, Finset.sum_filter,
    ← Finset.sum_neg_distrib]
  refine Finset.sum_congr rfl fun j _ => ?_
  rw [firstCosts, Vector.get_ofFn]
  by_cases hj : j ∈ form.artificial <;> simp [hj]

theorem Completes.firstCost_eq_zero (hz : form.Completes target x z) :
    ∑ j, form.firstCosts.get j * z j = 0 := by
  refine Finset.sum_eq_zero fun j _ => ?_
  rw [firstCosts, Vector.get_ofFn]
  by_cases hj : j ∈ form.artificial
  · rw [hz.artificial j hj, mul_zero]
  · simp [hj]

end Artificial

section FirstPhase

-- The completed point spends nothing on the artificial variables.
theorem Of.infeasibility_le (hof : form.Of m folded o row) (hnodup : form.artificial.Nodup)
    (hreaches : form.start.Reaches t) (hspan : ∀ j, t.span.get j = form.room j)
    (hcosts : t.costs = form.firstCosts) (hopt : ∀ j, t.canEnter j = false)
    (hpos : ∀ v ∈ x, 0 ≤ v) (hholds : ∀ c ∈ m.constraints, c.Holds x)
    (hz : form.Completes form.clipped x z) :
    form.infeasibility t ≤ ∑ j with t.isBasic j = false,
      if t.isMovable j then eps * t.coordinate z j
      else max 0 (t.reduced.get j) * (t.span.get j).getD 0 := by
  have hkeeps := hreaches.keeps hof.start_consistent
  have hpriced := hreaches.priced hof.start_consistent hof.start_priced
  have hrows : ∀ i, t.residual z i = 0 := by
    refine (hkeeps.solutions z).mpr fun i => ?_
    exact (Tableau.start_residual z i).trans (sub_eq_zero.mpr (hz.rows i))
  have hbound := Tableau.cost_le_objective_add hkeeps.consistent.canonical hpriced hopt hrows
    (hof.inside hreaches (fun j => Or.inl (hspan j)) hpos hholds hz)
  rw [hcosts, hz.firstCost_eq_zero] at hbound
  rw [infeasibility_eq_neg_objective hnodup hcosts hpriced]
  linarith

theorem Of.isMovable_artificial (hof : form.Of m folded o row)
    (hspan : ∀ j, t.span.get j = form.room j) {j : Fin form.cols} (hj : j ∈ form.artificial) :
    t.isMovable j = true := by
  by_contra hmove
  obtain ⟨s, hs, _⟩ := (t.isMovable_eq_false j).mp (by simpa using hmove)
  rw [hspan, hof.room_appended (hof.le_artificial hj)] at hs
  exact absurd hs (by simp)

end FirstPhase

end StandardForm

-- A first phase that leaves artificial variables above zero has ended with no column to enter.
theorem canEnter_of_secondTableau_eq_error {solver : Solver} {form : StandardForm ℚ}
    {t : Tableau ℚ form.rows form.cols} {e : Error ℚ}
    (hrun : solver.runFirstPhase form form.start = .ok t)
    (h : form.secondTableau t = .error e) (j : Fin form.cols) : t.canEnter j = false := by
  unfold Solver.runFirstPhase at hrun
  split_ifs at hrun with htrivial
  · obtain ⟨hlt, _⟩ := secondTableau_eq_error h
    have hempty : form.artificial = [] := List.isEmpty_iff.mp htrivial
    have hzero : form.infeasibility t = 0 := by
      rw [StandardForm.infeasibility, hempty]
      rfl
    have hscale : 1 ≤ form.scale := form.isGreatest_scale.2 (Set.mem_insert _ _)
    rw [hzero] at hlt
    exact absurd hlt (not_lt.mpr (mul_nonneg eps_nonneg (by linarith)))
  · have hends := endPhase_eq_ok_iff.mp hrun
    have hopt := Tableau.canEnter_of_runFrom_optimal solver.maxIterations 0 form.start
      (congrArg Prod.fst hends) j
    rw [Tableau.run] at hends
    rwa [hends] at hopt

-- `z` is the feasible point with the slack and surplus that make the rows of the first tableau
-- hold. When every column can still move, a point that the verdict overlooks is far from the vertex
-- where the first phase has ended.
theorem infeasible_certificate {solver : Solver} {m : Model ℚ} (hm : m.WellFormed)
    {form : StandardForm ℚ} (hform : StandardForm.ofModel m = .ok form)
    {first t : Tableau ℚ form.rows form.cols} (hfirst : form.firstTableau = .ok first)
    (hrun : solver.runFirstPhase form first = .ok t) {reason : Infeasibility ℚ}
    (h : form.secondTableau t = .error (.infeasible reason)) {x : List ℚ} (hpos : ∀ v ∈ x, 0 ≤ v)
    (hholds : ∀ c ∈ m.constraints, c.Holds x) :
    IsGreatest (insert 1 (Set.range fun i => |form.rhs.get i|)) form.scale ∧
      ∃ z, form.Completes form.clipped x z ∧
        (∀ w, form.Completes form.clipped x w → w = z) ∧
        (∀ j, 0 ≤ t.coordinate z j) ∧
        eps * form.scale < form.infeasibility t ∧
        form.infeasibility t ≤
          eps * ∑ j with t.isBasic j = false ∧ t.isMovable j = true, t.coordinate z j +
          ∑ j with t.isBasic j = false ∧ t.isMovable j = false ∧ j ∉ form.artificial,
            max 0 (t.reduced.get j) * (t.span.get j).getD 0 ∧
        ((∀ j, t.isBasic j = false → t.isMovable j = true) →
          form.scale < ∑ j with t.isBasic j = false, t.coordinate z j) := by
  obtain ⟨folded, o, row, hof⟩ := ofModel_eq_ok hm hform
  obtain rfl := Except.ok.inj (hof.firstTableau_eq.symm.trans hfirst)
  have hopt := canEnter_of_secondTableau_eq_error hrun h
  obtain ⟨hreaches, hspan⟩ := reaches_afterFirst solver form
  obtain rfl := runFirstPhase_eq_ok hrun
  obtain ⟨hlt, _⟩ := secondTableau_eq_error h
  obtain ⟨z, hz⟩ := hof.exists_clipped_completion fun c hc _ => hholds c hc
  have hinside := hof.inside hreaches (fun j => Or.inl (hspan j)) hpos hholds hz
  have hbound := hof.infeasibility_le (hof.artificial_nodup hform) hreaches hspan
    (StandardForm.afterFirst_costs solver form) hopt hpos hholds hz
  rw [Finset.sum_ite, Finset.filter_filter, Finset.filter_filter, ← Finset.mul_sum] at hbound
  refine ⟨form.isGreatest_scale, z, hz, fun w hw => hw.unique hof hz,
    fun j => by simpa using (hinside j).1, hlt, ?_, fun hmove => ?_⟩
  · -- the artificial columns have no upper bound yet
    refine hbound.trans (le_of_eq (congrArg _ (Finset.sum_congr ?_ fun _ _ => rfl)))
    refine Finset.filter_congr fun j _ => and_congr_right fun _ => ?_
    refine ⟨fun hmove => ⟨by simpa using hmove, fun hart => hmove ?_⟩, fun hj => by simp [hj.1]⟩
    exact hof.isMovable_artificial hspan hart
  · have hnone : (Finset.univ.filter fun j => (solver.afterFirst form).isBasic j = false ∧
        ¬(solver.afterFirst form).isMovable j = true) = ∅ := by
      refine Finset.filter_eq_empty_iff.mpr fun j _ hj => hj.2 (hmove j hj.1)
    have hall : (Finset.univ.filter fun j => (solver.afterFirst form).isBasic j = false ∧
        (solver.afterFirst form).isMovable j = true) =
        Finset.univ.filter fun j => (solver.afterFirst form).isBasic j = false :=
      Finset.filter_congr fun j _ => and_iff_left_of_imp (hmove j)
    rw [hnone, hall, Finset.sum_empty, add_zero] at hbound
    exact lt_of_mul_lt_mul_left (hlt.trans_le hbound) eps_nonneg

-- Only the second row is left when the first phase ends: the factor of `x` is too small for it to
-- enter, and the room of `w` too small for it to move.
theorem infeasible_certificate_of_small_factor :
    let v : Variable := ⟨"x", 0⟩
    let w : Variable := ⟨"w", 1⟩
    let u : Variable := ⟨"y", 2⟩
    let m : Model ℚ := {
      vars := [v, w, u]
      constraints := [⟨⟨[⟨u, 1⟩, ⟨w, 1⟩]⟩, .ge, 2, none, none⟩,
        ⟨⟨[⟨v, 1 / 2 ^ 31⟩, ⟨w, 1⟩]⟩, .eq, 1, none, none⟩,
        ⟨⟨[⟨w, 1⟩]⟩, .le, 1 / 2 ^ 31, none, none⟩, ⟨⟨[⟨u, 1⟩]⟩, .le, 3, none, none⟩]
      objective := some ⟨⟨[⟨v, 1⟩]⟩, .maximize⟩ }
    m.WellFormed ∧ (∀ c ∈ m.constraints, c.Holds [2 ^ 31, 0, 2]) ∧
      ∃ form first t z, StandardForm.ofModel m = .ok form ∧ form.firstTableau = .ok first ∧
        Solver.runFirstPhase ⟨10⟩ form first = .ok t ∧
        (∃ reason, form.secondTableau t = .error (.infeasible reason)) ∧
        form.Completes form.clipped [2 ^ 31, 0, 2] z ∧
        form.infeasibility t ≤
          eps * ∑ j with t.isBasic j = false ∧ t.isMovable j = true, t.coordinate z j +
          ∑ j with t.isBasic j = false ∧ t.isMovable j = false ∧ j ∉ form.artificial,
            max 0 (t.reduced.get j) * (t.span.get j).getD 0 := by
  intro v w u m
  have hm : m.WellFormed := by decide
  have hholds : ∀ c ∈ m.constraints, c.Holds [2 ^ 31, 0, 2] := by decide +kernel
  obtain ⟨e, hsolve, hcheck⟩ : ∃ e, Solver.solve ⟨10⟩ m = .error e ∧
      (match e with
        | .unboundedFirstPhase | .unbounded | .iterationLimit _ => false
        | _ => true) = true :=
    exists_eq_error_and (by decide +kernel)
  obtain ⟨form, hform⟩ : ∃ form, StandardForm.ofModel m = .ok form :=
    exists_eq_ok (by decide +kernel)
  cases Solver.fails_of_solve hm hsolve with
  | form herror => exact absurd (hform.symm.trans herror) (by simp)
  | firstPhase _ _ herror =>
    rcases Solver.runFirstPhase_eq_error herror with rfl | ⟨rfl, _⟩ <;>
      exact absurd hcheck (by decide)
  | secondPhase _ _ _ _ herror =>
    rcases Solver.runSecondPhase_eq_error herror with rfl | ⟨rfl, _⟩ <;>
      exact absurd hcheck (by decide)
  | @retire form t hform hfirst hrun herror =>
    obtain ⟨_, rfl⟩ := secondTableau_eq_error herror
    obtain ⟨_, z, hz, _, _, _, hbound, _⟩ :=
      infeasible_certificate hm hform hfirst hrun herror (x := [2 ^ 31, 0, 2]) (by decide) hholds
    exact ⟨hm, hholds, form, form.start, t, z, hform, hfirst, hrun, ⟨_, herror⟩, hz, hbound⟩

end LinearProgram
