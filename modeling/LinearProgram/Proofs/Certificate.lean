import LinearProgram.Proofs.Solving

namespace LinearProgram

namespace Tableau

variable {m n : ℕ} {t : Tableau ℚ m n}

-- At an optimum each nonbasic column earns at most what the tolerance or its span lets it earn.
theorem reduced_mul_coordinate_le (hopt : ∀ j, t.canEnter j = false) {z : Fin n → ℚ}
    (hz : t.Inside 0 z) {j : Fin n} (hj : t.isBasic j = false) :
    t.reduced.get j * t.coordinate z j ≤
      if t.isMovable j then eps * t.coordinate z j
      else max 0 (t.reduced.get j) * (t.span.get j).getD 0 := by
  obtain ⟨hlow, hhigh⟩ := hz j
  rw [neg_zero] at hlow
  split_ifs with hmove
  · have hprice : t.reduced.get j ≤ eps := by
      by_contra hlt
      have henter := (t.canEnter_iff j).mpr ⟨not_le.mp hlt, hmove, hj⟩
      rw [hopt j] at henter
      exact absurd henter (by decide)
    exact mul_le_mul_of_nonneg_right hprice hlow
  · obtain ⟨s, hs, _⟩ := (t.isMovable_eq_false j).mp (by simpa using hmove)
    have hle : t.coordinate z j ≤ s := by simpa using hhigh s hs
    rw [hs, Option.getD_some]
    calc t.reduced.get j * t.coordinate z j
        ≤ max 0 (t.reduced.get j) * t.coordinate z j :=
          mul_le_mul_of_nonneg_right (le_max_right _ _) hlow
      _ ≤ max 0 (t.reduced.get j) * s :=
          mul_le_mul_of_nonneg_left hle (le_max_left _ _)

theorem cost_le_objective_add (hcanonical : t.Canonical) (hpriced : t.Priced)
    (hopt : ∀ j, t.canEnter j = false) {z : Fin n → ℚ} (hrows : ∀ i, t.residual z i = 0)
    (hz : t.Inside 0 z) :
    ∑ j, t.costs.get j * z j ≤ t.objective + ∑ j with t.isBasic j = false,
      if t.isMovable j then eps * t.coordinate z j
      else max 0 (t.reduced.get j) * (t.span.get j).getD 0 := by
  rw [cost_eq_objective_add hcanonical hpriced hrows]
  have hsum : ∑ j with t.isBasic j = false, t.reduced.get j * t.coordinate z j ≤
      ∑ j with t.isBasic j = false, if t.isMovable j then eps * t.coordinate z j
        else max 0 (t.reduced.get j) * (t.span.get j).getD 0 :=
    Finset.sum_le_sum fun j hj =>
      reduced_mul_coordinate_le hopt hz (Finset.mem_filter.mp hj).2
  linarith

end Tableau

section Certificate

variable {m : Model ℚ} {folded : Bounds ℚ m.vars.length} {o : Objective ℚ} {x : List ℚ}

theorem limits_of_holds {c : Constraint ℚ} (hp : c.isPolynomial = false) (h : c.Holds x) :
    c.Limits 0 fun k => x.getD k 0 := by
  intro a ha _
  rw [mul_zero, Relation.holdsWithin_zero]
  have hat := (c.holds_iff_holdsAt x).mp h
  unfold Constraint.HoldsAt Expression.valueAt at hat
  rcases Bounds.atoms_of_not_isPolynomial hp with hnil | ⟨b, hb⟩
  · rw [hnil] at ha
    exact absurd ha List.not_mem_nil
  · rw [hb, List.mem_singleton] at ha
    rw [ha]
    simpa [hb] using hat

theorem getD_nonneg (hpos : ∀ v ∈ x, 0 ≤ v) (k : ℕ) : 0 ≤ x.getD k 0 := by
  rw [List.getD_eq_getElem?_getD]
  cases hget : x[k]? with
  | none => exact le_rfl
  | some v => exact hpos v (List.mem_of_getElem? hget)

-- A point that satisfies the constraints with at most one atom is within their bounds.
theorem limits_of_forall_holds
    (hholds : ∀ c ∈ m.constraints, c.simplify.isPolynomial = false → c.Holds x) :
    ∀ c ∈ m.simplify.constraints.filter fun c => !c.isPolynomial,
      c.Limits 0 fun k => x.getD k 0 := by
  intro c hc
  obtain ⟨hmem, hp⟩ := List.mem_filter.mp hc
  obtain ⟨b, hb, rfl⟩ := List.mem_map.mp hmem
  have hsingle : b.simplify.isPolynomial = false := by simpa using hp
  exact limits_of_holds hsingle ((b.holds_simplify x).mpr (hholds b hb hsingle))

-- The completion of a feasible point is within the bounds of every column.
theorem inside_start_of_holds {form : StandardForm ℚ} {row : Fin form.rows → Constraint ℚ}
    (hof : form.Of m folded o row) (hpos : ∀ v ∈ x, 0 ≤ v)
    (hholds : ∀ c ∈ m.constraints, c.Holds x) {target : Fin form.rows → ℚ}
    {z : Fin form.cols → ℚ} (hz : form.Completes target x z) (j : Fin form.cols) :
    0 ≤ z j - form.lower.get j ∧ ∀ s, form.room j = some s → z j - form.lower.get j ≤ s := by
  by_cases hj : j.val < m.vars.length
  · have hwithin : folded.Within 0 (StandardForm.spread z) := by
      refine hof.summarizes.admits 0 _ (fun k => ?_) fun c hc a ha hlarge => ?_
      · rw [hz.spread_given hof k.isLt, neg_zero]
        exact getD_nonneg hpos k
      · have hlt := hof.wellFormed.simplify_index_lt c (List.mem_filter.mp hc).1 a ha
        rw [hz.spread_given hof hlt]
        exact limits_of_forall_holds (fun b hb _ => hholds b hb) c hc a ha hlarge
    simpa using (hof.within_iff 0 z).mp hwithin j hj
  · rw [hof.lower_appended (not_lt.mp hj), hof.room_appended (not_lt.mp hj), sub_zero]
    exact ⟨hz.appended j (hof.given ▸ not_lt.mp hj), fun s hs => absurd hs (by simp)⟩

-- Every tableau on the way keeps the point, whose artificial columns are zero: they may be pinned.
theorem StandardForm.Of.inside {form : StandardForm ℚ} {row : Fin form.rows → Constraint ℚ}
    {t : Tableau ℚ form.rows form.cols} (hof : form.Of m folded o row)
    (hreaches : form.start.Reaches t)
    (hspan : ∀ j, t.span.get j = form.room j ∨ j ∈ form.artificial ∧ t.span.get j = some 0)
    (hpos : ∀ v ∈ x, 0 ≤ v) (hholds : ∀ c ∈ m.constraints, c.Holds x)
    {target : Fin form.rows → ℚ} {z : Fin form.cols → ℚ} (hz : form.Completes target x z) :
    t.Inside 0 z := by
  have hkeeps := hreaches.keeps hof.start_consistent
  have hlower : t.lower = form.lower := hkeeps.lower
  rw [hkeeps.consistent.inside_iff, hlower]
  intro j
  obtain ⟨hlow, hhigh⟩ := inside_start_of_holds hof hpos hholds hz j
  refine ⟨by simpa using hlow, fun u hu => ?_⟩
  rcases hspan j with hroom | ⟨hj, hpinned⟩
  · rw [hroom] at hu
    simpa using hhigh u hu
  · rw [hpinned] at hu
    obtain rfl := Option.some.inj hu
    rw [hz.artificial j hj, hof.lower_appended (hof.le_artificial hj)]
    norm_num

theorem Solution.Arises.inside {s : Solution ℚ} (hs : s.Arises m)
    {row : Fin s.form.rows → Constraint ℚ} (hof : s.form.Of m folded o row)
    (hpos : ∀ v ∈ x, 0 ≤ v) (hholds : ∀ c ∈ m.constraints, c.Holds x)
    {target : Fin s.form.rows → ℚ} {z : Fin s.form.cols → ℚ} (hz : s.form.Completes target x z) :
    s.tableau.Inside 0 z := by
  refine hof.inside hs.reaches (fun j => ?_) hpos hholds hz
  rw [hs.span]
  split_ifs with hj
  · exact Or.inr ⟨hj, rfl⟩
  · exact Or.inl rfl

end Certificate

-- `z` is the point with the slack and surplus that make the rows of the first tableau hold. How far
-- a column may still move is its distance from the bound that it is measured from.
theorem solve_certificate {solver : Solver} {m : Model ℚ} (hm : m.WellFormed) {s : Solution ℚ}
    (h : solver.solve m = .ok s) {x : List ℚ} (hpos : ∀ v ∈ x, 0 ≤ v)
    (hholds : ∀ c ∈ m.constraints, c.Holds x) :
    ∃ z, s.form.Completes s.form.clipped x z ∧
      (∀ w, s.form.Completes s.form.clipped x w → w = z) ∧
      (∀ j, 0 ≤ s.tableau.coordinate z j) ∧
      ∃ o, m.objective = some o ∧ o.gain x ≤ s.tableau.objective +
        eps * ∑ j with s.tableau.isBasic j = false ∧ s.tableau.isMovable j = true,
          s.tableau.coordinate z j +
        ∑ j with s.tableau.isBasic j = false ∧ s.tableau.isMovable j = false ∧
          j ∉ s.form.artificial,
          max 0 (s.tableau.reduced.get j) * (s.tableau.span.get j).getD 0 := by
  have hs := arises_of_solve hm h
  obtain ⟨folded, o, row, hof⟩ := ofModel_eq_ok hm hs.form
  obtain ⟨z, hz⟩ := hof.exists_clipped_completion fun c hc _ => hholds c hc
  have hkeeps := hs.reaches.keeps hof.start_consistent
  have hpriced := hs.reaches.priced hof.start_consistent hof.start_priced
  have hinside := hs.inside hof hpos hholds hz
  have hrows : ∀ i, s.tableau.residual z i = 0 := by
    refine (hkeeps.solutions z).mpr fun i => ?_
    exact (Tableau.start_residual z i).trans (sub_eq_zero.mpr (hz.rows i))
  refine ⟨z, hz, fun w hw => hw.unique hof hz, fun j => by simpa using (hinside j).1, o,
    hof.objective, ?_⟩
  have hbound := Tableau.cost_le_objective_add hkeeps.consistent.canonical hpriced hs.optimal
    hrows hinside
  rw [hs.costs, hz.cost_eq_gain hof] at hbound
  rw [add_assoc]
  refine hbound.trans (le_of_eq (congrArg _ ?_))
  -- a pinned column has no room to earn anything
  have hpinned : ∀ j ∈ s.form.artificial, (s.tableau.span.get j).getD 0 = 0 := by
    intro j hj
    rw [hs.span, if_pos hj]
    rfl
  rw [Finset.sum_ite, Finset.filter_filter, Finset.filter_filter, ← Finset.mul_sum]
  refine congrArg _ (Finset.sum_subset (fun j hj => ?_) fun j hj hnot => ?_).symm
  · have hj := (Finset.mem_filter.mp hj).2
    exact Finset.mem_filter.mpr ⟨Finset.mem_univ j, hj.1, by simp [hj.2.1]⟩
  · have hj := (Finset.mem_filter.mp hj).2
    have hart : j ∈ s.form.artificial := by
      by_contra hn
      exact hnot (Finset.mem_filter.mpr ⟨Finset.mem_univ j, hj.1, by simpa using hj.2, hn⟩)
    rw [hpinned j hart, mul_zero]

-- The second row starts from an artificial variable, so both phases run.
theorem solve_certificate_of_two_phases :
    let v : Variable := ⟨"x", 0⟩
    let w : Variable := ⟨"y", 1⟩
    let m : Model ℚ := {
      vars := [v, w]
      constraints := [⟨⟨[⟨v, 1⟩, ⟨w, 1⟩]⟩, .le, 4, none, none⟩,
        ⟨⟨[⟨v, 1⟩, ⟨w, 2⟩]⟩, .ge, 2, none, none⟩, ⟨⟨[⟨v, 1⟩]⟩, .le, 3, none, none⟩]
      objective := some ⟨⟨[⟨v, 3⟩, ⟨w, 2⟩]⟩, .maximize⟩ }
    m.WellFormed ∧ ∃ s z, Solver.solve ⟨10⟩ m = .ok s ∧
      s.form.Completes s.form.clipped [3, 1] z ∧ 11 ≤ s.tableau.objective +
        eps * ∑ j with s.tableau.isBasic j = false ∧ s.tableau.isMovable j = true,
          s.tableau.coordinate z j +
        ∑ j with s.tableau.isBasic j = false ∧ s.tableau.isMovable j = false ∧
          j ∉ s.form.artificial,
          max 0 (s.tableau.reduced.get j) * (s.tableau.span.get j).getD 0 := by
  intro v w m
  have hm : m.WellFormed := by decide
  obtain ⟨s, hs⟩ : ∃ s, Solver.solve ⟨10⟩ m = .ok s := exists_eq_ok (by decide +kernel)
  obtain ⟨z, hz, _, _, o, ho, hbound⟩ :=
    solve_certificate hm hs (x := [3, 1]) (by decide) (by decide +kernel)
  obtain rfl := Option.some.inj ho
  have hgain : (11 : ℚ) = Objective.gain ⟨⟨[⟨v, 3⟩, ⟨w, 2⟩]⟩, .maximize⟩ [3, 1] := by
    decide +kernel
  exact ⟨hm, s, z, hs, hz, hgain ▸ hbound⟩

end LinearProgram
