import LinearProgram.Proofs.StandardForm

namespace LinearProgram

-- The objective as a quantity to be made large.
def Objective.gain (o : Objective ℚ) (x : List ℚ) : ℚ :=
  match o.direction with
  | .maximize => o.evaluate x
  | .minimize => -o.evaluate x

theorem Objective.valueAt_asMaximize (o : Objective ℚ) (x : List ℚ) :
    o.simplify.asMaximize.expression.valueAt (fun k => x.getD k 0) = o.gain x := by
  unfold Objective.gain Objective.asMaximize Objective.simplify Objective.evaluate
  rw [Expression.evaluate_eq_valueAt]
  cases o.direction <;> simp

theorem coefficient_asMaximize (o : Objective ℚ) (k : ℕ) :
    o.simplify.asMaximize.expression.coefficient k = o.asMaximize.expression.coefficient k := by
  unfold Expression.coefficient Objective.asMaximize Objective.simplify
  cases o.direction <;> simp

theorem Objective.index_lt_asMaximize {o : Objective ℚ} {n : ℕ}
    (ho : ∀ a ∈ o.expression.atoms, a.var.index < n) :
    ∀ a ∈ o.simplify.asMaximize.expression.atoms, a.var.index < n := by
  have hs : ∀ a ∈ o.expression.simplify.atoms, a.var.index < n := by
    intro a ha
    obtain ⟨b, hb, he⟩ := Expression.var_mem_simplify _ a ha
    rw [he]
    exact ho b hb
  unfold Objective.asMaximize
  split
  · exact hs
  · intro a ha
    obtain ⟨b, hb, rfl⟩ := List.mem_map.mp ha
    exact hs b hb

namespace StandardForm

section Completion

variable {m : Model ℚ} {form : StandardForm ℚ} {folded : Bounds ℚ m.vars.length} {o : Objective ℚ}
  {row : Fin form.rows → Constraint ℚ} {target : Fin form.rows → ℚ} {x : List ℚ}
  {z : Fin form.cols → ℚ}

theorem Completes.valueAt_spread (hz : form.Completes target x z) (hof : form.Of m folded o row)
    {e : Expression ℚ} (he : ∀ a ∈ e.atoms, a.var.index < m.vars.length) :
    e.valueAt (spread z) = e.valueAt fun k => x.getD k 0 :=
  Expression.valueAt_congr e fun a ha => hz.spread_given hof (he a ha)

-- The costs look at the given columns alone.
theorem Completes.cost_eq_gain (hz : form.Completes target x z) (hof : form.Of m folded o row) :
    ∑ j, form.costs.get j * z j = o.gain x := by
  have ho : ∀ a ∈ o.simplify.asMaximize.expression.atoms, a.var.index < m.vars.length :=
    Objective.index_lt_asMaximize fun a ha =>
      Model.index_lt_of_owns (hof.wellFormed.objective o hof.objective a ha)
  simp only [hof.encodes.costs _ hof.normalObjective]
  rw [sum_eq_valueAt_spread fun a ha => (ho a ha).trans_le hof.equalities.le,
    hz.valueAt_spread hof ho, Objective.valueAt_asMaximize]

-- A completed row is its constraint.
theorem Completes.holds (hz : form.Completes form.rhs.get x z) (hof : form.Of m folded o row)
    {c : Constraint ℚ} (hc : c ∈ m.simplify.constraints) (hp : c.isPolynomial = true) :
    c.Holds x := by
  obtain ⟨d, hd, k, l, hk, hl, hr⟩ := hof.equalities.exists_row hc hp
  obtain ⟨i, rfl⟩ := hof.encodes.exists_row hd (hr.isPolynomial hp)
  have hvalue : (row i).expression.valueAt (spread z) = (c.oriented folded.lower.toList).bound := by
    have hrow := hz.rows i
    rw [hof.row_sum] at hrow
    rw [← hr.bound_eq]
    linarith
  have hart := (hof.artificial_iff z).mp hz.artificial _ hd (hr.isPolynomial hp)
  have hpos : ∀ j, k ≤ j → j < l → 0 ≤ spread z j := by
    intro j hkj hjl
    rw [spread_of_lt z (hjl.trans_le hl)]
    exact hz.appended _ (hof.given ▸ hk.trans hkj)
  have hat : c.HoldsAt (spread z) :=
    (holdsAt_oriented c folded.lower.toList _).mp (hr.holds hvalue hart hpos)
  rw [Constraint.holds_iff_holdsAt]
  unfold Constraint.HoldsAt at hat ⊢
  rwa [hz.valueAt_spread hof (hof.wellFormed.simplify_index_lt c hc)] at hat

end Completion

-- No bound on `x` is needed, since the shift by the lower bounds is the same on both sides.
theorem holds_iff_exists_completion {m : Model ℚ} (hm : m.WellFormed) {form : StandardForm ℚ}
    (h : ofModel m = .ok form) {x : List ℚ} (hx : x.length = m.vars.length) :
    ((∀ c ∈ m.constraints, c.simplify.isPolynomial = true → c.Holds x) ↔
      ∃ z, form.Completes form.rhs.get x z) ∧
    ∀ z, form.Completes form.rhs.get x z →
      (∀ w, form.Completes form.rhs.get x w → w = z) ∧
      (∀ k (hk : k < x.length), ∃ hc : k < form.cols, z ⟨k, hc⟩ = x[k]) ∧
      ∃ o, m.objective = some o ∧ ∑ j, form.costs.get j * z j = o.gain x := by
  obtain ⟨folded, o, row, hof⟩ := ofModel_eq_ok hm h
  refine ⟨⟨fun hholds => ?_, fun ⟨z, hz⟩ c hc hp => ?_⟩, fun z hz => ⟨fun w hw => ?_,
    fun k hk => ?_, o, hof.objective, hz.cost_eq_gain hof⟩⟩
  · have hcomplete := hof.exists_completes (fun d => d.bound) x fun c hc hp i d j _ hr => by
      obtain ⟨b, hb, rfl⟩ := List.mem_map.mp hc
      have hsimple := (b.holds_simplify x).mpr (hholds b hb hp)
      rw [hr.bound_eq]
      exact (holdsAt_oriented _ _ _).mpr ((Constraint.holds_iff_holdsAt _ _).mp hsimple)
    simpa only [sub_sub_cancel] using hcomplete
  · exact (c.holds_simplify x).mp (hz.holds hof (List.mem_map_of_mem hc) hp)
  · exact hw.unique hof hz
  · have hc : k < form.cols := (hx ▸ hk).trans_le hof.equalities.le
    refine ⟨hc, ?_⟩
    rw [hz.given ⟨k, hc⟩ (hof.given ▸ hx ▸ hk)]
    exact (List.getElem_eq_getD 0).symm

-- The lower bound of `x` shifts both rows, and the first one has an artificial variable.
theorem holds_iff_exists_completion_of_minimization :
    let v : Variable := ⟨"x", 0⟩
    let w : Variable := ⟨"y", 1⟩
    let m : Model ℚ := {
      vars := [v, w]
      constraints := [⟨⟨[⟨v, 1⟩, ⟨w, 1⟩]⟩, .ge, 2, none, none⟩, ⟨⟨[⟨v, 1⟩]⟩, .ge, 1, none, none⟩,
        ⟨⟨[⟨v, 1⟩, ⟨w, -1⟩]⟩, .le, 0, none, none⟩]
      objective := some ⟨⟨[⟨v, 1⟩, ⟨w, 2⟩]⟩, .minimize⟩ }
    m.WellFormed ∧ ∃ form z, ofModel m = .ok form ∧ form.Completes form.rhs.get [1, 3] z ∧
      ∑ j, form.costs.get j * z j = -7 := by
  intro v w m
  have hm : m.WellFormed := by decide
  obtain ⟨form, hform⟩ : ∃ form, ofModel m = .ok form := exists_eq_ok (by decide +kernel)
  obtain ⟨hiff, hunique⟩ := holds_iff_exists_completion hm hform (x := [1, 3]) rfl
  obtain ⟨z, hz⟩ := hiff.mp (by decide +kernel)
  obtain ⟨_, _, o, ho, hcost⟩ := hunique z hz
  obtain rfl := Option.some.inj ho
  exact ⟨hm, form, z, hform, hz, hcost.trans (by decide +kernel)⟩

end StandardForm

end LinearProgram
