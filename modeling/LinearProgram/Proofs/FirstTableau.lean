import LinearProgram.Proofs.Faithful
import LinearProgram.Proofs.Folding
import LinearProgram.Proofs.Tableau.Pricing
import LinearProgram.Phases

namespace LinearProgram

namespace StandardForm

variable {m : Model ℚ} {form : StandardForm ℚ} {folded : Bounds ℚ m.vars.length} {o : Objective ℚ}
  {row : Fin form.rows → Constraint ℚ}

-- The costs of the first phase.
def firstCosts (form : StandardForm ℚ) : Vector ℚ form.cols :=
  Vector.ofFn fun j => if form.artificial.contains j then -1 else 0

def start (form : StandardForm ℚ) : Tableau ℚ form.rows form.cols :=
  Tableau.start form.matrix form.rhs form.firstCosts form.lower form.upper form.basis

-- The right-hand side of the first tableau.
def clipped (form : StandardForm ℚ) (i : Fin form.rows) : ℚ :=
  max (form.rhs.get i) 0

-- The distance between the bounds of a column.
def room (form : StandardForm ℚ) (j : Fin form.cols) : Option ℚ :=
  Tableau.spanOf (form.lower.get j) (form.upper.get j)

theorem start_rhs (form : StandardForm ℚ) (i : Fin form.rows) :
    form.start.rhs.get i = form.clipped i := by
  simp [start, Tableau.start, Tableau.reprice, clipped]

theorem start_span (form : StandardForm ℚ) (j : Fin form.cols) :
    form.start.span.get j = form.room j := by
  simp [start, Tableau.start, Tableau.reprice, room]

section Basis

variable (hof : form.Of m folded o row)

include hof

theorem Of.unitColumns : Tableau.UnitColumns form.matrix form.basis := by
  have hpairs := hof.equalities.pairwise_coefficient_eq_zero le_rfl hof.wellFormed.simplify_index_lt
  rw [show form.model.constraints.filter Constraint.isPolynomial = List.ofFn row from
    hof.encodes.rows.symm, List.pairwise_ofFn] at hpairs
  intro i k
  obtain ⟨v, hv, hvi⟩ := hof.encodes.basis i
  obtain ⟨w, hw, _⟩ := hof.encodes.basis k
  rw [hof.encodes.matrix k, ← hvi]
  rcases lt_trichotomy k i with hlt | heq | hgt
  · rw [if_neg hlt.ne]
    exact (hpairs hlt w v hw hv).1
  · rw [if_pos heq, heq]
    obtain ⟨hd, hp⟩ := hof.encodes.row_mem i
    exact (hof.equalities.coefficient_basic le_rfl hof.wellFormed.simplify_index_lt hd hp hv).2.2
  · rw [if_neg hgt.ne']
    exact (hpairs hgt v w hv hw).2

theorem Of.start_consistent : form.start.Consistent :=
  Tableau.start_consistent hof.unitColumns

theorem Of.start_priced : form.start.Priced :=
  Tableau.reprice_priced hof.start_consistent.canonical

-- A row starts from one of the appended columns.
theorem Of.le_basis (i : Fin form.rows) : m.vars.length ≤ (form.basis.get i).val := by
  obtain ⟨hd, hp⟩ := hof.encodes.row_mem i
  obtain ⟨v, hv, hvi⟩ := hof.encodes.basis i
  rw [← hvi]
  exact (hof.equalities.coefficient_basic le_rfl hof.wellFormed.simplify_index_lt hd hp hv).1

theorem Of.le_artificial {j : Fin form.cols} (hj : j ∈ form.artificial) :
    m.vars.length ≤ j.val := by
  obtain ⟨i, v, hv, hvj⟩ := (hof.encodes.artificial j).mp hj
  obtain ⟨hd, hp⟩ := hof.encodes.row_mem i
  obtain ⟨c, _, _, k, l, hk, _, hr⟩ := hof.equalities.exists_constraint hd hp
  have hlt := hr.artificial_index hv
  omega

theorem Of.lower_appended {j : Fin form.cols} (hj : m.vars.length ≤ j.val) :
    form.lower.get j = 0 := by
  rw [hof.lower, dif_neg (by omega)]

theorem Of.upper_appended {j : Fin form.cols} (hj : m.vars.length ≤ j.val) :
    form.upper.get j = none := by
  rw [hof.upper, dif_neg (by omega)]

end Basis

section Shift

variable (hof : form.Of m folded o row)

include hof

-- At the lower bounds an equality has the value of its constraint.
theorem Of.valueAt_lower {c d : Constraint ℚ} {k l : ℕ} (hk : m.vars.length ≤ k)
    (hr : RowOf folded.lower.toList k c d l)
    (hc : ∀ a ∈ c.expression.atoms, a.var.index < m.vars.length) :
    d.expression.valueAt (spread form.lower.get) =
      (c.oriented folded.lower.toList).expression.evaluate folded.lower.toList := by
  rw [hr.valueAt_eq fun j hkj _ => ?_, Expression.evaluate_eq_valueAt]
  · refine Expression.valueAt_congr _ fun a ha => ?_
    have hlt := index_lt_of_oriented c folded.lower.toList hc a ha
    rw [spread_of_lt _ (hlt.trans_le hof.equalities.le), hof.lower, dif_pos hlt]
    simp [List.getD_eq_getElem?_getD, hlt]
    rfl
  · unfold spread
    split_ifs with hlt
    · exact hof.lower_appended (hk.trans hkj)
    · rfl

theorem Of.rhs_eq (i : Fin form.rows) :
    form.rhs.get i = (row i).bound - (row i).expression.valueAt (spread form.lower.get) := by
  rw [hof.encodes.rhs i, ← sum_eq_valueAt_spread (hof.row_index_lt i)]
  simp only [hof.encodes.matrix]

theorem Of.rhs_gt (i : Fin form.rows) : -eps < form.rhs.get i := by
  obtain ⟨hd, hp⟩ := hof.encodes.row_mem i
  obtain ⟨c, hc, _, k, l, hk, _, hr⟩ := hof.equalities.exists_constraint hd hp
  rw [hof.rhs_eq, hof.valueAt_lower hk hr (hof.wellFormed.simplify_index_lt c hc), hr.bound_eq]
  exact (oriented_shift c _).1

-- Clipping the right-hand side gives a limit from above more room and leaves the other rows as they
-- are.
theorem Of.exists_clipped_completion {x : List ℚ}
    (hx : ∀ c ∈ m.constraints, c.simplify.isPolynomial = true → c.Holds x) :
    ∃ z, form.Completes form.clipped x z := by
  obtain ⟨z, hz⟩ := hof.exists_completes
    (fun d => d.expression.valueAt (spread form.lower.get) +
      max (d.bound - d.expression.valueAt (spread form.lower.get)) 0) x
    fun c hc hp k d l hk hr => by
      obtain ⟨b, hb, rfl⟩ := List.mem_map.mp hc
      have hsimple := (b.holds_simplify x).mpr (hx b hb hp)
      have hat := (holdsAt_oriented _ folded.lower.toList _).mpr
        ((Constraint.holds_iff_holdsAt _ _).mp hsimple)
      obtain ⟨_, hshift⟩ := oriented_shift b.simplify folded.lower.toList
      rw [hof.valueAt_lower hk hr (hof.wellFormed.simplify_index_lt _ hc), hr.bound_eq]
      unfold Constraint.HoldsAt at hat
      by_cases hrel : (b.simplify.oriented folded.lower.toList).relation = .le
      · rw [hrel] at hat ⊢
        change _ ≤ _ at hat
        change _ ≤ _
        linarith [le_max_left ((b.simplify.oriented folded.lower.toList).bound -
          (b.simplify.oriented folded.lower.toList).expression.evaluate folded.lower.toList) 0]
      · rwa [max_eq_left (hshift hrel), add_sub_cancel]
  refine ⟨z, hz.given, fun i => ?_, hz.appended, hz.artificial⟩
  have hrow := hz.rows i
  simp only [hof.rhs_eq] at hrow
  rw [hrow, clipped, hof.rhs_eq]
  ring

end Shift

section Room

variable (hof : form.Of m folded o row)

theorem spanOf_some (lower u : ℚ) : Tableau.spanOf lower (some u) = some (max (u - lower) 0) := by
  simp [Tableau.spanOf]

theorem spanOf_none (lower : ℚ) : Tableau.spanOf lower none = none := by
  simp [Tableau.spanOf]

theorem room_nonneg {j : Fin form.cols} {r : ℚ} (h : form.room j = some r) : 0 ≤ r := by
  unfold room at h
  cases hu : form.upper.get j with
  | none =>
    rw [hu, spanOf_none] at h
    exact absurd h (by simp)
  | some u =>
    rw [hu, spanOf_some] at h
    rw [← Option.some.inj h]
    exact le_max_right _ _

include hof

theorem Of.summarizes :
    folded.Summarizes (m.simplify.constraints.filter fun c => !c.isPolynomial) :=
  Bounds.ofModel_summarizes hof.folds hof.wellFormed.simplify_index_lt

theorem Of.room_appended {j : Fin form.cols} (hj : m.vars.length ≤ j.val) :
    form.room j = none := by
  rw [room, hof.upper_appended hj, spanOf_none]

theorem Of.room_given {j : Fin form.cols} (hj : j.val < m.vars.length) :
    form.room j = (folded.upper.get ⟨j, hj⟩).map fun u => u - folded.lower.get ⟨j, hj⟩ := by
  rw [room, hof.upper, dif_pos hj, hof.lower, dif_pos hj]
  cases hu : folded.upper.get ⟨j, hj⟩ with
  | none => exact spanOf_none _
  | some u =>
    rw [spanOf_some, max_eq_left (by linarith [hof.summarizes.lower_le_upper _ _ hu])]
    rfl

-- The room of the given columns is what the folded bounds leave.
theorem Of.within_iff (t : ℚ) (z : Fin form.cols → ℚ) :
    folded.Within t (spread z) ↔ ∀ j : Fin form.cols, j.val < m.vars.length →
      -t ≤ z j - form.lower.get j ∧ ∀ s, form.room j = some s → z j - form.lower.get j ≤ s + t := by
  have hle := hof.equalities.le
  constructor
  · intro h j hj
    have hl := h.lower ⟨j, hj⟩
    have hu := h.upper ⟨j, hj⟩
    simp only [spread_val] at hl hu
    rw [hof.lower, dif_pos hj, hof.room_given hj]
    refine ⟨by linarith, fun s hroom => ?_⟩
    obtain ⟨u, hsome, rfl⟩ := Option.map_eq_some_iff.mp hroom
    linarith [hu u hsome]
  · intro h
    refine ⟨fun j => ?_, fun j u hu => ?_⟩
    · have hj := (h ⟨j, j.isLt.trans_le hle⟩ j.isLt).1
      rw [hof.lower, dif_pos j.isLt] at hj
      have hz := spread_val z ⟨j, j.isLt.trans_le hle⟩
      simp only [Fin.eta] at hj hz
      linarith
    · have hj := (h ⟨j, j.isLt.trans_le hle⟩ j.isLt).2
      rw [hof.lower, dif_pos j.isLt, hof.room_given j.isLt] at hj
      have hz := spread_val z ⟨j, j.isLt.trans_le hle⟩
      simp only [Fin.eta, hu, Option.map_some, Option.some.injEq, forall_eq'] at hj hz
      linarith

end Room

end StandardForm

end LinearProgram
