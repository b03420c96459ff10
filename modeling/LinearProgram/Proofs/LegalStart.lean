import LinearProgram.Proofs.Acceptance

namespace LinearProgram

-- The rows of a normalized model stand in the order of the constraints that they come from.
theorem Equalities.forall₂_rowOf {lower : List ℚ} {k l : ℕ} {cs ds : List (Constraint ℚ)}
    (h : Equalities lower k cs ds l) :
    List.Forall₂ (fun c d => ∃ i j, RowOf lower i c d j) (cs.filter Constraint.isPolynomial)
      (ds.filter Constraint.isPolynomial) := by
  induction h with
  | nil => exact .nil
  | @single k l c cs ds hs _ ih =>
    rwa [List.filter_cons_of_neg (by simp [hs]), List.filter_cons_of_neg (by simp [hs])]
  | @row k l j c d cs ds hp hr _ ih =>
    rw [List.filter_cons_of_pos hp, List.filter_cons_of_pos (hr.isPolynomial hp)]
    exact .cons ⟨k, j, hr⟩ ih

-- A row has an artificial variable unless it starts from its slack.
theorem RowOf.artificial_eq_none_iff {lower : List ℚ} {k l : ℕ} {c d : Constraint ℚ}
    (h : RowOf lower k c d l) : d.artificial = none ↔ (c.oriented lower).relation = .le := by
  cases h with
  | slack ho => simp [ho]
  | surplus ho => simp [ho]
  | equation ho => simp [ho]

-- Orienting a constraint reads the lower bounds of its own variables only.
theorem oriented_congr {c : Constraint ℚ} {lower other : List ℚ} {n : ℕ}
    (hc : ∀ a ∈ c.expression.atoms, a.var.index < n)
    (h : ∀ j < n, lower.getD j 0 = other.getD j 0) : c.oriented lower = c.oriented other := by
  have hvalue : c.expression.evaluate lower = c.expression.evaluate other := by
    rw [Expression.evaluate_eq_valueAt, Expression.evaluate_eq_valueAt]
    exact Expression.valueAt_congr _ fun a ha => h _ (hc a ha)
  unfold Constraint.oriented
  rw [hvalue]

namespace StandardForm

variable {m : Model ℚ} {form : StandardForm ℚ} {folded : Bounds ℚ m.vars.length} {o : Objective ℚ}
  {row : Fin form.rows → Constraint ℚ}

section Source

variable (hof : form.Of m folded o row)

include hof

theorem Of.exists_source : ∃ source : Fin form.rows → Constraint ℚ,
    List.ofFn source = m.simplify.constraints.filter Constraint.isPolynomial ∧
      ∀ i, ∃ k l, RowOf folded.lower.toList k (source i) (row i) l := by
  have hrows : List.Forall₂ (fun c d => ∃ i j, RowOf folded.lower.toList i c d j)
      (m.simplify.constraints.filter Constraint.isPolynomial) (List.ofFn row) := by
    rw [hof.encodes.rows]
    exact hof.equalities.forall₂_rowOf
  obtain ⟨hlength, hget⟩ := List.forall₂_iff_get.mp hrows
  rw [List.length_ofFn] at hlength
  refine ⟨fun i => (m.simplify.constraints.filter Constraint.isPolynomial).get (i.cast hlength.symm),
    ?_, fun i => ?_⟩
  · exact List.ext_get (by simp [hlength]) fun k hk hk' => by simp
  · simpa using hget i (by omega) (by simp)

theorem Of.lower_getD {j : ℕ} (hj : j < m.vars.length) :
    folded.lower.toList.getD j 0 = form.lower.toList.getD j 0 := by
  have hcols : j < form.cols := hj.trans_le hof.equalities.le
  have hget := hof.lower ⟨j, hcols⟩
  rw [dif_pos hj] at hget
  have hsame : folded.lower[j] = form.lower[j] := hget.symm
  simpa [List.getD_eq_getElem?_getD, hj, hcols] using hsame

-- The artificial columns are the basic columns of the rows that do not start from a slack.
theorem Of.artificial_eq (h : ofModel m = .ok form) {source : Fin form.rows → Constraint ℚ}
    (hrow : ∀ i, ∃ k l, RowOf folded.lower.toList k (source i) (row i) l) :
    form.artificial = ((List.finRange form.rows).filter fun i =>
      ((source i).oriented folded.lower.toList).relation ≠ .le).map form.basis.get := by
  have hone : ∀ i, ((row i).artificial.bind fun v => v.column? form.cols) =
      if decide (((source i).oriented folded.lower.toList).relation ≠ .le) then
        some (form.basis.get i) else none := by
    intro i
    obtain ⟨k, l, hr⟩ := hrow i
    obtain ⟨v, hv, hvi⟩ := hof.encodes.basis i
    have hnone := hr.artificial_eq_none_iff
    cases hart : (row i).artificial with
    | none => simp [hnone.mp hart]
    | some u =>
      rw [hart] at hv hnone
      obtain rfl := Option.some.inj hv
      have hne : ((source i).oriented folded.lower.toList).relation ≠ .le := by simpa using hnone
      simpa [hne] using column?_eq_some.mpr hvi
  obtain ⟨normal, _, hform⟩ := bind_eq_ok.mp h
  rw [ofNormal_artificial hform, ← hof.encodes.rows, List.ofFn_eq_map, List.filterMap_map,
    ← List.filterMap_eq_map, List.filterMap_filter]
  exact List.filterMap_congr fun i _ => hone i

end Source

section Vertex

theorem initialPoint_basic (hb : Function.Injective form.basis.get) (i : Fin form.rows) :
    form.initialPoint.get (form.basis.get i) =
      form.lower.get (form.basis.get i) + form.rhs.get i := by
  rw [initialPoint, Vector.get_ofFn, (rowOf?_eq_some hb).mpr rfl]

theorem initialPoint_nonbasic {j : Fin form.cols} (hj : ∀ i, form.basis.get i ≠ j) :
    form.initialPoint.get j = form.lower.get j := by
  rw [initialPoint, Vector.get_ofFn, rowOf?_eq_none.mpr hj]

-- Without the clipping of the right-hand side the vertex solves the rows.
theorem Of.initialPoint_solves (hof : form.Of m folded o row) (i : Fin form.rows) :
    ∑ j, (form.matrix.get i).get j * (form.initialPoint.get j - form.lower.get j) =
      form.rhs.get i := by
  let t : Tableau ℚ form.rows form.cols := { form.start with rhs := form.rhs }
  have hc : t.Canonical := hof.start_consistent.canonical
  have hlevel : ∀ j, form.initialPoint.get j - form.lower.get j = t.level j := by
    intro j
    by_cases hj : ∃ k, form.basis.get k = j
    · obtain ⟨k, rfl⟩ := hj
      rw [initialPoint_basic hc.injective, add_sub_cancel_left]
      exact (Tableau.level_basic hc k).symm
    · have hn : ∀ k, t.basis.get k ≠ j := fun k hk => hj ⟨k, hk⟩
      rw [initialPoint_nonbasic hn, sub_self, Tableau.level_nonbasic hn]
  simp only [hlevel]
  exact Tableau.sum_entry_mul_level hc i

theorem start_values (form : StandardForm ℚ) (j : Fin form.cols) :
    form.start.values.get j = form.lower.get j + form.start.level j := by
  have hplain : form.start.complemented.get j = false := by
    simp [start, Tableau.start, Tableau.reprice]
  rw [Tableau.values_get, hplain]
  rfl

-- The first vertex is the initial point, except that a row whose right-hand side is below zero by
-- less than the tolerance starts from zero.
theorem Of.start_values_eq (hof : form.Of m folded o row) :
    (∀ i, form.rhs.get i < 0 →
      form.start.values.get (form.basis.get i) = form.lower.get (form.basis.get i)) ∧
    ∀ j, (∀ i, form.basis.get i = j → 0 ≤ form.rhs.get i) →
      form.start.values.get j = form.initialPoint.get j := by
  have hc := hof.start_consistent.canonical
  have hbasic : ∀ i, form.start.level (form.basis.get i) = form.clipped i := fun i =>
    (Tableau.level_basic hc i).trans (form.start_rhs i)
  refine ⟨fun i hneg => ?_, fun j hj => ?_⟩
  · rw [start_values, hbasic, clipped, max_eq_right hneg.le, add_zero]
  · by_cases hrow : ∃ i, form.basis.get i = j
    · obtain ⟨i, rfl⟩ := hrow
      rw [start_values, hbasic, clipped, max_eq_left (hj i rfl), initialPoint_basic hc.injective]
    · have hn : ∀ i, form.start.basis.get i ≠ j := fun i hi => hrow ⟨i, hi⟩
      rw [start_values, Tableau.level_nonbasic hn, add_zero, initialPoint_nonbasic hn]

end Vertex

-- What the first phase needs of a form: basic columns of its own that form the identity, and a
-- right-hand side that is not negative up to the tolerance.
theorem standard_form_starts (hm : m.WellFormed) (h : ofModel m = .ok form) :
    Function.Injective form.basis.get ∧ (∀ i, form.givenVars ≤ (form.basis.get i).val) ∧
    form.givenVars = m.vars.length ∧
    (∀ i k, (form.matrix.get k).get (form.basis.get i) = if k = i then 1 else 0) ∧
    (∃ source : Fin form.rows → Constraint ℚ,
      List.ofFn source = m.simplify.constraints.filter Constraint.isPolynomial ∧
      form.artificial = ((List.finRange form.rows).filter fun i =>
        ((source i).oriented form.lower.toList).relation ≠ .le).map form.basis.get) ∧
    (∀ i, -eps ≤ form.rhs.get i) ∧
    (∀ i, ∑ j, (form.matrix.get i).get j * (form.initialPoint.get j - form.lower.get j) =
      form.rhs.get i) ∧
    ∃ first, form.firstTableau = .ok first ∧
      (∀ i, form.rhs.get i < 0 →
        first.values.get (form.basis.get i) = form.lower.get (form.basis.get i)) ∧
      ∀ j, (∀ i, form.basis.get i = j → 0 ≤ form.rhs.get i) →
        first.values.get j = form.initialPoint.get j := by
  obtain ⟨folded, o, row, hof⟩ := ofModel_eq_ok hm h
  obtain ⟨source, hsource, hrow⟩ := hof.exists_source
  refine ⟨hof.start_consistent.canonical.injective, fun i => hof.given ▸ hof.le_basis i, hof.given,
    hof.unitColumns, ⟨source, hsource, ?_⟩, fun i => (hof.rhs_gt i).le, hof.initialPoint_solves,
    form.start, hof.firstTableau_eq, hof.start_values_eq⟩
  have hsame : ∀ i, (source i).oriented form.lower.toList =
      (source i).oriented folded.lower.toList := by
    intro i
    have hmem : source i ∈ m.simplify.constraints :=
      (List.mem_filter.mp (hsource ▸ List.mem_ofFn.mpr ⟨i, rfl⟩)).1
    exact oriented_congr (hof.wellFormed.simplify_index_lt _ hmem) fun j hj =>
      (hof.lower_getD hj).symm
  simp only [hsame]
  exact hof.artificial_eq h hrow

-- The second row is reversed. So is the third one, whose right-hand side falls short of zero by
-- less than the tolerance, and its slack starts from zero.
theorem standard_form_starts_of_reversed_rows :
    let v : Variable := ⟨"x", 0⟩
    let w : Variable := ⟨"y", 1⟩
    let m : Model ℚ := {
      vars := [v, w]
      constraints := [⟨⟨[⟨v, 1⟩, ⟨w, 1⟩]⟩, .ge, 2, none, none⟩,
        ⟨⟨[⟨v, 1⟩, ⟨w, -1⟩]⟩, .eq, -1, none, none⟩,
        ⟨⟨[⟨v, 1⟩, ⟨w, 2⟩]⟩, .ge, 1 / 2 ^ 31, none, none⟩]
      objective := some ⟨⟨[⟨v, 1⟩]⟩, .maximize⟩ }
    m.WellFormed ∧ ∃ form first, ofModel m = .ok form ∧ form.artificial.length = 2 ∧
      form.firstTableau = .ok first ∧ ∃ i, form.rhs.get i = -(1 / 2 ^ 31) ∧
        form.initialPoint.get (form.basis.get i) < form.lower.get (form.basis.get i) ∧
        first.values.get (form.basis.get i) = form.lower.get (form.basis.get i) := by
  intro v w m
  have hm : m.WellFormed := by decide
  obtain ⟨form, hform, hcheck⟩ : ∃ form, ofModel m = .ok form ∧
      decide (form.artificial.length = 2 ∧ ∃ i, form.rhs.get i = -(1 / 2 ^ 31) ∧
        form.initialPoint.get (form.basis.get i) < form.lower.get (form.basis.get i)) = true :=
    exists_eq_ok_and (by decide +kernel)
  obtain ⟨hartificial, i, hrhs, hbelow⟩ := of_decide_eq_true hcheck
  obtain ⟨_, _, _, _, _, _, _, first, hfirst, hlow, _⟩ := standard_form_starts hm hform
  refine ⟨hm, form, first, hform, hartificial, hfirst, i, hrhs, hbelow, hlow i ?_⟩
  rw [hrhs]
  norm_num

end StandardForm

end LinearProgram
