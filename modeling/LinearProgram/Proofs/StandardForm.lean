import LinearProgram.Proofs.Normalization

namespace LinearProgram

-- The numbers of a form are those of the rows of its normalized model.
structure StandardForm.Encodes (form : StandardForm ℚ) (row : Fin form.rows → Constraint ℚ) :
    Prop where
  rows : List.ofFn row = form.model.rows
  matrix : ∀ i j, (form.matrix.get i).get j = (row i).expression.coefficient j
  rhs : ∀ i, form.rhs.get i =
    (row i).bound - ∑ j, (form.matrix.get i).get j * form.lower.get j
  basis : ∀ i, ∃ v, ((row i).artificial <|> (row i).extra) = some v ∧ v.index = form.basis.get i
  artificial : ∀ j, j ∈ form.artificial ↔ ∃ i v, (row i).artificial = some v ∧ v.index = j
  costs : ∀ o, form.model.objective = some o → ∀ j, form.costs.get j = o.expression.coefficient j

-- Where a form comes from: the folded bounds of the model's variables, one row for each constraint
-- with more than one atom, and the objective.
structure StandardForm.Of (m : Model ℚ) (form : StandardForm ℚ) (folded : Bounds ℚ m.vars.length)
    (o : Objective ℚ) (row : Fin form.rows → Constraint ℚ) : Prop where
  wellFormed : m.WellFormed
  encodes : form.Encodes row
  given : form.givenVars = m.vars.length
  objective : m.objective = some o
  normalObjective : form.model.objective = some o.simplify.asMaximize
  folds : Bounds.ofModel { m.simplify with name := m.name ++ " (normalized)" } = .ok folded
  lower : ∀ j, form.lower.get j =
    if h : j.val < m.vars.length then folded.lower.get ⟨j, h⟩ else 0
  upper : ∀ j, form.upper.get j =
    if h : j.val < m.vars.length then folded.upper.get ⟨j, h⟩ else none
  equalities : Equalities folded.lower.toList m.vars.length m.simplify.constraints
    form.model.constraints form.cols

section Reading

theorem column?_eq_some {v : Variable} {n : ℕ} {j : Fin n} :
    v.column? n = some j ↔ v.index = j := by
  unfold Variable.column?
  split_ifs with h
  · simp [Fin.ext_iff]
  · simp only [false_iff]
    omega

theorem basicColumn?_eq_some {c : Constraint ℚ} {n : ℕ} {j : Fin n} :
    c.basicColumn? n = some j ↔ ∃ v, (c.artificial <|> c.extra) = some v ∧ v.index = j := by
  simp [Constraint.basicColumn?, Option.bind_eq_some_iff, column?_eq_some]

theorem nodup_index {vs : List Variable} (h : ∀ k (hk : k < vs.length), vs[k].index = k) :
    (vs.map (·.index)).Nodup := by
  rw [List.nodup_iff_injective_get]
  intro i j hij
  simp only [List.get_eq_getElem, List.getElem_map, h] at hij
  exact Fin.ext hij

theorem ofNormal_eq_ok {normal : Normal ℚ} {given : ℕ} {form : StandardForm ℚ}
    (h : StandardForm.ofNormal normal given = .ok form)
    (hv : ∀ k (hk : k < normal.model.vars.length), normal.model.vars[k].index = k) :
    (∃ row, form.Encodes row) ∧ form.model = normal.model ∧ form.givenVars = given ∧
      ∃ hc : form.cols = normal.model.vars.length, ∀ j : Fin form.cols,
        form.lower.get j = normal.bounds.lower.get (j.cast hc) ∧
          form.upper.get j = normal.bounds.upper.get (j.cast hc) := by
  have hcolumn : ∀ k : Fin normal.model.vars.length, (normal.model.vars.get k).index = k :=
    fun k => hv k k.isLt
  unfold StandardForm.ofNormal at h
  simp only at h
  split at h
  · exact absurd h (by simp)
  · obtain rfl := Except.ok.inj h
    refine ⟨⟨normal.model.rows.get, ?_⟩, rfl, rfl, rfl, fun j => ⟨rfl, rfl⟩⟩
    have hmatrix : ∀ (i : Fin normal.model.rows.length) (j : Fin normal.model.vars.length),
        (normal.model.rowFactors.get i).get j =
          (normal.model.rows.get i).expression.coefficient j := by
      intro i j
      rw [Model.rowFactors, Vector.get_ofFn, Expression.factors_get _ (nodup_index hv), hcolumn]
    refine ⟨List.ofFn_get _, hmatrix, fun i => ?_, fun i => ?_, fun j => ?_, ?_⟩
    · simp only [Vector.get_ofFn, dot_eq_sum, Model.rowBounds]
    · simp only [Vector.get_ofFn]
      exact basicColumn?_eq_some.mp (Option.some_get _).symm
    · simp only [List.mem_filterMap, Option.bind_eq_some_iff, column?_eq_some]
      constructor
      · rintro ⟨c, hc, v, hv, hj⟩
        obtain ⟨i, rfl⟩ := List.get_of_mem hc
        exact ⟨i, v, hv, hj⟩
      · rintro ⟨i, v, hv, hj⟩
        exact ⟨_, List.get_mem _ i, v, hv, hj⟩
    · intro o ho j
      simp only at ho
      simp only [Model.costs, ho]
      rw [Expression.factors_get _ (nodup_index hv), hcolumn]

-- A column of the form is a variable of the normalized model.
theorem ofNormal_model {α : Type} [Scalar α] {normal : Normal α} {given : ℕ}
    {form : StandardForm α} (h : StandardForm.ofNormal normal given = .ok form) :
    form.model = normal.model ∧ form.cols = form.model.vars.length := by
  unfold StandardForm.ofNormal at h
  simp only at h
  split at h
  · exact absurd h (by simp)
  · obtain rfl := Except.ok.inj h
    exact ⟨rfl, rfl⟩

theorem ofNormal_artificial {normal : Normal ℚ} {given : ℕ} {form : StandardForm ℚ}
    (h : StandardForm.ofNormal normal given = .ok form) :
    form.artificial =
      form.model.rows.filterMap fun c => c.artificial.bind fun v => v.column? form.cols := by
  unfold StandardForm.ofNormal at h
  simp only at h
  split at h
  · exact absurd h (by simp)
  · obtain rfl := Except.ok.inj h
    rfl

theorem validate_eq_ok {α : Type} {m : Model α} {o : Objective α} (h : m.validate = .ok o) :
    m.objective = some o := by
  unfold Model.validate at h
  split at h
  · exact absurd h (by simp)
  · split at h
    · rename_i ho
      rw [ho, Except.ok.inj h]
    · exact absurd h (by simp)

theorem validate_eq_error {α : Type} {m : Model α} {e : Error α} (h : m.validate = .error e) :
    e = .noVariables ∨ e = .noObjective := by
  unfold Model.validate at h
  split at h
  · exact Or.inl (Except.error.inj h).symm
  · split at h
    · exact absurd h (by simp)
    · exact Or.inr (Except.error.inj h).symm

theorem ofModel_eq_ok {m : Model ℚ} (hm : m.WellFormed) {form : StandardForm ℚ}
    (h : StandardForm.ofModel m = .ok form) :
    ∃ folded o row, form.Of m folded o row := by
  obtain ⟨normal, hnormal, hform⟩ := bind_eq_ok.mp h
  obtain ⟨o, ho, hrest⟩ := bind_eq_ok.mp hnormal
  obtain ⟨folded, hfolded, hrest⟩ := bind_eq_ok.mp hrest
  obtain ⟨⟨constraints, widened⟩, heq, hnew⟩ := bind_eq_ok.mp hrest
  obtain rfl := Except.ok.inj hnew
  obtain ⟨hequalities, hextends⟩ := equalities_eq_ok heq
  have hwidened := hextends.wellFormed ⟨hm.index, hm.names, hm.simplify.constraints,
    hm.simplify.objective⟩
  obtain ⟨⟨row, henc⟩, hmodel, hgiven, hcols, hbounds⟩ := ofNormal_eq_ok hform hwidened.index
  refine ⟨folded, o, row, hm, henc, hgiven, validate_eq_ok ho, by rw [hmodel], hfolded,
    fun j => ?_, fun j => ?_, ?_⟩
  · rw [(hbounds j).1, Bounds.extend, Vector.get_ofFn]
    rfl
  · rw [(hbounds j).2, Bounds.extend, Vector.get_ofFn]
    rfl
  · rw [hmodel, hcols]
    exact hequalities

end Reading

namespace StandardForm

variable {m : Model ℚ} {form : StandardForm ℚ} {folded : Bounds ℚ m.vars.length} {o : Objective ℚ}
  {row : Fin form.rows → Constraint ℚ}

-- A point over all columns that extends a point of the model: it gives row `i` the value
-- `target i`, and no appended column is negative.
structure Completes (form : StandardForm ℚ) (target : Fin form.rows → ℚ) (x : List ℚ)
    (z : Fin form.cols → ℚ) : Prop where
  given : ∀ j, j.val < form.givenVars → z j = x.getD j 0
  rows : ∀ i, ∑ j, (form.matrix.get i).get j * (z j - form.lower.get j) = target i
  appended : ∀ j, form.givenVars ≤ j.val → 0 ≤ z j
  artificial : ∀ j ∈ form.artificial, z j = 0

-- The point with a zero in every further column.
def spread {n : ℕ} (z : Fin n → ℚ) (k : ℕ) : ℚ :=
  if h : k < n then z ⟨k, h⟩ else 0

@[simp] theorem spread_val {n : ℕ} (z : Fin n → ℚ) (j : Fin n) : spread z j = z j := by
  unfold spread
  rw [dif_pos j.isLt]

theorem spread_of_lt {n k : ℕ} (z : Fin n → ℚ) (h : k < n) : spread z k = z ⟨k, h⟩ :=
  dif_pos h

theorem sum_eq_valueAt_spread {n : ℕ} {e : Expression ℚ} (he : ∀ a ∈ e.atoms, a.var.index < n)
    (z : Fin n → ℚ) : ∑ j : Fin n, e.coefficient j * z j = e.valueAt (spread z) := by
  rw [← Expression.sum_coefficient e he]
  exact Finset.sum_congr rfl fun j _ => by rw [spread_val]

theorem Encodes.row_mem (h : form.Encodes row) (i : Fin form.rows) :
    row i ∈ form.model.constraints ∧ (row i).isPolynomial = true := by
  have hi : row i ∈ form.model.rows := by
    rw [← h.rows]
    exact List.mem_ofFn.mpr ⟨i, rfl⟩
  exact List.mem_filter.mp hi

theorem Encodes.exists_row (h : form.Encodes row) {d : Constraint ℚ}
    (hd : d ∈ form.model.constraints) (hp : d.isPolynomial = true) : ∃ i, row i = d := by
  have hmem : d ∈ form.model.rows := List.mem_filter.mpr ⟨hd, hp⟩
  rw [← h.rows] at hmem
  exact List.mem_ofFn.mp hmem

section Rows

variable (hof : form.Of m folded o row)

include hof

theorem Of.row_index_lt (i : Fin form.rows) :
    ∀ a ∈ (row i).expression.atoms, a.var.index < form.cols := by
  obtain ⟨hd, hp⟩ := hof.encodes.row_mem i
  intro a ha
  have hle := hof.equalities.le
  rcases hof.equalities.index_cases hof.wellFormed.simplify_index_lt hd hp a ha with h | h <;> omega

-- Over the shifted columns a row has the value of its expression, shifted as its bound is.
theorem Of.row_sum (z : Fin form.cols → ℚ) (i : Fin form.rows) :
    ∑ j, (form.matrix.get i).get j * (z j - form.lower.get j) =
      (row i).expression.valueAt (spread z) - ((row i).bound - form.rhs.get i) := by
  rw [hof.encodes.rhs i, ← sum_eq_valueAt_spread (hof.row_index_lt i)]
  simp only [mul_sub, Finset.sum_sub_distrib, hof.encodes.matrix]
  ring

theorem Of.artificial_iff (z : Fin form.cols → ℚ) :
    (∀ j ∈ form.artificial, z j = 0) ↔ ∀ d ∈ form.model.constraints, d.isPolynomial = true →
      ∀ v, d.artificial = some v → spread z v.index = 0 := by
  constructor
  · intro h d hd hp v hv
    obtain ⟨i, rfl⟩ := hof.encodes.exists_row hd hp
    obtain ⟨c, _, _, k, l, _, hl, hr⟩ := hof.equalities.exists_constraint hd hp
    have hlt : v.index < form.cols := (hr.artificial_index hv).2.trans_le hl
    rw [spread_of_lt z hlt]
    exact h _ ((hof.encodes.artificial _).mpr ⟨i, v, hv, rfl⟩)
  · intro h j hj
    obtain ⟨i, v, hv, hvj⟩ := (hof.encodes.artificial j).mp hj
    obtain ⟨hd, hp⟩ := hof.encodes.row_mem i
    rw [← spread_val z, ← hvj]
    exact h _ hd hp v hv

-- A point that satisfies every constraint with the right-hand side `target` in place of its bound
-- extends to all columns.
theorem Of.exists_completes (target : Constraint ℚ → ℚ) (x : List ℚ)
    (ht : ∀ c ∈ m.simplify.constraints, c.isPolynomial = true → ∀ i d j,
      m.vars.length ≤ i → RowOf folded.lower.toList i c d j →
        (c.oriented folded.lower.toList).relation.Holds
          ((c.oriented folded.lower.toList).expression.valueAt fun k => x.getD k 0) (target d)) :
    ∃ z, form.Completes (fun i => target (row i) - ((row i).bound - form.rhs.get i)) x z := by
  obtain ⟨full, hbelow, hrows, hn⟩ := hof.equalities.exists_completion le_rfl
    hof.wellFormed.simplify_index_lt target ht
  have hfull : ∀ i, (row i).expression.valueAt (spread fun j : Fin form.cols => full j) =
      (row i).expression.valueAt full := fun i =>
    Expression.valueAt_congr _ fun a ha => spread_of_lt _ (hof.row_index_lt i a ha)
  refine ⟨fun j => full j, fun j hj => hbelow j (hof.given ▸ hj), fun i => ?_,
    fun j hj => hn j (hof.given ▸ hj) j.isLt, ?_⟩
  · obtain ⟨hd, hp⟩ := hof.encodes.row_mem i
    rw [hof.row_sum, hfull, (hrows _ hd hp).1]
  · intro j hj
    obtain ⟨i, v, hv, hvj⟩ := (hof.encodes.artificial j).mp hj
    obtain ⟨hd, hp⟩ := hof.encodes.row_mem i
    rw [← hvj]
    exact (hrows _ hd hp).2 v hv

omit hof

theorem Completes.spread_given {target : Fin form.rows → ℚ} {x : List ℚ} {z : Fin form.cols → ℚ}
    (hz : form.Completes target x z) (hof : form.Of m folded o row) {k : ℕ}
    (hk : k < m.vars.length) : spread z k = x.getD k 0 := by
  have hcols : k < form.cols := hk.trans_le hof.equalities.le
  have hgiven : k < form.givenVars := by rwa [hof.given]
  rw [spread_of_lt z hcols]
  exact hz.given ⟨k, hcols⟩ hgiven

theorem Completes.unique {target : Fin form.rows → ℚ} {x : List ℚ} {z w : Fin form.cols → ℚ}
    (hz : form.Completes target x z) (hof : form.Of m folded o row)
    (hw : form.Completes target x w) : z = w := by
  have hbelow : ∀ j < m.vars.length, spread z j = spread w j := fun j hj =>
    (hz.spread_given hof hj).trans (hw.spread_given hof hj).symm
  have hrow : ∀ d ∈ form.model.constraints, d.isPolynomial = true →
      d.expression.valueAt (spread z) = d.expression.valueAt (spread w) := by
    intro d hd hp
    obtain ⟨i, rfl⟩ := hof.encodes.exists_row hd hp
    have hzi := hz.rows i
    have hwi := hw.rows i
    rw [hof.row_sum] at hzi hwi
    linarith
  have hsame := hof.equalities.unique le_rfl hof.wellFormed.simplify_index_lt hbelow hrow
    ((hof.artificial_iff z).mp hz.artificial) ((hof.artificial_iff w).mp hw.artificial)
  funext j
  rw [← spread_val z, ← spread_val w]
  exact hsame j j.isLt

end Rows

end StandardForm

end LinearProgram
