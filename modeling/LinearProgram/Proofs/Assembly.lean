import LinearProgram.Proofs.Operations

namespace LinearProgram

namespace Expression

section Filling

variable {α : Type} [Scalar α]

-- The listed variables of the columns that the expression does not have.
def missing (e : Expression α) (vs : List Variable) : List Variable :=
  vs.filter fun v => !e.contains v

def zeroAtoms (vs : List Variable) : List (Atom α) :=
  vs.map fun v => ⟨v, 0⟩

theorem insert_perm (a : Atom α) (atoms : List (Atom α))
    (h : ∀ b ∈ atoms, b.var.index ≠ a.var.index) : (a.insert atoms).Perm (a :: atoms) := by
  induction atoms with
  | nil => exact List.Perm.refl _
  | cons b rest ih =>
    obtain ⟨hb, hrest⟩ := List.forall_mem_cons.mp h
    unfold Atom.insert
    split_ifs with hlt heq
    · exact List.Perm.refl _
    · exact absurd heq.symm hb
    · exact ((ih hrest).cons b).trans (List.Perm.swap a b rest)

-- Where no two atoms share a column nothing is merged.
theorem simplify_perm_of_nodup {e : Expression α} (h : (e.atoms.map (·.var.index)).Nodup) :
    e.simplify.atoms.Perm e.atoms := by
  have hfold : ∀ atoms acc : List (Atom α), ((acc ++ atoms).map (·.var.index)).Nodup →
      (atoms.foldl (fun acc a => a.insert acc) acc).Perm (acc ++ atoms) := by
    intro atoms
    induction atoms with
    | nil => exact fun acc _ => by simp
    | cons a rest ih =>
      intro acc hnodup
      have hmiddle : (acc ++ a :: rest).Perm (a :: acc ++ rest) := List.perm_middle
      have hfirst := (hmiddle.map (·.var.index)).nodup_iff.mp hnodup
      rw [List.cons_append, List.map_cons, List.nodup_cons] at hfirst
      have hnew : ∀ b ∈ acc, b.var.index ≠ a.var.index := fun b hb he =>
        hfirst.1 (he ▸ List.mem_map_of_mem (List.mem_append_left rest hb))
      have hinsert : (a.insert acc ++ rest).Perm (acc ++ a :: rest) :=
        ((insert_perm a acc hnew).append_right rest).trans hmiddle.symm
      rw [List.foldl_cons]
      exact (ih _ ((hinsert.map _).nodup_iff.mpr hnodup)).trans hinsert
  exact hfold e.atoms [] h

omit [Scalar α] in
theorem contains_addTerm (e : Expression α) (v w : Variable) (factor : α) :
    (e.addTerm v factor).contains w = (e.contains w || v.index == w.index) := by
  simp [contains]

-- Variables of different columns are filled in independently of each other.
theorem foldl_addTerm (e : Expression α) {vs : List Variable} (h : (vs.map (·.index)).Nodup) :
    vs.foldl (fun e v => if e.contains v then e else e.addTerm v 0) e =
      ⟨e.atoms ++ zeroAtoms (e.missing vs)⟩ := by
  induction vs generalizing e with
  | nil => simp [missing, zeroAtoms]
  | cons v rest ih =>
    rw [List.map_cons, List.nodup_cons] at h
    obtain ⟨hnew, hrest⟩ := h
    rw [List.foldl_cons, ih _ hrest]
    by_cases hv : e.contains v = true
    · simp [missing, zeroAtoms, hv]
    · have hsame : (e.addTerm v 0).missing rest = e.missing rest := by
        refine List.filter_congr fun w hw => ?_
        have hne : v.index ≠ w.index := fun he => hnew (he ▸ List.mem_map_of_mem hw)
        simp [contains_addTerm, hne]
      rw [if_neg hv, hsame]
      simp [missing, zeroAtoms, hv]

-- The columns of the merged atoms and of the ones filled in are all different.
theorem nodup_fill (e : Expression α) {vs : List Variable} (h : (vs.map (·.index)).Nodup) :
    ((e.simplify.atoms ++ zeroAtoms (e.missing vs)).map fun a : Atom α => a.var.index).Nodup := by
  unfold zeroAtoms
  rw [List.map_append, List.map_map]
  refine List.Nodup.append ?_ ?_ ?_
  · exact (List.pairwise_map.mpr (sorted_simplify e)).imp Nat.ne_of_lt
  · exact h.sublist (List.filter_sublist.map _)
  · intro k hk hmissing
    obtain ⟨a, ha, rfl⟩ := List.mem_map.mp hk
    obtain ⟨v, hv, hindex⟩ := List.mem_map.mp hmissing
    have hcontains : e.simplify.contains v = true := (contains_iff _ v).mpr ⟨a, ha, hindex.symm⟩
    rw [contains_simplify] at hcontains
    simpa [hcontains] using (List.mem_filter.mp hv).2

theorem simplifyFor_perm (e : Expression α) {vs : List Variable} (h : (vs.map (·.index)).Nodup) :
    (e.simplifyFor vs).atoms.Perm
      (e.simplify.atoms ++ zeroAtoms (e.missing vs)) := by
  have hmissing : e.simplify.missing vs = e.missing vs := by simp [missing]
  unfold simplifyFor
  rw [foldl_addTerm _ h, hmissing]
  exact simplify_perm_of_nodup (nodup_fill e h)

-- Nothing else is filled in, so an assignment that covers the list covers as much as before.
theorem fits_simplifyFor (e : Expression α) {vs : List Variable} (h : (vs.map (·.index)).Nodup)
    {x : List α} (hx : ∀ v ∈ vs, v.index < x.length) : (e.simplifyFor vs).fits x = e.fits x := by
  have hzero : fits ⟨zeroAtoms (e.missing vs)⟩ x = true := by
    rw [fits_iff]
    intro a ha
    obtain ⟨v, hv, rfl⟩ := List.mem_map.mp ha
    exact hx v (List.mem_of_mem_filter hv)
  calc (e.simplifyFor vs).fits x
      = fits ⟨e.simplify.atoms ++ zeroAtoms (e.missing vs)⟩ x := (simplifyFor_perm e h).all_eq
    _ = (e.simplify.fits x && fits ⟨zeroAtoms (e.missing vs)⟩ x) := List.all_append
    _ = e.fits x := by rw [hzero, Bool.and_true, fits_simplify]

end Filling

end Expression

section Rows

variable {m : Model ℚ}

theorem toList_getD {n : ℕ} (x : Vector ℚ n) (k : Fin n) : x.toList.getD k 0 = x.get k := by
  rw [List.getD_eq_getElem _ _ (by simp), Vector.getElem_toList]
  rfl

-- The variables of a well-formed model are listed in the order of their columns.
theorem dot_factors {e : Expression ℚ} (hm : m.WellFormed) (he : m.Owns e)
    (x : Vector ℚ m.vars.length) : dot (e.factors m.vars) x = e.evaluate x.toList := by
  have hindex : ∀ a ∈ e.atoms, a.var.index < m.vars.length :=
    fun a ha => Model.index_lt_of_owns (he a ha)
  rw [dot_eq_sum, Expression.evaluate_eq_valueAt, ← e.sum_coefficient hindex]
  refine Finset.sum_congr rfl fun k _ => ?_
  have hk : (m.vars.get k).index = k := hm.index k k.isLt
  rw [Expression.factors_get e (nodup_index hm.index), hk, toList_getD]

theorem toList_ofFn_get {β γ : Type} (l : List β) (f : β → γ) :
    (Vector.ofFn fun i => f (l.get i)).toList = l.map f := by
  rw [Vector.toList_ofFn]
  exact List.ofFn_getElem_eq_map l f

theorem rowBounds_toList (m : Model ℚ) : m.rowBounds.toList = m.rows.map (·.bound) :=
  toList_ofFn_get m.rows _

theorem rowFactors_toList (m : Model ℚ) :
    m.rowFactors.toList = m.rows.map fun c => c.expression.factors m.vars :=
  toList_ofFn_get m.rows fun c => c.expression.factors m.vars

theorem rowFactors_map_dot (hm : m.WellFormed) (x : Vector ℚ m.vars.length) :
    (m.rowFactors.toList.map fun factors => some (dot factors x)) =
      m.rows.map (·.expression.evaluate? x.toList) := by
  rw [rowFactors_toList, List.map_map]
  refine List.map_congr_left fun c hc => ?_
  have howns : m.Owns c.expression := hm.constraints c (List.mem_of_mem_filter hc)
  rw [howns.evaluate?_eq (by simp), ← dot_factors hm howns]
  rfl

end Rows

-- There is one row of numbers for each constraint with more than one atom, in their order, and a
-- row times a point is the value of the constraint there. The numbers are the sums of the factors
-- that the listed variables have, whatever else an expression mentions, and what is filled in for
-- the other listed variables is nothing but zero atoms.
theorem assembly_agrees_with_evaluation :
    (∀ m : Model ℚ, m.WellFormed →
      m.rowBounds.toList = (m.constraints.filter Constraint.isPolynomial).map (·.bound) ∧
      ∀ x : Vector ℚ m.vars.length,
        (m.rowFactors.toList.map fun factors => some (dot factors x)) =
          (m.constraints.filter Constraint.isPolynomial).map (·.expression.evaluate? x.toList)) ∧
    ∀ (e : Expression ℚ) (vs : List Variable), (vs.map (·.index)).Nodup →
      (∀ k, (e.factors vs).get k = (e.factorsOf (vs.get k).index).sum) ∧
      (e.simplifyFor vs).Sorted ∧
      (e.simplifyFor vs).atoms.Perm
        (e.simplify.atoms ++ Expression.zeroAtoms (e.missing vs)) ∧
      ∀ x, (e.simplifyFor vs).evaluate x = e.evaluate x ∧
        ((∀ v ∈ vs, v.index < x.length) → (e.simplifyFor vs).fits x = e.fits x) := by
  refine ⟨fun m hm => ⟨rowBounds_toList m, rowFactors_map_dot hm⟩, fun e vs hvs => ?_⟩
  refine ⟨fun k => ?_, Expression.sorted_simplify _, e.simplifyFor_perm hvs,
    fun x => ⟨e.evaluate_simplifyFor vs x, e.fits_simplifyFor hvs⟩⟩
  rw [Expression.factors_get e hvs, Expression.coefficient_eq_sum]

-- The constraint on `y` alone is no row, and the one whose factors cancel is a row of zeros. The
-- list names `y` before `x`, and `z` is not on it.
theorem assembly_agrees_with_evaluation_of_repeated :
    let x : Variable := ⟨"x", 0⟩
    let y : Variable := ⟨"y", 1⟩
    let z : Variable := ⟨"z", 2⟩
    let m : Model ℚ := {
      vars := [x, y]
      constraints := [⟨.ofTerms [(x, 1), (y, 2), (x, 1)], .le, 5, none, none⟩,
        ⟨.ofTerms [(y, 1)], .le, 3, none, none⟩,
        ⟨.ofTerms [(y, 1), (y, -1)], .ge, 0, none, none⟩] }
    let e : Expression ℚ := .ofTerms [(z, 7), (y, 2), (y, 3)]
    m.WellFormed ∧ m.rowBounds.toList = [5, 0] ∧
      (m.rowFactors.toList.map fun factors => some (dot factors #v[3, 4])) = [some 14, some 0] ∧
      (e.factors [y, x]).get 0 = 5 ∧ (e.factors [y, x]).get 1 = 0 ∧
      (e.simplifyFor [y, x]).Sorted ∧
      (e.simplifyFor [y, x]).atoms.Perm (e.simplify.atoms ++ [⟨x, 0⟩]) ∧
      (e.simplifyFor [y, x]).evaluate [1, 2, 3] = e.evaluate [1, 2, 3] := by
  intro x y z m e
  obtain ⟨hrows, hfill⟩ := assembly_agrees_with_evaluation
  have hm : m.WellFormed := by decide
  obtain ⟨hbounds, hvalues⟩ := hrows m hm
  obtain ⟨hfactors, hsorted, hperm, hsame⟩ := hfill e [y, x] (by decide)
  exact ⟨hm, hbounds.trans (by decide +kernel), (hvalues #v[3, 4]).trans (by decide +kernel),
    (hfactors 0).trans (by decide +kernel), (hfactors 1).trans (by decide +kernel), hsorted,
    hperm, (hsame [1, 2, 3]).1⟩

end LinearProgram
