import LinearProgram.Proofs.Exact

namespace LinearProgram

namespace Expression

-- The value at a point that gives a number to every column.
def valueAt (e : Expression ℚ) (point : ℕ → ℚ) : ℚ :=
  (e.atoms.map fun a => a.factor * point a.var.index).sum

-- The sum of the factors that column `k` has.
def coefficient (e : Expression ℚ) (k : ℕ) : ℚ :=
  e.valueAt fun i => if i = k then 1 else 0

-- The factors that column `k` has, in the order of the atoms.
def factorsOf (e : Expression ℚ) (k : ℕ) : List ℚ :=
  (e.atoms.filter fun a => a.var.index = k).map (·.factor)

-- The sum of the sizes of the factors.
def weight (e : Expression ℚ) : ℚ :=
  (e.atoms.map fun a => |a.factor|).sum

-- One atom for each column, in the order of the columns.
def Sorted {α : Type} (e : Expression α) : Prop :=
  e.atoms.Pairwise fun a b => a.var.index < b.var.index

theorem evaluate_eq_valueAt (e : Expression ℚ) (x : List ℚ) :
    e.evaluate x = e.valueAt fun i => x.getD i 0 := by
  unfold evaluate valueAt
  rw [total_eq_sum]
  rfl

section Value

variable (e f : Expression ℚ) (point : ℕ → ℚ)

@[simp] theorem valueAt_empty : (∅ : Expression ℚ).valueAt point = 0 := rfl

@[simp] theorem valueAt_cons (a : Atom ℚ) (atoms : List (Atom ℚ)) :
    valueAt ⟨a :: atoms⟩ point = a.factor * point a.var.index + valueAt ⟨atoms⟩ point := by
  simp [valueAt]

@[simp] theorem valueAt_add : (e + f).valueAt point = e.valueAt point + f.valueAt point := by
  simp [valueAt]

@[simp] theorem valueAt_addTerm (v : Variable) (factor : ℚ) :
    (e.addTerm v factor).valueAt point = e.valueAt point + factor * point v.index := by
  simp [valueAt]

@[simp] theorem valueAt_neg : (-e).valueAt point = -e.valueAt point := by
  obtain ⟨atoms⟩ := e
  induction atoms with
  | nil => simp [valueAt]
  | cons a rest ih =>
    have ih' : valueAt ⟨rest.map fun a => -a⟩ point = -valueAt ⟨rest⟩ point := ih
    change valueAt ⟨-a :: rest.map fun a => -a⟩ point = _
    rw [valueAt_cons, valueAt_cons, ih']
    change -a.factor * point a.var.index + _ = _
    ring

theorem valueAt_congr {point other : ℕ → ℚ}
    (h : ∀ a ∈ e.atoms, point a.var.index = other a.var.index) :
    e.valueAt point = e.valueAt other := by
  unfold valueAt
  rw [List.map_congr_left fun a ha => by rw [h a ha]]

-- Points that are close have close values.
theorem abs_valueAt_sub_le {point other : ℕ → ℚ} {t : ℚ}
    (h : ∀ k, |point k - other k| ≤ t) :
    |e.valueAt point - e.valueAt other| ≤ t * e.weight := by
  obtain ⟨atoms⟩ := e
  induction atoms with
  | nil => simp [valueAt, weight]
  | cons a rest ih =>
    have hsplit : a.factor * point a.var.index + valueAt ⟨rest⟩ point -
        (a.factor * other a.var.index + valueAt ⟨rest⟩ other) =
        a.factor * (point a.var.index - other a.var.index) +
          (valueAt ⟨rest⟩ point - valueAt ⟨rest⟩ other) := by ring
    have hweight : weight ⟨a :: rest⟩ = |a.factor| + weight ⟨rest⟩ := by simp [weight]
    rw [valueAt_cons, valueAt_cons, hsplit, hweight, mul_add]
    refine (abs_add_le _ _).trans (add_le_add ?_ ih)
    rw [abs_mul, mul_comm t]
    exact mul_le_mul_of_nonneg_left (h _) (abs_nonneg _)

theorem coefficient_eq_sum (k : ℕ) : e.coefficient k = (e.factorsOf k).sum := by
  obtain ⟨atoms⟩ := e
  unfold coefficient factorsOf
  induction atoms with
  | nil => rfl
  | cons a rest ih =>
    rw [valueAt_cons, ih]
    by_cases ha : a.var.index = k
    · rw [List.filter_cons_of_pos (by simpa using ha)]
      simp [ha]
    · rw [List.filter_cons_of_neg (by simpa using ha)]
      simp [ha]

theorem coefficient_eq_zero {k : ℕ} (h : ∀ a ∈ e.atoms, a.var.index ≠ k) :
    e.coefficient k = 0 := by
  have hzero : e.coefficient k = e.valueAt fun _ => 0 :=
    valueAt_congr e fun a ha => if_neg (h a ha)
  rw [hzero]
  simp [valueAt]

end Value

section Merge

variable (point : ℕ → ℚ)

theorem valueAt_insert (a : Atom ℚ) (atoms : List (Atom ℚ)) :
    valueAt ⟨a.insert atoms⟩ point = a.factor * point a.var.index + valueAt ⟨atoms⟩ point := by
  induction atoms with
  | nil => simp [Atom.insert]
  | cons b rest ih =>
    unfold Atom.insert
    split_ifs with hlt heq
    · simp
    · simp only [valueAt_cons, heq]
      ring
    · simp only [valueAt_cons, ih]
      ring

-- Merging makes no new variable.
theorem var_mem_insert {α : Type} [Scalar α] (a : Atom α) (atoms : List (Atom α)) (b : Atom α)
    (hb : b ∈ a.insert atoms) : b.var = a.var ∨ ∃ c ∈ atoms, b.var = c.var := by
  induction atoms with
  | nil => simp_all [Atom.insert]
  | cons c rest ih =>
    unfold Atom.insert at hb
    split_ifs at hb with hlt heq
    · rcases List.mem_cons.mp hb with rfl | hm
      · exact Or.inl rfl
      · exact Or.inr ⟨b, hm, rfl⟩
    · rcases List.mem_cons.mp hb with rfl | hm
      · exact Or.inr ⟨c, List.mem_cons_self, rfl⟩
      · exact Or.inr ⟨b, List.mem_cons_of_mem _ hm, rfl⟩
    · rcases List.mem_cons.mp hb with rfl | hm
      · exact Or.inr ⟨b, List.mem_cons_self, rfl⟩
      · exact (ih hm).imp_right fun ⟨d, hd, he⟩ => ⟨d, List.mem_cons_of_mem _ hd, he⟩

theorem sorted_insert {α : Type} [Scalar α] (a : Atom α) (atoms : List (Atom α))
    (h : Sorted ⟨atoms⟩) : Sorted ⟨a.insert atoms⟩ := by
  unfold Sorted at h ⊢
  induction atoms with
  | nil => simp [Atom.insert]
  | cons b rest ih =>
    obtain ⟨hb, hrest⟩ := List.pairwise_cons.mp h
    unfold Atom.insert
    split_ifs with hlt heq
    · refine List.pairwise_cons.mpr ⟨fun c hc => ?_, h⟩
      rcases List.mem_cons.mp hc with rfl | hm
      · exact hlt
      · exact hlt.trans (hb c hm)
    · exact List.pairwise_cons.mpr ⟨hb, hrest⟩
    · refine List.pairwise_cons.mpr ⟨fun c hc => ?_, ih hrest⟩
      rcases var_mem_insert a rest c hc with he | ⟨d, hd, he⟩
      · rw [he]
        omega
      · rw [he]
        exact hb d hd

private theorem fold_insert (atoms acc : List (Atom ℚ)) :
    valueAt ⟨atoms.foldl (fun acc a => a.insert acc) acc⟩ point =
      valueAt ⟨acc⟩ point + valueAt ⟨atoms⟩ point := by
  induction atoms generalizing acc with
  | nil => simp [valueAt]
  | cons a rest ih =>
    rw [List.foldl_cons, ih, valueAt_insert, valueAt_cons]
    ring

@[simp] theorem valueAt_simplify (e : Expression ℚ) :
    e.simplify.valueAt point = e.valueAt point :=
  (fold_insert point e.atoms []).trans (zero_add _)

theorem sorted_simplify {α : Type} [Scalar α] (e : Expression α) : e.simplify.Sorted :=
  List.foldlRecOn e.atoms _ (motive := fun atoms => Sorted ⟨atoms⟩) List.Pairwise.nil
    fun atoms h a _ => sorted_insert a atoms h

-- An atom after all others is put at the end.
theorem insert_of_forall_lt {α : Type} [Scalar α] (a : Atom α) (atoms : List (Atom α))
    (h : ∀ b ∈ atoms, b.var.index < a.var.index) : a.insert atoms = atoms ++ [a] := by
  induction atoms with
  | nil => rfl
  | cons b rest ih =>
    have hb := h b List.mem_cons_self
    unfold Atom.insert
    rw [if_neg (by omega), if_neg (by omega), ih fun c hc => h c (List.mem_cons_of_mem _ hc)]
    rfl

-- Sorted atoms are merged one by one without a change.
theorem simplify_of_sorted {α : Type} [Scalar α] {e : Expression α} (h : e.Sorted) :
    e.simplify = e := by
  have hfold : ∀ atoms acc : List (Atom α), Sorted ⟨acc ++ atoms⟩ →
      atoms.foldl (fun acc a => a.insert acc) acc = acc ++ atoms := by
    intro atoms
    induction atoms with
    | nil => exact fun acc _ => (List.append_nil acc).symm
    | cons a rest ih =>
      intro acc hs
      have hlast : ∀ b ∈ acc, b.var.index < a.var.index :=
        fun b hb => (List.pairwise_append.mp hs).2.2 b hb a List.mem_cons_self
      have happend : acc ++ a :: rest = acc ++ [a] ++ rest := by simp
      rw [List.foldl_cons, insert_of_forall_lt a acc hlast, happend]
      exact ih _ (happend ▸ hs)
  exact congrArg Expression.mk (hfold e.atoms [] h)

@[simp] theorem simplify_simplify {α : Type} [Scalar α] (e : Expression α) :
    e.simplify.simplify = e.simplify :=
  simplify_of_sorted (sorted_simplify e)

theorem var_mem_simplify {α : Type} [Scalar α] (e : Expression α) (b : Atom α)
    (hb : b ∈ e.simplify.atoms) :
    ∃ a ∈ e.atoms, b.var = a.var := by
  revert b
  refine List.foldlRecOn e.atoms (fun acc a => a.insert acc)
    (motive := fun atoms => ∀ b ∈ atoms, ∃ a ∈ e.atoms, b.var = a.var) ?_ ?_
  · intro b hb
    exact absurd hb List.not_mem_nil
  intro acc h a ha b hb
  rcases var_mem_insert a acc b hb with he | ⟨c, hc, he⟩
  · exact ⟨a, ha, he⟩
  · rw [he]
    exact h c hc

-- Merging loses no column.
theorem exists_index_insert {α : Type} [Scalar α] (a : Atom α) (atoms : List (Atom α)) (k : ℕ) :
    (∃ b ∈ a.insert atoms, b.var.index = k) ↔
      a.var.index = k ∨ ∃ b ∈ atoms, b.var.index = k := by
  induction atoms with
  | nil => simp [Atom.insert]
  | cons b rest ih =>
    simp only [List.exists_mem_cons_iff]
    unfold Atom.insert
    split_ifs with hlt heq
    · simp
    · simp [heq]
    · rw [List.exists_mem_cons_iff, ih, or_left_comm]

theorem exists_index_simplify {α : Type} [Scalar α] (e : Expression α) (k : ℕ) :
    (∃ b ∈ e.simplify.atoms, b.var.index = k) ↔ ∃ a ∈ e.atoms, a.var.index = k := by
  have hfold : ∀ atoms acc : List (Atom α),
      (∃ b ∈ atoms.foldl (fun acc a => a.insert acc) acc, b.var.index = k) ↔
        (∃ b ∈ acc, b.var.index = k) ∨ ∃ a ∈ atoms, a.var.index = k := by
    intro atoms
    induction atoms with
    | nil => simp
    | cons a rest ih =>
      intro acc
      rw [List.foldl_cons, ih, exists_index_insert, List.exists_mem_cons_iff, or_assoc,
        or_left_comm]
  exact (hfold e.atoms []).trans (by simp)

theorem contains_iff {α : Type} (e : Expression α) (v : Variable) :
    e.contains v = true ↔ ∃ a ∈ e.atoms, a.var.index = v.index := by
  simp [contains]

theorem fits_iff {α : Type} (e : Expression α) (x : List α) :
    e.fits x = true ↔ ∀ a ∈ e.atoms, a.var.index < x.length := by
  simp [fits]

@[simp] theorem contains_simplify {α : Type} [Scalar α] (e : Expression α) (v : Variable) :
    e.simplify.contains v = e.contains v := by
  rw [Bool.eq_iff_iff, contains_iff, contains_iff]
  exact exists_index_simplify e v.index

-- An assignment covers the merged atoms exactly when it covers all of them.
@[simp] theorem fits_simplify {α : Type} [Scalar α] (e : Expression α) (x : List α) :
    e.simplify.fits x = e.fits x := by
  rw [Bool.eq_iff_iff, fits_iff, fits_iff]
  constructor
  · intro h a ha
    obtain ⟨b, hb, he⟩ := (exists_index_simplify e _).mpr ⟨a, ha, rfl⟩
    exact he ▸ h b hb
  · intro h b hb
    obtain ⟨a, ha, he⟩ := var_mem_simplify e b hb
    exact he ▸ h a ha

theorem insert_neg (a : Atom ℚ) (atoms : List (Atom ℚ)) :
    (-a).insert (atoms.map fun b => -b) = (a.insert atoms).map fun b => -b := by
  induction atoms with
  | nil => rfl
  | cons b rest ih =>
    unfold Atom.insert
    change (if a.var.index < b.var.index then _ else if a.var.index = b.var.index then _ else _) = _
    split_ifs with hlt heq
    · rfl
    · have hsum : -b.factor + -a.factor = -(b.factor + a.factor) := (neg_add _ _).symm
      exact congrArg (fun factor => Atom.mk b.var factor :: rest.map fun b => -b) hsum
    · exact congrArg (-b :: ·) ih

-- Merging adds up exactly, so it does not matter on which side of it the signs are turned.
theorem simplify_neg (e : Expression ℚ) : (-e).simplify = -e.simplify := by
  have hfold : ∀ acc : List (Atom ℚ),
      e.atoms.foldl (fun acc a => (-a).insert acc) (acc.map fun b => -b) =
        (e.atoms.foldl (fun acc a => a.insert acc) acc).map fun b => -b :=
    fun _ => List.foldl_hom (List.map fun b : Atom ℚ => -b) fun acc a => insert_neg a acc
  unfold simplify
  rw [atoms_neg, List.foldl_map]
  exact congrArg Expression.mk (hfold [])

end Merge

section Values

variable (e f : Expression ℚ) (x : List ℚ)

theorem evaluate_simplify : e.simplify.evaluate x = e.evaluate x := by
  rw [evaluate_eq_valueAt, valueAt_simplify, evaluate_eq_valueAt]

theorem evaluate_add : (e + f).evaluate x = e.evaluate x + f.evaluate x := by
  simp [evaluate_eq_valueAt]

theorem evaluate_neg : (-e).evaluate x = -e.evaluate x := by
  simp [evaluate_eq_valueAt]

theorem evaluate_sub : (e - f).evaluate x = e.evaluate x - f.evaluate x := by
  rw [sub_eq_add_neg, ← evaluate_neg]
  exact evaluate_add e (-f) x

@[simp] theorem fits_add : (e + f).fits x = (e.fits x && f.fits x) := by
  simp [fits]

@[simp] theorem fits_neg : (-e).fits x = e.fits x := by
  unfold fits
  rw [atoms_neg, List.all_map]
  rfl

theorem fits_sub : (e - f).fits x = (e.fits x && f.fits x) := by
  rw [← fits_neg f]
  exact fits_add e (-f) x

theorem evaluate?_simplify : e.simplify.evaluate? x = e.evaluate? x := by
  unfold evaluate?
  rw [fits_simplify, evaluate_simplify]

theorem evaluate?_neg : (-e).evaluate? x = (e.evaluate? x).map (-·) := by
  unfold evaluate?
  rw [fits_neg, evaluate_neg]
  split_ifs <;> rfl

-- A sum can be evaluated where both of its parts can.
theorem evaluate?_add :
    (e + f).evaluate? x = Option.map₂ (· + ·) (e.evaluate? x) (f.evaluate? x) := by
  unfold evaluate?
  rw [fits_add, evaluate_add]
  cases e.fits x <;> cases f.fits x <;> rfl

theorem evaluate?_sub :
    (e - f).evaluate? x = Option.map₂ (· - ·) (e.evaluate? x) (f.evaluate? x) := by
  unfold evaluate?
  rw [fits_sub, evaluate_sub]
  cases e.fits x <;> cases f.fits x <;> rfl

end Values

section Factors

variable (e : Expression ℚ)

theorem valueAt_simplifyFor (vs : List Variable) (point : ℕ → ℚ) :
    (e.simplifyFor vs).valueAt point = e.valueAt point := by
  unfold simplifyFor
  rw [valueAt_simplify]
  refine List.foldlRecOn vs _
    (motive := fun (f : Expression ℚ) => f.valueAt point = e.valueAt point)
    (valueAt_simplify point e) ?_
  intro f hf v _
  split_ifs
  · exact hf
  · rw [valueAt_addTerm, zero_mul, add_zero, hf]

theorem evaluate_simplifyFor (vs : List Variable) (x : List ℚ) :
    (e.simplifyFor vs).evaluate x = e.evaluate x := by
  rw [evaluate_eq_valueAt, valueAt_simplifyFor, evaluate_eq_valueAt]

-- In a sorted list no later atom has the column of the first.
theorem factor_eq_coefficient (h : e.Sorted) (v : Variable) :
    e.factor v = e.coefficient v.index := by
  obtain ⟨atoms⟩ := e
  unfold Sorted at h
  unfold factor coefficient
  induction atoms with
  | nil => rfl
  | cons a rest ih =>
    obtain ⟨ha, hrest⟩ := List.pairwise_cons.mp h
    rw [valueAt_cons]
    by_cases hv : a.var.index = v.index
    · have hzero : valueAt ⟨rest⟩ (fun i => if i = v.index then 1 else 0) = 0 :=
        coefficient_eq_zero ⟨rest⟩ fun b hb => (hv ▸ ha b hb).ne'
      simp [hv, hzero]
    · have hne : (a.var.index == v.index) = false := by simpa using hv
      rw [if_neg hv, mul_zero, zero_add, ← ih hrest, List.find?_cons_of_neg (by simp [hne])]

theorem factors_get {vs : List Variable} (h : (vs.map (·.index)).Nodup) (k : Fin vs.length) :
    (e.factors vs).get k = e.coefficient (vs.get k).index := by
  have hk : vs.findIdx (fun v => v.index == (vs.get k).index) = k := by
    rw [List.findIdx_eq k.isLt]
    refine ⟨by simp, fun j hj => ?_⟩
    have hne : vs[j].index ≠ vs[k].index := by
      intro he
      have hklen : k.val < (vs.map (·.index)).length := by simp
      have hjlen : j < (vs.map (·.index)).length := hj.trans hklen
      have hmap : (vs.map (·.index))[j] = (vs.map (·.index))[k.val] := by simpa using he
      exact hj.ne (h.getElem_inj_iff.mp hmap)
    simpa using hne
  have hsorted : (e.simplifyFor vs).Sorted := sorted_simplify _
  unfold factors
  rw [Vector.get_ofFn, if_pos hk, factor_eq_coefficient _ hsorted]
  exact valueAt_simplifyFor e vs _

-- The dense factors times a point are the value at it.
theorem sum_coefficient {n : ℕ} (he : ∀ a ∈ e.atoms, a.var.index < n) (point : ℕ → ℚ) :
    ∑ k : Fin n, e.coefficient k * point k = e.valueAt point := by
  obtain ⟨atoms⟩ := e
  unfold coefficient
  induction atoms with
  | nil => simp [valueAt]
  | cons a rest ih =>
    have hrest := ih fun b hb => he b (List.mem_cons_of_mem _ hb)
    have ha : ∑ k : Fin n, a.factor * (if a.var.index = k then 1 else 0) * point k =
        a.factor * point a.var.index := by
      rw [Finset.sum_eq_single ⟨a.var.index, he a List.mem_cons_self⟩]
      · rw [if_pos rfl, mul_one]
      · intro k _ hk
        rw [if_neg fun h => hk (Fin.ext h.symm), mul_zero, zero_mul]
      · intro hk
        exact absurd (Finset.mem_univ _) hk
    simp only [valueAt_cons, add_mul, Finset.sum_add_distrib]
    rw [ha, hrest]

end Factors

end Expression

end LinearProgram
