import LinearProgram.Proofs.Expression

namespace LinearProgram

namespace Expression

section Sorted

variable {α : Type}

-- The variables that the expression mentions, one for each atom.
def vars (e : Expression α) : List Variable :=
  e.atoms.map (·.var)

-- The expression mentions no other variables.
def IsOver (e : Expression α) (vs : Set Variable) : Prop :=
  ∀ v ∈ e.vars, v ∈ vs

theorem mem_vars {e : Expression α} {v : Variable} : v ∈ e.vars ↔ ∃ a ∈ e.atoms, a.var = v :=
  List.mem_map

@[simp] theorem vars_add (e f : Expression α) : (e + f).vars = e.vars ++ f.vars := by
  simp [vars]

theorem IsOver.add {e f : Expression α} {vs : Set Variable} (he : e.IsOver vs)
    (hf : f.IsOver vs) : (e + f).IsOver vs := by
  intro v hv
  rw [vars_add, List.mem_append] at hv
  exact hv.elim (he v) (hf v)

theorem Sorted.ext {e f : Expression α} (he : e.Sorted) (hf : f.Sorted)
    (h : ∀ a, a ∈ e.atoms ↔ a ∈ f.atoms) : e = f := by
  have hirrefl : Std.Irrefl fun a b : Atom α => a.var.index < b.var.index :=
    ⟨fun a => lt_irrefl a.var.index⟩
  have hantisymm : Std.Antisymm fun a b : Atom α => a.var.index < b.var.index :=
    ⟨fun _ _ hab hba => absurd hab hba.asymm⟩
  exact congrArg Expression.mk (List.Pairwise.eq_of_mem_iff he hf h)

end Sorted

section Uniqueness

variable {e f : Expression ℚ} {vs : Set Variable}

@[simp] theorem coefficient_simplify (k : ℕ) : e.simplify.coefficient k = e.coefficient k :=
  valueAt_simplify _ e

@[simp] theorem coefficient_add (k : ℕ) :
    (e + f).coefficient k = e.coefficient k + f.coefficient k :=
  valueAt_add e f _

-- No other atom of a sorted expression has the column.
theorem Sorted.factor_eq (h : e.Sorted) {a : Atom ℚ} (ha : a ∈ e.atoms) :
    a.factor = e.coefficient a.var.index := by
  obtain ⟨atoms⟩ := e
  unfold Sorted at h
  unfold coefficient
  induction atoms with
  | nil => exact absurd ha List.not_mem_nil
  | cons b rest ih =>
    obtain ⟨hb, hrest⟩ := List.pairwise_cons.mp h
    rw [valueAt_cons]
    rcases List.mem_cons.mp ha with rfl | hin
    · have hzero : coefficient ⟨rest⟩ a.var.index = 0 :=
        coefficient_eq_zero ⟨rest⟩ fun c hc => (hb c hc).ne'
      rw [if_pos rfl, mul_one, ← coefficient, hzero, add_zero]
    · rw [if_neg (hb a hin).ne, mul_zero, zero_add]
      exact ih hrest hin

theorem Sorted.mem_atoms_iff (h : e.Sorted) {a : Atom ℚ} :
    a ∈ e.atoms ↔ a.var ∈ e.vars ∧ a.factor = e.coefficient a.var.index := by
  constructor
  · exact fun ha => ⟨mem_vars.mpr ⟨a, ha, rfl⟩, h.factor_eq ha⟩
  · rintro ⟨hv, hfactor⟩
    obtain ⟨b, hb, hvar⟩ := mem_vars.mp hv
    have hsame : b.factor = a.factor := by rw [h.factor_eq hb, hvar, hfactor]
    obtain rfl : b = a := by
      cases a
      cases b
      simp_all
    exact hb

-- Simplifying keeps the variables, since those of one column are the same.
theorem mem_vars_simplify (hvs : vs.InjOn Variable.index) (he : e.IsOver vs) (v : Variable) :
    v ∈ e.simplify.vars ↔ v ∈ e.vars := by
  constructor
  · intro hv
    obtain ⟨b, hb, rfl⟩ := mem_vars.mp hv
    obtain ⟨a, ha, hvar⟩ := var_mem_simplify e b hb
    exact mem_vars.mpr ⟨a, ha, hvar.symm⟩
  · intro hv
    obtain ⟨a, ha, rfl⟩ := mem_vars.mp hv
    obtain ⟨b, hb, hindex⟩ := (exists_index_simplify e a.var.index).mpr ⟨a, ha, rfl⟩
    obtain ⟨c, hc, hvar⟩ := var_mem_simplify e b hb
    have hsame : b.var = a.var := by
      refine hvs ?_ (he _ hv) hindex
      rw [hvar]
      exact he _ (mem_vars.mpr ⟨c, hc, rfl⟩)
    exact mem_vars.mpr ⟨b, hb, hsame⟩

theorem IsOver.simplify (hvs : vs.InjOn Variable.index) (he : e.IsOver vs) :
    e.simplify.IsOver vs :=
  fun v hv => he v ((mem_vars_simplify hvs he v).mp hv)

theorem simplify_eq_iff (hvs : vs.InjOn Variable.index) (he : e.IsOver vs) (hf : f.IsOver vs) :
    e.simplify = f.simplify ↔
      (∀ v, v ∈ e.vars ↔ v ∈ f.vars) ∧ ∀ k, e.coefficient k = f.coefficient k := by
  constructor
  · intro h
    refine ⟨fun v => ?_, fun k => ?_⟩
    · rw [← mem_vars_simplify hvs he, h, mem_vars_simplify hvs hf]
    · rw [← coefficient_simplify, h, coefficient_simplify]
  · rintro ⟨hvars, hcoefficient⟩
    refine (sorted_simplify e).ext (sorted_simplify f) fun a => ?_
    rw [(sorted_simplify e).mem_atoms_iff, (sorted_simplify f).mem_atoms_iff,
      mem_vars_simplify hvs he, mem_vars_simplify hvs hf, coefficient_simplify,
      coefficient_simplify, hvars, hcoefficient]

end Uniqueness

section Laws

variable {e f : Expression ℚ} {vs : Set Variable}

theorem simplify_perm (hvs : vs.InjOn Variable.index) (he : e.IsOver vs)
    (h : f.atoms.Perm e.atoms) : f.simplify = e.simplify := by
  have hvars : ∀ v, v ∈ f.vars ↔ v ∈ e.vars := fun v => (h.map _).mem_iff
  have hf : f.IsOver vs := fun v hv => he v ((hvars v).mp hv)
  refine (simplify_eq_iff hvs hf he).mpr ⟨hvars, fun k => ?_⟩
  exact (h.map _).sum_eq

theorem simplify_add_simplify (hvs : vs.InjOn Variable.index) (he : e.IsOver vs)
    (hf : f.IsOver vs) : (e + f).simplify = (e.simplify + f.simplify).simplify := by
  have hsum := (he.simplify hvs).add (hf.simplify hvs)
  refine (simplify_eq_iff hvs (he.add hf) hsum).mpr ⟨fun v => ?_, fun k => ?_⟩
  · rw [vars_add, vars_add, List.mem_append, List.mem_append, mem_vars_simplify hvs he,
      mem_vars_simplify hvs hf]
  · rw [coefficient_add, coefficient_add, coefficient_simplify, coefficient_simplify]

end Laws

-- A simplified expression has one atom for each variable that the expression mentions, in the order
-- of the columns, with the sum of the variable's factors. It depends on nothing else, not on the
-- order of the atoms and not on what was merged before, and its value is that of the expression.
theorem simplify_canonical {vs : Set Variable} (hvs : vs.InjOn Variable.index) :
    (∀ e : Expression ℚ, e.IsOver vs →
      e.simplify.Sorted ∧ (∀ v, v ∈ e.simplify.vars ↔ v ∈ e.vars) ∧
      (∀ v ∈ e.vars, ⟨v, (e.factorsOf v.index).sum⟩ ∈ e.simplify.atoms) ∧
      e.simplify.simplify = e.simplify ∧
      (∀ f : Expression ℚ, f.atoms.Perm e.atoms → f.simplify = e.simplify) ∧
      (-e).simplify = -e.simplify) ∧
    (∀ e f : Expression ℚ, e.IsOver vs → f.IsOver vs →
      (e.simplify = f.simplify ↔ (∀ v, v ∈ e.vars ↔ v ∈ f.vars) ∧
        ∀ k, (e.factorsOf k).sum = (f.factorsOf k).sum) ∧
      (e + f).simplify = (e.simplify + f.simplify).simplify) ∧
    ∀ (e f : Expression ℚ) (x : List ℚ),
      e.simplify.evaluate? x = e.evaluate? x ∧
      (-e).evaluate? x = (e.evaluate? x).map (-·) ∧
      (e + f).evaluate? x = Option.map₂ (· + ·) (e.evaluate? x) (f.evaluate? x) ∧
      (e - f).evaluate? x = Option.map₂ (· - ·) (e.evaluate? x) (f.evaluate? x) := by
  refine ⟨fun e he => ?_, fun e f he hf => ⟨?_, simplify_add_simplify hvs he hf⟩,
    fun e f x => ⟨evaluate?_simplify e x, evaluate?_neg e x, evaluate?_add e f x,
      evaluate?_sub e f x⟩⟩
  · refine ⟨sorted_simplify e, mem_vars_simplify hvs he, fun v hv => ?_, simplify_simplify e,
      fun f => simplify_perm hvs he, simplify_neg e⟩
    rw [(sorted_simplify e).mem_atoms_iff, mem_vars_simplify hvs he, coefficient_simplify,
      coefficient_eq_sum]
    exact ⟨hv, rfl⟩
  · rw [simplify_eq_iff hvs he hf]
    simp only [coefficient_eq_sum]

-- The factors of `y` cancel, and the atom of `y` stays with a factor of zero.
theorem simplify_canonical_of_cancelling :
    let x : Variable := ⟨"x", 0⟩
    let y : Variable := ⟨"y", 1⟩
    let e : Expression ℚ := ofTerms [(y, 1), (x, 3), (y, -1)]
    let f : Expression ℚ := ofTerms [(y, 2), (x, -3)]
    Set.InjOn Variable.index {x, y} ∧ e.IsOver {x, y} ∧ f.IsOver {x, y} ∧ e.simplify.Sorted ∧
      (∀ v, v ∈ e.simplify.vars ↔ v ∈ e.vars) ∧ ⟨y, 0⟩ ∈ e.simplify.atoms ∧
      simplify (ofTerms [(x, 3), (y, -1), (y, 1)]) = e.simplify ∧
      (e + f).simplify = (e.simplify + f.simplify).simplify ∧ e.simplify ≠ f.simplify ∧
      e.simplify.evaluate? [5, 7] = some 15 ∧ (e - f).evaluate? [5] = none := by
  intro x y e f
  have hvs : Set.InjOn Variable.index {x, y} := by
    rintro v (rfl | rfl) w (rfl | rfl) hindex
    · rfl
    · exact absurd hindex (by decide)
    · exact absurd hindex (by decide)
    · rfl
  have he : e.IsOver {x, y} := by
    unfold IsOver
    decide
  have hf : f.IsOver {x, y} := by
    unfold IsOver
    decide
  obtain ⟨hone, htwo, hvalues⟩ := simplify_canonical hvs
  obtain ⟨hsorted, hvars, hfactors, _, hperm, _⟩ := hone e he
  obtain ⟨hsame, hadd⟩ := htwo e f he hf
  have hy := hfactors y (by decide)
  rw [show (e.factorsOf y.index).sum = 0 by decide +kernel] at hy
  have hreordered : (ofTerms [(x, (3 : ℚ)), (y, -1), (y, 1)]).atoms.Perm e.atoms :=
    List.Perm.map _ (by decide : [(x, (3 : ℚ)), (y, -1), (y, 1)].Perm [(y, 1), (x, 3), (y, -1)])
  refine ⟨hvs, he, hf, hsorted, hvars, hy, hperm _ hreordered, hadd, fun h => ?_, ?_, ?_⟩
  · have hcolumn := (hsame.mp h).2 0
    exact absurd hcolumn (by decide +kernel)
  · rw [(hvalues e f [5, 7]).1]
    decide +kernel
  · rw [(hvalues e f [5]).2.2.2]
    decide +kernel

end Expression

end LinearProgram
