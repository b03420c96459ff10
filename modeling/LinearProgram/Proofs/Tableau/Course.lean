import LinearProgram.Proofs.Tableau.Pricing

namespace LinearProgram

namespace Tableau

variable {m n : ℕ} {t : Tableau ℚ m n} {q : Fin n}

-- The tableau with column `q` as its right-hand side. Its levels are what one unit of the column
-- takes off the basic columns.
def against (t : Tableau ℚ m n) (q : Fin n) : Tableau ℚ m n :=
  { t with rhs := Vector.ofFn fun i => t.entry i q }

-- How the coordinates change when column `q` moves by one unit and the rows are kept.
def course (t : Tableau ℚ m n) (q j : Fin n) : ℚ :=
  (if j = q then 1 else 0) - (t.against q).level j

-- The same change of the point itself, where a complemented column goes the other way.
def ray (t : Tableau ℚ m n) (q j : Fin n) : ℚ :=
  if t.complemented.get j then -t.course q j else t.course q j

section Course

variable (hc : t.Canonical) (hq : t.isBasic q = false)

include hc

theorem sum_entry_mul_course (i : Fin m) : ∑ j, t.entry i j * t.course q j = 0 := by
  have hlevel : ∑ j, t.entry i j * (t.against q).level j = (t.against q).rhs.get i :=
    sum_entry_mul_level (t := t.against q) hc i
  simp only [course, mul_sub, Finset.sum_sub_distrib, mul_ite, mul_one, mul_zero]
  rw [hlevel, Finset.sum_ite_eq', if_pos (Finset.mem_univ q)]
  simp [against]

include hq

omit hc in
theorem course_self : t.course q q = 1 := by
  have hlevel : (t.against q).level q = 0 :=
    level_nonbasic (t := t.against q) ((t.isBasic_eq_false q).mp hq)
  rw [course, if_pos rfl, hlevel, sub_zero]

theorem course_basic (i : Fin m) : t.course q (t.basis.get i) = -t.entry i q := by
  have hlevel : (t.against q).level (t.basis.get i) = (t.against q).rhs.get i :=
    level_basic (t := t.against q) hc i
  rw [course, if_neg ((t.isBasic_eq_false q).mp hq i), hlevel]
  simp [against]

omit hc hq in
theorem course_nonbasic {j : Fin n} (hj : ∀ i, t.basis.get i ≠ j) (hne : j ≠ q) :
    t.course q j = 0 := by
  have hlevel : (t.against q).level j = 0 := level_nonbasic (t := t.against q) hj
  rw [course, if_neg hne, hlevel, sub_zero]

end Course

theorem coordinate_add_ray (z : Fin n → ℚ) (j : Fin n) :
    t.coordinate (fun k => z k + t.ray q k) j = t.coordinate z j + t.course q j := by
  cases hj : t.complemented.get j with
  | false =>
    simp only [coordinate, ray, hj, Bool.false_eq_true, if_false]
    ring
  | true =>
    simp only [coordinate, ray, hj, if_true]
    ring

-- The rows hold all along the ray.
theorem residual_add_ray (hc : t.Canonical) (z : Fin n → ℚ) (i : Fin m) :
    t.residual (fun k => z k + t.ray q k) i = t.residual z i := by
  unfold residual
  simp only [coordinate_add_ray, mul_add, Finset.sum_add_distrib]
  rw [sum_entry_mul_course hc, add_zero]

-- The cost grows by the price of the column, since the basic columns are free.
theorem sum_costs_mul_ray (hc : t.Canonical) (hp : t.Priced) (hq : t.isBasic q = false) :
    ∑ j, t.costs.get j * t.ray q j = t.reduced.get q := by
  have hmoved : ∀ i, t.residual (fun k => t.values.get k + t.ray q k) i = 0 := fun i =>
    (residual_add_ray hc _ i).trans (values_residual hc i)
  have hcoordinate : ∀ j, t.isBasic j = false →
      t.coordinate (fun k => t.values.get k + t.ray q k) j = t.course q j := by
    intro j hj
    rw [coordinate_add_ray, coordinate_values, level_nonbasic ((t.isBasic_eq_false j).mp hj),
      zero_add]
  have hcost := cost_eq_objective_add_single hc hp hq hmoved fun j hj hne =>
    (hcoordinate j hj).trans (course_nonbasic ((t.isBasic_eq_false j).mp hj) hne)
  rw [hcoordinate q hq, course_self hq, mul_one, hp.objective] at hcost
  simp only [mul_add, Finset.sum_add_distrib] at hcost
  linarith

end Tableau

end LinearProgram
