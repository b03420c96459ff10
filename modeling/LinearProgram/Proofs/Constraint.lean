import LinearProgram.Proofs.Expression

namespace LinearProgram

-- The relation between two numbers, without tolerance.
def Relation.Holds : Relation → ℚ → ℚ → Prop
  | .le, left, right => left ≤ right
  | .eq, left, right => left = right
  | .ge, left, right => right ≤ left

instance (r : Relation) (x y : ℚ) : Decidable (r.Holds x y) :=
  match r with
  | .le => inferInstanceAs (Decidable (x ≤ y))
  | .eq => inferInstanceAs (Decidable (x = y))
  | .ge => inferInstanceAs (Decidable (y ≤ x))

-- The sides may miss the relation by `t`.
def Relation.HoldsWithin : Relation → ℚ → ℚ → ℚ → Prop
  | .le, t, left, right => left ≤ right + t
  | .eq, t, left, right => |left - right| ≤ t
  | .ge, t, left, right => right - t ≤ left

theorem Relation.holdsWithin_zero (r : Relation) (x y : ℚ) :
    r.HoldsWithin 0 x y ↔ r.Holds x y := by
  cases r <;> simp [Relation.HoldsWithin, Relation.Holds, sub_eq_zero]

theorem Relation.HoldsWithin.of_near {r : Relation} {s t x y z : ℚ} (h : r.HoldsWithin s x z)
    (hxy : |y - x| ≤ t) : r.HoldsWithin (s + t) y z := by
  obtain ⟨hl, hu⟩ := abs_le.mp hxy
  cases r with
  | le =>
    change y ≤ z + (s + t)
    have hx : x ≤ z + s := h
    linarith
  | eq =>
    obtain ⟨hl', hu'⟩ := abs_le.mp (show |x - z| ≤ s from h)
    exact abs_le.mpr ⟨by linarith, by linarith⟩
  | ge =>
    change z - (s + t) ≤ y
    have hx : z - s ≤ x := h
    linarith

theorem Relation.HoldsWithin.of_near_right {r : Relation} {s t x y z : ℚ}
    (h : r.HoldsWithin s x z) (hyz : |y - z| ≤ t) : r.HoldsWithin (s + t) x y := by
  obtain ⟨hl, hu⟩ := abs_le.mp hyz
  cases r with
  | le =>
    change x ≤ y + (s + t)
    have hx : x ≤ z + s := h
    linarith
  | eq =>
    obtain ⟨hl', hu'⟩ := abs_le.mp (show |x - z| ≤ s from h)
    exact abs_le.mpr ⟨by linarith, by linarith⟩
  | ge =>
    change y - (s + t) ≤ x
    have hx : z - s ≤ x := h
    linarith

theorem Relation.HoldsWithin.mono {r : Relation} {s t x y : ℚ} (h : r.HoldsWithin s x y)
    (hst : s ≤ t) : r.HoldsWithin t x y := by
  have hnear := h.of_near (y := x) (t := t - s) (by simpa using hst)
  rwa [add_sub_cancel] at hnear

theorem Relation.holdsWithin_reversed (r : Relation) (t x y : ℚ) :
    r.reversed.HoldsWithin t (-x) (-y) ↔ r.HoldsWithin t x y := by
  cases r with
  | le =>
    change -y - t ≤ -x ↔ x ≤ y + t
    constructor <;> intro h <;> linarith
  | eq =>
    change |-x - -y| ≤ t ↔ |x - y| ≤ t
    rw [neg_sub_neg, abs_sub_comm]
  | ge =>
    change -x ≤ -y + t ↔ y - t ≤ x
    constructor <;> intro h <;> linarith

theorem Relation.holdsWithin_mul (r : Relation) {a : ℚ} (ha : 0 < a) (t x y : ℚ) :
    r.HoldsWithin (a * t) (a * x) (a * y) ↔ r.HoldsWithin t x y := by
  cases r with
  | le =>
    change a * x ≤ a * y + a * t ↔ x ≤ y + t
    rw [← mul_add, mul_le_mul_iff_right₀ ha]
  | eq =>
    change |a * x - a * y| ≤ a * t ↔ |x - y| ≤ t
    rw [← mul_sub, abs_mul, abs_of_pos ha, mul_le_mul_iff_right₀ ha]
  | ge =>
    change a * y - a * t ≤ a * x ↔ y - t ≤ x
    rw [← mul_sub, mul_le_mul_iff_right₀ ha]

-- Dividing by a factor other than zero turns the relation around when the factor is negative.
theorem Relation.holdsWithin_div (r : Relation) {a : ℚ} (ha : a ≠ 0) (t x y : ℚ) :
    (if a < 0 then r.reversed else r).HoldsWithin t x (y / a) ↔
      r.HoldsWithin (|a| * t) (a * x) y := by
  have hy : a * (y / a) = y := mul_div_cancel₀ y ha
  split_ifs with hneg
  · have hpos : 0 < -a := by linarith
    rw [abs_of_neg hneg, ← r.holdsWithin_reversed, ← r.reversed.holdsWithin_mul hpos t x, neg_mul,
      neg_mul a (y / a), hy, neg_mul]
  · have hpos : 0 < a := lt_of_le_of_ne (not_lt.mp hneg) ha.symm
    rw [abs_of_pos hpos, ← r.holdsWithin_mul hpos t x, hy]

theorem relates_iff (x y : ℚ) (r : Relation) :
    Constraint.relates x r y = true ↔ r.HoldsWithin eps x y := by
  cases r <;> simp [Constraint.relates, Relation.HoldsWithin]

theorem Relation.holds_reversed (r : Relation) (x y : ℚ) :
    r.reversed.Holds (-x) (-y) ↔ r.Holds x y := by
  cases r <;> simp [Relation.reversed, Relation.Holds]

namespace Constraint

-- The point satisfies the constraint exactly.
def Holds (c : Constraint ℚ) (x : List ℚ) : Prop :=
  c.relation.Holds (c.expression.evaluate x) c.bound

instance (c : Constraint ℚ) (x : List ℚ) : Decidable (c.Holds x) :=
  inferInstanceAs (Decidable (c.relation.Holds _ _))

def HoldsAt (c : Constraint ℚ) (point : ℕ → ℚ) : Prop :=
  c.relation.Holds (c.expression.valueAt point) c.bound

-- The constraint that a model keeps of a request. It is reversed when its bound is negative.
def stored (e : Expression ℚ) (relation : Relation) (bound : ℚ) : Constraint ℚ :=
  let c : Constraint ℚ := ⟨e, relation, bound, none, none⟩
  if bound < 0 then c.reversed else c

-- Every number is a bound that the checked constructor takes.
theorem nonNegative_eq_stored (e : Expression ℚ) (relation : Relation) (bound : ℚ) :
    nonNegative e relation bound = .ok (stored e relation bound) := by
  unfold nonNegative withBound stored
  by_cases hb : bound < 0
  · have hpos : ¬-bound < 0 := by linarith
    simp [hb, hpos, reversed]
  · simp [hb]

theorem stored_bound_nonneg (e : Expression ℚ) (relation : Relation) (bound : ℚ) :
    0 ≤ (stored e relation bound).bound := by
  unfold stored
  simp only
  split_ifs with hb
  · exact neg_nonneg.mpr hb.le
  · exact not_lt.mp hb

theorem holds_iff_holdsAt (c : Constraint ℚ) (x : List ℚ) :
    c.Holds x ↔ c.HoldsAt fun i => x.getD i 0 := by
  unfold Holds HoldsAt
  rw [Expression.evaluate_eq_valueAt]

@[simp] theorem holdsAt_reversed (c : Constraint ℚ) (point : ℕ → ℚ) :
    c.reversed.HoldsAt point ↔ c.HoldsAt point := by
  unfold HoldsAt reversed
  rw [Expression.valueAt_neg, Relation.holds_reversed]

@[simp] theorem holdsAt_simplify (c : Constraint ℚ) (point : ℕ → ℚ) :
    c.simplify.HoldsAt point ↔ c.HoldsAt point := by
  unfold HoldsAt simplify
  rw [Expression.valueAt_simplify]

theorem holds_simplify (c : Constraint ℚ) (x : List ℚ) : c.simplify.Holds x ↔ c.Holds x := by
  rw [holds_iff_holdsAt, holdsAt_simplify, holds_iff_holdsAt]

theorem holds_stored (e : Expression ℚ) (relation : Relation) (bound : ℚ) (x : List ℚ) :
    (stored e relation bound).Holds x ↔ relation.Holds (e.evaluate x) bound := by
  unfold stored
  simp only
  split_ifs
  · rw [holds_iff_holdsAt, holdsAt_reversed, ← holds_iff_holdsAt]
    rfl
  · rfl

end Constraint

end LinearProgram
