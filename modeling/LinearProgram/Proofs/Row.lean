import LinearProgram.Proofs.Constraint
import LinearProgram.StandardForm

namespace LinearProgram

-- The constraint `d` that makes an equality of `c`, with the new columns from `k` up to `l`.
inductive RowOf (lower : List ℚ) (k : ℕ) (c : Constraint ℚ) : Constraint ℚ → ℕ → Prop
  | slack {v : Variable} (ho : (c.oriented lower).relation = .le) (hv : v.index = k) :
      RowOf lower k c ⟨(c.oriented lower).expression.addTerm v 1, .eq, (c.oriented lower).bound,
        some v, none⟩ (k + 1)
  | surplus {v w : Variable} (ho : (c.oriented lower).relation = .ge) (hv : v.index = k)
      (hw : w.index = k + 1) :
      RowOf lower k c ⟨((c.oriented lower).expression.addTerm v (-1)).addTerm w 1, .eq,
        (c.oriented lower).bound, some v, some w⟩ (k + 2)
  | equation {w : Variable} (ho : (c.oriented lower).relation = .eq) (hw : w.index = k) :
      RowOf lower k c ⟨(c.oriented lower).expression.addTerm w 1, .eq, (c.oriented lower).bound,
        none, some w⟩ (k + 1)

theorem oriented_cases {α : Type} [Scalar α] (c : Constraint α) (lower : List α) :
    c.oriented lower = c ∨ c.oriented lower = c.reversed := by
  unfold Constraint.oriented
  simp only
  split_ifs
  · exact Or.inr rfl
  · exact Or.inl rfl

section Oriented

variable (c : Constraint ℚ) (lower : List ℚ)

@[simp] theorem holdsAt_oriented (point : ℕ → ℚ) :
    (c.oriented lower).HoldsAt point ↔ c.HoldsAt point := by
  rcases oriented_cases c lower with h | h <;> simp [h]

theorem holdsWithin_oriented (t : ℚ) (point : ℕ → ℚ) :
    (c.oriented lower).relation.HoldsWithin t ((c.oriented lower).expression.valueAt point)
        (c.oriented lower).bound ↔
      c.relation.HoldsWithin t (c.expression.valueAt point) c.bound := by
  rcases oriented_cases c lower with h | h
  · rw [h]
  · rw [h]
    unfold Constraint.reversed
    rw [Expression.valueAt_neg, Relation.holdsWithin_reversed]

theorem size_oriented : (c.oriented lower).expression.size = c.expression.size := by
  rcases oriented_cases c lower with h | h <;> simp [h, Constraint.reversed, Expression.size]

theorem index_lt_of_oriented {k : ℕ} (hc : ∀ a ∈ c.expression.atoms, a.var.index < k) :
    ∀ a ∈ (c.oriented lower).expression.atoms, a.var.index < k := by
  rcases oriented_cases c lower with h | h
  · rwa [h]
  · rw [h]
    intro a ha
    obtain ⟨b, hb, rfl⟩ := List.mem_map.mp ha
    exact hc b hb

-- What is left of the bound at the lower bounds. Only a row that starts from its slack may fall
-- short of zero, and by less than the tolerance.
theorem oriented_shift :
    -eps < (c.oriented lower).bound - (c.oriented lower).expression.evaluate lower ∧
      ((c.oriented lower).relation ≠ .le →
        0 ≤ (c.oriented lower).bound - (c.oriented lower).expression.evaluate lower) := by
  have heps := eps_pos
  unfold Constraint.oriented
  simp only
  split_ifs with h
  · have hr : c.reversed.bound - c.reversed.expression.evaluate lower =
        -(c.bound - c.expression.evaluate lower) := by
      simp only [Constraint.reversed, Expression.evaluate_neg]
      ring
    rw [hr]
    rcases h with h | ⟨h, hge⟩
    · exact ⟨by linarith, fun _ => by linarith⟩
    · refine ⟨by linarith, fun hle => absurd ?_ hle⟩
      simp [Constraint.reversed, hge, Relation.reversed]
  · push Not at h
    exact ⟨by linarith [h.1], fun _ => h.1⟩

end Oriented

namespace RowOf

variable {lower : List ℚ} {k l : ℕ} {c d : Constraint ℚ}

theorem lt (h : RowOf lower k c d l) : k < l := by
  cases h <;> omega

theorem bound_eq (h : RowOf lower k c d l) : d.bound = (c.oriented lower).bound := by
  cases h <;> rfl

theorem isPolynomial (h : RowOf lower k c d l) (hc : c.isPolynomial = true) :
    d.isPolynomial = true := by
  have hs := size_oriented c lower
  have hsize := of_decide_eq_true hc
  unfold Expression.size at hs hsize
  refine decide_eq_true ?_
  unfold Expression.size
  cases h <;> simp only [Expression.atoms_addTerm, List.length_append, List.length_singleton] <;>
    omega

-- The atoms are about the columns of the constraint and the row's own ones.
theorem index_cases {n : ℕ} (h : RowOf lower k c d l)
    (hc : ∀ a ∈ c.expression.atoms, a.var.index < n) :
    ∀ a ∈ d.expression.atoms, a.var.index < n ∨ (k ≤ a.var.index ∧ a.var.index < l) := by
  have ho := index_lt_of_oriented c lower hc
  intro a ha
  cases h with
  | slack _ hv =>
    rcases List.mem_append.mp ha with ha | ha
    · exact Or.inl (ho a ha)
    · rw [List.mem_singleton.mp ha]
      simp [hv]
  | surplus _ hv hw =>
    rcases List.mem_append.mp ha with ha | ha
    · rcases List.mem_append.mp ha with ha | ha
      · exact Or.inl (ho a ha)
      · rw [List.mem_singleton.mp ha]
        simp [hv]
    · rw [List.mem_singleton.mp ha]
      simp [hw]
  | equation _ hw =>
    rcases List.mem_append.mp ha with ha | ha
    · exact Or.inl (ho a ha)
    · rw [List.mem_singleton.mp ha]
      simp [hw]

theorem artificial_index (h : RowOf lower k c d l) {v : Variable} (hv : d.artificial = some v) :
    k ≤ v.index ∧ v.index < l := by
  cases h with
  | slack => simp at hv
  | surplus _ _ hw =>
    obtain rfl := Option.some.inj hv
    omega
  | equation _ hw =>
    obtain rfl := Option.some.inj hv
    omega

-- Where the row's own columns are zero it has the value of the constraint.
theorem valueAt_eq (h : RowOf lower k c d l) {point : ℕ → ℚ}
    (hz : ∀ j, k ≤ j → j < l → point j = 0) :
    d.expression.valueAt point = (c.oriented lower).expression.valueAt point := by
  cases h with
  | slack _ hv => simp [hv, hz k le_rfl (by omega)]
  | surplus _ hv hw => simp [hv, hw, hz k le_rfl (by omega), hz (k + 1) (by omega) (by omega)]
  | equation _ hw => simp [hw, hz k le_rfl (by omega)]

-- The variable that a row starts from has the factor one in it.
theorem basic_index (h : RowOf lower k c d l) {v : Variable}
    (hv : (d.artificial <|> d.extra) = some v) : k ≤ v.index ∧ v.index < l := by
  cases h with
  | slack _ hk =>
    obtain rfl := Option.some.inj hv
    omega
  | surplus _ _ hw =>
    obtain rfl := Option.some.inj hv
    omega
  | equation _ hw =>
    obtain rfl := Option.some.inj hv
    omega

theorem coefficient_basic (h : RowOf lower k c d l)
    (hc : ∀ a ∈ c.expression.atoms, a.var.index < k) {v : Variable}
    (hv : (d.artificial <|> d.extra) = some v) : d.expression.coefficient v.index = 1 := by
  have hzero : ∀ j, k ≤ j → (c.oriented lower).expression.coefficient j = 0 := fun j hj =>
    Expression.coefficient_eq_zero _ fun a ha =>
      ((index_lt_of_oriented c lower hc a ha).trans_le hj).ne
  unfold Expression.coefficient at hzero ⊢
  cases h with
  | slack _ hk =>
    obtain rfl := Option.some.inj hv
    rw [Expression.valueAt_addTerm, hzero _ hk.ge, if_pos rfl]
    norm_num
  | surplus _ hs hw =>
    obtain rfl := Option.some.inj hv
    rw [Expression.valueAt_addTerm, Expression.valueAt_addTerm, hzero _ (by omega), if_pos rfl,
      if_neg (by omega)]
    norm_num
  | equation _ hw =>
    obtain rfl := Option.some.inj hv
    rw [Expression.valueAt_addTerm, hzero _ hw.ge, if_pos rfl]
    norm_num

-- A point that gives the row its value satisfies the constraint with that value as its bound, up to
-- twice what its own columns are past zero.
theorem holdsWithin {point : ℕ → ℚ} {target t : ℚ} (h : RowOf lower k c d l) (ht : 0 ≤ t)
    (hd : d.expression.valueAt point = target)
    (ha : ∀ v, d.artificial = some v → |point v.index| ≤ t)
    (hn : ∀ j, k ≤ j → j < l → -t ≤ point j) :
    (c.oriented lower).relation.HoldsWithin (2 * t)
      ((c.oriented lower).expression.valueAt point) target := by
  cases h with
  | slack ho hv =>
    have hs := hn k le_rfl (by omega)
    rw [Expression.valueAt_addTerm, hv] at hd
    rw [ho]
    change _ ≤ target + 2 * t
    linarith
  | surplus ho hv hw =>
    have hs := hn k le_rfl (by omega)
    obtain ⟨hl, hu⟩ := abs_le.mp (ha _ rfl)
    rw [Expression.valueAt_addTerm, Expression.valueAt_addTerm, hv] at hd
    rw [ho]
    change target - 2 * t ≤ _
    linarith
  | equation ho hw =>
    obtain ⟨hl, hu⟩ := abs_le.mp (ha _ rfl)
    rw [Expression.valueAt_addTerm] at hd
    rw [ho]
    exact abs_le.mpr ⟨by linarith, by linarith⟩

theorem holds {point : ℕ → ℚ} {target : ℚ} (h : RowOf lower k c d l)
    (hd : d.expression.valueAt point = target)
    (ha : ∀ v, d.artificial = some v → point v.index = 0)
    (hn : ∀ j, k ≤ j → j < l → 0 ≤ point j) :
    (c.oriented lower).relation.Holds ((c.oriented lower).expression.valueAt point) target := by
  have hw := h.holdsWithin le_rfl hd (fun v hv => by rw [ha v hv, abs_zero])
    fun j hk hl => by simpa using hn j hk hl
  rwa [mul_zero, Relation.holdsWithin_zero] at hw

-- And a point that satisfies it extends to one that gives the row its value.
theorem exists_completion {point : ℕ → ℚ} {target : ℚ} (h : RowOf lower k c d l)
    (hc : ∀ a ∈ c.expression.atoms, a.var.index < k)
    (ht : (c.oriented lower).relation.Holds ((c.oriented lower).expression.valueAt point) target) :
    ∃ full : ℕ → ℚ, (∀ j < k, full j = point j) ∧ d.expression.valueAt full = target ∧
      (∀ v, d.artificial = some v → full v.index = 0) ∧ ∀ j, k ≤ j → j < l → 0 ≤ full j := by
  have hsame : ∀ full : ℕ → ℚ, (∀ j < k, full j = point j) →
      (c.oriented lower).expression.valueAt full = (c.oriented lower).expression.valueAt point :=
    fun full hfull => Expression.valueAt_congr _ fun a ha =>
      hfull _ (index_lt_of_oriented c lower hc a ha)
  cases h with
  | slack ho hv =>
    rw [ho] at ht
    change _ ≤ target at ht
    have hbelow : ∀ j < k, Function.update point k
        (target - (c.oriented lower).expression.valueAt point) j = point j :=
      fun j hj => Function.update_of_ne (by omega) _ _
    refine ⟨_, hbelow, ?_, fun v hva => by simp at hva, fun j hj hj' => ?_⟩
    · rw [Expression.valueAt_addTerm, hsame _ hbelow, hv, Function.update_self]
      ring
    · obtain rfl : j = k := by omega
      rw [Function.update_self]
      linarith
  | surplus ho hv hw =>
    rw [ho] at ht
    change target ≤ _ at ht
    have hbelow : ∀ j < k, Function.update (Function.update point k
        ((c.oriented lower).expression.valueAt point - target)) (k + 1) 0 j = point j := by
      intro j hj
      rw [Function.update_of_ne (by omega), Function.update_of_ne (by omega)]
    refine ⟨_, hbelow, ?_, fun v hva => ?_, fun j hj hj' => ?_⟩
    · rw [Expression.valueAt_addTerm, Expression.valueAt_addTerm, hsame _ hbelow, hv, hw,
        Function.update_self, Function.update_of_ne (by omega), Function.update_self]
      ring
    · obtain rfl := Option.some.inj hva
      rw [hw, Function.update_self]
    · by_cases hk : j = k
      · rw [hk, Function.update_of_ne (by omega), Function.update_self]
        linarith
      · obtain rfl : j = k + 1 := by omega
        rw [Function.update_self]
  | equation ho hw =>
    rw [ho] at ht
    change _ = target at ht
    have hbelow : ∀ j < k, Function.update point k 0 j = point j :=
      fun j hj => Function.update_of_ne (by omega) _ _
    refine ⟨_, hbelow, ?_, fun v hva => ?_, fun j hj hj' => ?_⟩
    · rw [Expression.valueAt_addTerm, hsame _ hbelow, hw, Function.update_self, ht]
      ring
    · obtain rfl := Option.some.inj hva
      rw [hw, Function.update_self]
    · obtain rfl : j = k := by omega
      rw [Function.update_self]

-- The row's own columns are determined by the others.
theorem unique {point other : ℕ → ℚ} (h : RowOf lower k c d l)
    (hc : ∀ a ∈ c.expression.atoms, a.var.index < k) (hbelow : ∀ j < k, point j = other j)
    (hd : d.expression.valueAt point = d.expression.valueAt other)
    (hp : ∀ v, d.artificial = some v → point v.index = 0)
    (ho : ∀ v, d.artificial = some v → other v.index = 0) : ∀ j < l, point j = other j := by
  have hsame : (c.oriented lower).expression.valueAt point =
      (c.oriented lower).expression.valueAt other :=
    Expression.valueAt_congr _ fun a ha => hbelow _ (index_lt_of_oriented c lower hc a ha)
  intro j hj
  by_cases hlt : j < k
  · exact hbelow j hlt
  cases h with
  | slack _ hv =>
    rw [Expression.valueAt_addTerm, Expression.valueAt_addTerm, hsame, hv] at hd
    obtain rfl : j = k := by omega
    linarith
  | surplus _ hv hw =>
    have hpw := hp _ rfl
    have how := ho _ rfl
    by_cases hk : j = k
    · rw [Expression.valueAt_addTerm, Expression.valueAt_addTerm, Expression.valueAt_addTerm,
        Expression.valueAt_addTerm, hsame, hv, hpw, how] at hd
      rw [hk]
      linarith
    · obtain rfl : j = k + 1 := by omega
      rw [← hw, hpw, how]
  | equation _ hw =>
    obtain rfl : j = k := by omega
    rw [← hw, hp _ rfl, ho _ rfl]

end RowOf

end LinearProgram
