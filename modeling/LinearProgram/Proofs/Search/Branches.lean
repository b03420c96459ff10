import LinearProgram.Proofs.Constraint
import LinearProgram.Proofs.Integrity
import LinearProgram.BranchAndBound

namespace LinearProgram

-- The bound on a variable as a model stores it.
def Constraint.single (v : Variable) (relation : Relation) (bound : ℚ) : Constraint ℚ :=
  stored (.ofTerms [(v, 1)]) relation bound

-- A point of the model gives each variable a value that is not negative and satisfies every
-- constraint exactly.
structure Model.Admits (m : Model ℚ) (x : List ℚ) : Prop where
  length : x.length = m.vars.length
  nonneg : ∀ value ∈ x, 0 ≤ value
  holds : ∀ c ∈ m.constraints, c.Holds x

-- A node is the root with further constraints.
def Model.Narrows (root node : Model ℚ) : Prop :=
  ∃ bounds, node = { root with constraints := root.constraints ++ bounds }

def Integral (x : List ℚ) : Prop :=
  ∀ value ∈ x, ∃ k : ℤ, value = k

section Single

variable (v : Variable) (relation : Relation) (bound : ℚ)

theorem nonNegative_single :
    Constraint.nonNegative (Expression.ofTerms [(v, 1)]) relation bound =
      .ok (Constraint.single v relation bound) :=
  Constraint.nonNegative_eq_stored _ relation bound

theorem single_eq :
    Constraint.single v relation bound =
      if bound < 0 then ⟨⟨[⟨v, -1⟩]⟩, relation.reversed, -bound, none, none⟩
      else ⟨⟨[⟨v, 1⟩]⟩, relation, bound, none, none⟩ := by
  unfold Constraint.single Constraint.stored
  simp only
  split_ifs <;> rfl

theorem single_atoms :
    ∃ factor, (Constraint.single v relation bound).expression.atoms = [⟨v, factor⟩] := by
  rw [single_eq]
  split_ifs
  · exact ⟨-1, rfl⟩
  · exact ⟨1, rfl⟩

theorem single_holds (x : List ℚ) :
    (Constraint.single v relation bound).Holds x ↔ relation.Holds (x.getD v.index 0) bound := by
  have hvalue : (Expression.ofTerms [(v, (1 : ℚ))]).evaluate x = x.getD v.index 0 := by
    simp [Expression.evaluate_eq_valueAt, Expression.ofTerms, Expression.valueAt]
  rw [← hvalue]
  exact Constraint.holds_stored _ relation bound x

end Single

namespace Model

variable {m w : Model ℚ} {v : Variable} {relation : Relation} {bound : ℚ} {x : List ℚ}

theorem owns_single :
    m.Owns (Constraint.single v relation bound).expression ↔ m.owns v = true := by
  obtain ⟨factor, hatoms⟩ := single_atoms v relation bound
  unfold Owns
  rw [hatoms]
  simp

theorem withBound_eq :
    m.withBound v relation bound = m.pushConstraint (.single v relation bound) := by
  unfold withBound addConstraint
  rw [nonNegative_single]
  rfl

theorem withBound_eq_ok (h : m.withBound v relation bound = .ok w) :
    m.owns v = true ∧
      w = { m with constraints := m.constraints ++ [.single v relation bound] } := by
  rw [withBound_eq] at h
  obtain ⟨howns, hw⟩ := pushConstraint_eq_ok h
  exact ⟨owns_single.mp howns, hw⟩

-- A bound on a variable of the model is never refused.
theorem exists_withBound (hv : m.owns v = true) (relation : Relation) (bound : ℚ) :
    ∃ w, m.withBound v relation bound = .ok w := by
  rw [withBound_eq]
  exact ⟨_, pushConstraint_of_owns (owns_single.mpr hv)⟩

theorem Admits.push (h : m.Admits x) {c : Constraint ℚ} (hc : c.Holds x) :
    Admits { m with constraints := m.constraints ++ [c] } x := by
  refine ⟨h.length, h.nonneg, fun d hd => ?_⟩
  rcases List.mem_append.mp hd with hd | hd
  · exact h.holds d hd
  · rw [List.mem_singleton.mp hd]
    exact hc

theorem Narrows.refl (m : Model ℚ) : m.Narrows m :=
  ⟨[], by simp⟩

theorem Narrows.push (h : m.Narrows w) (c : Constraint ℚ) :
    m.Narrows { w with constraints := w.constraints ++ [c] } := by
  obtain ⟨bounds, rfl⟩ := h
  exact ⟨bounds ++ [c], by simp⟩

-- Further constraints only take points away.
theorem Narrows.admits (h : m.Narrows w) (hx : w.Admits x) : m.Admits x := by
  obtain ⟨bounds, rfl⟩ := h
  exact ⟨hx.length, hx.nonneg, fun c hc => hx.holds c (List.mem_append_left _ hc)⟩

end Model

theorem Integral.getD {x : List ℚ} (hx : Integral x) (i : ℕ) : ∃ k : ℤ, x.getD i 0 = k := by
  rw [List.getD_eq_getElem?_getD]
  cases hget : x[i]? with
  | none => exact ⟨0, by simp⟩
  | some value => exact hx value (List.mem_of_getElem? hget)

section Fractional

variable {m : Model ℚ} {s : Solution ℚ} {v : Variable} {value : ℚ}

-- The value to branch at is that of the variable's column.
theorem fractional?_eq_some (hm : m.WellFormed) (hs : s.model = m)
    (hf : s.fractional? = some (v, value)) :
    m.owns v = true ∧ s.givenAssignment[v.index]? = some value ∧
      integralityEps < |value - Scalar.round value| := by
  subst hs
  have hlarge := List.find?_some hf
  obtain ⟨k, hk, hget⟩ := List.getElem_of_mem (List.mem_of_find?_eq_some hf)
  rw [List.getElem_zip] at hget
  obtain ⟨rfl, rfl⟩ := Prod.mk.inj hget
  rw [List.length_zip] at hk
  have hvars : k < s.model.vars.length := hk.trans_le (min_le_left _ _)
  refine ⟨hm.owns_of_mem (List.getElem_mem hvars), ?_, by simpa using hlarge⟩
  rw [hm.index k hvars]
  exact List.getElem?_eq_getElem _

-- A solution without such a variable has a whole number near each of its values.
theorem near_of_fractional?_eq_none (h : s.fractional? = none) :
    ∀ value ∈ s.givenAssignment, ∃ k : ℤ, |value - k| ≤ integralityEps := by
  intro value hvalue
  obtain ⟨k, hk, rfl⟩ := List.getElem_of_mem hvalue
  have hvars : k < s.model.vars.length :=
    hk.trans_le (List.length_take_le s.model.vars.length s.assignment)
  have hzip : k < (s.model.vars.zip s.givenAssignment).length := by
    rw [List.length_zip]
    exact lt_min hvars hk
  have hclose := List.find?_eq_none.mp h _ (List.getElem_mem hzip)
  rw [List.getElem_zip] at hclose
  have hclose : |s.givenAssignment[k] - Scalar.round s.givenAssignment[k]| ≤ integralityEps := by
    simpa using hclose
  rw [scalar_round] at hclose
  split_ifs at hclose
  · exact ⟨-round (-s.givenAssignment[k]), by rwa [Int.cast_neg]⟩
  · exact ⟨round s.givenAssignment[k], hclose⟩

end Fractional

namespace Search

variable {m : Model ℚ} {v : Variable} {value : ℚ} {parts : List (Model ℚ)}

theorem branches_eq_ok (h : branches m v value = .ok parts) :
    m.owns v = true ∧ parts =
      [{ m with constraints := m.constraints ++ [.single v .le ⌊value⌋] },
        { m with constraints := m.constraints ++ [.single v .ge ⌈value⌉] }] := by
  obtain ⟨above, habove, h⟩ := bind_eq_ok.mp h
  obtain ⟨below, hbelow, h⟩ := bind_eq_ok.mp h
  obtain rfl := Except.ok.inj h
  rw [scalar_ceil] at habove
  rw [scalar_floor] at hbelow
  obtain ⟨howns, rfl⟩ := Model.withBound_eq_ok habove
  obtain ⟨_, rfl⟩ := Model.withBound_eq_ok hbelow
  exact ⟨howns, rfl⟩

theorem exists_branches (hv : m.owns v = true) (value : ℚ) :
    ∃ parts, branches m v value = .ok parts := by
  obtain ⟨above, habove⟩ := Model.exists_withBound hv .ge (Scalar.ceil value)
  obtain ⟨below, hbelow⟩ := Model.exists_withBound hv .le (Scalar.floor value)
  exact ⟨_, bind_eq_ok.mpr ⟨_, habove, bind_eq_ok.mpr ⟨_, hbelow, rfl⟩⟩⟩

theorem narrows_of_mem_branches {root part : Model ℚ} (h : branches m v value = .ok parts)
    (hm : root.Narrows m) (hp : part ∈ parts) : root.Narrows part := by
  obtain ⟨_, rfl⟩ := branches_eq_ok h
  rcases List.mem_cons.mp hp with rfl | hp
  · exact hm.push _
  · rw [List.mem_singleton.mp hp]
    exact hm.push _

theorem wellFormed_of_mem_branches {part : Model ℚ} (h : branches m v value = .ok parts)
    (hm : m.WellFormed) (hp : part ∈ parts) : part.WellFormed := by
  obtain ⟨above, habove, h⟩ := bind_eq_ok.mp h
  obtain ⟨below, hbelow, h⟩ := bind_eq_ok.mp h
  obtain rfl := Except.ok.inj h
  rcases List.mem_cons.mp hp with rfl | hp
  · exact hm.addConstraint hbelow
  · rw [List.mem_singleton.mp hp]
    exact hm.addConstraint habove

-- An integer lies below the value or above it, so no integer point falls between the branches.
theorem exists_part_admits (h : branches m v value = .ok parts) {x : List ℚ} (hm : m.Admits x)
    (hx : Integral x) : ∃ part ∈ parts, part.Admits x := by
  obtain ⟨_, rfl⟩ := branches_eq_ok h
  obtain ⟨k, hk⟩ := hx.getD v.index
  by_cases hle : (k : ℚ) ≤ value
  · refine ⟨_, List.mem_cons_self, hm.push ((single_holds _ _ _ _).mpr ?_)⟩
    rw [hk]
    exact Int.cast_le.mpr (Int.le_floor.mpr hle)
  · refine ⟨_, List.mem_cons_of_mem _ List.mem_cons_self, hm.push ((single_holds _ _ _ _).mpr ?_)⟩
    rw [hk]
    exact Int.cast_le.mpr (Int.ceil_le.mpr (not_le.mp hle).le)

end Search

end LinearProgram
