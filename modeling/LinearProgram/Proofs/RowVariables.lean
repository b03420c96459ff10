import LinearProgram.Proofs.FreshName
import LinearProgram.Proofs.Normalization

namespace LinearProgram

variable {α : Type}

-- The variables that were appended for a row. A constraint with at most one atom has none, though
-- it may still name those it had in an earlier normal form.
def Constraint.own (c : Constraint α) : List Variable :=
  if c.isPolynomial then c.extra.toList ++ c.artificial.toList else []

-- The equality `d` that constraint number `i` turns into when the variables so far are those of
-- `m`.
structure Model.Equates (m : Model α) (i : ℕ) (c d : Constraint α) : Prop where
  relation : d.relation = .eq
  bound : d.bound = c.bound
  atoms : ∃ terms, d.expression.atoms = c.expression.atoms ++ terms ∧
    terms.map (·.var) = d.extra.toList ++ d.artificial.toList
  extra : d.extra = if c.relation = .eq then none else some (m.nextVariable "s" i)
  artificial : d.artificial = if c.relation = .le then none else
    some ((m.addVariables d.extra.toList).nextVariable "R" i)

section

variable [Scalar α]

-- What stands in the place of a constraint. One with at most one atom stays, and any other one,
-- reversed or not, is made an equality.
inductive Model.TakesOver (m : Model α) (i : ℕ) (c : Constraint α) : Constraint α → Prop
  | single (hc : c.isPolynomial = false) : TakesOver m i c c
  | row {turned d : Constraint α} (hc : c.isPolynomial = true)
      (ht : turned = c ∨ turned = c.reversed) (h : m.Equates i turned d) : TakesOver m i c d

end

namespace Model

variable {m w : Model α} {i : ℕ} {c d : Constraint α}

theorem nextVariable_congr (h : m.vars = w.vars) (stem : String) (i : ℕ) :
    m.nextVariable stem i = w.nextVariable stem i := by
  rw [nextVariable, nextVariable, freshName_congr m stem i h, h]

theorem Equates.congr (h : m.Equates i c d) (hvars : m.vars = w.vars) : w.Equates i c d := by
  have hafter : (m.addVariables d.extra.toList).vars = (w.addVariables d.extra.toList).vars := by
    simp [hvars]
  refine ⟨h.relation, h.bound, h.atoms, ?_, ?_⟩
  · rw [h.extra, nextVariable_congr hvars]
  · rw [h.artificial, nextVariable_congr hafter]

theorem Equates.isPolynomial (h : m.Equates i c d) (hc : c.isPolynomial = true) :
    d.isPolynomial = true := by
  obtain ⟨terms, hatoms, _⟩ := h.atoms
  have hsize := of_decide_eq_true hc
  unfold Expression.size at hsize
  refine decide_eq_true ?_
  unfold Expression.size
  rw [hatoms, List.length_append]
  omega

variable [Scalar α]

theorem map_var_turned {turned : Constraint α} (h : turned = c ∨ turned = c.reversed) :
    turned.expression.atoms.map (·.var) = c.expression.atoms.map (·.var) := by
  rcases h with rfl | rfl
  · rfl
  · exact map_var_neg c.expression

theorem TakesOver.isPolynomial (h : m.TakesOver i c d) : d.isPolynomial = c.isPolynomial := by
  cases h with
  | single => rfl
  | @row turned _ hc ht h =>
    have hsize : turned.expression.size = c.expression.size := by
      simpa [Expression.size] using congrArg List.length (map_var_turned ht)
    rw [hc, h.isPolynomial (decide_eq_true (hsize ▸ of_decide_eq_true hc))]

-- The variables of the constraint, and after them the row's own ones.
theorem TakesOver.map_var (h : m.TakesOver i c d) :
    d.expression.atoms.map (·.var) = c.expression.atoms.map (·.var) ++ d.own := by
  have hpolynomial := h.isPolynomial
  cases h with
  | single hc => rw [Constraint.own, if_neg (by simp [hc]), List.append_nil]
  | @row turned _ hc ht h =>
    obtain ⟨terms, hatoms, hterms⟩ := h.atoms
    rw [Constraint.own, if_pos (hpolynomial.trans hc), hatoms, List.map_append, map_var_turned ht,
      hterms]

theorem TakesOver.congr (h : m.TakesOver i c d) (hvars : m.vars = w.vars) : w.TakesOver i c d := by
  cases h with
  | single hc => exact .single hc
  | row hc ht h => exact .row hc ht (h.congr hvars)

theorem exists_equates (m : Model α) (i : ℕ) (c : Constraint α) : ∃ d, m.Equates i c d ∧
    m.addEquality i c = .ok (d, m.addVariables (d.extra.toList ++ d.artificial.toList)) := by
  unfold addEquality
  cases hr : c.relation with
  | le =>
    refine ⟨_, ?_, bind_eq_ok.mpr ⟨_, m.createFresh_eq "s" i, rfl⟩⟩
    exact ⟨rfl, rfl, ⟨_, rfl, rfl⟩, by simp [hr], by simp [hr]⟩
  | ge =>
    let surplus := m.nextVariable "s" i
    let artificial := (m.addVariables [surplus]).nextVariable "R" i
    let e := (c.expression.addTerm surplus (-1)).addTerm artificial 1
    refine ⟨⟨e, .eq, c.bound, some surplus, some artificial⟩, ?_, ?_⟩
    · exact ⟨rfl, rfl, ⟨_, List.append_assoc _ _ _, rfl⟩, by simp [hr, surplus],
        by simp [hr, artificial]⟩
    · refine bind_eq_ok.mpr ⟨_, m.createFresh_eq "s" i, ?_⟩
      refine bind_eq_ok.mpr ⟨_, createFresh_eq _ "R" i, ?_⟩
      exact congrArg (fun w => Except.ok (_, w))
        (addVariables_addVariables m [surplus] [artificial])
  | eq =>
    refine ⟨_, ?_, bind_eq_ok.mpr ⟨_, m.createFresh_eq "R" i, rfl⟩⟩
    exact ⟨rfl, rfl, ⟨_, rfl, rfl⟩, by simp [hr], by simp [hr]⟩

-- One step of the way through the constraints.
theorem exists_takesOver (m : Model α) (i : ℕ) (c : Constraint α) (lower : List α) :
    ∃ d, m.TakesOver i c d ∧
      (if c.isPolynomial then m.addEquality i (c.oriented lower) else .ok (c, m)) =
        .ok (d, m.addVariables d.own) := by
  by_cases hc : c.isPolynomial = true
  · obtain ⟨d, hd, heq⟩ := m.exists_equates i (c.oriented lower)
    have htakes : m.TakesOver i c d := .row hc (oriented_cases c lower) hd
    refine ⟨d, htakes, ?_⟩
    rw [if_pos hc, heq, Constraint.own, if_pos (htakes.isPolynomial.trans hc)]
  · have hsingle : c.isPolynomial = false := by simpa using hc
    refine ⟨c, .single hsingle, ?_⟩
    rw [if_neg hc, Constraint.own, if_neg hc, addVariables_nil]

end Model

namespace Normal

variable [Scalar α]

-- Induction on the constraints. The variables of the first row are there when the others look for
-- their names.
theorem exists_equalities (lower : List α) (i : ℕ) (cs : List (Constraint α)) (m : Model α) :
    ∃ ds, equalities lower i cs m = .ok (ds, m.addVariables (ds.flatMap Constraint.own)) ∧
      ds.length = cs.length ∧ ∀ k c d, cs[k]? = some c → ds[k]? = some d →
        (m.addVariables ((ds.take k).flatMap Constraint.own)).TakesOver (i + k) c d := by
  induction cs generalizing i m with
  | nil => exact ⟨[], by simp [equalities], rfl, by simp⟩
  | cons c rest ih =>
    obtain ⟨d, hd, heq⟩ := m.exists_takesOver i c lower
    obtain ⟨ds, hds, hlength, hrest⟩ := ih (i + 1) (m.addVariables d.own)
    refine ⟨d :: ds, ?_, by simp [hlength], fun k c' d' hc' hd' => ?_⟩
    · rw [Model.addVariables_addVariables] at hds
      exact equalities_cons_eq_ok_iff.mpr ⟨d, m.addVariables d.own, ds, heq, hds, rfl⟩
    · cases k with
      | zero =>
        obtain rfl := Option.some.inj hc'
        obtain rfl := Option.some.inj hd'
        simpa using hd
      | succ k =>
        have hk := hrest k c' d' hc' hd'
        rw [Model.addVariables_addVariables] at hk
        rw [List.take_succ_cons, List.flatMap_cons, ← Nat.add_assoc, Nat.add_right_comm]
        exact hk

end Normal

end LinearProgram
