import LinearProgram.Proofs.CanonicalForm
import LinearProgram.Proofs.Constraint
import LinearProgram.Proofs.Operations

namespace LinearProgram

namespace Constraint

-- What reversing and simplifying make of a constraint, in any order and number.
inductive Reworded {α : Type} [Scalar α] (c : Constraint α) : Constraint α → Prop
  | refl : Reworded c c
  | reversed {d : Constraint α} : Reworded c d → Reworded c d.reversed
  | simplify {d : Constraint α} : Reworded c d → Reworded c d.simplify

section Check

variable {c d : Constraint ℚ} (x : List ℚ)

theorem isSatisfied_iff :
    c.isSatisfied x = true ↔ c.relation.HoldsWithin eps (c.expression.evaluate x) c.bound :=
  relates_iff _ _ _

-- Both sides change their signs, and the tolerance is on the side that it was on.
theorem isSatisfied_reversed : c.reversed.isSatisfied x = c.isSatisfied x := by
  rw [Bool.eq_iff_iff, isSatisfied_iff, isSatisfied_iff]
  unfold reversed
  rw [Expression.evaluate_neg]
  exact c.relation.holdsWithin_reversed _ _ _

theorem isSatisfied_simplify : c.simplify.isSatisfied x = c.isSatisfied x := by
  unfold isSatisfied simplify
  rw [Expression.evaluate_simplify]

theorem Reworded.isSatisfied (h : c.Reworded d) : d.isSatisfied x = c.isSatisfied x := by
  induction h with
  | refl => rfl
  | reversed _ ih => rw [isSatisfied_reversed, ih]
  | simplify _ ih => rw [isSatisfied_simplify, ih]

-- The points that the check can be asked of stay the same too.
theorem Reworded.fits (h : c.Reworded d) : d.expression.fits x = c.expression.fits x := by
  induction h with
  | refl => rfl
  | reversed _ ih => exact (Expression.fits_neg _ x).trans ih
  | simplify _ ih => exact (Expression.fits_simplify _ x).trans ih

theorem reworded_stored (e : Expression ℚ) (relation : Relation) (bound : ℚ) :
    Reworded ⟨e, relation, bound, none, none⟩ (stored e relation bound) := by
  unfold stored
  simp only
  split_ifs
  · exact .reversed .refl
  · exact .refl

end Check

end Constraint

section Models

variable (m : Model ℚ) (x : List ℚ)

theorem owns_stored {e : Expression ℚ} (he : m.Owns e) (relation : Relation) (bound : ℚ) :
    m.Owns (Constraint.stored e relation bound).expression := by
  unfold Constraint.stored
  simp only
  split_ifs
  · exact he.neg
  · exact he

-- A request about the model's own variables is never refused.
theorem addConstraint_of_owns {e : Expression ℚ} (he : m.Owns e) (relation : Relation)
    (bound : ℚ) : m.addConstraint e relation bound =
      .ok { m with constraints := m.constraints ++ [.stored e relation bound] } := by
  unfold Model.addConstraint
  rw [Constraint.nonNegative_eq_stored]
  exact Model.pushConstraint_of_owns (owns_stored m he relation bound)

theorem isFeasible_simplify : m.simplify.isFeasible x = m.isFeasible x := by
  have hall : (m.constraints.map Constraint.simplify).all (fun c => c.isSatisfied x) =
      m.constraints.all fun c => c.isSatisfied x := by
    rw [List.all_map]
    exact congrArg m.constraints.all (funext fun c => c.isSatisfied_simplify x)
  unfold Model.isFeasible Model.simplify
  rw [hall]

theorem objective_simplify :
    m.simplify.objective.map (·.evaluate x) = m.objective.map (·.evaluate x) := by
  unfold Model.simplify
  rw [Option.map_map]
  exact congrArg (Option.map · m.objective)
    (funext fun o => o.expression.evaluate_simplify x)

end Models

-- A constraint is stored with a bound that is not negative, and the check of a point tells whether
-- the request holds there within the tolerance. No reversal and no simplification changes what it
-- tells, and simplifying a model changes neither its feasible points nor the value of its
-- objective.
theorem rewording_keeps_satisfaction :
    (∀ (m : Model ℚ) (e : Expression ℚ) (relation : Relation) (bound : ℚ), m.Owns e →
      ∃ c, m.addConstraint e relation bound =
          .ok { m with constraints := m.constraints ++ [c] } ∧
        0 ≤ c.bound ∧ ∀ x : List ℚ, x.length = m.vars.length →
          c.expression.fits x = true ∧
          (c.isSatisfied x = true ↔ relation.HoldsWithin eps (e.evaluate x) bound)) ∧
    (∀ c d : Constraint ℚ, c.Reworded d → ∀ x : List ℚ,
      d.expression.fits x = c.expression.fits x ∧ d.isSatisfied x = c.isSatisfied x) ∧
    ∀ (m : Model ℚ) (x : List ℚ), m.simplify.isFeasible x = m.isFeasible x ∧
      m.simplify.objective.map (·.evaluate x) = m.objective.map (·.evaluate x) := by
  refine ⟨fun m e relation bound he => ?_, fun c d h x => ⟨h.fits x, h.isSatisfied x⟩,
    fun m x => ⟨isFeasible_simplify m x, objective_simplify m x⟩⟩
  refine ⟨.stored e relation bound, addConstraint_of_owns m he relation bound,
    Constraint.stored_bound_nonneg e relation bound, fun x hx => ⟨?_, ?_⟩⟩
  · rw [Expression.fits_iff]
    intro a ha
    rw [hx]
    exact Model.index_lt_of_owns (owns_stored m he relation bound a ha)
  · rw [(Constraint.reworded_stored e relation bound).isSatisfied x, Constraint.isSatisfied_iff]

-- The request `2 x - 2 y ≥ -4`, with `x` in two atoms, is stored the other way around. The first
-- point misses it by just the tolerance.
theorem rewording_keeps_satisfaction_of_negative_bound :
    let x : Variable := ⟨"x", 0⟩
    let y : Variable := ⟨"y", 1⟩
    let e : Expression ℚ := .ofTerms [(x, 1), (y, -2), (x, 1)]
    let m : Model ℚ := { vars := [x, y], objective := some ⟨.ofTerms [(y, 1), (y, 1)], .minimize⟩ }
    m.Owns e ∧ ∃ c, m.addConstraint e .ge (-4) = .ok { m with constraints := [c] } ∧
      0 ≤ c.bound ∧ c.isSatisfied [1, 3 + eps / 2] = true ∧
      c.reversed.simplify.reversed.isSatisfied [1, 3 + eps / 2] = true ∧
      c.isSatisfied [1, 3 + eps] = false ∧
      m.simplify.isFeasible [1, 1] = true ∧
      m.simplify.objective.map (·.evaluate [1, 1]) = some 2 := by
  intro x y e m
  have howns : m.Owns e := by decide
  obtain ⟨hstored, hreworded, hmodel⟩ := rewording_keeps_satisfaction
  obtain ⟨c, hadd, hbound, hcheck⟩ := hstored m e .ge (-4) howns
  have hedge : c.isSatisfied [1, 3 + eps / 2] = true := by
    rw [(hcheck [1, 3 + eps / 2] rfl).2, ← relates_iff]
    decide +kernel
  have hbeyond : c.isSatisfied [1, 3 + eps] = false := by
    rw [← Bool.not_eq_true, (hcheck [1, 3 + eps] rfl).2, ← relates_iff]
    decide +kernel
  have hsame := (hreworded c _ (.reversed (.simplify (.reversed .refl))) [1, 3 + eps / 2]).2
  refine ⟨howns, c, hadd, hbound, hedge, hsame.trans hedge, hbeyond, ?_, ?_⟩
  · rw [(hmodel m [1, 1]).1]
    decide +kernel
  · rw [(hmodel m [1, 1]).2]
    decide +kernel

end LinearProgram
