import LinearProgram.Proofs.Expression
import LinearProgram.Proofs.Restatement

namespace LinearProgram

section Twice

variable {α : Type} [Scalar α]

@[simp] theorem Constraint.simplify_simplify (c : Constraint α) :
    c.simplify.simplify = c.simplify := by
  simp [Constraint.simplify]

@[simp] theorem Objective.simplify_simplify (o : Objective α) :
    o.simplify.simplify = o.simplify := by
  simp [Objective.simplify]

@[simp] theorem Model.simplify_simplify (m : Model α) : m.simplify.simplify = m.simplify := by
  simp [Model.simplify, Function.comp_def]

end Twice

section Normalized

variable {α : Type} [Scalar α] (m : Model α)

theorem normal_simplify : Normal.ofModel m.simplify = Normal.ofModel m := by
  unfold Normal.ofModel
  rw [Model.validate_of_map (w := m.simplify) (m := m) (g := Objective.simplify) rfl rfl,
    bind_map_left, Model.simplify_simplify]
  refine bind_congr fun o => ?_
  rw [Objective.simplify_simplify]
  rfl

end Normalized

section Bound

variable {α : Type} [Scalar α]

-- A single atom has nothing to be merged with.
theorem simplify_bound {v : Variable} {relation : Relation} {bound : α} {c : Constraint α}
    (h : Constraint.nonNegative (Expression.ofTerms [(v, 1)]) relation bound = .ok c) :
    c.simplify = c := by
  have hsorted : c.expression.Sorted := by
    rcases nonNegative_eq_ok h with he | he
    · rw [he]
      exact List.pairwise_singleton ..
    · rw [he]
      exact List.pairwise_singleton ..
  unfold Constraint.simplify
  rw [Expression.simplify_of_sorted hsorted]

end Bound

theorem simplify_restates {α : Type} [Scalar α] : Restates (Model.simplify (α := α)) where
  vars _ := rfl
  objective := ⟨Objective.simplify, fun _ => rfl⟩
  normal := normal_simplify
  push m v relation bound c hc := by simp [Model.simplify, simplify_bound hc]

theorem objectiveValue_simplify (s : Solution ℚ) :
    (s.restate Model.simplify).objectiveValue = s.objectiveValue := by
  unfold Solution.objectiveValue
  rw [Solution.restate_assignment]
  unfold Solution.restate Model.simplify
  cases s.model.objective with
  | none => rfl
  | some o => exact o.expression.evaluate_simplify _

-- A model may be simplified before it is solved. Whatever the numbers are, the answers have the
-- same standard form, tableau and point, and a search visits as many nodes. Exact numbers also have
-- the same value of the objective as it is stated, which merging could otherwise round differently.
theorem simplify_keeps_answers :
    (∀ (α : Type) [Scalar α] (m : Model α),
      StandardForm.ofModel m.simplify = StandardForm.ofModel m ∧
      (∀ solver : Solver,
        solver.solve m.simplify = Solution.restate Model.simplify <$> solver.solve m ∧
        Solution.assignment <$> solver.solve m.simplify = Solution.assignment <$> solver.solve m) ∧
      ∀ solver : BranchAndBound,
        solver.search m.simplify = SearchOutcome.restate Model.simplify <$> solver.search m ∧
        SearchOutcome.answer <$> solver.search m.simplify =
          SearchOutcome.answer <$> solver.search m) ∧
    ∀ m : Model ℚ,
      (∀ solver : Solver,
        Solution.objectiveValue <$> solver.solve m.simplify =
          Solution.objectiveValue <$> solver.solve m) ∧
      ∀ solver : BranchAndBound,
        (fun outcome => outcome.best.map Solution.objectiveValue) <$> solver.search m.simplify =
          (fun outcome => outcome.best.map Solution.objectiveValue) <$> solver.search m := by
  refine ⟨fun α _ m => ⟨simplify_restates.form m, fun solver => ?_, fun solver => ?_⟩,
    fun m => ⟨fun solver => ?_, fun solver => ?_⟩⟩
  · exact ⟨simplify_restates.solve solver m,
      simplify_restates.solve_map (Solution.restate_assignment _) solver m⟩
  · exact ⟨simplify_restates.search solver m,
      simplify_restates.search_map (SearchOutcome.restate_answer _) solver m⟩
  · exact simplify_restates.solve_map objectiveValue_simplify solver m
  · refine simplify_restates.search_map (fun outcome => ?_) solver m
    simp [SearchOutcome.restate, Function.comp_def, objectiveValue_simplify]

end LinearProgram
