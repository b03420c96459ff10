import LinearProgram.Proofs.Restatement
import LinearProgram.Proofs.Solving

namespace LinearProgram

namespace Model

variable {α : Type}

def withObjective (m : Model α) (o : Option (Objective α)) : Model α :=
  { m with objective := o }

def minimizing (m : Model α) (e : Expression α) : Model α :=
  m.withObjective (some ⟨e, .minimize⟩)

def maximizing (m : Model α) (e : Expression α) : Model α :=
  m.withObjective (some ⟨e, .maximize⟩)

-- The model with its objective turned into one to maximize.
def asMaximize [Scalar α] (m : Model α) : Model α :=
  m.withObjective (m.objective.map Objective.asMaximize)

end Model

-- Neither the bounds nor the equalities of a normalized model look at the objective.
section Equalities

variable {α : Type} [Scalar α] (m : Model α) (o : Option (Objective α))

omit [Scalar α] in
theorem createFresh_withObjective (stem : String) (i : ℕ) :
    (m.withObjective o).createFresh stem i =
      Prod.map id (·.withObjective o) <$> m.createFresh stem i := by
  change (m.withObjective o).createVariable (m.freshName stem i) = _
  unfold Model.createFresh Model.createVariable
  change (if (m.find? (m.freshName stem i)).isSome = true then _ else _) = _
  split_ifs
  · rfl
  · rfl

theorem addEquality_withObjective (i : ℕ) (c : Constraint α) :
    (m.withObjective o).addEquality i c =
      Prod.map id (·.withObjective o) <$> m.addEquality i c := by
  unfold Model.addEquality
  cases c.relation with
  | le => simp only [createFresh_withObjective, bind_map_left, map_bind, map_pure, Prod.map, id]
  | ge => simp only [createFresh_withObjective, bind_map_left, map_bind, map_pure, Prod.map, id]
  | eq => simp only [createFresh_withObjective, bind_map_left, map_bind, map_pure, Prod.map, id]

theorem equalities_withObjective (lower : List α) (i : ℕ) (cs : List (Constraint α)) :
    Normal.equalities lower i cs (m.withObjective o) =
      Prod.map id (·.withObjective o) <$> Normal.equalities lower i cs m := by
  induction cs generalizing i m with
  | nil => rfl
  | cons c rest ih =>
    -- The rest of the rows, after whatever the first one has made of the model.
    have hrest : ∀ d w,
        (Normal.equalities lower (i + 1) rest (Model.withObjective w o) >>=
            fun next => pure (d :: next.1, next.2)) =
          Prod.map id (·.withObjective o) <$> (Normal.equalities lower (i + 1) rest w >>=
            fun next => pure (d :: next.1, next.2)) := by
      intro d w
      simp only [ih, bind_map_left, map_bind, map_pure, Prod.map, id]
    unfold Normal.equalities
    split_ifs
    · rw [addEquality_withObjective, bind_map_left, map_bind]
      exact bind_congr fun first => hrest first.1 first.2
    · exact hrest c m

theorem bounds_withObjective : Bounds.ofModel (m.withObjective o) = Bounds.ofModel m := by
  unfold Bounds.ofModel
  dsimp only [Model.withObjective]
  refine bind_congr fun bounds => ?_
  cases (List.finRange m.vars.length).find? bounds.isContradictory with
  | none => rfl
  | some j => rfl

end Equalities

section Normalized

variable (m : Model ℚ)

-- The negation may come before the merging of atoms or after it.
theorem asMaximize_simplify (o : Objective ℚ) :
    o.asMaximize.simplify.asMaximize = o.simplify.asMaximize := by
  obtain ⟨e, direction⟩ := o
  cases direction with
  | maximize => rfl
  | minimize => exact congrArg (Objective.mk · .maximize) (Expression.simplify_neg e)

theorem normal_asMaximize : Normal.ofModel m.asMaximize = Normal.ofModel m := by
  unfold Normal.ofModel
  rw [Model.validate_of_map (w := m.asMaximize) (m := m) (g := Objective.asMaximize) rfl rfl,
    bind_map_left]
  refine bind_congr fun o => ?_
  rw [asMaximize_simplify]
  let simplified := { m.simplify with name := m.name ++ " (normalized)" }
  -- What is normalized on the other side differs from this in the objective alone.
  let other := simplified.withObjective m.asMaximize.simplify.objective
  have hbounds : Bounds.ofModel other = Bounds.ofModel simplified := bounds_withObjective ..
  change (Bounds.ofModel other >>= fun bounds => _) = _
  rw [hbounds]
  refine bind_congr fun bounds => ?_
  change (Normal.equalities bounds.lower.toList 0 other.constraints other >>= fun rows => _) = _
  rw [equalities_withObjective, bind_map_left]
  rfl

end Normalized

theorem asMaximize_restates : Restates (Model.asMaximize (α := ℚ)) where
  vars _ := rfl
  objective := ⟨Objective.asMaximize, fun _ => rfl⟩
  normal := normal_asMaximize
  push _ _ _ _ _ _ := rfl

theorem asMaximize_minimizing (m : Model ℚ) (e : Expression ℚ) :
    (m.minimizing e).asMaximize = m.maximizing (-e) := rfl

theorem neg_objectiveValue_asMaximize {s : Solution ℚ} {m : Model ℚ} {e : Expression ℚ}
    (hs : s.model = m.minimizing e) :
    -(s.restate Model.asMaximize).objectiveValue = s.objectiveValue := by
  unfold Solution.objectiveValue
  rw [Solution.restate_assignment]
  unfold Solution.restate
  rw [hs]
  change -(-e).evaluate _ = e.evaluate _
  rw [Expression.evaluate_neg, neg_neg]

theorem objectiveValue_maximizing_neg (solver : Solver) (m : Model ℚ) (e : Expression ℚ) :
    (fun s => -s.objectiveValue) <$> solver.solve (m.maximizing (-e)) =
      Solution.objectiveValue <$> solver.solve (m.minimizing e) := by
  rw [← asMaximize_minimizing, asMaximize_restates.solve, Functor.map_map]
  cases hsolve : solver.solve (m.minimizing e) with
  | error e => rfl
  | ok s => exact congrArg Except.ok (neg_objectiveValue_asMaximize (solve_eq_ok hsolve).1)

-- Minimizing and maximizing the negation give one answer, alone and in a search. Only the value of
-- the objective as it is stated has the other sign.
theorem minimize_mirrors_maximize (m : Model ℚ) (e : Expression ℚ) :
    (∀ solver : Solver,
      solver.solve (m.maximizing (-e)) =
        Solution.restate Model.asMaximize <$> solver.solve (m.minimizing e) ∧
      Solution.assignment <$> solver.solve (m.maximizing (-e)) =
        Solution.assignment <$> solver.solve (m.minimizing e) ∧
      Solution.normalizedObjectiveValue <$> solver.solve (m.maximizing (-e)) =
        Solution.normalizedObjectiveValue <$> solver.solve (m.minimizing e) ∧
      Solution.costRanges <$> solver.solve (m.maximizing (-e)) =
        Solution.costRanges <$> solver.solve (m.minimizing e) ∧
      (fun s => -s.objectiveValue) <$> solver.solve (m.maximizing (-e)) =
        Solution.objectiveValue <$> solver.solve (m.minimizing e)) ∧
    ∀ solver : BranchAndBound,
      solver.search (m.maximizing (-e)) =
        SearchOutcome.restate Model.asMaximize <$> solver.search (m.minimizing e) ∧
      SearchOutcome.answer <$> solver.search (m.maximizing (-e)) =
        SearchOutcome.answer <$> solver.search (m.minimizing e) := by
  have h := asMaximize_restates
  rw [← asMaximize_minimizing]
  refine ⟨fun solver => ⟨h.solve solver _, ?_, ?_, ?_, ?_⟩, fun solver => ⟨h.search solver _, ?_⟩⟩
  · exact h.solve_map (Solution.restate_assignment _) solver _
  · exact h.solve_map (Solution.restate_normalizedObjectiveValue _) solver _
  · exact h.solve_map h.costRanges solver _
  · exact objectiveValue_maximizing_neg solver m e
  · exact h.search_map (SearchOutcome.restate_answer _) solver _

end LinearProgram
