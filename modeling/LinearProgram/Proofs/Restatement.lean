import LinearProgram.Proofs.Integrity
import LinearProgram.Sensitivity
import LinearProgram.BranchAndBound

namespace LinearProgram

variable {α : Type} [Scalar α]

-- `f` changes nothing that solving depends on, and what bounds a single variable may be added
-- before it or after it.
structure Restates (f : Model α → Model α) : Prop where
  vars : ∀ m, (f m).vars = m.vars
  objective : ∃ g, ∀ m, (f m).objective = m.objective.map g
  normal : ∀ m, Normal.ofModel (f m) = Normal.ofModel m
  push : ∀ m v relation bound c,
    Constraint.nonNegative (Expression.ofTerms [(v, 1)]) relation bound = .ok c →
      f { m with constraints := m.constraints ++ [c] } =
        { f m with constraints := (f m).constraints ++ [c] }

omit [Scalar α] in
theorem Model.validate_of_map {m w : Model α} {g : Objective α → Objective α}
    (hvars : w.vars = m.vars) (hobjective : w.objective = m.objective.map g) :
    w.validate = g <$> m.validate := by
  unfold Model.validate
  rw [hvars, hobjective]
  split_ifs
  · rfl
  · cases m.objective with
    | none => rfl
    | some o => rfl

section Restate

variable (f : Model α → Model α)

-- The standard form and the final tableau stay as they are.
def Solution.restate (s : Solution α) : Solution α :=
  { s with model := f s.model }

def Verdict.restate : Verdict α → Verdict α
  | .pruned e => .pruned e
  | .noImprovement bound => .noImprovement bound
  | .branch v value => .branch v value
  | .improved s => .improved (s.restate f)

def Search.restate (search : Search α) : Search α :=
  ⟨search.incumbent.map (Solution.restate f), search.pending.map f, search.nodes⟩

def SearchOutcome.restate (outcome : SearchOutcome α) : SearchOutcome α :=
  { outcome with best := outcome.best.map (Solution.restate f) }

-- What the caller reads off a search: the point, whether it was interrupted, and its length.
def SearchOutcome.answer (outcome : SearchOutcome α) : Option (List α) × Bool × ℕ :=
  (outcome.best.map Solution.assignment, outcome.interrupted, outcome.nodes)

theorem Solution.restate_assignment (s : Solution α) :
    (s.restate f).assignment = s.assignment := rfl

theorem Solution.restate_normalizedObjectiveValue (s : Solution α) :
    (s.restate f).normalizedObjectiveValue = s.normalizedObjectiveValue := rfl

theorem SearchOutcome.restate_answer (outcome : SearchOutcome α) :
    (outcome.restate f).answer = outcome.answer := by
  simp [answer, restate, Function.comp_def, Solution.restate_assignment]

end Restate

namespace Restates

variable {f : Model α → Model α} (h : Restates f)
include h

theorem costRanges (s : Solution α) : (s.restate f).costRanges = s.costRanges := by
  unfold Solution.costRanges Solution.coefficients Solution.restate
  rw [h.vars]

theorem fractional? (s : Solution α) : (s.restate f).fractional? = s.fractional? := by
  unfold Solution.fractional? Solution.givenAssignment
  rw [Solution.restate_assignment, Solution.restate, h.vars]

theorem form (m : Model α) : StandardForm.ofModel (f m) = StandardForm.ofModel m := by
  unfold StandardForm.ofModel
  rw [h.normal, h.vars]

theorem solve (solver : Solver) (m : Model α) :
    solver.solve (f m) = Solution.restate f <$> solver.solve m := by
  unfold Solver.solve
  rw [h.form]
  simp only [map_bind, map_pure]
  rfl

theorem validate_bind {β : Type} (m : Model α) (next : Except (Error α) β) :
    ((f m).validate >>= fun _ => next) = m.validate >>= fun _ => next := by
  obtain ⟨g, hg⟩ := h.objective
  rw [Model.validate_of_map (h.vars m) (hg m), bind_map_left]

theorem withBound (m : Model α) (v : Variable) (relation : Relation) (bound : α) :
    (f m).withBound v relation bound = f <$> m.withBound v relation bound := by
  unfold Model.withBound Model.addConstraint
  cases hc : Constraint.nonNegative (Expression.ofTerms [(v, 1)]) relation bound with
  | error e => rfl
  | ok c =>
    have howns : (f m).owns = m.owns := by
      unfold Model.owns
      rw [h.vars]
    change (f m).pushConstraint c = f <$> m.pushConstraint c
    unfold Model.pushConstraint Model.checkVariables
    simp only [howns, map_bind, map_pure, h.push m v relation bound c hc]

theorem branches (m : Model α) (v : Variable) (value : α) :
    Search.branches (f m) v value = List.map f <$> Search.branches m v value := by
  unfold Search.branches
  simp only [h.withBound, map_bind, bind_map_left, map_pure, List.map_cons, List.map_nil]

theorem settle (search : Search α) (m : Model α) (rest : List (Model α)) (verdict : Verdict α) :
    (search.restate f).settle (f m) (rest.map f) (verdict.restate f) =
      Search.restate f <$> search.settle m rest verdict := by
  cases verdict with
  | pruned e => rfl
  | noImprovement bound => rfl
  | improved s => rfl
  | branch v value =>
    simp only [Verdict.restate, Search.settle, h.branches, map_bind, bind_map_left, map_pure]
    simp only [Search.restate, List.map_append]

section Relaxed

variable {relax : Model α → Except (Error α) (Solution α)}
  (hrelax : ∀ m, relax (f m) = Solution.restate f <$> relax m)
include hrelax

theorem judge (incumbent : Option (Solution α)) (m : Model α) :
    Search.judge relax (incumbent.map (Solution.restate f)) (f m) =
      Verdict.restate f <$> Search.judge relax incumbent m := by
  have hbound : ∀ bound : α,
      ((incumbent.map (Solution.restate f)).any fun best => bound ≤ best.normalizedObjectiveValue) =
        incumbent.any fun best => bound ≤ best.normalizedObjectiveValue :=
    fun _ => Option.any_map ..
  unfold Search.judge
  rw [hrelax]
  cases relax m with
  | error e =>
    dsimp only [Functor.map, Except.map]
    split_ifs
    · rfl
    · rfl
  | ok s =>
    dsimp only [Functor.map, Except.map]
    rw [h.fractional?, Solution.restate_normalizedObjectiveValue, hbound]
    split_ifs
    · rfl
    · cases s.fractional? with
      | none => rfl
      | some _ => rfl

theorem visit (search : Search α) (m : Model α) (rest : List (Model α)) :
    (search.restate f).visit relax (f m) (rest.map f) =
      Search.restate f <$> search.visit relax m rest := by
  have hjudge := h.judge hrelax search.incumbent m
  unfold Search.visit
  rw [Search.restate, hjudge, bind_map_left, map_bind]
  exact bind_congr fun verdict => h.settle search m rest verdict

-- Each node is visited in lock step with its restatement.
theorem run (allowance : ℕ) (search : Search α) :
    Search.run relax allowance (search.restate f) =
      SearchOutcome.restate f <$> Search.run relax allowance search := by
  induction allowance generalizing search with
  | zero =>
    obtain ⟨incumbent, pending, nodes⟩ := search
    cases pending with
    | nil => rfl
    | cons m rest => rfl
  | succ allowance ih =>
    obtain ⟨incumbent, pending, nodes⟩ := search
    cases pending with
    | nil => rfl
    | cons m rest =>
      have hvisit := h.visit hrelax ⟨incumbent, m :: rest, nodes⟩ m rest
      unfold Search.run
      simp only [Search.restate, List.map_cons] at hvisit ⊢
      rw [hvisit]
      cases Search.visit relax ⟨incumbent, m :: rest, nodes⟩ m rest with
      | error e => rfl
      | ok next => exact ih next

end Relaxed

theorem search (solver : BranchAndBound) (m : Model α) :
    solver.search (f m) = SearchOutcome.restate f <$> solver.search m := by
  have hrun := h.run (h.solve solver.simplex) solver.timeLimit.nanoseconds (Search.start m)
  unfold BranchAndBound.search
  rw [h.validate_bind, map_bind, ← hrun]
  rfl

theorem solve_map {β : Type} {g : Solution α → β} (hg : ∀ s, g (s.restate f) = g s)
    (solver : Solver) (m : Model α) : g <$> solver.solve (f m) = g <$> solver.solve m := by
  rw [h.solve, Functor.map_map]
  simp only [hg]

theorem search_map {β : Type} {g : SearchOutcome α → β}
    (hg : ∀ outcome, g (outcome.restate f) = g outcome) (solver : BranchAndBound) (m : Model α) :
    g <$> solver.search (f m) = g <$> solver.search m := by
  rw [h.search, Functor.map_map]
  simp only [hg]

end Restates

end LinearProgram
