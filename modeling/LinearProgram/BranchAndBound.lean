import LinearProgram.Solver
import LinearProgram.TimeLimit

namespace LinearProgram

-- What becomes of one relaxation.
inductive Verdict (α : Type) where
  | pruned (e : Error α)
  | noImprovement (bound : α)
  | branch (v : Variable) (value : α)
  | improved (s : Solution α)

-- The models on the stack are still to be relaxed. The top is the first.
structure Search (α : Type) where
  incumbent : Option (Solution α)
  pending : List (Model α)
  nodes : Nat

-- An interrupted search may have missed a better solution.
structure SearchOutcome (α : Type) where
  best : Option (Solution α)
  interrupted : Bool
  nodes : Nat

section
variable {α : Type} [Scalar α]

-- The first of the caller's variables whose value is not integral.
def Solution.fractional? (s : Solution α) : Option (Variable × α) :=
  (s.model.vars.zip s.givenAssignment).find? fun (_, value) =>
    integralityEps < magnitude (value - Scalar.round value)

def Model.withBound (m : Model α) (v : Variable) (relation : Relation) (bound : α) :
    Except (Error α) (Model α) :=
  m.addConstraint (Expression.ofTerms [(v, 1)]) relation bound

namespace Search

def start (root : Model α) : Search α :=
  ⟨none, [root], 0⟩

-- Relaxations only get worse down the tree, so one that is no better than the incumbent is dropped.
def judge (relax : Model α → Except (Error α) (Solution α)) (incumbent : Option (Solution α))
    (m : Model α) : Except (Error α) (Verdict α) :=
  match relax m with
  | .error e => if e.isSolveOutcome then .ok (.pruned e) else .error e
  | .ok s =>
    let bound := s.normalizedObjectiveValue
    if incumbent.any fun best => bound ≤ best.normalizedObjectiveValue then
      .ok (.noImprovement bound)
    else
      match s.fractional? with
      | some (v, value) => .ok (.branch v value)
      | none => .ok (.improved s)

-- The branch below the value is searched before the branch above it.
def branches (m : Model α) (v : Variable) (value : α) : Except (Error α) (List (Model α)) := do
  let above ← m.withBound v .ge (Scalar.ceil value)
  let below ← m.withBound v .le (Scalar.floor value)
  return [below, above]

def settle (search : Search α) (m : Model α) (rest : List (Model α)) :
    Verdict α → Except (Error α) (Search α)
  | .pruned _ | .noImprovement _ => .ok ⟨search.incumbent, rest, search.nodes + 1⟩
  | .branch v value => do
    return ⟨search.incumbent, (← branches m v value) ++ rest, search.nodes + 1⟩
  | .improved s => .ok ⟨some s, rest, search.nodes + 1⟩

-- Takes one model off the stack.
def visit (relax : Model α → Except (Error α) (Solution α)) (search : Search α) (m : Model α)
    (rest : List (Model α)) : Except (Error α) (Search α) := do
  search.settle m rest (← judge relax search.incumbent m)

-- Visits at most `allowance` nodes.
def run (relax : Model α → Except (Error α) (Solution α)) (allowance : Nat) (search : Search α) :
    Except (Error α) (SearchOutcome α) :=
  match search.pending with
  | [] => .ok ⟨search.incumbent, false, search.nodes⟩
  | m :: rest =>
    match allowance with
    | 0 => .ok ⟨search.incumbent, true, search.nodes⟩
    | allowance + 1 =>
      match search.visit relax m rest with
      | .error e => .error e
      | .ok search => run relax allowance search

end Search

-- Depth-first branch and bound. Every variable has to be integral.
-- The relaxations are solved by the simplex method within its own limit.
structure BranchAndBound where
  timeLimit : TimeLimit
  simplex : Solver := {}

-- No node takes less than a nanosecond, so a limit is also one on the number of nodes.
def BranchAndBound.search (solver : BranchAndBound) (m : Model α) :
    Except (Error α) (SearchOutcome α) := do
  let _ ← m.validate
  Search.run solver.simplex.solve solver.timeLimit.nanoseconds (Search.start m)

end

end LinearProgram
