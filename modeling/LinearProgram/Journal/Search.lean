import LinearProgram.BranchAndBound
import LinearProgram.Journal.Solve

namespace LinearProgram

def Verdict.event (m : Model Float) : Verdict Float → Event
  | .pruned e => ⟨.trace, "pruned " ++ m.name ++ ": " ++ e.message⟩
  | .noImprovement bound =>
    ⟨.trace, "pruned " ++ m.name ++ ": bound " ++ Decimal.shortest bound ++ " is no improvement"⟩
  | .branch v value => ⟨.trace, "branching on " ++ v.name ++ " = " ++ Decimal.shortest value⟩
  | .improved s =>
    ⟨.debug, "new incumbent with objective " ++ Decimal.shortest s.objectiveValue⟩

namespace Search

def visitJournal (simplex : Solver) (search : Search Float) (m : Model Float)
    (rest : List (Model Float)) : Journal (Search Float) := do
  let (relaxation, events) := (simplex.journal m).finish
  Journal.record events
  let verdict ← judge (fun _ => relaxation) search.incumbent m
  Journal.record [verdict.event m]
  search.settle m rest verdict

-- The same loop as that of the search, with its records.
def journal (simplex : Solver) (allowance : Nat) (search : Search Float) :
    Journal (SearchOutcome Float) :=
  match search.pending with
  | [] => return ⟨search.incumbent, false, search.nodes⟩
  | m :: rest =>
    match allowance with
    | 0 => return ⟨search.incumbent, true, search.nodes⟩
    | allowance + 1 => do
      journal simplex allowance (← search.visitJournal simplex m rest)

end Search

def BranchAndBound.journal (solver : BranchAndBound) (m : Model Float) :
    Journal (SearchOutcome Float) := do
  let _ ← m.validate
  Search.journal solver.simplex solver.timeLimit.nanoseconds (Search.start m)

end LinearProgram
