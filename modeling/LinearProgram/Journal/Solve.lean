import LinearProgram.Journal.Run
import LinearProgram.Solver
import LinearProgram.Sensitivity
import LinearProgram.Text.Error

namespace LinearProgram

def Infeasibility.event : Infeasibility Float → Event
  | .constantConstraint c => ⟨.debug, "constant constraint " ++ c.text ++ " can never hold"⟩
  | .contradictoryBounds v lower upper =>
    ⟨.debug, "bounds of " ++ v.name ++ " are contradictory: [" ++ Decimal.shortest lower ++ ", " ++
      Decimal.shortest upper ++ "]"⟩
  | .positiveArtificials sum =>
    ⟨.debug, "artificial variables sum to " ++ Decimal.shortest sum ++ " after phase 1"⟩

-- What shows the infeasibility, if that is the error.
def Error.reasonEvents : Error Float → List Event
  | .infeasible reason => [reason.event]
  | _ => []

def Bounds.journal (m : Model Float) : Journal (Bounds Float m.vars.length) :=
  Journal.attempt (Bounds.ofModel m) Error.reasonEvents

def Normal.journal (m : Model Float) : Journal (Normal Float) := do
  let normal ← Journal.attempt (Normal.ofModel m) Error.reasonEvents
  Journal.record [⟨.debug, "normalized model has " ++ toString normal.model.vars.length ++
    " variables and " ++ toString normal.model.rows.length ++ " rows"⟩]
  return normal

namespace StandardForm

def journal (m : Model Float) : Journal (StandardForm Float) := do
  ofNormal (← Normal.journal m) m.vars.length

def firstJournal (form : StandardForm Float) : Journal (Tableau Float form.rows form.cols) := do
  Journal.record [⟨.debug, "building phase 1 tableau with " ++ toString form.artificial.length ++
    " artificial variables"⟩]
  form.firstTableau

def secondJournal (form : StandardForm Float) (t : Tableau Float form.rows form.cols) :
    Journal (Tableau Float form.rows form.cols) := do
  let second ← Journal.attempt (form.secondTableau t) Error.reasonEvents
  Journal.record [⟨.debug, "converting phase 1 tableau to phase 2 tableau"⟩]
  return second

end StandardForm

namespace Solver

def limitEvents : Error Float → List Event
  | .iterationLimit _ => [⟨.info, "reached maximum iterations"⟩]
  | .unboundedFirstPhase => [⟨.warn, "primal phase 1 should never be unbounded"⟩]
  | .unbounded => [⟨.info, "problem is unbounded"⟩]
  | _ => []

def firstPhaseJournal (solver : Solver) (form : StandardForm Float)
    (t : Tableau Float form.rows form.cols) : Journal (Tableau Float form.rows form.cols) := do
  if form.isTrivial then
    return t
  else
    Journal.record [⟨.info, "PRIMAL PHASE 1"⟩]
    let ended ← t.runJournal solver.maxIterations
    let last ← Journal.attempt (solver.endPhase .unboundedFirstPhase ended) limitEvents
    Journal.record [⟨.debug, "phase 1 objective: " ++ Decimal.shortest last.objective⟩]
    return last

def secondPhaseJournal (solver : Solver) (form : StandardForm Float)
    (t : Tableau Float form.rows form.cols) : Journal (Tableau Float form.rows form.cols) := do
  Journal.record [⟨.info, "PRIMAL PHASE 2"⟩]
  let ended ← t.runJournal solver.maxIterations
  Journal.attempt (solver.endPhase .unbounded ended) limitEvents

def journal (solver : Solver) (m : Model Float) : Journal (Solution Float) := do
  let form ← StandardForm.journal m
  let first ← form.firstJournal
  let feasible ← solver.firstPhaseJournal form first
  let second ← try form.secondJournal feasible catch e =>
    Journal.record [⟨.info, "problem is infeasible"⟩]
    throw e
  let final ← solver.secondPhaseJournal form second
  let solution : Solution Float := ⟨m, form, final⟩
  Journal.record [⟨.info, "found optimal point with objective value " ++
    Decimal.shortest solution.objectiveValue⟩]
  return solution

end Solver

def CostRange.event (v : Variable) (r : CostRange Float) : Event :=
  ⟨.debug, v.name ++ ": coefficient " ++ Decimal.shortest r.coefficient ++ ", deltas [" ++
    Decimal.shortest (r.change.fall.getD (-1 / 0)) ++ ", " ++
    Decimal.shortest (r.change.rise.getD (1 / 0)) ++ "]"⟩

def Solution.rangeEvents (s : Solution Float) : List Event :=
  List.zipWith CostRange.event s.model.vars s.costRanges

end LinearProgram
