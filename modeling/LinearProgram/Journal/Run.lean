import LinearProgram.Journal.Event
import LinearProgram.Tableau.Run
import LinearProgram.Text.Tableau

namespace LinearProgram.Tableau

variable {m n : Nat}

def moveEvents (t : Tableau Float m n) : Move Float m n → List Event
  | .optimal | .unbounded _ => []
  | .flip q _ => [⟨.trace, "column " ++ toString q.val ++ " moves to its other bound"⟩]
  | .pivot r q atUpper _ =>
    [⟨.trace, "pivot on (" ++ toString r.val ++ ", " ++ toString q.val ++ "), " ++
      toString (t.basis.get r).val ++ " leaves" ++ (if atUpper then " at its upper bound" else "")⟩]

def iterationLine (t : Tableau Float m n) (number : Nat) : String :=
  Decimal.aligned 10 (toString number) ++ "  |  " ++ Decimal.scientific 8 t.objective

def switchEvents (stalled : Nat) : List Event :=
  if stalled = stallLimit then
    [⟨.debug, toString stalled ++ " degenerate pivots in a row, using Bland's rule"⟩]
  else
    []

-- A run from iteration `number` on.
def runJournalFrom (iterations number stalled : Nat) (t : Tableau Float m n) :
    Journal (Status × Tableau Float m n) := do
  Journal.record [⟨.info, t.iterationLine number⟩]
  match iterations with
  | 0 =>
    Journal.record [⟨.debug, "reached max iterations"⟩]
    return (.iterationLimit, t)
  | iterations + 1 =>
    let move := t.move (stallLimit ≤ stalled)
    let next := t.apply move
    Journal.record (switchEvents stalled ++ t.moveEvents move)
    match move.step with
    | .optimal =>
      Journal.record [⟨.trace, "final tableau:\n" ++ t.text⟩]
      return (.optimal, next)
    | .unbounded => return (.unbounded, next)
    | .pivoted degenerate =>
      runJournalFrom iterations (number + 1) (if degenerate then stalled + 1 else 0) next

def runJournal (t : Tableau Float m n) (iterations : Nat) :
    Journal (Status × Tableau Float m n) := do
  Journal.record [⟨.info, "solving problem with " ++ toString n ++ " variables and " ++
      toString m ++ " constraints"⟩,
    ⟨.trace, "initial tableau:\n" ++ t.text⟩,
    ⟨.info, "Iteration  |  Objective"⟩]
  t.runJournalFrom iterations 1 0

def runEvents (t : Tableau Float m n) (iterations : Nat) : List Event :=
  (t.runJournal iterations).finish.2

end LinearProgram.Tableau
