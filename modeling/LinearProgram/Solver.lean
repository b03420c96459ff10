import LinearProgram.Solution

namespace LinearProgram

-- Each phase may use up to `maxIterations` iterations.
structure Solver where
  maxIterations : Nat := 10000
deriving DecidableEq

namespace Solver

-- Without a limit the method may go on until a 64-bit count is full.
def ofLimit : Option Nat → Solver
  | some limit => ⟨limit⟩
  | none => ⟨0xFFFFFFFFFFFFFFFF⟩

variable {α : Type} [Scalar α]

-- What the end of a run makes of a phase, with the error for a movement that nothing ends.
def endPhase (solver : Solver) (endless : Error α) {m n : Nat} :
    Status × Tableau α m n → Except (Error α) (Tableau α m n)
  | (.optimal, t) => .ok t
  | (.unbounded, _) => .error endless
  | (.iterationLimit, _) => .error (.iterationLimit solver.maxIterations)

def runFirstPhase (solver : Solver) (form : StandardForm α)
    (t : Tableau α form.rows form.cols) : Except (Error α) (Tableau α form.rows form.cols) :=
  if form.isTrivial then .ok t
  else solver.endPhase .unboundedFirstPhase (t.run solver.maxIterations)

def runSecondPhase (solver : Solver) (form : StandardForm α)
    (t : Tableau α form.rows form.cols) : Except (Error α) (Tableau α form.rows form.cols) :=
  solver.endPhase .unbounded (t.run solver.maxIterations)

def solve (solver : Solver) (m : Model α) : Except (Error α) (Solution α) := do
  let form ← StandardForm.ofModel m
  let first ← form.firstTableau
  let second ← form.secondTableau (← solver.runFirstPhase form first)
  let final ← solver.runSecondPhase form second
  return ⟨m, form, final⟩

end Solver

end LinearProgram
