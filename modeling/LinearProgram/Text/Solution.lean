import LinearProgram.Decimal.Shortest
import LinearProgram.Sensitivity

namespace LinearProgram

def Solution.text (s : Solution Float) : String :=
  let values := List.zipWith (fun v value => " " ++ v.name ++ " = " ++ Decimal.shortest value ++ ";")
    s.form.model.vars s.assignment
  "- objective value : " ++ Decimal.shortest s.objectiveValue ++ "\n- assignment :" ++
    String.join values

namespace CostRange

def reportTitle : String :=
  "Cost Coefficient Sensitivity Analysis"

-- One line per range. Both ends are as wide as the widest of all.
def report (coefficients : List Float) (ranges : List (Float × Float)) : String :=
  let ends := ranges.map fun (low, high) => (Decimal.fixed 3 low, Decimal.fixed 3 high)
  let width := ends.foldl (fun width (low, high) => max width (max low.length high.length)) 0
  let lines := ends.mapIdx fun i (low, high) =>
    let coefficient := coefficients[i]?.getD (0 / 0)
    "\t " ++ Decimal.aligned width low ++ " <= c" ++ toString i ++ " <= " ++
      Decimal.aligned width high ++ ", (originally: " ++ Decimal.fixed 3 coefficient ++ ")\n"
  "* " ++ reportTitle ++ ":\n" ++
    "-> To keep the current optimum, the cost coefficients should stay in following ranges:\n" ++
    String.join lines

-- A missing end lies at infinity.
def ends (r : CostRange Float) : Float × Float :=
  (r.low.getD (-1 / 0), r.high.getD (1 / 0))

end CostRange

end LinearProgram
