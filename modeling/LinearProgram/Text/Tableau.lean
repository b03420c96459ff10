import LinearProgram.Decimal.Places
import LinearProgram.Tableau.Basic

namespace LinearProgram.Tableau

variable {m n : Nat}

def line (label : String) (cells : List String) (rhs : String) : String :=
  Decimal.aligned 8 label ++ " |" ++
    String.join (cells.map fun cell => " " ++ Decimal.aligned 8 cell) ++
    " | " ++ Decimal.aligned 10 rhs ++ "\n"

def numberLine (label : String) (cells : Vector Float n) (rhs : Float) : String :=
  line label (cells.toList.map (Decimal.fixed 3)) (Decimal.fixed 3 rhs)

-- One line per row. A complemented column is marked by a quote.
def text (t : Tableau Float m n) : String :=
  let heads := (List.finRange n).map fun j =>
    "x" ++ toString j.val ++ (if t.complemented.get j then "'" else "")
  let rows := (List.finRange m).map fun i =>
    numberLine ("x" ++ toString (t.basis.get i).val) (t.body.get i) (t.rhs.get i)
  line "basis" heads "rhs" ++ String.join rows ++
    numberLine "z_j" t.zRow t.zRhs ++ numberLine "c_j-z_j" t.reduced t.objective

end LinearProgram.Tableau
