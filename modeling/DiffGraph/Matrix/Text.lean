/-
  Written forms of a matrix.
-/
import DiffGraph.Matrix.Basic

namespace DiffGraph.Matrix

variable {E : Type} [Zero E] [Written E]

/-- One line for each row, its entries separated by blanks. -/
def text (m : Matrix E) : String :=
  String.join <| (List.range m.rows).map fun r =>
    " ".intercalate ((m.row r).map Written.plain) ++ "\n"

/-- Shape and data, the numbers marked as floats. -/
def describe (m : Matrix E) : String :=
  "Matrix \x7b rows: " ++ toString m.rows ++ ", cols: " ++ toString m.cols ++ ", data: [" ++
    ", ".intercalate (m.data.toList.map Written.tagged) ++ "] \x7d"

end DiffGraph.Matrix
