/-
  Flattening of several matrices into one column.

  `flatten` and `unflatten` go through the entries of a matrix column by column.
-/
import DiffGraph.Matrix.Basic

namespace DiffGraph.Matrix

variable {E : Type} [Zero E]

/-- The entries column by column. -/
def byColumns (m : Matrix E) : List E := m.transpose.data.toList

/-- The members one after another in one column, each column by column. -/
def flatten (members : List (Matrix E)) : Matrix E := column (members.flatMap byColumns)

/-- Adds the entries of `source` from position `start` on to those of `m`, going
through `m` column by column. -/
def unflatten [Add E] (source : Matrix E) (start : Nat) (m : Matrix E) :
    Except Failure (Matrix E) :=
  if ¬ m.isEmpty ∧ source.size < start + m.size then .error .outOfRange
  else
    .ok <| ofFn m.rows m.cols fun r c =>
      m.entry r c + source.data.getD (start + (c * m.rows + r)) 0

end DiffGraph.Matrix
