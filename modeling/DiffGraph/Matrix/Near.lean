/-
  Comparing a matrix with expected numbers.
-/
import DiffGraph.Matrix.Basic

namespace DiffGraph

/-- How a matrix differs from what is expected. -/
inductive Mismatch where
  | shape
  | length
  | entry (index lane : Nat) (actual expected difference tolerance : Float32)

namespace Mismatch

/-- The wording of a difference. -/
def message : Mismatch → String
  | shape => "Shape mismatch"
  | length => "Data length mismatch"
  | entry index lane actual expected difference tolerance =>
    "Data mismatch at index " ++ toString index ++ " lane " ++ toString lane ++
      ": actual=" ++ number actual ++ ", expected=" ++ number expected ++
      ", diff=" ++ number difference ++ ", tolerance=" ++ number tolerance
where
  number : Float32 → String := Decimal.tagged.single

end Mismatch

namespace Matrix

variable {E : Type} [Laned Float32 E]

/-- The first lane of an entry that is farther from `expected` than `tolerance`. -/
def farLane? (e : E) (expected tolerance : Float32) (index : Nat) : Option Mismatch :=
  (List.range (Laned.width E)).findSome? fun lane =>
    let actual := Laned.lane e lane
    let difference := (actual - expected).abs
    if tolerance < difference then
      some (.entry index lane actual expected difference tolerance)
    else none

/-- The first difference between a matrix and expected numbers, each of which
stands for all lanes of an entry. -/
def mismatch? (m : Matrix E) (s : Shape) (expected : List Float32) (tolerance : Float32) :
    Option Mismatch :=
  if m.shape ≠ s then some .shape
  else if m.size ≠ expected.length then some .length
  else
    (m.data.toList.zip expected).zipIdx.findSome?
      fun ((e, x), index) => farLane? e x tolerance index

end Matrix

end DiffGraph
