/-
  Exact arithmetic.

  * `Exact`: elements that form a field, with the operations of that field;
  * the rational numbers are such elements.  Comparisons are those of the rational
    numbers; functions without rational values are zero.  Whatever is shown of all
    arithmetics, or of all exact ones, can be tried on small numbers here;
  * the real numbers are such elements too, and have all functions.
-/
import Mathlib
import DiffGraph.Scalar

namespace DiffGraph

/-- Elements that form a field.  Of the masks and of the functions nothing is known. -/
class Exact (E : Type) extends Field E, Arith E

instance : Scalar ℚ where
  ltMask a b := if a < b then 1 else 0
  eqMask a b := if a = b then 1 else 0
  max a b := if a < b then b else a
  exp _ := 0
  log _ := 0
  tanh _ := 0
  sqrt _ := 0
  lt a b := decide (a < b)
  text := toString

instance : Exact ℚ where
  __ := (inferInstance : Field ℚ)
  __ := (inferInstance : Arith ℚ)

/-- Exact functions.  Real numbers have no written form. -/
noncomputable instance : Scalar ℝ where
  ltMask a b := if a < b then 1 else 0
  eqMask a b := if a = b then 1 else 0
  max a b := max a b
  exp := Real.exp
  log := Real.log
  tanh := Real.tanh
  sqrt := Real.sqrt
  lt a b := decide (a < b)
  text _ := ""

noncomputable instance : Exact ℝ where
  __ := (inferInstance : Field ℝ)
  __ := (inferInstance : Arith ℝ)

end DiffGraph
