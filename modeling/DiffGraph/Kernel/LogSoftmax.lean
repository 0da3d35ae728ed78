/-
  Logarithm of the softmax of all entries.

  The largest entry is subtracted first, so that no exponential overflows.
-/
import DiffGraph.Matrix.Basic

namespace DiffGraph.Matrix

variable {E : Type} [Arith E]

/-- Each entry less the logarithm of the sum of the exponentials of all. -/
def logSoftmax (m : Matrix E) : Except Failure (Matrix E) :=
  match m.largest? with
  | none => .error (.shapeMismatch (1, 1) m.shape "log_softmax")
  | some largest =>
    let shifted := m.map (· - largest)
    let logSum := Arith.log (shifted.map Arith.exp).sum
    .ok (shifted.map (· - logSum))

/-- The gradient of the input, from the value of the result. -/
def logSoftmaxInput (value grad : Matrix E) : Except Failure (Matrix E) :=
  let total := grad.sum
  grad.zipWith "log_softmax backward" (fun g y => g - Arith.exp y * total) value

end DiffGraph.Matrix
