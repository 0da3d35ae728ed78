/-
  The value of an operation.

  `Op.value` computes the value of a vertex from the values of its operands.
  Dropout first draws a mask (`Op.freshMask`); every lane of it is zero or the
  factor that keeps the expected value.
-/
import DiffGraph.Kernel.Convolution
import DiffGraph.Kernel.Flatten
import DiffGraph.Kernel.LogSoftmax
import DiffGraph.Kernel.Pooling
import DiffGraph.Op.Basic

namespace DiffGraph.Op

variable {K E : Type} [Scalar K] [Arith E] [Laned K E]

/-- A probability of being dropped: at least zero and below one. -/
def rateOk (rate : K) : Bool := ! Scalar.lt rate 0 && Scalar.lt rate 1

/-- A mask of the given shape.  A lane is dropped where its draw, uniform in the
unit interval, is below the rate. -/
def drawMask (rate : K) (draw : Nat → K) (s : Shape) : Matrix E :=
  let scale := 1 / (1 - rate)
  Matrix.ofFn s.1 s.2 fun r c => Laned.ofLanes fun l =>
    if Scalar.lt (draw ((r * s.2 + c) * Laned.width E + l)) rate then 0 else scale

/-- The mask an evaluation uses; only dropout has one. -/
def freshMask (draw : Nat → K) (val : Node → Matrix E) : Op K → Except Failure (Matrix E)
  | dropout rate l =>
    if rateOk rate then .ok (drawMask rate draw (val l).shape)
    else .error (.rateOutside (Scalar.text rate))
  | _ => .ok .empty

/-- The value of an operation whose operands have the values `val`.  A
parameter keeps the value `own` that it has. -/
def value (own mask : Matrix E) (val : Node → Matrix E) : Op K → Except Failure (Matrix E)
  | parameter => .ok own
  | add l r => (val l).zipWith "add" (· + ·) (val r)
  | mul l r => (val l).mul (val r)
  | div l r =>
    if (val r).isScalar then .ok ((val l).map (· / (val r).entry 0 0))
    else .error (.divisorNotScalar (val r).shape)
  | neg l => .ok ((val l).map (- ·))
  | dot l r => (val l).zipWith "dot" (· * ·) (val r)
  | func f l => .ok ((val l).map f.apply)
  | max l r => (val l).zipWith "max" Arith.max (val r)
  | sum l => .ok (.scalar (val l).sum)
  | slice rect l => (val l).block rect
  | flatten members => .ok (.flatten (members.map val))
  | convolution size input kernel bias => Matrix.convolve size (val input) (val kernel) (val bias)
  | maxPool size l => (val l).maxPool size
  | dropout _ l => (val l).zipWith "dropout" (· * ·) mask
  | logSoftmax l => (val l).logSoftmax

end DiffGraph.Op
