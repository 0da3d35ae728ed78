/-
  What an operation adds to the gradients of its operands.

  * A `Push` is one contribution to a gradient: to every entry its own term, the
    same term everywhere, a rectangle, or a stretch of a column.
  * `Op.pushes` lists the contributions of a vertex in the order in which they
    are added.  All of them are computed before the first one is added.
-/
import DiffGraph.Op.Value

namespace DiffGraph

/-- A contribution to a gradient. -/
inductive Push (E : Type) where
  /-- a term for every entry -/
  | whole (terms : Matrix E)
  /-- the same term for every entry -/
  | each (term : E)
  /-- terms for the rectangle at `(row, col)` -/
  | block (row col : Nat) (terms : Matrix E)
  /-- the terms of a column from `start` on, for the entries column by column -/
  | stretch (start : Nat) (terms : Matrix E)

/-- Adds a contribution to a gradient. -/
def Push.apply {E : Type} [Zero E] [Add E] (grad : Matrix E) : Push E → Except Failure (Matrix E)
  | whole terms => grad.add terms
  | each term => .ok (grad.addEach term)
  | block row col terms => grad.addBlock row col terms
  | stretch start terms => terms.unflatten start grad

namespace Op

variable {K E : Type} [Arith E]

/-- The members of a flattening, each with the position where its part begins. -/
def stretches (val : Node → Matrix E) (terms : Matrix E) :
    Nat → List Node → List (Node × Push E)
  | _, [] => []
  | start, l :: ls => (l, .stretch start terms) :: stretches val terms (start + (val l).size) ls

/-- The contributions of a vertex whose operands have the values `val`.  Its
own value, mask and gradient are `own`, `mask` and `grad`. -/
def pushes (own mask grad : Matrix E) (val : Node → Matrix E) :
    Op K → Except Failure (List (Node × Push E))
  | parameter => .ok []
  | add l r => .ok [(l, .whole grad), (r, .whole grad)]
  | mul l r => do
    let dl ← grad.mul (val r).transpose
    let dr ← (val l).transpose.mul grad
    return [(l, .whole dl), (r, .whole dr)]
  | div l r => do
    let d ← (val r).toScalar
    let terms ← grad.zipWith "div backward" (fun g x => -g * x) (val l)
    return [(l, .whole (grad.map (· / d))), (r, .whole (.scalar (terms.sum / (d * d))))]
  | neg l => .ok [(l, .whole (grad.map (- ·)))]
  | dot l r => do
    let dl ← grad.zipWith "dot backward" (· * ·) (val r)
    let dr ← grad.zipWith "dot backward" (· * ·) (val l)
    return [(l, .whole dl), (r, .whole dr)]
  | func f l => do
    let dl ← grad.zipWith "func backward" (fun g x => g * f.derivative x) (val l)
    return [(l, .whole dl)]
  | max l r => do
    -- ties go to the right operand
    let left ← (val r).zipWith "max backward" Arith.ltMask (val l)
    let dl ← grad.zipWith "max backward" (· * ·) left
    let dr ← grad.zipWith "max backward" (fun g m => g * (1 - m)) left
    return [(l, .whole dl), (r, .whole dr)]
  | sum l => do
    let g ← grad.toScalar
    return [(l, .each g)]
  | slice rect l => .ok [(l, .block rect.row rect.col grad)]
  | flatten members => .ok (stretches val grad 0 members)
  | convolution size input kernel bias => do
    let di ← (val input).convolveInput (val kernel) grad
    let dk := (val input).convolveKernel size grad
    return [(input, .whole di), (kernel, .whole dk), (bias, .whole (.scalar grad.sum))]
  | maxPool size l => do
    let dl ← (val l).unpool size own grad
    return [(l, .whole dl)]
  | dropout _ l => do
    let dl ← grad.zipWith "dropout backward" (· * ·) mask
    return [(l, .whole dl)]
  | logSoftmax l => do
    let dl ← own.logSoftmaxInput grad
    return [(l, .whole dl)]

end Op

end DiffGraph
