/-
  Gradients over the examples of a batch.

  A pass leaves the gradient of one example.  `collect` adds it to the sum of
  the batch, `reset` clears it and forgets all computed values, so that the
  next evaluation starts from the current parameters.  `endBatch` ends a batch:
  its sum becomes that of the batch before, and a new one starts from zero.
-/
import DiffGraph.Graph.Eval

namespace DiffGraph

variable {K E : Type} [Arith E]

namespace Cell

/-- Clears the gradient of the last pass. -/
def clearGrad (c : Cell E) : Cell E := { c with grad := c.grad.fill 0 }

/-- Adds the gradient of the last pass to the sum of the batch. -/
def collect (c : Cell E) : Except Failure (Cell E) := do
  let start := if c.batchSum.isEmpty && ! c.grad.isEmpty then c.grad.fill 0 else c.batchSum
  let sum ← start.add c.grad
  return { c with batchSum := sum }

/-- Ends a batch. -/
def endBatch (c : Cell E) : Cell E :=
  { c with lastSum := c.batchSum, batchSum := c.grad.fill 0 }

/-- Forgets the value of an operation. -/
def forget (c : Cell E) : Cell E := { c with hasValue := false }

end Cell

namespace Graph

/-- Clears the gradients along an order and forgets the values of operations. -/
def reset (order : List Node) : Step (Graph K E) Unit :=
  modify fun g => order.foldl
    (fun g n =>
      if g.isParameter n then g.update n Cell.clearGrad
      else g.update n fun c => c.clearGrad.forget) g

/-- Adds the gradient of a vertex to its sum over the batch. -/
def collectOne (n : Node) : Step (Graph K E) Unit := do
  let g ← get
  let c ← Step.ofExcept (g.cell n).collect
  set (g.update n fun _ => c)

/-- Adds the gradients along an order to the sums over the batch. -/
def collect (order : List Node) : Step (Graph K E) Unit := order.forM collectOne

/-- Ends a batch for the vertices of an order. -/
def endBatch (order : List Node) : Step (Graph K E) Unit :=
  modify fun g => order.foldl (fun g n => g.update n Cell.endBatch) g

/-- Clears the gradients along an order and keeps all values. -/
def clearGrads (order : List Node) : Step (Graph K E) Unit :=
  modify fun g => order.foldl (fun g n => g.update n Cell.clearGrad) g

end Graph

end DiffGraph
