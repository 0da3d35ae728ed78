/-
  Stochastic gradient descent with momentum.

  A step moves every parameter against `momentum * batchSum + lastSum`, where
  `batchSum` is the sum of the gradients of this batch and `lastSum` that of the
  batch before.  The length of the step is the learning rate divided by the batch
  size.
-/
import DiffGraph.Graph.Batch

namespace DiffGraph

namespace Sgd

/-- How far a step goes. -/
structure Config (K : Type) where
  rate : K
  /-- weight of the sum of this batch; that of the batch before has weight one -/
  momentum : K
  batchSize : Nat

/-- A hundredth of the gradient of single examples. -/
def Config.default : Config Float32 := ⟨0.01, 0.9, 1⟩

end Sgd

/-- The parameters to move, and the number of steps done. -/
structure Sgd (K : Type) where
  params : List Node
  config : Sgd.Config K
  steps : Nat

namespace Sgd

variable {K E : Type}

/-- An optimizer for parameters of a graph. -/
def make (g : Graph K E) (params : List Node) (config : Config K) : Except Failure (Sgd K) :=
  if config.batchSize = 0 then .error .emptyStepBatch
  else
    match params.find? fun n => ! g.isParameter n with
    | some n => .error (.notParameter ("SGD over node " ++ toString n))
    | none => .ok ⟨params, config, 0⟩

variable [Scalar K] [Arith E] [Laned K E]

/-- The value of a parameter after a step. -/
def next (config : Config K) (c : Cell E) : Except Failure (Matrix E) := do
  let rate : E := Laned.splat (config.rate / (config.batchSize : K))
  let momentum : E := Laned.splat config.momentum
  let change ← c.batchSum.zipWith "sgd momentum" (fun a p => momentum * a + p) c.lastSum
  c.value.zipWith "sgd step" (fun v u => v - rate * u) change

/-- Moves one parameter, if it has a sum of gradients. -/
def move (config : Config K) (n : Node) : Step (Graph K E) Unit := do
  let g ← get
  let c := g.cell n
  if ! c.batchSum.isEmpty then
    let value ← Step.ofExcept (next config c)
    set (g.update n fun c => { c with value := value })

/-- Moves every parameter once. -/
def step (o : Sgd K) : Step (Graph K E) (Sgd K) := do
  o.params.forM (move o.config)
  return { o with steps := o.steps + 1 }

/-- Ends a batch and clears the gradients. -/
def endBatch (o : Sgd K) : Step (Graph K E) Unit :=
  modify fun g => o.params.foldl (fun g n => g.update n fun c => c.endBatch.clearGrad) g

end Sgd

end DiffGraph
