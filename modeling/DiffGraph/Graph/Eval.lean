/-
  Evaluation.

  A vertex is evaluated once and keeps its value until the graph is told to
  forget it.  `Graph.missing` lists what is missing below a vertex, operands
  first; it does not look below vertices that have a value.  `Graph.evaluate`
  evaluates that list and stops at the first failure, keeping what was evaluated
  before.
-/
import DiffGraph.Graph.Basic

namespace DiffGraph.Graph

variable {K E : Type}

/-- All vertices below a root, operands first, the root last. -/
def order (g : Graph K E) (root : Node) : List Node := g.dag.traverse (fun _ => true) root

/-- The vertices below a root that have no value, operands first. -/
def missing (g : Graph K E) (root : Node) : List Node :=
  g.dag.traverse (fun n => ! g.hasValue n) root

variable [Scalar K] [Arith E] [Laned K E]

/-- The value of a vertex from the values of its operands, and its new mask. -/
def compute (g : Graph K E) (n : Node) : Except Failure (Matrix E × Matrix E) := do
  let mask ← (g.op n).freshMask (fun i => g.noise.uniform (g.drawn + i)) g.value
  let value ← (g.op n).value (g.value n) mask g.value
  return (value, mask)

/-- A cell with a new value.  The gradients of this pass and of this batch start
again from zero; that of the last batch is kept if it still fits. -/
def store (value mask : Matrix E) (c : Cell E) : Cell E :=
  let zeros := Matrix.zeros value.rows value.cols
  { c with
    value := value
    hasValue := true
    grad := zeros
    batchSum := zeros
    lastSum := if c.lastSum.shape = value.shape then c.lastSum else zeros
    mask := mask }

/-- Evaluates one vertex whose operands have values. -/
def evaluateOne (n : Node) : Step (Graph K E) Unit := do
  let g ← get
  let (value, mask) ← Step.ofExcept (g.compute n)
  set ((g.update n (store value mask)).use (mask.size * Laned.width E))

/-- Makes sure that a vertex has a value. -/
def evaluate (root : Node) : Step (Graph K E) Unit := do
  (← get).missing root |>.forM evaluateOne

/-- The value of a vertex. -/
def valueOf (n : Node) : Step (Graph K E) (Matrix E) := do
  evaluate n
  return (← get).value n

/-- The value of a vertex that is a number. -/
def scalarOf (n : Node) : Step (Graph K E) E := do
  evaluate n
  Step.ofExcept ((← get).value n).toScalar

/-- The shape of the value of a vertex. -/
def shapeOf (n : Node) : Step (Graph K E) Shape := do
  evaluate n
  return ((← get).value n).shape

/-- The row of the largest entry of a column, judged on the first lane. -/
def argmaxOf (n : Node) (col : Nat) : Step (Graph K E) Nat := do
  let value ← valueOf n
  Step.ofExcept (value.argmaxColumn col 0)

end DiffGraph.Graph
