/-
  Replicas of a graph.

  Two orders with the same kinds of vertices position by position are replicas
  of each other.  `copyParameters` brings the parameters of a replica up to date
  before a batch; `mergeGrads` adds the sums of a replica after it.
-/
import DiffGraph.Graph.Batch
import DiffGraph.Graph.Parameter

namespace DiffGraph.Graph

variable {K E : Type}

/-- The first position at which two orders differ in the kind of a vertex. -/
def unlike? (g : Graph K E) (a b : List Node) : Option Failure :=
  ((a.zip b).zipIdx.find? fun ((x, y), _) => g.kind x ≠ g.kind y).map
    fun ((x, y), i) => .otherKind i (g.kind x) (g.kind y)

/-- Two orders are replicas of each other. -/
def checkAlike (g : Graph K E) (a b : List Node) : Except Failure Unit :=
  if a.length ≠ b.length then .error (.otherLength a.length b.length)
  else
    match g.unlike? a b with
    | some failure => .error failure
    | none => .ok ()

variable [Scalar K] [Arith E] [Laned K E]

/-- Copies the value of a parameter into another one. -/
def copyParameter (source target : Node) : Step (Graph K E) Unit := do
  let g ← get
  if source ≠ target ∧ g.isParameter source then setValue target (g.value source)

/-- Copies the parameters along an order into those of a replica. -/
def copyParameters (order replica : List Node) : Step (Graph K E) Unit := do
  Step.ofExcept ((← get).checkAlike order replica)
  (order.zip replica).forM fun (source, target) => copyParameter source target

/-- Adds the sum of one vertex to that of another.  A sum that was never
started counts as zero. -/
def mergeGrad (target source : Node) : Step (Graph K E) Unit := do
  let g ← get
  let sum := (g.cell source).batchSum
  if ! sum.isEmpty then
    let old := (g.cell target).batchSum
    let start := if old.isEmpty then sum.fill 0 else old
    let total ← Step.ofExcept (start.add sum)
    set (g.update target fun c => { c with batchSum := total })

/-- Adds the sums along a replica to those along an order. -/
def mergeGrads (order replica : List Node) : Step (Graph K E) Unit := do
  Step.ofExcept ((← get).checkAlike order replica)
  (order.zip replica).forM fun (target, source) => mergeGrad target source

end DiffGraph.Graph
