/-
  Comparing gradients with finite differences.

  `Graph.checkGradients` builds an expression over parameters and takes the sum of its
  entries as a loss.  Each entry of each parameter is moved up and down by a
  small amount and set back; the difference of the two losses over twice that
  amount is compared with the gradient of a reverse pass.  Quotients and
  comparisons are made in double precision.  When two of these numbers are close
  is left to whoever checks: `close a b tolerance` is an argument.
-/
import DiffGraph.Graph.Batch
import DiffGraph.Graph.Gradient
import DiffGraph.Graph.Parameter

namespace DiffGraph

/-- Why a gradient was not confirmed. -/
inductive GradFailure where
  | mismatch (input element : Nat) (analytical numerical difference : Float)
  | inputNotParameter (input : Nat)
  | numericalNotFinite (input element : Nat) (above below : Float)
  | analyticalNotFinite (input element : Nat) (value : Float)
  | forward (cause : Failure)
  | backward (cause : Failure)
  | graph (cause : Failure)

namespace GradFailure

/-- The wording of a failure. -/
def message : GradFailure → String
  | mismatch input element analytical numerical difference =>
    "Gradient check failed for input " ++ toString input ++ ", element " ++ toString element ++
      ": analytical " ++ number analytical ++ " != numerical " ++ number numerical ++
      " (difference " ++ number difference ++ ")"
  | inputNotParameter input =>
    "Gradient check input " ++ toString input ++ " must be a Parameter node"
  | numericalNotFinite input element above below =>
    "Numerical gradient is NaN or infinite for input " ++ toString input ++ ", element " ++
      toString element ++ " (loss+ " ++ number above ++ ", loss- " ++ number below ++ ")"
  | analyticalNotFinite input element value =>
    "Analytical gradient is NaN or infinite for input " ++ toString input ++ ", element " ++
      toString element ++ ": " ++ number value
  | forward cause => "Forward evaluation failed during gradient check: " ++ cause.message
  | backward cause => "Backward pass failed during gradient check: " ++ cause.message
  | graph cause => "Graph error during gradient check: " ++ cause.message
where
  number : Float → String := Decimal.plain.double

end GradFailure

namespace FiniteDifference

/-- Graphs are checked in single precision. -/
abbrev G := Graph Float32 Float32

/-- A check on graphs. -/
abbrev Check (α : Type) := EStateM GradFailure G α

/-- A computation whose failure is reported as `cause`. -/
def report {α : Type} (cause : Failure → GradFailure) (x : Step G α) : Check α := fun g =>
  match x.run g with
  | .ok a g => .ok a g
  | .error e g => .error (cause e) g

/-- A comparison to check with: up to an absolute or a relative tolerance.  An infinite
number agrees with itself only. -/
def agree (a b tolerance : Float) : Bool :=
  let difference := (a - b).abs
  let largest := if a.abs < b.abs then b.abs else a.abs
  a == b || (! a.isInf && ! b.isInf &&
    (decide (difference ≤ tolerance) || decide (difference ≤ largest * tolerance)))

/-- The loss at the current values of the parameters. -/
def loss (root : Node) (order : List Node) : Check Float := do
  report .graph (Graph.reset order)
  let v ← report .forward (Graph.scalarOf root)
  return v.toFloat

/-- Checks the entry at position `k` of an input with value `start`. -/
def entry (close : Float → Float → Float → Bool) (root : Node) (order : List Node) (ε : Float32)
    (tolerance : Float) (i : Nat) (input : Node) (start : Matrix Float32) (analytical : Float)
    (k : Nat) : Check Unit := do
  let r := k / start.cols
  let c := k % start.cols
  let x := start.entry r c
  report .graph (Graph.setEntry input r c (x + ε))
  let above ← loss root order
  report .graph (Graph.setEntry input r c (x - ε))
  let below ← loss root order
  report .graph (Graph.setEntry input r c x)
  let numerical := (above - below) / (2.0 * ε.toFloat)
  if ! numerical.isFinite then throw (.numericalNotFinite i k above below)
  if ! analytical.isFinite then throw (.analyticalNotFinite i k analytical)
  if ! close analytical numerical tolerance then
    throw (.mismatch i k analytical numerical (analytical - numerical).abs)

/-- Checks all entries of an input against its gradient. -/
def input (close : Float → Float → Float → Bool) (root : Node) (order : List Node) (ε : Float32)
    (tolerance : Float) (i : Nat) (n : Node) (gradient : Matrix Float32) : Check Unit := do
  let start ← report .graph (Graph.valueOf n)
  (List.range start.size).forM fun k =>
    entry close root order ε tolerance i n start (gradient.data.getD k 0).toFloat k

end FiniteDifference

/-- Checks the gradients of the sum of an expression with respect to its inputs. -/
def Graph.checkGradients (close : Float → Float → Float → Bool)
    (build : List Node → Step FiniteDifference.G Node) (inputs : List Node) (ε : Float32)
    (tolerance : Float) : FiniteDifference.Check Unit := do
  let g ← get
  if let some (_, i) := inputs.zipIdx.find? fun (n, _) => ! g.isParameter n then
    throw (.inputNotParameter i)
  let root ← FiniteDifference.report .graph do
    let expression ← build inputs
    Graph.record (.sum expression)
  let order := (← get).order root
  FiniteDifference.report .graph (Graph.reset order)
  FiniteDifference.report .backward (Graph.reverseAlong root order)
  let g ← get
  (inputs.zipIdx.map fun (n, i) => (i, n, g.grad n)).forM fun (i, n, gradient) =>
    FiniteDifference.input close root order ε tolerance i n gradient
  FiniteDifference.report .graph (Graph.reset order)

end DiffGraph
