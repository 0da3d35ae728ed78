/-
  Changing the value of a parameter.

  The value of a parameter is the only one that is set from outside.  Its shape
  never changes.  Vertices computed from it keep their values until the graph is
  told to forget them (`Graph.reset`).
-/
import DiffGraph.Graph.Basic

namespace DiffGraph.Graph

variable {K E : Type} [Scalar K] [Arith E] [Laned K E]

/-- Replaces the value of a parameter by `f`, which may refuse to. -/
def alter (operation : String) (n : Node) (f : Matrix E → Except Failure (Matrix E)) :
    Step (Graph K E) Unit := do
  let g ← get
  if ! g.isParameter n then throw (.notParameter operation)
  let value ← Step.ofExcept (f (g.value n))
  set (g.update n fun c => { c with value := value })

/-- Replaces the value by one of the same shape. -/
def setValue (n : Node) (value : Matrix E) : Step (Graph K E) Unit :=
  alter "set_value" n fun old =>
    if old.shape = value.shape then .ok value
    else .error (.shapeMismatch old.shape value.shape "set_value")

/-- Replaces the value of a parameter that is a number. -/
def assign (n : Node) (e : E) : Step (Graph K E) Unit :=
  alter "assign" n fun old =>
    if old.isScalar then .ok (.scalar e) else .error (.shapeMismatch (1, 1) old.shape "assign")

/-- Refuses a cell outside a value. -/
def checkIndex (m : Matrix E) (r c : Nat) : Except Failure Unit :=
  if r < m.rows ∧ c < m.cols then .ok () else .error (.indexOutside (r, c) m.shape)

/-- Replaces one entry. -/
def setEntry (n : Node) (r c : Nat) (e : E) : Step (Graph K E) Unit :=
  alter "set_element" n fun old => do
    checkIndex old r c
    return old.set r c e

/-- Replaces one lane of one entry. -/
def setLane (n : Node) (r c lane : Nat) (k : K) : Step (Graph K E) Unit := do
  if Laned.width E ≤ lane then throw (.laneOutside lane (Laned.width E))
  alter "set_lane" n fun old => do
    checkIndex old r c
    let e := old.entry r c
    return old.set r c (Laned.ofLanes fun l => if l = lane then k else Laned.lane e l)

/-- The same number in every lane of every entry. -/
def constant (n : Node) (k : K) : Step (Graph K E) Unit :=
  alter "constant" n fun old => .ok (old.fill (Laned.splat k))

/-- Consecutive numbers from `start` on, in row-major order, each one more than
the one before. -/
def countFrom (n : Node) (start : K) : Step (Graph K E) Unit :=
  alter "iota" n fun old =>
    let numbers := (List.range old.size).foldl (fun (acc, k) _ => (acc.push k, k + 1)) (#[], start)
    .ok (.ofFn old.rows old.cols fun r c => Laned.splat (numbers.1.getD (r * old.cols + c) 0))

/-- The same number along the diagonal, zero elsewhere. -/
def diagonal (n : Node) (k : K) : Step (Graph K E) Unit :=
  alter "identity" n fun old =>
    if old.rows = old.cols then
      .ok (.ofFn old.rows old.cols fun r c => if r = c then Laned.splat k else 0)
    else .error (.shapeMismatch (old.rows, old.rows) old.shape "identity")

/-- One in the first row of a column, zero elsewhere. -/
def oneHot (n : Node) (col : Nat) : Step (Graph K E) Unit :=
  alter "one_hot_column" n fun old => do
    checkIndex old 0 col
    return .ofFn old.rows old.cols fun r c => if r = 0 ∧ c = col then 1 else 0

/-- Scales a value to a given mean, then, if asked for, moves every entry along
the line from that mean so that the deviation is as given.  Each lane is treated
by itself. -/
def normalized (m : Matrix E) (mean : K) (deviation : Option K) : Matrix E :=
  let count : E := (m.size : Nat)
  let target : E := Laned.splat mean
  let scale := target / (m.sum / count)
  let scaled := m.map (· * scale)
  match deviation with
  | none => scaled
  | some deviation =>
    let variance := (scaled.map fun v => (v - target) * (v - target)).sum / count
    let ratio := Laned.splat deviation / Arith.sqrt variance
    scaled.map fun v => target + (v - target) * ratio

/-- Gives a parameter a mean and, if asked for, a standard deviation. -/
def normalize (n : Node) (mean : K) (deviation : Option K) : Step (Graph K E) Unit :=
  alter "normalize" n fun old =>
    if old.isEmpty then .error .emptyNormalize else .ok (normalized old mean deviation)

/-- The sample for a lane of a cell, given the number of the first sample. -/
def sampleAt (samples : Nat → K) (first position : Nat) : E :=
  Laned.ofLanes fun l => samples (first + (position * Laned.width E + l))

/-- Uniform numbers between minus `bound` and `bound`, independent in all lanes. -/
def randomUniform (n : Node) (bound : K) : Step (Graph K E) Unit := do
  let g ← get
  let used := (g.value n).size * Laned.width E
  alter "randomize" n fun old =>
    .ok <| .ofFn old.rows old.cols fun r c =>
      sampleAt (fun i => ((2 : Nat) * g.noise.uniform i - 1) * bound) g.drawn (r * old.cols + c)
  modify (·.use used)

end DiffGraph.Graph
