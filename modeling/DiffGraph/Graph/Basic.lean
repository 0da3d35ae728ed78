/-
  Graphs with their stored values.

  A `Graph K E` is a `Dag` together with one `Cell` for each vertex: the value
  and whether it is up to date, the gradient of the last pass, the gradients
  summed over this batch and over the one before, the mask of a dropout, and two
  marks.  Evaluation and gradients change cells only, never the operations.

  A vertex is named by its place in the graph; `Graph.id` names it among the
  vertices of all graphs.
-/
import DiffGraph.Dag
import DiffGraph.Noise
import DiffGraph.Op.Adjoint

namespace DiffGraph

/-- What is stored for a vertex. -/
structure Cell (E : Type) where
  value : Matrix E
  hasValue : Bool
  /-- gradient of the last pass -/
  grad : Matrix E
  /-- gradients summed over the examples of this batch -/
  batchSum : Matrix E
  /-- the sum of the batch before -/
  lastSum : Matrix E
  /-- the mask that `value` was computed with -/
  mask : Matrix E
  /-- the vertex receives a gradient in compiled programs -/
  tracked : Bool
  /-- the vertex is an input of compiled programs -/
  isInput : Bool

namespace Cell

variable {E : Type}

/-- The cell of an operation that was never evaluated. -/
def blank : Cell E := ⟨.empty, false, .empty, .empty, .empty, .empty, false, false⟩

/-- The cell of a parameter. -/
def parameter [Zero E] (value : Matrix E) : Cell E :=
  let zeros := Matrix.zeros value.rows value.cols
  ⟨value, true, zeros, zeros, zeros, .empty, false, false⟩

end Cell

/-- The name of a vertex among the vertices of all graphs. -/
structure NodeId where
  graph : Nat
  node : Node
deriving DecidableEq, Repr

/-- Operations, cells, and samples for the random operations.  Graphs that are
used together carry different tags. -/
structure Graph (K E : Type) where
  tag : Nat
  dag : Dag K
  cells : Array (Cell E)
  size_cells : cells.size = dag.size
  noise : Noise K
  /-- how many uniform samples were used -/
  drawn : Nat
  /-- how many normal samples were used -/
  drawnNormal : Nat

namespace Graph

variable {K E : Type}

/-- The graph without vertices. -/
def empty (tag : Nat) (noise : Noise K) : Graph K E := ⟨tag, .empty, #[], rfl, noise, 0, 0⟩

/-- The number of vertices. -/
def size (g : Graph K E) : Nat := g.dag.size

def op (g : Graph K E) (n : Node) : Op K := g.dag.op n

def kind (g : Graph K E) (n : Node) : Kind := (g.op n).kind

def isParameter (g : Graph K E) (n : Node) : Bool := (g.op n).isParameter

/-- What is stored for a vertex. -/
def cell (g : Graph K E) (n : Node) : Cell E := g.cells.getD n .blank

/-- The stored value, up to date or not. -/
def value (g : Graph K E) (n : Node) : Matrix E := (g.cell n).value

def grad (g : Graph K E) (n : Node) : Matrix E := (g.cell n).grad

/-- The value of a vertex is up to date; that of a parameter always is. -/
def hasValue (g : Graph K E) (n : Node) : Bool := (g.cell n).hasValue || g.isParameter n

def id (g : Graph K E) (n : Node) : NodeId := ⟨g.tag, n⟩

/-- Changes the cell of a vertex. -/
def update (g : Graph K E) (n : Node) (f : Cell E → Cell E) : Graph K E :=
  { g with cells := g.cells.modify n f, size_cells := by simp [g.size_cells] }

/-- Counts uniform samples as used. -/
def use (g : Graph K E) (samples : Nat) : Graph K E := { g with drawn := g.drawn + samples }

/-- Adds a vertex with its cell. -/
def push (g : Graph K E) (op : Op K) (h : g.dag.Admits op) (c : Cell E) : Graph K E :=
  { g with
    dag := g.dag.push op h
    cells := g.cells.push c
    size_cells := by simp [g.size_cells, Dag.push, Dag.size] }

/-- Adds a parameter with the given value. -/
def parameter [Zero E] (value : Matrix E) : Step (Graph K E) Node := do
  let g ← get
  let n := g.size
  set (g.push .parameter (fun _ h => absurd h (by simp [Op.operands])) (.parameter value))
  return n

/-- Adds a number as a parameter. -/
def scalar [Zero E] (e : E) : Step (Graph K E) Node := parameter (.scalar e)

/-- Adds an operation.  Nothing is computed yet. -/
def record (op : Op K) : Step (Graph K E) Node := do
  let g ← get
  if h : g.dag.Admits op then
    let n := g.size
    set (g.push op h .blank)
    return n
  else throw (.unknownNode (op.operands.foldl Nat.max 0))

/-- Adds the difference of two vertices, as a sum with a negative. -/
def sub (l r : Node) : Step (Graph K E) Node := do
  let negative ← record (.neg r)
  record (.add l negative)

/-- Marks a vertex as a receiver of gradients, or takes the mark away. -/
def setTracked (n : Node) (mark : Bool) : Step (Graph K E) Unit :=
  modify (·.update n fun c => { c with tracked := mark })

/-- Marks a vertex as an input, or takes the mark away. -/
def setInput (n : Node) (mark : Bool) : Step (Graph K E) Unit :=
  modify (·.update n fun c => { c with isInput := mark })

/-- One line about a vertex. -/
def describe (g : Graph K E) (n : Node) : String :=
  let c := g.cell n
  "Node \x7b id: " ++ toString n ++ ", mode: " ++ (g.kind n).name ++
    ", shape: " ++ c.value.shape.text ++ ", has_value: " ++ toString (g.hasValue n) ++
    ", needs_grad: " ++ toString c.tracked ++ ", is_variable: " ++ toString c.isInput ++ " \x7d"

end Graph

end DiffGraph
