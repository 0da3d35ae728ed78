/-
  Blocks: matrices of numbers that are vertices of their own.

  A `Block` is a matrix of vertices, each holding one number.  Weights, inputs
  and scores of a model that is to be compiled are blocks: a compiled program is
  loaded from a block and read back into one, cell by cell.  Operations on blocks
  add the vertices of one number after another.
-/
import DiffGraph.Graph.Batch
import DiffGraph.Graph.Parameter

namespace DiffGraph

/-- A matrix of vertices. -/
abbrev Block := Matrix Node

namespace Block

variable {K E : Type}

/-- The cells in row-major order. -/
def nodes (b : Block) : List Node := b.data.toList

/-- A block of new parameters with the given values. -/
def ofValues [Zero E] (values : Matrix E) : Step (Graph K E) Block := values.mapM Graph.scalar

/-- A block of new parameters that are zero. -/
def zeros [Zero E] (rows cols : Nat) : Step (Graph K E) Block := ofValues (Matrix.zeros rows cols)

/-- The vertex of a cell. -/
def cell (b : Block) (r c : Nat) : Except Failure Node :=
  match b.get? r c with
  | some n => .ok n
  | none => .error (.indexOutside (r, c) b.shape)

/-- The vertex of a cell, the first vertex of the graph outside the block. -/
def node (b : Block) (r c : Nat) : Node := b.data.getD (r * b.cols + c) 0

/-- The cells as a column. -/
def asColumn (b : Block) : Block := ⟨b.size, 1, b.data, by simp [Matrix.size]⟩

/-- The cells as a row. -/
def asRow (b : Block) : Block := ⟨1, b.size, b.data, by simp [Matrix.size]⟩

/-! ## New blocks from old ones -/

/-- A binary operation on the cells of two blocks of one shape. -/
def combine (operation : String) (f : Node → Node → Step (Graph K E) Node) (a b : Block) :
    Step (Graph K E) Block := do
  let pairs ← Step.ofExcept (a.zipWith operation Prod.mk b)
  pairs.mapM fun (l, r) => f l r

def add (a b : Block) : Step (Graph K E) Block :=
  combine "add" (fun l r => Graph.record (.add l r)) a b

def sub (a b : Block) : Step (Graph K E) Block := combine "sub" Graph.sub a b

/-- Product cell by cell. -/
def dot (a b : Block) : Step (Graph K E) Block :=
  combine "dot" (fun l r => Graph.record (.mul l r)) a b

/-- A function applied to every cell. -/
def func (f : Unary) (a : Block) : Step (Graph K E) Block :=
  a.mapM fun n => Graph.record (.func f n)

/-- The vertices added up from left to right. -/
def chain (first : Node) (rest : List Node) : Step (Graph K E) Node :=
  rest.foldlM (fun acc n => Graph.record (.add acc n)) first

/-- The sum of all cells. -/
def sum (a : Block) : Step (Graph K E) Node :=
  match a.nodes with
  | [] => throw .empty
  | first :: rest => chain first rest

/-- The mean of all cells. -/
def mean [Arith E] (a : Block) : Step (Graph K E) Node := do
  let count ← Graph.scalar (a.size : E)
  let total ← sum a
  Graph.record (.div total count)

/-- The products of pairs of vertices, added up from left to right. -/
def inner (first : Node × Node) (rest : List (Node × Node)) : Step (Graph K E) Node := do
  let start ← Graph.record (.mul first.1 first.2)
  rest.foldlM
    (fun acc (l, r) => do
      let term ← Graph.record (.mul l r)
      Graph.record (.add acc term))
    start

/-- Matrix product. -/
def mul (a b : Block) : Step (Graph K E) Block :=
  if a.cols ≠ b.rows ∨ a.cols = 0 then throw (.shapeMismatch (a.cols, b.cols) b.shape "matmul")
  else
    (Matrix.ofFn a.rows b.cols Prod.mk).mapM fun (r, c) =>
      let pair k := (node a r k, node b k c)
      inner (pair 0) ((List.range' 1 (a.cols - 1)).map pair)

/-- Logarithm of the softmax of all cells.  The largest cell is subtracted
first. -/
def logSoftmax (a : Block) : Step (Graph K E) Block :=
  match a.nodes with
  | [] => throw .empty
  | first :: rest => do
    let largest ← rest.foldlM (fun acc n => Graph.record (.max acc n)) first
    let shifted ← a.mapM fun n => Graph.sub n largest
    let total ← sum (← func .exp shifted)
    let logSum ← Graph.record (.func .log total)
    shifted.mapM fun n => Graph.sub n logSum

/-! ## Reading and writing cells -/

section
variable [Scalar K] [Arith E] [Laned K E]

/-- The values of all cells. -/
def values (b : Block) : Step (Graph K E) (Matrix E) := b.mapM Graph.scalarOf

/-- The gradients of all cells. -/
def grads (b : Block) : Step (Graph K E) (Matrix E) := do
  let g ← get
  Step.ofExcept (b.mapM fun n => (g.grad n).toScalar)

/-- One lane of the values of all cells. -/
def laneValues (b : Block) (lane : Nat) : Step (Graph K E) (Matrix K) := do
  if Laned.width E ≤ lane then throw (.laneOutside lane (Laned.width E))
  return (← values b).map (Laned.lane · lane)

/-- The row of the largest cell of a column, judged on the first lane. -/
def argmax (b : Block) (col : Nat) : Step (Graph K E) Nat := do
  Step.ofExcept ((← values b).argmaxColumn col 0)

def setValue (b : Block) (r c : Nat) (e : E) : Step (Graph K E) Unit := do
  Graph.assign (← Step.ofExcept (b.cell r c)) e

/-- Replaces one lane of a cell: the way one example of several is loaded. -/
def setLane (b : Block) (r c lane : Nat) (k : K) : Step (Graph K E) Unit := do
  Graph.setLane (← Step.ofExcept (b.cell r c)) 0 0 lane k

/-- Loads all cells. -/
def assign (b : Block) (values : Matrix E) : Step (Graph K E) Unit := do
  let pairs ← Step.ofExcept (b.zipWith "assign" Prod.mk values)
  pairs.data.toList.forM fun (n, e) => Graph.assign n e

/-- Sets all cells to zero. -/
def clear (b : Block) : Step (Graph K E) Unit := b.nodes.forM fun n => Graph.constant n 0

/-- Normal samples in every lane of every cell. -/
def randomNormal (b : Block) : Step (Graph K E) Unit :=
  b.nodes.forM fun n => do
    let g ← get
    Graph.assign n (Graph.sampleAt g.noise.normal g.drawnNormal 0)
    set { (← get) with drawnNormal := g.drawnNormal + Laned.width E }

end

/-- Marks all cells as inputs. -/
def setInput (b : Block) : Step (Graph K E) Unit := b.nodes.forM fun n => Graph.setInput n true

/-- Marks all cells as receivers of gradients. -/
def setTracked (b : Block) : Step (Graph K E) Unit :=
  b.nodes.forM fun n => Graph.setTracked n true

end Block

end DiffGraph
