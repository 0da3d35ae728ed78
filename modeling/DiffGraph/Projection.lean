/-
  Projections between a block and a program.

  A `Projection` says which item of a program belongs to each cell of a block.
  It is made once for a block and a program, and then moves values and gradients
  without a look at the graph.  It can be used with every program of the same
  instructions and with every block of the same shape.
-/
import DiffGraph.Block
import DiffGraph.Program.Basic

namespace DiffGraph

/-- The item of each cell; a cell that is no entry of the program has none. -/
structure Projection where
  slots : Matrix (Option Nat)
  fingerprint : UInt64

/-- Equal slots for programs with equal instructions. -/
instance : BEq Projection where
  beq a b := a.slots == b.slots && a.fingerprint == b.fingerprint

namespace Projection

variable {K S T : Type}

/-- The projection of a block of `g` onto a program. -/
def make (g : Graph K S) (b : Block) (p : Program T) : Projection where
  slots := b.map fun n => (p.code.entries.find? fun e => e.node = g.id n).map Entry.index
  fingerprint := p.fingerprint

/-- The number of cells that have an item. -/
def count (j : Projection) : Nat := (j.slots.data.toList.filter Option.isSome).length

/-- The projection fits a program and a shape. -/
def check (j : Projection) (p : Program T) (s : Shape) : Except Failure Unit :=
  if p.fingerprint ≠ j.fingerprint then .error (.otherProgram j.fingerprint p.fingerprint)
  else if s ≠ j.slots.shape then .error (.otherBlock j.slots.shape s)
  else .ok ()

/-- The entries of a matrix that have an item, with that item. -/
def pairs {A : Type} (j : Projection) (m : Matrix A) : List (A × Nat) :=
  (m.data.toList.zip j.slots.data.toList).filterMap fun (a, slot) => slot.map fun i => (a, i)

variable [Scalar K] [Arith S] [Arith T] [Laned K S] [Laned K T]

/-- Copies the value of one vertex into an item. -/
def loadCell (cell : Node × Nat) : Step (Graph K S × Program T) Unit := do
  let v ← Step.onFirst (Graph.scalarOf cell.1)
  modify fun (g, p) => (g, p.setValue cell.2 (Laned.broadcast v))

/-- Copies the values of a block into a program. -/
def load (j : Projection) (b : Block) : Step (Graph K S × Program T) Unit := do
  Step.ofExcept (j.check (← get).2 b.shape)
  (j.pairs b).forM loadCell

/-- Copies numbers into all lanes of a program. -/
def loadSplat (j : Projection) (values : Matrix K) (p : Program T) :
    Except Failure (Program T) := do
  j.check p values.shape
  return (j.pairs values).foldl (fun p (k, i) => p.setValue i (Laned.splat k)) p

/-- Copies value and gradient of an item into a parameter. -/
def unloadCell (p : Program T) (cell : Node × Nat) : Step (Graph K S) Unit := do
  Graph.assign cell.1 (Laned.broadcast (p.value cell.2) : S)
  modify (·.update cell.1 fun c => { c with grad := .scalar (Laned.broadcast (p.grad cell.2)) })

/-- Copies values and gradients of a program into a block. -/
def unload (j : Projection) (p : Program T) (out : Block) : Step (Graph K S) Unit := do
  Step.ofExcept (j.check p out.shape)
  (j.pairs out).forM (unloadCell p)

/-- Adds the gradients of a program to those of a block. -/
def addGrads (j : Projection) (p : Program T) (target : Block) : Step (Graph K S) Unit := do
  Step.ofExcept (j.check p target.shape)
  modify fun g => (j.pairs target).foldl
    (fun g (n, i) =>
      let term : S := Laned.fold (p.grad i)
      g.update n fun c => { c with grad := c.grad.addEach term }) g

end Projection

end DiffGraph
