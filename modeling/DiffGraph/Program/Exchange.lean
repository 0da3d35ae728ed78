/-
  Exchange between a program and the graph it was compiled from.

  `refreshValues` reads the marked parameters again; `deliverGrads` adds the gradients
  of the program to those of the graph.  Both check that the vertex at the
  position of an entry is the one that was compiled.
-/
import DiffGraph.Graph.Eval
import DiffGraph.Program.Basic

namespace DiffGraph.Program

variable {K S T : Type} [Scalar K] [Arith S] [Arith T] [Laned K S] [Laned K T]

/-- The vertex of an entry, if the order has it at the position of the entry. -/
def entryNode (g : Graph K S) (order : List Node) (e : Entry) : Except Failure Node :=
  match order[e.index]? with
  | some n => if g.id n = e.node then .ok n else .error (.otherNode e.index e.node.node n)
  | none => .error (.shortOrder e.index e.node.node order.length)

/-- Reads the value of one marked parameter again. -/
def refreshValue (order : List Node) (e : Entry) : Step (Graph K S × Program T) Unit := do
  let (g, p) ← get
  if (p.code.instr e.index).isParameter then
    let n ← Step.ofExcept (entryNode g order e)
    let v ← Step.onFirst (Graph.scalarOf n)
    modify fun (g, p) => (g, p.setValue e.index (Laned.broadcast v))

/-- Reads the values of all marked parameters again. -/
def refreshValues (order : List Node) : Step (Graph K S × Program T) Unit := do
  (← get).2.code.entries.forM (refreshValue order)

/-- Adds the gradient of one parameter to that of its vertex. -/
def deliverGrad (p : Program T) (order : List Node) (e : Entry) : Step (Graph K S) Unit := do
  if (p.code.instr e.index).isParameter && p.code.tracked e.index then
    let n ← Step.ofExcept (entryNode (← get) order e)
    let term : S := Laned.fold (p.grad e.index)
    modify (·.update n fun c => { c with grad := c.grad.addEach term })

/-- Adds the gradients of all marked parameters to those of their vertices. -/
def deliverGrads (p : Program T) (order : List Node) : Step (Graph K S) Unit :=
  p.code.entries.forM (deliverGrad p order)

end DiffGraph.Program
