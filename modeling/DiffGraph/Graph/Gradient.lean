/-
  Gradients.

  `Graph.reversePass` sets the gradient of a root to ones and goes through the
  vertices below it from the root to the leaves.  Each vertex adds its
  contributions to the gradients of its operands.  Gradients are added to and
  never reset; `Graph.reset` does that between passes.
-/
import DiffGraph.Graph.Eval

namespace DiffGraph.Graph

variable {K E : Type}

/-- The contributions of a vertex to the gradients of its operands. -/
def pushes [Arith E] (g : Graph K E) (n : Node) : Except Failure (List (Node × Push E)) :=
  let c := g.cell n
  (g.op n).pushes c.value c.mask c.grad g.value

/-- Adds one contribution to the gradient of a vertex. -/
def receive [Arith E] (n : Node) (p : Push E) : Step (Graph K E) Unit := do
  let g ← get
  let grad ← Step.ofExcept (p.apply (g.grad n))
  set (g.update n fun c => { c with grad := grad })

/-- Adds the contributions of a vertex to the gradients of its operands. -/
def propagate [Arith E] (n : Node) : Step (Graph K E) Unit := do
  (← Step.ofExcept ((← get).pushes n)).forM fun (c, p) => receive c p

/-- Sets the gradient of a vertex to ones. -/
def seed [One E] (n : Node) : Step (Graph K E) Unit :=
  modify (·.update n fun c => { c with grad := c.value.fill 1 })

variable [Scalar K] [Arith E] [Laned K E]

/-- Reverse pass from `root` along an order. -/
def reverseAlong (root : Node) (order : List Node) : Step (Graph K E) Unit := do
  evaluate root
  seed root
  order.reverse.forM propagate

/-- Reverse pass over everything below `root`. -/
def reversePass (root : Node) : Step (Graph K E) Unit := do
  reverseAlong root ((← get).order root)

end DiffGraph.Graph
