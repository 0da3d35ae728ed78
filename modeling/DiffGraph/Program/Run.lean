/-
  Running a compiled program.

  `Program.forward` recomputes all items but the parameters, front to back.
  `Program.reverse` goes back to front and adds to the gradients of the operands,
  but only of those that receive gradients.  Gradients are added to and never
  reset; `Program.clearGrads` does that between passes.
-/
import DiffGraph.Program.Basic
import DiffGraph.Step

namespace DiffGraph

variable {E : Type} [Arith E]

namespace Instr

/-- The value of an item from the values of earlier items; a parameter has none
of its own. -/
def compute (val : Nat → E) : Instr → Option E
  | parameter => none
  | add l r => some (val l + val r)
  | neg l => some (-val l)
  | mul l r => some (val l * val r)
  | div l r => some (val l / val r)
  | func f l => some (f.apply (val l))
  | max l r => some (Arith.max (val l) (val r))

/-- What an item with gradient `g` adds to the gradients of its operands. -/
def pushes (val : Nat → E) (g : E) : Instr → List (Nat × E)
  | parameter => []
  | add l r => [(l, g), (r, g)]
  | neg l => [(l, -g)]
  | mul l r => [(l, g * val r), (r, g * val l)]
  | div l r => [(l, g / val r), (r, -g * val l / (val r * val r))]
  | func f l => [(l, g * f.derivative (val l))]
  | max l r =>
    -- ties go to the right operand
    let left := Arith.ltMask (val r) (val l)
    [(l, g * left), (r, g * (1 - left))]

end Instr

namespace Program

/-- Recomputes one item. -/
def forwardItem (p : Program E) (i : Nat) : Program E :=
  match (p.code.instr i).compute p.value with
  | some v => p.setValue i v
  | none => p

/-- Recomputes all items from the parameters. -/
def forward (p : Program E) : Program E := (List.range p.size).foldl forwardItem p

/-- Adds to the gradient of an item that receives gradients. -/
def receive (p : Program E) (push : Nat × E) : Program E :=
  if p.code.tracked push.1 then
    { p with grads := p.grads.modify push.1 (· + push.2) }
  else p

/-- Adds the contributions of one item to the gradients of its operands. -/
def reverseItem (p : Program E) (i : Nat) : Program E :=
  if p.code.tracked i then ((p.code.instr i).pushes p.value (p.grad i)).foldl receive p else p

/-- Sets the gradient of the last item to one and goes back to the first. -/
def reverse (p : Program E) : Program E :=
  (List.range p.size).reverse.foldl reverseItem
    { p with grads := p.grads.setIfInBounds (p.size - 1) 1 }

/-- Clears all gradients. -/
def clearGrads (p : Program E) : Program E := { p with grads := p.grads.map fun _ => 0 }

/-- Recomputes all items and gives the value of the last one. -/
def result : Step (Program E) E := do
  modify forward
  let p ← get
  if p.size = 0 then throw .empty
  return p.value (p.size - 1)

/-- Reverse pass over the values of the last evaluation. -/
def reversePass : Step (Program E) Unit := do
  if (← get).size = 0 then throw .empty
  modify reverse

end Program

end DiffGraph
