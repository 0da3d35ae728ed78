/-
  Compilation of a graph along an order.

  Every vertex of the order becomes the item of the same position.  Compilation
  fails on operations that are not defined on single numbers, and on parameters
  that are not numbers; the first such vertex is reported.
-/
import DiffGraph.Program.Basic

namespace DiffGraph

/-- Where the operand `c` of vertex `n` stands among the items so far. -/
def Program.position (before : Array Node) (n c : Node) : Except Failure Nat :=
  match before.idxOf? c with
  | some i => .ok i
  | none => .error (.operandNotBefore c n)

/-- The instruction of an operation whose operands are found by `position`. -/
def Op.instr? {K : Type} (position : Node → Except Failure Nat) : Op K → Except Failure Instr
  | .parameter => .ok .parameter
  | .add l r => return .add (← position l) (← position r)
  | .neg l => return .neg (← position l)
  | .mul l r => return .mul (← position l) (← position r)
  | .div l r => return .div (← position l) (← position r)
  | .func f l => return .func f (← position l)
  | .max l r => return .max (← position l) (← position r)
  | op => .error (.notCompilable op.kind)

namespace Graph

variable {K E : Type} [Arith E]

/-- The first value of the item of a vertex: that of a parameter, else zero. -/
def itemValue (g : Graph K E) (n : Node) : Except Failure E :=
  if g.isParameter n then
    if (g.value n).isScalar then .ok ((g.value n).entry 0 0)
    else .error (.parameterNotScalar n (g.value n).shape)
  else .ok 0

/-- Adds the item of one vertex to those of the vertices `before` it. -/
def compileNode (g : Graph K E) (before : Array Node) (n : Node) (code : Code) (values : Array E) :
    Except Failure (Code × Array E) := do
  let instr ← (g.op n).instr? (Program.position before n)
  let value ← g.itemValue n
  let c := g.cell n
  let tracked := c.tracked || instr.operands.any code.tracked
  let entry := if c.isInput || c.tracked then some ⟨before.size, g.id n⟩ else none
  if h : ∀ i ∈ instr.operands, i < code.size then
    return (code.push ⟨instr, tracked⟩ h entry, values.push value)
  else throw (.operandNotBefore n n)

/-- Adds the items of further vertices. -/
def compileRest (g : Graph K E) (before : Array Node) (code : Code) (values : Array E) :
    List Node → Except Failure (Code × Array E)
  | [] => .ok (code, values)
  | n :: rest => do
    let (code, values) ← g.compileNode before n code values
    g.compileRest (before.push n) code values rest

/-- Compiles the vertices of an order. -/
def compile (g : Graph K E) (order : List Node) : Except Failure (Program E) := do
  let (code, values) ← g.compileRest #[] .empty #[] order
  return ⟨code, code.fingerprint, values, Array.replicate code.size 0⟩

end Graph

end DiffGraph
