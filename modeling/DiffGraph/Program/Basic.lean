/-
  Compiled programs.

  A graph of numbers can be compiled into a list of instructions.  Instruction
  `i` computes item `i` from earlier items.  `Code` is what compilation fixes:
  the instructions, which items receive gradients, and the entries, the items
  whose vertices were marked.  A `Program E` adds to its code a value and a
  gradient for each item, and nothing else of it ever changes.

  The fingerprint of a program is a hash of its instructions.  It tells whether a
  projection belongs to the program.
-/
import DiffGraph.Graph.Basic

namespace DiffGraph

/-- What an item computes from earlier items. -/
inductive Instr where
  | parameter
  | add (l r : Nat)
  | neg (l : Nat)
  | mul (l r : Nat)
  | div (l r : Nat)
  | func (f : Unary) (l : Nat)
  | max (l r : Nat)
deriving DecidableEq, Repr

namespace Instr

/-- The items an instruction reads. -/
def operands : Instr → List Nat
  | parameter => []
  | neg l | func _ l => [l]
  | add l r | mul l r | div l r | max l r => [l, r]

def isParameter : Instr → Bool
  | parameter => true
  | _ => false

/-- The number that stands for an operand an instruction does not have. -/
def unused : Nat := 0xffffffff

/-- The operation of an instruction. -/
def kind : Instr → Kind
  | parameter => .parameter
  | add .. => .add
  | neg .. => .neg
  | mul .. => .mul
  | div .. => .div
  | func .. => .func
  | max .. => .max

/-- The number of the operation of an instruction. -/
def opcode : Instr → Nat
  | parameter => 0
  | add .. => 1
  | neg .. => 2
  | mul .. => 3
  | div .. => 4
  | func .. => 5
  | max .. => 6

/-- The first operand. -/
def lhs (i : Instr) : Nat := i.operands.getD 0 unused

/-- The second operand. -/
def rhs (i : Instr) : Nat := i.operands.getD 1 unused

/-- The index of the function, zero where there is none. -/
def funcIndex : Instr → Nat
  | func f _ => f.index
  | _ => 0

/-- The numbers that make up an instruction. -/
def encode (i : Instr) : List Nat := [i.opcode, i.lhs, i.rhs, i.funcIndex]

end Instr

/-- An instruction, and whether gradients are computed for it. -/
structure Item where
  instr : Instr
  tracked : Bool
deriving DecidableEq, Repr

/-- An item whose vertex was marked as an input or as a receiver of gradients. -/
structure Entry where
  index : Nat
  node : NodeId
deriving DecidableEq, Repr

/-- Instructions over earlier items. -/
structure Code where
  items : Array Item
  operands_lt : ∀ (i : Nat) (h : i < items.size), ∀ c ∈ items[i].instr.operands, c < i
  entries : List Entry

namespace Code

def empty : Code := ⟨#[], fun _ h => absurd h (by simp), []⟩

def size (code : Code) : Nat := code.items.size

/-- The instruction of an item. -/
def instr (code : Code) (i : Nat) : Instr := (code.items.getD i ⟨.parameter, false⟩).instr

/-- Gradients are computed for an item. -/
def tracked (code : Code) (i : Nat) : Bool := (code.items.getD i ⟨.parameter, false⟩).tracked

/-- Adds an item, and with it an entry if its vertex was marked. -/
def push (code : Code) (item : Item) (h : ∀ c ∈ item.instr.operands, c < code.size)
    (entry : Option Entry) : Code where
  items := code.items.push item
  operands_lt i hi c hc := by
    rw [Array.getElem_push] at hc
    split at hc
    · exact code.operands_lt i _ c hc
    · have : i = code.items.size := by simp at hi; omega
      exact this ▸ h c hc
  entries := code.entries ++ entry.toList

/-- A hash of the number of items and of all instructions. -/
def fingerprint (code : Code) : UInt64 :=
  (code.items.toList.flatMap fun item => item.instr.encode).foldl mix (mix 0 code.size)
where
  /-- Adds one number to a hash. -/
  mix (hash : UInt64) (n : Nat) : UInt64 := scramble (hash * 0x100000001b3 + UInt64.ofNat n + 1)

end Code

/-- A code with a value and a gradient for each item. -/
structure Program (E : Type) where
  code : Code
  fingerprint : UInt64
  values : Array E
  grads : Array E

namespace Program

variable {E : Type}

def size (p : Program E) : Nat := p.code.size

def value [Zero E] (p : Program E) (i : Nat) : E := p.values.getD i 0

def grad [Zero E] (p : Program E) (i : Nat) : E := p.grads.getD i 0

def setValue (p : Program E) (i : Nat) (e : E) : Program E :=
  { p with values := p.values.setIfInBounds i e }

theorem value_setValue_self [Zero E] (p : Program E) {i : Nat} (h : i < p.values.size) (e : E) :
    (p.setValue i e).value i = e := by
  simp [value, setValue, Array.getD, h]

theorem value_setValue_of_ne [Zero E] (p : Program E) {i j : Nat} (h : i ≠ j) (e : E) :
    (p.setValue i e).value j = p.value j := by
  simp [value, setValue, Array.getD_eq_getD_getElem?, Array.getElem?_setIfInBounds_ne h]

/-- The same program over another element type.  Values are broadcast, gradients
start from zero. -/
def convert {K T : Type} [Zero K] [Zero T] [Laned K E] [Laned K T] (p : Program E) : Program T where
  code := p.code
  fingerprint := p.fingerprint
  values := p.values.map Laned.broadcast
  grads := Array.replicate p.size 0

end Program

end DiffGraph
