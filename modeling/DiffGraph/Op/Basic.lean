/-
  Operations of a graph.

  A vertex of a graph is an operation over earlier vertices.  `Op` lists the
  operations with their fixed data; `Op.operands` are the vertices an operation
  reads, in the order in which the graph is traversed.
-/
import DiffGraph.Kind
import DiffGraph.Size
import DiffGraph.Unary

namespace DiffGraph

/-- A vertex, named by its place in the graph. -/
abbrev Node := Nat

/-- What a vertex computes. -/
inductive Op (K : Type) where
  /-- a value that is set from outside -/
  | parameter
  | add (l r : Node)
  /-- matrix product -/
  | mul (l r : Node)
  /-- division by a number -/
  | div (l r : Node)
  | neg (l : Node)
  /-- product entry by entry -/
  | dot (l r : Node)
  | func (f : Unary) (l : Node)
  /-- maximum entry by entry -/
  | max (l r : Node)
  /-- sum of all entries -/
  | sum (l : Node)
  | slice (rect : Rect) (l : Node)
  /-- the entries of all members in one column, each member column by column -/
  | flatten (members : List Node)
  | convolution (size : Nat) (input kernel bias : Node)
  | maxPool (size : Nat) (l : Node)
  /-- each entry is dropped with probability `rate` -/
  | dropout (rate : K) (l : Node)
  | logSoftmax (l : Node)

namespace Op

variable {K : Type}

def kind : Op K → Kind
  | parameter => .parameter
  | add .. => .add
  | mul .. => .mul
  | div .. => .div
  | neg .. => .neg
  | dot .. => .dot
  | func .. => .func
  | max .. => .max
  | sum .. => .sum
  | slice .. => .slice
  | flatten .. => .flatten
  | convolution .. => .convolution
  | maxPool .. => .maxPool
  | dropout .. => .dropout
  | logSoftmax .. => .logSoftmax

def isParameter (op : Op K) : Bool := op.kind = .parameter

/-- The vertices an operation reads, from left to right. -/
def operands : Op K → List Node
  | parameter => []
  | add l r | mul l r | div l r | dot l r | max l r => [l, r]
  | neg l | func _ l | sum l | slice _ l | maxPool _ l | dropout _ l | logSoftmax l => [l]
  | flatten members => members
  | convolution _ input kernel bias => [input, kernel, bias]

end Op

end DiffGraph
