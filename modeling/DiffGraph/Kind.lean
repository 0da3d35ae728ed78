/-
  Kinds of vertices.
-/
namespace DiffGraph

/-- What a vertex of a graph does, without its operands. -/
inductive Kind where
  | parameter
  | add
  | mul
  | div
  | neg
  | dot
  | func
  | max
  | sum
  | slice
  | flatten
  | convolution
  | maxPool
  | dropout
  | logSoftmax
deriving DecidableEq, Repr

/-- The name of a kind in messages. -/
def Kind.name : Kind → String
  | parameter => "Parameter"
  | add => "Add"
  | mul => "Mul"
  | div => "Div"
  | neg => "Neg"
  | dot => "Dot"
  | func => "Func"
  | max => "Max"
  | sum => "Sum"
  | slice => "Slice"
  | flatten => "Flatten"
  | convolution => "Convolution"
  | maxPool => "MaxPool2D"
  | dropout => "Dropout"
  | logSoftmax => "LogSoftmax"

end DiffGraph
