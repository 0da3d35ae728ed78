/-
  Causes of failure.

  A `Failure` says what went wrong; `Failure.message` is its wording.  All but
  two are reports to the caller.  `outOfRange` is a read or a write past the end
  of stored data, which ends the computation, and `unknownNode` is a handle that
  no vertex of the graph answers to.
-/
import DiffGraph.Kind
import DiffGraph.Size

namespace DiffGraph

/-- What went wrong. -/
inductive Failure where
  /-- two shapes that an operation needs to agree do not -/
  | shapeMismatch (expected actual : Shape) (operation : String)
  | divisorNotScalar (divisor : Shape)
  | rectOutside (rect : Rect) (shape : Shape)
  | indexOutside (index shape : Shape)
  | dataLength (length : Nat) (shape : Shape)
  /-- only the value of a parameter can be written -/
  | notParameter (operation : String)
  | notCompilable (kind : Kind)
  | parameterNotScalar (node : Nat) (shape : Shape)
  /-- a projection is used with another program than its own -/
  | otherProgram (expected actual : UInt64)
  /-- a projection is used with a block of another shape than its own -/
  | otherBlock (expected actual : Shape)
  /-- two orders paired by position differ in length -/
  | otherLength (expected actual : Nat)
  /-- two orders paired by position differ in the kind of a vertex -/
  | otherKind (position : Nat) (expected actual : Kind)
  /-- a program meets another vertex than the one it was compiled from -/
  | otherNode (position expected actual : Nat)
  /-- a program meets an order that ends before one of its entries -/
  | shortOrder (position expected length : Nat)
  | laneOutside (lane width : Nat)
  | emptyNormalize
  | emptyWindow
  | rateOutside (rate : String)
  | emptyStepBatch
  | emptyBatch
  | operandNotBefore (operand node : Nat)
  /-- there is nothing to evaluate -/
  | empty
  | outOfRange
  | unknownNode (node : Nat)
deriving DecidableEq, Repr

namespace Failure

/-- A number in hexadecimal, filled up with zeros to `width` digits. -/
def hex (width n : Nat) : String :=
  let digits := Nat.toDigits 16 n
  String.ofList (List.replicate (width - digits.length) '0' ++ digits)

/-- Wording of a pair that does not fit together. -/
def unlike (expected actual : String) : String :=
  "Projection does not match program: expected " ++ expected ++ ", got " ++ actual

/-- Wording of an argument that no operation accepts. -/
def invalid (what : String) : String := "Invalid argument: " ++ what

/-- The wording of a failure. -/
def message : Failure → String
  | shapeMismatch expected actual operation =>
    "Shape mismatch: expected " ++ expected.text ++ ", got " ++ actual.text ++
      " during operation " ++ operation
  | divisorNotScalar divisor =>
    "Division is only defined by a 1x1 value, divisor is " ++ divisor.crossed
  | rectOutside rect shape =>
    "Slice of " ++ rect.shape.crossed ++ " at (" ++ toString rect.row ++ ", " ++
      toString rect.col ++ ") does not fit in a " ++ shape.crossed ++ " value"
  | indexOutside index shape =>
    "Index out of bounds: index " ++ index.text ++ " for shape " ++ shape.text
  | dataLength length shape =>
    "Matrix creation error: data length " ++ toString length ++ " does not match shape " ++
      shape.text
  | notParameter operation => "Operation '" ++ operation ++ "' requires a Parameter node"
  | notCompilable kind => "Unsupported operation: " ++ kind.name ++ " nodes cannot be compiled"
  | parameterNotScalar node shape =>
    "Unsupported operation: parameter " ++ toString node ++ " is " ++ shape.crossed ++
      "; only 1x1 parameters compile"
  | otherProgram expected actual =>
    unlike ("program " ++ hex 16 expected.toNat) ("program " ++ hex 16 actual.toNat)
  | otherBlock expected actual => unlike (expected.crossed ++ " block") (actual.crossed ++ " block")
  | otherLength expected actual =>
    unlike ("a replica of " ++ toString expected ++ " nodes") (toString actual ++ " nodes")
  | otherKind position expected actual =>
    unlike (expected.name ++ " at position " ++ toString position) actual.name
  | otherNode position expected actual =>
    unlike ("node " ++ toString expected ++ " at position " ++ toString position)
      ("node " ++ toString actual)
  | shortOrder position expected length =>
    unlike ("node " ++ toString expected ++ " at position " ++ toString position)
      ("an order of " ++ toString length ++ " nodes")
  | laneOutside lane width =>
    invalid ("lane " ++ toString lane ++ " out of range for a " ++ toString width ++
      "-lane element")
  | emptyNormalize => invalid "cannot normalize an empty value"
  | emptyWindow => invalid "max_pool_2d window size must be positive"
  | rateOutside rate => invalid ("dropout rate must be in [0, 1), got " ++ rate)
  | emptyStepBatch => invalid "SGD batch size must be at least 1"
  | emptyBatch => invalid "batch size must be at least 1"
  | operandNotBefore operand node =>
    invalid ("operand " ++ toString operand ++ " of node " ++ toString node ++
      " precedes it nowhere in the order")
  | empty => "Cannot evaluate an empty graph or program"
  | outOfRange => "position out of range"
  | unknownNode node => "node " ++ toString node ++ " does not belong to the graph"

end Failure

end DiffGraph
