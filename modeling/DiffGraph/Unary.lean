/-
  The functions a graph can apply to every element of a value.

  Each function stands beside its derivative.  Both are written without a
  branch, by masks, so that every lane of an element is treated by itself.  The
  logarithm of zero is minus eighty, in place of minus infinity.
-/
import DiffGraph.Scalar

namespace DiffGraph

/-- The functions, in the order of their index. -/
inductive Unary where
  | sigmoid
  | relu
  | exp
  | log
  | tanh
  | square
deriving DecidableEq, Repr

namespace Unary

/-- All functions; the place of each is its index. -/
def all : List Unary := [sigmoid, relu, exp, log, tanh, square]

def index : Unary → Nat
  | sigmoid => 0
  | relu => 1
  | exp => 2
  | log => 3
  | tanh => 4
  | square => 5

/-- The function of an index, if there is one. -/
def ofIndex? (i : Nat) : Option Unary := all[i]?

def name : Unary → String
  | sigmoid => "sigmoid"
  | relu => "relu"
  | exp => "exp"
  | log => "log"
  | tanh => "tanh"
  | square => "square"

section
variable {E : Type} [Arith E]

/-- `1 / (1 + exp (-x))` -/
def logistic (x : E) : E := 1 / (1 + Arith.exp (-x))

/-- The magnitude of the logarithm of zero. -/
def eighty : E := (80 : Nat)

/-- The value of a function. -/
def apply (f : Unary) (x : E) : E :=
  match f with
  | sigmoid => logistic x
  | relu => Arith.ltMask 0 x * x
  | exp => Arith.exp x
  | log =>
    let atZero := Arith.eqMask x 0
    Arith.log (x + atZero) * (1 - atZero) + atZero * -eighty
  | tanh => Arith.tanh x
  | square => x * x

/-- The derivative of a function; the rectifier has slope one at zero. -/
def derivative (f : Unary) (x : E) : E :=
  match f with
  | sigmoid => logistic x * (1 - logistic x)
  | relu => 1 - Arith.ltMask x 0
  | exp => Arith.exp x
  | log =>
    let atZero := Arith.eqMask x 0
    1 / (x + atZero) * (1 - atZero) + atZero * eighty
  | tanh => 1 - Arith.tanh x * Arith.tanh x
  | square => (2 : Nat) * x

end

end Unary

end DiffGraph
