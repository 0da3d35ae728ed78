/-
  Arithmetic of the elements of a value.

  * `Arith E` is the arithmetic every graph and every compiled program is
    evaluated with.  It names the operations and assumes no law about them, so
    that whatever is shown for all of them also holds of rounded arithmetic.
    Comparisons give masks, one where true and zero where false: a choice is a
    product with a mask, and acts on each lane of an element by itself.
  * `Scalar K` is the arithmetic of a single lane.  Single numbers can also be
    compared, and written down in a message.
  * Single precision is a `Scalar`; every operation rounds once.
-/
import DiffGraph.Decimal.Text

namespace DiffGraph

/-- The operations on elements.  A natural number stands for the element that
holds it in every lane. -/
class Arith (E : Type) extends Zero E, One E, NatCast E, Add E, Sub E, Mul E, Div E, Neg E where
  /-- one where the first argument is smaller -/
  ltMask : E → E → E
  /-- one where the arguments are equal -/
  eqMask : E → E → E
  max : E → E → E
  exp : E → E
  log : E → E
  tanh : E → E
  sqrt : E → E

/-- The operations on single numbers. -/
class Scalar (K : Type) extends Arith K, BEq K where
  lt : K → K → Bool
  /-- the written form in messages -/
  text : K → String

/-- The written forms of an element: as a plain text, and marked as a float. -/
class Written (E : Type) where
  plain : E → String
  tagged : E → String

/-- Single precision.  The larger of a number and a NaN is the number. -/
instance : Scalar Float32 where
  zero := 0
  one := 1
  natCast := Float32.ofNat
  add := Float32.add
  sub := Float32.sub
  mul := Float32.mul
  div := Float32.div
  neg := Float32.neg
  ltMask a b := if a < b then 1 else 0
  eqMask a b := if a == b then 1 else 0
  max a b := if a < b then b else if a == a then a else b
  exp := Float32.exp
  log := Float32.log
  tanh := Float32.tanh
  sqrt := Float32.sqrt
  beq := Float32.beq
  lt a b := decide (a < b)
  text := Decimal.plain.single

instance : Written Float32 where
  plain := Decimal.plain.single
  tagged := Decimal.tagged.single

end DiffGraph
