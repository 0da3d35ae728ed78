/-
  Lane vectors and the conversions between element types.

  * `Lanes K W` packs `W` numbers; every operation of `Arith` acts on each lane
    by itself.
  * `Laned K E` says that an element of type `E` consists of lanes of type `K`.
    A single number is an element of one lane, whichever lane is asked for.
  * `Laned.broadcast` repeats the lanes of an element to fill a wider one;
    `Laned.fold` adds the lanes of an element up into a narrower one.  The first
    moves values into a program, the second moves gradients back.
-/
import DiffGraph.Scalar

namespace DiffGraph

/-- An element of `W` lanes. -/
structure Lanes (K : Type) (W : Nat) where
  lanes : Vector K W

namespace Lanes

variable {K : Type} {W : Nat}

/-- The same number in every lane. -/
def fill (k : K) : Lanes K W := ⟨Vector.replicate W k⟩

/-- The lanes given by a function of their index. -/
def ofFn (f : Nat → K) : Lanes K W := ⟨Vector.ofFn fun l => f l⟩

/-- Acts on every lane. -/
def map (f : K → K) (v : Lanes K W) : Lanes K W := ⟨v.lanes.map f⟩

/-- Combines two vectors lane by lane. -/
def zipWith (f : K → K → K) (v w : Lanes K W) : Lanes K W := ⟨v.lanes.zipWith f w.lanes⟩

/-- Replaces one lane, if there is one of that index. -/
def set? (v : Lanes K W) (lane : Nat) (k : K) : Option (Lanes K W) :=
  if h : lane < W then some ⟨v.lanes.set lane k⟩ else none

instance [Arith K] : Arith (Lanes K W) where
  zero := fill 0
  one := fill 1
  natCast n := fill n
  add := zipWith (· + ·)
  sub := zipWith (· - ·)
  mul := zipWith (· * ·)
  div := zipWith (· / ·)
  neg := map (- ·)
  ltMask := zipWith Arith.ltMask
  eqMask := zipWith Arith.eqMask
  max := zipWith Arith.max
  exp := map Arith.exp
  log := map Arith.log
  tanh := map Arith.tanh
  sqrt := map Arith.sqrt

/-- Equal in every lane. -/
instance [BEq K] : BEq (Lanes K W) where
  beq v w := v.lanes.toArray == w.lanes.toArray

/-- The lanes are separated by blanks in the plain form and listed in the other. -/
instance [Written K] : Written (Lanes K W) where
  plain v := " ".intercalate (v.lanes.toList.map Written.plain)
  tagged v := "[" ++ ", ".intercalate (v.lanes.toList.map Written.tagged) ++ "]"

end Lanes

/-- Elements that consist of lanes. -/
class Laned (K : outParam Type) (E : Type) where
  /-- how many lanes there are -/
  width : Nat
  ofLanes : (Nat → K) → E
  lane? : E → Nat → Option K
  /-- the sum of all lanes -/
  total : E → K

/-- A single number: its only lane answers to every index. -/
instance {K : Type} [Scalar K] : Laned K K where
  width := 1
  ofLanes f := f 0
  lane? k _ := some k
  total k := k

/-- Sums over lanes start from negative zero, which is neutral in rounded
arithmetic also for a sum of negative zeros. -/
instance {K : Type} {W : Nat} [Arith K] : Laned K (Lanes K W) where
  width := W
  ofLanes := Lanes.ofFn
  lane? v l := v.lanes[l]?
  total v := v.lanes.toList.foldl (· + ·) (-0)

namespace Laned

variable {K S T : Type}

/-- The same number in every lane. -/
def splat [Laned K T] (k : K) : T := ofLanes fun _ => k

/-- A lane, or zero where there is none. -/
def lane [Zero K] [Laned K S] (v : S) (l : Nat) : K := (lane? v l).getD 0

/-- Re-expresses an element as one of another type, reading its lanes cyclically. -/
def broadcast [Zero K] [Laned K S] [Laned K T] (v : S) : T :=
  ofLanes fun l => lane v (l % width S)

/-- The sum of the lanes `l`, `l + step`, `l + 2 * step`, … of an element. -/
def stride [Arith K] [Laned K S] (v : S) (step l : Nat) : K :=
  ((List.range (width S)).filter fun k => k % step = l).foldl (fun sum k => sum + lane v k) (-0)

/-- Moves an element into another type so that the sum of the lanes stays.  A
narrower target adds up the lanes that agree modulo its width; a target at least
as wide is filled cyclically. -/
def fold [Arith K] [Laned K S] [Laned K T] (v : S) : T :=
  if width T = 1 then splat (total v)
  else if width S ≤ width T then broadcast v
  else ofLanes (stride v (width T))

end Laned

end DiffGraph
