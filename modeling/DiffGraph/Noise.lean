/-
  Samples for dropout and for random initial values.

  A `Noise` is an unlimited supply of samples, numbered from zero.  A graph
  remembers how many it has used, so that no sample is used twice.  Nothing is
  assumed about the samples but where they lie.  `Noise.ofSeed` is a supply in
  single precision: each sample is a hash of its number and of the seed.
-/
import DiffGraph.Scalar

namespace DiffGraph

/-- Supplies of samples. -/
structure Noise (K : Type) where
  /-- uniform in the unit interval, one excluded -/
  uniform : Nat → K
  /-- normal with mean zero and deviation one -/
  normal : Nat → K

/-- A hash of words: every bit of the result depends on every bit of the argument. -/
def scramble (x : UInt64) : UInt64 :=
  let x := (x ^^^ (x >>> 30)) * 0xbf58476d1ce4e5b9
  let x := (x ^^^ (x >>> 27)) * 0x94d049bb133111eb
  x ^^^ (x >>> 31)

/-- The word at place `i` of the sequence of a seed. -/
def Noise.word (seed : UInt64) (i : Nat) : UInt64 :=
  scramble (seed + 0x9e3779b97f4a7c15 * (UInt64.ofNat i + 1))

/-- A number in the unit interval from the upper 24 bits of a word. -/
def Noise.unit (w : UInt64) : Float32 := (w >>> 40).toFloat32 / 16777216

/-- The supply of a seed.  A pair of uniform samples gives a normal one, as the
radius and the angle of a point in the plane. -/
def Noise.ofSeed (seed : UInt64) : Noise Float32 where
  uniform i := unit (word seed i)
  normal i :=
    let radius := Float32.sqrt (-2 * Float32.log (1 - unit (word (scramble seed) (2 * i))))
    radius * Float32.cos (6.2831855 * unit (word (scramble seed) (2 * i + 1)))

end DiffGraph
