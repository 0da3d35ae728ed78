/-
  Shortest decimals of binary floating-point values.

  * `Format` describes a binary interchange format by its two field widths, and
    `Format.read` takes a bit pattern apart into a `Reading`: not a number, an
    infinity, or a sign and a magnitude.
  * `Dyadic` is a finite magnitude `significand · 2 ^ exponent`.  The reals that
    round to it form an interval, and `Dyadic.readsBack` tests whether a decimal
    lies in it, in exact arithmetic on naturals.
  * `Dyadic.shortest` is the decimal with the fewest digits that reads back;
    among those with that many digits it is the nearest, and of two equally near
    ones the larger.
-/
namespace DiffGraph.Decimal

/-- A decimal `digits · 10 ^ scale`. -/
structure Number where
  digits : Nat
  scale : Int
deriving Repr, DecidableEq

/-- A magnitude `significand · 2 ^ exponent` of a binary format.  `narrow` says
that its lower neighbour is only half as far away as its upper one. -/
structure Dyadic where
  significand : Nat
  exponent : Int
  narrow : Bool
deriving Repr, DecidableEq

namespace Dyadic

/-- Quarters of a unit in the last place, counted in steps of `10 ^ k`, are
`steps x k` as a fraction (numerator, denominator). -/
def steps (x : Dyadic) (k : Int) : Nat × Nat :=
  (Nat.pow 2 (x.exponent - 2).toNat * Nat.pow 10 (-k).toNat,
    Nat.pow 2 (2 - x.exponent).toNat * Nat.pow 10 k.toNat)

/-- The decimal `c · 10 ^ k` rounds to `x`.  The two ends of the interval round
to the even significand. -/
def readsBack (x : Dyadic) (k : Int) (c : Nat) : Bool :=
  let (up, down) := x.steps k
  let low := (4 * x.significand - if x.narrow then 1 else 2) * up
  let high := (4 * x.significand + 2) * up
  if x.significand % 2 = 0 then low ≤ c * down && c * down ≤ high
  else low < c * down && c * down < high

/-- The multiple of `10 ^ k` that reads back as `x` and is nearest to it, if
there is one.  A tie goes to the larger multiple. -/
def nearest? (x : Dyadic) (k : Int) : Option Nat :=
  let (up, down) := x.steps k
  let below := 4 * x.significand * up / down
  let rest := 4 * x.significand * up % down
  match x.readsBack k below, x.readsBack k (below + 1) with
  | true, true => some (if 2 * rest < down then below else below + 1)
  | true, false => some below
  | false, true => some (below + 1)
  | false, false => none

/-- `10 ^ k` is at most `x`. -/
def reaches (x : Dyadic) (k : Int) : Bool :=
  let (up, down) := x.steps k
  down ≤ 4 * x.significand * up

/-- The exponent of the leading decimal digit of a non-zero `x`: one
multiplication by the decimal logarithm of two is right or one too low. -/
def leading (x : Dyadic) : Int :=
  let guess := ((x.significand.log2 : Int) + x.exponent) * 30103 / 100000
  if x.reaches (guess + 1) then guess + 1 else guess

end Dyadic

/-- Drops the trailing zeros of the digits. -/
def Number.trim (d : Number) : Number :=
  if h : d.digits ≠ 0 ∧ d.digits % 10 = 0 then Number.trim ⟨d.digits / 10, d.scale + 1⟩ else d
termination_by d.digits
decreasing_by exact Nat.div_lt_self (Nat.pos_of_ne_zero h.1) (by decide)

/-- The shortest decimal that reads back as a non-zero `x`.  Seventeen digits
are enough for a significand of 53 bits. -/
def Dyadic.shortest (x : Dyadic) : Number :=
  let found := (List.range 18).findSome? fun (i : Nat) =>
    let k := x.leading - i
    (x.nearest? k).map fun c => Number.mk c k
  (found.getD ⟨0, 0⟩).trim

/-- A binary interchange format: the widths of its two stored fields. -/
structure Format where
  fraction : Nat
  exponent : Nat

/-- Single precision. -/
def Format.single : Format := ⟨23, 8⟩

/-- Double precision. -/
def Format.double : Format := ⟨52, 11⟩

/-- What a bit pattern stands for. -/
inductive Reading where
  | nan
  | infinite (negative : Bool)
  | finite (negative : Bool) (magnitude : Dyadic)
deriving Repr, DecidableEq

/-- Takes the bit pattern of a value apart.  Exponent field zero marks the
values below the normal range, an exponent field of ones infinity and NaN. -/
def Format.read (f : Format) (bits : Nat) : Reading :=
  let unit := Nat.pow 2 f.fraction
  let special := Nat.pow 2 f.exponent - 1
  let fraction := bits % unit
  let exponent := bits / unit % (special + 1)
  let negative := bits / (unit * (special + 1)) % 2 = 1
  let least : Int := 1 - (special / 2 : Nat) - f.fraction
  if exponent = special then
    if fraction = 0 then .infinite negative else .nan
  else if exponent = 0 then .finite negative ⟨fraction, least, false⟩
  else
    .finite negative ⟨unit + fraction, least + (exponent - 1 : Nat), fraction = 0 && 1 < exponent⟩

end DiffGraph.Decimal
