/-
  Written form of numbers.

  * `Layout` holds the decisions a written form leaves open: which magnitudes are
    written without an exponent, and whether whole numbers end in `.0`.
  * `Layout.write` writes a `Reading` with its shortest digits.
  * `plain` never uses an exponent; `tagged` marks every number as a float, by a
    point or by an exponent.
-/
import DiffGraph.Decimal.Shortest

namespace DiffGraph.Decimal

/-- The decisions of a written form.  The argument of `positional` is the
position of the decimal point: the number of digits before it, or minus the
number of zeros after it. -/
structure Layout where
  positional : Int → Bool
  pointed : Bool

/-- Positional throughout; whole numbers carry no point. -/
def plain : Layout := ⟨fun _ => true, false⟩

/-- Positional from `0.0001` up to `10 ^ 16`, exclusive; whole numbers end in `.0`. -/
def tagged : Layout := ⟨fun point => -4 < point && point ≤ 16, true⟩

/-- `count` zeros. -/
def zeros (count : Nat) : String := String.ofList (List.replicate count '0')

/-- The digits of a number as a list of characters. -/
def Number.characters (d : Number) : List Char := Nat.toDigits 10 d.digits

/-- Where the decimal point stands, counted from the first digit. -/
def Number.point (d : Number) : Int := d.characters.length + d.scale

/-- The number without an exponent. -/
def Number.positional (d : Number) (pointed : Bool) : String :=
  let point := d.point
  if 0 ≤ d.scale then
    String.ofList d.characters ++ zeros d.scale.toNat ++ if pointed then ".0" else ""
  else if 0 < point then
    String.ofList (d.characters.take point.toNat) ++ "." ++
      String.ofList (d.characters.drop point.toNat)
  else
    "0." ++ zeros (-point).toNat ++ String.ofList d.characters

/-- The number as one digit before the point and an exponent of ten. -/
def Number.scientific (d : Number) : String :=
  let rest := d.characters.drop 1
  String.ofList (d.characters.take 1) ++ (if rest.isEmpty then "" else "." ++ String.ofList rest) ++
    "e" ++ toString (d.point - 1)

/-- The written form of a value; the sign is written also for zero. -/
def Layout.write (layout : Layout) : Reading → String
  | .nan => "NaN"
  | .infinite negative => if negative then "-inf" else "inf"
  | .finite negative x =>
    let sign := if negative then "-" else ""
    if x.significand = 0 then
      sign ++ if layout.pointed then "0.0" else "0"
    else
      let d := x.shortest
      sign ++ if layout.positional d.point then d.positional layout.pointed else d.scientific

/-- The written form of a single-precision number. -/
def Layout.single (layout : Layout) (x : Float32) : String :=
  layout.write (Format.single.read x.toBits.toNat)

/-- The written form of a double-precision number. -/
def Layout.double (layout : Layout) (x : Float) : String :=
  layout.write (Format.double.read x.toBits.toNat)

end DiffGraph.Decimal
