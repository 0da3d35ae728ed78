/-
  Functions without a branch, and what they stand for.

  The rectifier and the logarithm choose between their cases by masks: the case that is not chosen
  is computed as well, and multiplied by zero.

  * `Binary32.mask_mul`: a number times the mask of the positive ones is that number or zero,
    unless it is minus infinity;
  * `Binary32.cut_off_eq`: a function that is cut off at zero is given a value there, and is the
    function elsewhere;
  * `Functions.branches`: in each lane the functions are what their branching definitions say, but
    for the rectifier at minus infinity, which is no number there.
-/
import DiffGraph.Proofs.Exponentials

namespace DiffGraph

open Float.Model (UnpackedFloat)

namespace Binary32

/-! ## The rectifier -/

/-- Zero times a finite number is zero. -/
theorem zero_mul_of_isFinite {x : Float32} (hx : x.isFinite = true) : SameNumber (0 * x) 0 := by
  refine SameNumber.of_pack (mul_eq 0 x) (pack_unpack _).symm ?_
  rw [unpack_zero]
  rcases finite_cases hx with ⟨s, hu⟩ | ⟨s, m, e, h, hu⟩ <;> rw [hu] <;>
    exact Or.inr ⟨_, _, rfl, rfl⟩

theorem unpack_negativeInfinity : (-1 / 0 : Float32).toModel.unpack = .infinity .negative := rfl

/-- A number that is not positive is finite, or minus infinity. -/
theorem isFinite_of_not_pos {x : Float32} (hx : x.isNaN = false) (hpos : ¬ 0 < x)
    (hne : x ≠ -1 / 0) : x.isFinite = true := by
  have hnan : x.isNaN = x.toModel.unpack.isNaN := rfl
  have hfinite : x.isFinite = x.toModel.unpack.isFinite := rfl
  rw [hnan] at hx
  rw [pos_iff] at hpos
  rw [hfinite]
  cases hu : x.toModel.unpack with
  | notANumber => rw [hu] at hx; cases hx
  | infinity s =>
    rw [hu] at hpos
    cases s with
    | positive => exact absurd trivial hpos
    | negative => exact absurd (eq_of_unpack (hu.trans unpack_negativeInfinity.symm)) hne
  | zero s | finite s m e h => rfl

/-- **The mask of the positive numbers.** -/
theorem mask_mul {x : Float32} (hx : x.isNaN = false) (hne : x ≠ -1 / 0) :
    SameNumber (Arith.ltMask 0 x * x) (if 0 < x then x else 0) := by
  have hmask : Arith.ltMask 0 x = if 0 < x then 1 else 0 := rfl
  rw [hmask]
  by_cases hpos : 0 < x
  · rw [if_pos hpos, if_pos hpos, mul_comm_float32, mul_one_float32]
    exact .refl x
  · rw [if_neg hpos, if_neg hpos]
    exact zero_mul_of_isFinite (isFinite_of_not_pos hx hpos hne)

theorem neg_iff {x : Float32} (hx : x.isNaN = false) : x < 0 ↔ ¬ 0 ≤ x := by
  have hnan : x.isNaN = x.toModel.unpack.isNaN := rfl
  have hlt : x < 0 ↔
      (x.toModel.unpack.compare (0 : Float32).toModel.unpack == some .lt) = true :=
    decide_eq_true_iff (p := x.toModel < (0 : Float32).toModel)
  rw [hnan] at hx
  rw [hlt, nonneg_iff, unpack_zero]
  cases hu : x.toModel.unpack with
  | notANumber => rw [hu] at hx; cases hx
  | zero s => simp [UnpackedFloat.compare]
  | infinity s | finite s m e h => cases s <;> simp [UnpackedFloat.compare, Positive]

/-- The mask of the numbers that are not negative. -/
theorem one_sub_mask {x : Float32} (hx : x.isNaN = false) :
    1 - Arith.ltMask x 0 = if 0 ≤ x then 1 else 0 := by
  have hmask : Arith.ltMask x 0 = if x < 0 then 1 else 0 := rfl
  have hone : (1 - 1 : Float32) = 0 := by decide +kernel
  have hzero : (1 - 0 : Float32) = 1 := by decide +kernel
  rw [hmask]
  by_cases hle : 0 ≤ x
  · rw [if_pos hle, if_neg fun hlt => (neg_iff hx).1 hlt hle, hzero]
  · rw [if_neg hle, if_pos ((neg_iff hx).2 hle), hone]

/-! ## Functions that are cut off at zero -/

/-- **A function that is cut off at zero.**  The case that is not chosen has to be finite: the
function at one, or the value given for zero. -/
theorem cut_off_eq (f : Float32 → Float32) (hf : (f 1).isFinite = true) {a : Float32}
    (ha : a.isFinite = true) (x : Float32) :
    SameNumber (f (x + Arith.eqMask x 0) * (1 - Arith.eqMask x 0) + Arith.eqMask x 0 * a)
      (if x == 0 then a else f x) := by
  have hmask : Arith.eqMask x 0 = if x == 0 then 1 else 0 := rfl
  have hone : (1 - 1 : Float32) = 0 := by decide +kernel
  have hzero : (1 - 0 : Float32) = 1 := by decide +kernel
  rw [hmask]
  by_cases hx : (x == 0) = true
  · have hsum : x + 1 = 1 := by
      obtain ⟨s, hs⟩ := unpack_of_beq_zero hx
      rcases eq_zero_or hs with rfl | rfl <;> decide +kernel
    rw [if_pos hx, if_pos hx, hsum, hone, mul_comm_float32 (f 1), mul_comm_float32 1,
      mul_one_float32]
    exact ((zero_mul_of_isFinite hf).add (.refl a)).trans (.zero_add a)
  · have hne : x ≠ -0 := by
      rintro rfl
      exact hx (by decide +kernel)
    have hself : x + 0 = x := (add_comm_float32 x 0).trans (kept_iff.2 hne)
    rw [if_neg hx, if_neg hx, hself, hzero, mul_one_float32, add_comm_float32]
    exact ((zero_mul_of_isFinite ha).add (.refl (f x))).trans (.zero_add (f x))

end Binary32

/-! ## Lanes -/

open Binary32

section
variable {F : Functions} {E : Type} [Arith E] [Laned (Single F) E] [Laned.Lawful (Single F) E]

/-- **Functions without a branch are what their branching definitions say**, in each lane and
whatever the other lanes hold, for arguments that are numbers.  The rectifier is an exception at
minus infinity.  Of the logarithm nothing is assumed but that it is finite at one. -/
theorem Functions.branches (hlog : (F.log 1).isFinite = true) (v : E) {l : Nat}
    (hl : l < Laned.width E) (hx : Float32.isNaN (Laned.lane v l : Single F) = false) :
    let x : Float32 := (Laned.lane v l : Single F)
    (x ≠ -1 / 0 →
      SameNumber (Laned.lane (Unary.relu.apply v) l : Single F) (if 0 < x then x else 0)) ∧
    (x = -1 / 0 → Float32.isNaN (Laned.lane (Unary.relu.apply v) l : Single F) = true) ∧
    (Laned.lane (Unary.relu.derivative v) l : Single F) = (if 0 ≤ x then 1 else 0 : Float32) ∧
    SameNumber (Laned.lane (Unary.log.apply v) l : Single F) (if x == 0 then -80 else F.log x) ∧
    SameNumber (Laned.lane (Unary.log.derivative v) l : Single F) (if x == 0 then 80 else 1 / x) ∧
    ∀ (f : Unary) (w : E), (Laned.lane w l : Single F) = Laned.lane v l →
      (Laned.lane (f.apply w) l : Single F) = Laned.lane (f.apply v) l ∧
      (Laned.lane (f.derivative w) l : Single F) = Laned.lane (f.derivative v) l := by
  intro x
  have hlane : Preserves fun v : E => (Laned.lane v l : Single F) := Laned.Lawful.preserves hl
  have happly : ∀ f : Unary, (Laned.lane (f.apply v) l : Single F) = f.apply (E := Single F) x :=
    fun f => hlane.apply f v
  have hderivative : ∀ f : Unary,
      (Laned.lane (f.derivative v) l : Single F) = f.derivative (E := Single F) x :=
    fun f => hlane.derivative f v
  refine ⟨fun hne => ?_, fun hne => ?_, ?_, ?_, ?_, fun f w hw => ?_⟩
  · rw [happly]
    exact mask_mul hx hne
  · have hnan : Float32.isNaN (Unary.relu.apply (-1 / 0)) = true := by decide +kernel
    rw [happly, hne]
    exact hnan
  · rw [hderivative]
    exact one_sub_mask hx
  · rw [happly]
    exact cut_off_eq F.log hlog (a := -80) rfl x
  · rw [hderivative]
    exact cut_off_eq (1 / ·) rfl (a := 80) rfl x
  · rw [happly, hderivative]
    exact ⟨(hlane.apply f w).trans (congrArg f.apply hw),
      (hlane.derivative f w).trans (congrArg f.derivative hw)⟩

/-- Minus one and zero in the lanes of a vector, with a logarithm that is zero at one. -/
theorem Functions.branches_lanes :
    let F : Functions := ⟨Float32.exp, fun x => if x == 1 then 0 else Float32.log x, Float32.tanh⟩
    let v : Lanes (Single F) 2 := ⟨#v[(-1 : Float32), (0 : Float32)]⟩
    (F.log 1).isFinite = true ∧
      (∀ l < 2, Float32.isNaN (Laned.lane v l : Single F) = false) ∧
      SameNumber (Laned.lane (Unary.relu.apply v) 0 : Single F) (0 : Float32) ∧
      SameNumber (Laned.lane (Unary.log.apply v) 1 : Single F) (-80 : Float32) := by
  intro F v
  have hlog : (F.log 1).isFinite = true := by decide +kernel
  have hx : ∀ l < 2, Float32.isNaN (Laned.lane v l : Single F) = false := by decide +kernel
  obtain ⟨hrelu, -⟩ := Functions.branches hlog v (l := 0) two_pos (hx 0 two_pos)
  obtain ⟨-, -, -, hzero, -⟩ := Functions.branches hlog v (l := 1) one_lt_two (hx 1 one_lt_two)
  have hne : (-1 : Float32) ≠ -1 / 0 := by decide +kernel
  have hneg : (if (0 : Float32) < -1 then -1 else 0) = (0 : Float32) := by decide +kernel
  have hself : (if (0 : Float32) == 0 then -80 else F.log 0) = (-80 : Float32) := by decide +kernel
  exact ⟨hlog, hx, hneg ▸ hrelu hne, hself ▸ hzero⟩

end

end DiffGraph
