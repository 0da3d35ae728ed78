/-
  The slopes of the functions.

  Each function of a graph stands beside its derivative, and both are written with masks.  Over the
  real numbers, where the exponential, the logarithm and the hyperbolic tangent are exact, the one is
  the slope of the other.

  * `Unary.Smooth`: the arguments at which a function has a slope;
  * `Unary.hasDerivAt_apply`: its derivative is the slope there.  It has no others
    (`Unary.smooth_of_differentiableAt`), but for the logarithm, which is defined at negative
    numbers as well;
  * `Unary.PassesBack`: a value, and a gradient that is passed back from it;
  * `Unary.derivative_is_slope`: what vertices and items of programs pass back.
-/
import Mathlib
import DiffGraph.Proofs.Entries
import DiffGraph.Proofs.Exact
import DiffGraph.Proofs.Lanewise

namespace DiffGraph

open Filter Topology

namespace Unary

/-- Where a function is smooth, among the arguments that it is meant for. -/
def Smooth : Unary → ℝ → Prop
  | relu, x => x ≠ 0
  | log, x => 0 < x
  | sigmoid, _ | exp, _ | tanh, _ | square, _ => True

/-! ## The functions over the real numbers -/

section
variable (x : ℝ)

theorem logistic_real : logistic x = Real.sigmoid x := one_div _

theorem apply_relu_real : relu.apply x = max 0 x := by
  have hmask : relu.apply x = (if 0 < x then 1 else 0) * x := rfl
  rw [hmask]
  rcases lt_or_ge 0 x with h | h
  · rw [if_pos h, one_mul, max_eq_right h.le]
  · rw [if_neg h.not_gt, zero_mul, max_eq_left h]

theorem derivative_relu_real : relu.derivative x = if x < 0 then 0 else 1 := by
  have hmask : relu.derivative x = 1 - if x < 0 then 1 else 0 := rfl
  rw [hmask]
  split <;> norm_num

theorem apply_log_real : log.apply x = if x = 0 then -80 else Real.log x := by
  have hmask : log.apply x = Real.log (x + if x = 0 then 1 else 0) * (1 - if x = 0 then 1 else 0) +
      (if x = 0 then 1 else 0) * -((80 : ℕ) : ℝ) := rfl
  rw [hmask]
  split <;> norm_num

theorem derivative_log_real : log.derivative x = if x = 0 then 80 else x⁻¹ := by
  have hmask : log.derivative x = 1 / (x + if x = 0 then 1 else 0) * (1 - if x = 0 then 1 else 0) +
      (if x = 0 then 1 else 0) * ((80 : ℕ) : ℝ) := rfl
  rw [hmask]
  split <;> norm_num

end

/-! ## Slopes -/

variable {x : ℝ}

theorem hasDerivAt_relu (hx : x ≠ 0) : HasDerivAt relu.apply (relu.derivative x) x := by
  rw [derivative_relu_real, funext apply_relu_real]
  rcases lt_or_gt_of_ne hx with h | h
  · rw [if_pos h]
    have hzero : (fun y => max 0 y) =ᶠ[𝓝 x] fun _ => 0 :=
      (eventually_lt_nhds h).mono fun y hy => max_eq_left hy.le
    exact (hasDerivAt_const x 0).congr_of_eventuallyEq hzero
  · rw [if_neg h.not_gt]
    have hself : (fun y => max 0 y) =ᶠ[𝓝 x] id :=
      (eventually_gt_nhds h).mono fun y hy => max_eq_right hy.le
    exact (hasDerivAt_id x).congr_of_eventuallyEq hself

theorem hasDerivAt_log (hx : x ≠ 0) : HasDerivAt log.apply (log.derivative x) x := by
  have hself : log.apply =ᶠ[𝓝 x] Real.log :=
    (eventually_ne_nhds hx).mono fun y hy => (apply_log_real y).trans (if_neg hy)
  rw [derivative_log_real, if_neg hx]
  exact (Real.hasDerivAt_log hx).congr_of_eventuallyEq hself

theorem hasDerivAt_tanh (x : ℝ) : HasDerivAt Real.tanh (1 - Real.tanh x * Real.tanh x) x := by
  have hcosh : Real.cosh x ≠ 0 := (Real.cosh_pos x).ne'
  have hquot := (Real.hasDerivAt_sinh x).div (Real.hasDerivAt_cosh x) hcosh
  rw [funext Real.tanh_eq_sinh_div_cosh]
  refine hquot.congr_deriv ?_
  field_simp

/-- **Slopes** of the functions where they are smooth. -/
theorem hasDerivAt_apply (f : Unary) (hx : f.Smooth x) : HasDerivAt f.apply (f.derivative x) x := by
  cases f with
  | sigmoid =>
    have hvalue : (sigmoid.apply : ℝ → ℝ) = Real.sigmoid := funext logistic_real
    have hslope : sigmoid.derivative x = Real.sigmoid x * (1 - Real.sigmoid x) := by
      rw [← logistic_real]
      rfl
    rw [hvalue, hslope]
    exact Real.hasDerivAt_sigmoid x
  | relu => exact hasDerivAt_relu hx
  | exp => exact Real.hasDerivAt_exp x
  | log => exact hasDerivAt_log hx.ne'
  | tanh => exact hasDerivAt_tanh x
  | square =>
    have hsquare := (hasDerivAt_id x).mul (hasDerivAt_id x)
    refine hsquare.congr_deriv ?_
    have hslope : square.derivative x = (2 : ℕ) * x := rfl
    rw [hslope, Nat.cast_two, one_mul, mul_one, two_mul, id]

/-! ## Arguments without a slope -/

theorem not_differentiableAt_relu : ¬ DifferentiableAt ℝ (relu.apply : ℝ → ℝ) 0 := by
  intro h
  have habs : (abs : ℝ → ℝ) = fun y => 2 * relu.apply y - y := by
    funext y
    rw [apply_relu_real, abs_eq_max_neg]
    rcases le_total 0 y with hy | hy
    · rw [max_eq_left (by linarith), max_eq_right hy]
      ring
    · rw [max_eq_right (by linarith), max_eq_left hy]
      ring
  refine not_differentiableAt_abs_zero ?_
  have hdiff := (h.const_mul 2).sub differentiableAt_id
  exact habs ▸ hdiff

theorem not_differentiableAt_log : ¬ DifferentiableAt ℝ (log.apply : ℝ → ℝ) 0 := by
  intro h
  have hlimit : Tendsto (log.apply : ℝ → ℝ) (𝓝[≠] 0) (𝓝 (log.apply 0)) :=
    h.continuousAt.tendsto.mono_left nhdsWithin_le_nhds
  have hlog : (log.apply : ℝ → ℝ) =ᶠ[𝓝[≠] 0] Real.log :=
    eventually_mem_nhdsWithin.mono fun y hy => (apply_log_real y).trans (if_neg hy)
  exact not_tendsto_nhds_of_tendsto_atBot
    (Real.tendsto_log_nhdsNE_zero.congr' hlog.symm) _ hlimit

/-- The functions have slopes nowhere else but for the logarithm of a negative number, whose
argument is not meant. -/
theorem smooth_of_differentiableAt {f : Unary} (h : DifferentiableAt ℝ (f.apply : ℝ → ℝ) x) :
    f.Smooth x ∨ f = log ∧ x < 0 := by
  cases f with
  | sigmoid | exp | tanh | square => exact .inl trivial
  | relu => exact .inl fun hx => not_differentiableAt_relu (hx ▸ h)
  | log =>
    rcases lt_trichotomy x 0 with hx | rfl | hx
    · exact .inr ⟨rfl, hx⟩
    · exact absurd h not_differentiableAt_log
    · exact .inl hx

/-! ## Gradients -/

section
variable {E : Type} [Arith E] [Laned ℝ E]

/-- From `x` to `y`, and back from the gradient `g` to `d`: in each lane in which the function is
smooth, `y` is its value, and `d` the slope of its value weighted with `g`. -/
def PassesBack (f : Unary) (x y g d : E) : Prop :=
  ∀ l < Laned.width E, f.Smooth (Laned.lane x l) →
    Laned.lane y l = f.apply (Laned.lane x l : ℝ) ∧
    HasDerivAt (fun z : ℝ => Laned.lane g l * f.apply z) (Laned.lane d l) (Laned.lane x l)

variable [Laned.Lawful ℝ E]

theorem passesBack_apply (f : Unary) (x g : E) :
    f.PassesBack x (f.apply x) g (g * f.derivative x) := by
  intro l hl hx
  have hlane : Preserves fun v : E => (Laned.lane v l : ℝ) := Laned.Lawful.preserves hl
  have hd : (Laned.lane (g * f.derivative x) l : ℝ) =
      Laned.lane g l * f.derivative (Laned.lane x l) :=
    (hlane.mul g _).trans (congrArg _ (hlane.derivative f x))
  refine ⟨hlane.apply f x, ?_⟩
  rw [hd]
  exact (f.hasDerivAt_apply hx).const_mul _

/-- **A vertex passes back slopes**, entry by entry. -/
theorem exists_passesBack (f : Unary) {x grad : Matrix E} (hg : grad.shape = x.shape) :
    ∃ d, grad.zipWith "func backward" (fun g x => g * f.derivative x) x = .ok d ∧
      d.shape = x.shape ∧ ∀ r < x.rows, ∀ c < x.cols,
        f.PassesBack (x.entry r c) ((x.map f.apply).entry r c) (grad.entry r c) (d.entry r c) := by
  obtain ⟨hrows, hcols⟩ := Prod.mk.inj hg
  refine ⟨_, Matrix.zipWith_eq hg, hg, fun r hr c hc => ?_⟩
  rw [Matrix.entry_map_of_lt _ hr hc, Matrix.entry_ofFn (hrows ▸ hr) (hcols ▸ hc)]
  exact f.passesBack_apply _ _

/-- **Every function stands beside its derivative.**  Over the real numbers, the derivative of a
function is its slope at each argument where it is smooth: at positive numbers for the logarithm, at
all but zero for the rectifier, and everywhere for the others.  There are no other slopes, but for
those of the logarithm at negative numbers.  So what a vertex and an item of a program pass back is
the slope of their value, weighted with their gradient, in each lane. -/
theorem derivative_is_slope (f : Unary) :
    (∀ x : ℝ, f.Smooth x → HasDerivAt f.apply (f.derivative x) x) ∧
    (∀ x : ℝ, DifferentiableAt ℝ (f.apply : ℝ → ℝ) x → f.Smooth x ∨ f = log ∧ x < 0) ∧
    (∀ (val : Node → Matrix E) (n : Node) (own mask grad : Matrix E),
      grad.shape = (val n).shape → ∃ y d,
        (Op.func f n : Op ℝ).value own mask val = .ok y ∧ y.shape = (val n).shape ∧
        (Op.func f n : Op ℝ).pushes y mask grad val = .ok [(n, .whole d)] ∧
        d.shape = (val n).shape ∧ ∀ r < (val n).rows, ∀ c < (val n).cols,
          f.PassesBack ((val n).entry r c) (y.entry r c) (grad.entry r c) (d.entry r c)) ∧
    ∀ (val : Nat → E) (i : Nat) (g : E), ∃ y d,
      (Instr.func f i).compute val = some y ∧ (Instr.func f i).pushes val g = [(i, d)] ∧
      f.PassesBack (val i) y g d := by
  refine ⟨fun x => f.hasDerivAt_apply, fun x => smooth_of_differentiableAt,
    fun val n own mask grad hg => ?_,
    fun val i g => ⟨_, _, rfl, rfl, f.passesBack_apply (val i) g⟩⟩
  obtain ⟨d, hd, hds, hback⟩ := f.exists_passesBack hg
  exact ⟨(val n).map f.apply, d, rfl, rfl, by rw [Op.pushes, hd]; rfl, hds, hback⟩

end

/-- The logarithm at two, and the rectifier in two lanes. -/
theorem derivative_is_slope_ramp :
    let x : Lanes ℝ 2 := ⟨#v[2, -1]⟩
    let g : Lanes ℝ 2 := ⟨#v[3, 3]⟩
    log.Smooth 2 ∧ HasDerivAt (log.apply : ℝ → ℝ) 2⁻¹ 2 ∧
      (Matrix.scalar g).shape = (Matrix.scalar x).shape ∧ ∃ y d,
        (Op.func relu 0 : Op ℝ).value .empty .empty (fun _ => .scalar x) = .ok y ∧
        (Op.func relu 0 : Op ℝ).pushes y .empty (.scalar g) (fun _ => .scalar x) =
          .ok [(0, .whole d)] ∧
        relu.Smooth 2 ∧ HasDerivAt (fun z : ℝ => 3 * relu.apply z) (Laned.lane (d.entry 0 0) 0) 2 ∧
        relu.Smooth (-1) ∧
        HasDerivAt (fun z : ℝ => 3 * relu.apply z) (Laned.lane (d.entry 0 0) 1) (-1) := by
  intro x g
  have hlog : log.Smooth 2 := two_pos
  have hright : relu.Smooth 2 := two_ne_zero
  have hleft : relu.Smooth (-1) := neg_ne_zero.2 one_ne_zero
  obtain ⟨hslope, -⟩ := derivative_is_slope (E := Lanes ℝ 2) log
  obtain ⟨-, -, hvertex, -⟩ := derivative_is_slope (E := Lanes ℝ 2) relu
  obtain ⟨y, d, hy, -, hd, -, hback⟩ :=
    hvertex (fun _ => .scalar x) 0 .empty .empty (.scalar g) rfl
  have hlanes := hback 0 one_pos 0 one_pos
  refine ⟨hlog, ?_, rfl, y, d, hy, hd, hright, (hlanes 0 two_pos hright).2, hleft,
    (hlanes 1 one_lt_two hleft).2⟩
  have hhalf : log.derivative (2 : ℝ) = 2⁻¹ := (derivative_log_real 2).trans (if_neg two_ne_zero)
  exact hhalf ▸ hslope 2 hlog

end Unary

end DiffGraph
