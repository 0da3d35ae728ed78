/-
  Scaling a parameter to a mean and a standard deviation, over the real numbers.

  * `Moments.mean`, `Moments.deviation`: the mean of some numbers and their standard deviation,
    and what an affine change does to both;
  * `Moments.deviation_eq_zero_iff`: the deviation is zero for equal numbers, and for no others;
  * `Matrix.reals_normalized`, `Matrix.reals_normalized_some`: what the scaled entries are;
  * `Graph.normalize_moments`: the mean is as asked for, and the deviation too, unless the mean
    asked for is zero.
-/
import Mathlib
import DiffGraph.Graph.Parameter
import DiffGraph.Proofs.LaneGraphs
import DiffGraph.Proofs.Softmax

namespace DiffGraph

open Finset

namespace Moments

variable {ι : Type} [Fintype ι]

/-- The mean of some numbers. -/
noncomputable def mean (x : ι → ℝ) : ℝ := (∑ i, x i) / Fintype.card ι

/-- Their standard deviation: the root of the mean square of the differences from the mean. -/
noncomputable def deviation (x : ι → ℝ) : ℝ := √(mean fun i => (x i - mean x) ^ 2)

theorem mean_mul (x : ι → ℝ) (c : ℝ) : mean (fun i => x i * c) = mean x * c := by
  rw [mean, ← sum_mul, mean]
  ring

theorem mean_add [Nonempty ι] (a : ℝ) (x : ι → ℝ) : mean (fun i => a + x i) = a + mean x := by
  have hcard : (Fintype.card ι : ℝ) ≠ 0 := Nat.cast_ne_zero.2 Fintype.card_ne_zero
  have hsum : ∑ i, (a + x i) = Fintype.card ι * a + ∑ i, x i := by
    rw [sum_add_distrib, sum_const, card_univ, nsmul_eq_mul]
  rw [mean, hsum, add_div, mul_div_cancel_left₀ a hcard, mean]

theorem deviation_mul (x : ι → ℝ) (c : ℝ) :
    deviation (fun i => x i * c) = deviation x * |c| := by
  have hsq : (fun i => (x i * c - mean (fun i => x i * c)) ^ 2) =
      fun i => (x i - mean x) ^ 2 * c ^ 2 := by
    funext i
    rw [mean_mul]
    ring
  rw [deviation, hsq, mean_mul, Real.sqrt_mul' _ (sq_nonneg c), Real.sqrt_sq_eq_abs, deviation]

theorem deviation_add [Nonempty ι] (a : ℝ) (x : ι → ℝ) :
    deviation (fun i => a + x i) = deviation x := by
  simp only [deviation, mean_add, add_sub_add_left_eq_sub]

/-- Numbers moved along the lines from `a`. -/
theorem mean_stretch [Nonempty ι] (x : ι → ℝ) (a c : ℝ) :
    mean (fun i => a + (x i - a) * c) = a + (mean x - a) * c := by
  have hsub : mean (fun i => x i - a) = mean x - a := by
    simp only [sub_eq_neg_add, mean_add]
  rw [mean_add, mean_mul, hsub]

theorem deviation_stretch [Nonempty ι] (x : ι → ℝ) (a c : ℝ) :
    deviation (fun i => a + (x i - a) * c) = deviation x * |c| := by
  have hsub : deviation (fun i => x i - a) = deviation x := by
    simp only [sub_eq_neg_add, deviation_add]
  rw [deviation_add, deviation_mul, hsub]

theorem deviation_nonneg (x : ι → ℝ) : 0 ≤ deviation x := Real.sqrt_nonneg _

/-- **Only equal numbers do not deviate** from their mean. -/
theorem deviation_eq_zero_iff [Nonempty ι] (x : ι → ℝ) :
    deviation x = 0 ↔ ∀ i j, x i = x j := by
  have hcard : (Fintype.card ι : ℝ) ≠ 0 := Nat.cast_ne_zero.2 Fintype.card_ne_zero
  have hsq : ∀ i ∈ univ, 0 ≤ (x i - mean x) ^ 2 := fun i _ => sq_nonneg _
  constructor
  · intro h
    have hmean : mean (fun i => (x i - mean x) ^ 2) ≤ 0 := Real.sqrt_eq_zero'.1 h
    have hsum : ∑ i, (x i - mean x) ^ 2 = 0 := by
      have hnonneg : 0 ≤ mean (fun i => (x i - mean x) ^ 2) :=
        div_nonneg (sum_nonneg hsq) (Nat.cast_nonneg _)
      exact (div_eq_zero_iff.1 (le_antisymm hmean hnonneg)).resolve_right hcard
    have heq : ∀ i, x i = mean x := fun i =>
      sub_eq_zero.1 (pow_eq_zero_iff two_ne_zero |>.1 ((sum_eq_zero_iff_of_nonneg hsq).1 hsum i
        (mem_univ i)))
    exact fun i j => (heq i).trans (heq j).symm
  · intro h
    obtain ⟨i₀⟩ := (inferInstance : Nonempty ι)
    have hconst : x = fun i => x i₀ + x i * 0 := funext fun i => by rw [h i i₀]; ring
    rw [hconst, deviation_add, deviation_mul, abs_zero, mul_zero]

end Moments

/-! ## Scaled matrices -/

namespace Matrix

open Moments

theorem sum_div_size {s : Shape} {m : Matrix ℝ} (h : m.shape = s) :
    m.sum / (m.size : Nat) = mean (m.reals s) := by
  subst h
  have hsum : m.sum = ∑ p, m.reals m.shape p := sum_reals rfl
  have hcard : Fintype.card m.shape.Place = m.size := by
    rw [Fintype.card_prod, Fintype.card_fin, Fintype.card_fin, size, m.size_data]
    rfl
  rw [hsum, mean, hcard]

/-- The entries scaled to a mean. -/
theorem reals_normalized (m : Matrix ℝ) (target : ℝ) :
    (Graph.normalized m target none).reals m.shape =
      fun p => m.reals m.shape p * (target / mean (m.reals m.shape)) := by
  rw [← sum_div_size rfl]
  exact reals_map rfl _

/-- The entries moved to a deviation: along the lines from the mean asked for, by the quotient of
the deviations. -/
theorem reals_normalized_some {m : Matrix ℝ} {target : ℝ} (deviation : ℝ) {x : m.shape.Place → ℝ}
    (hx : (Graph.normalized m target none).reals m.shape = x) (hmean : mean x = target) :
    (Graph.normalized m target (some deviation)).reals m.shape = fun p =>
      target + (x p - target) * (deviation / Moments.deviation x) := by
  let scaled := Graph.normalized m target none
  have hvariance : (scaled.map fun v => (v - target) * (v - target)).sum / (m.size : Nat) =
      mean fun p => (x p - mean x) ^ 2 := by
    have hsize : m.size = (scaled.map fun v => (v - target) * (v - target)).size := by
      rw [size_map]
      exact (size_map m).symm
    have hsq : (scaled.map fun v => (v - target) * (v - target)).reals m.shape =
        fun p => (x p - target) * (x p - target) := by
      rw [← hx]
      exact reals_map (m := scaled) rfl _
    have hdiv := sum_div_size (s := m.shape)
      (m := scaled.map fun v => (v - target) * (v - target)) rfl
    rw [hsize, hdiv, hsq, hmean]
    simp only [pow_two]
  have hreals : (Graph.normalized m target (some deviation)).reals m.shape = fun p =>
      target + (scaled.reals m.shape p - target) * (deviation / Real.sqrt
        ((scaled.map fun v => (v - target) * (v - target)).sum / (m.size : Nat))) :=
    reals_map (m := scaled) rfl _
  rw [hreals, hvariance, hx]
  rfl

/-- **The mean and the deviation of the scaled entries.** -/
theorem moments_normalized {m : Matrix ℝ} (hm : m.isEmpty = false) (target deviation : ℝ) :
    let x := m.reals m.shape
    let y := (Graph.normalized m target none).reals m.shape
    let z := (Graph.normalized m target (some deviation)).reals m.shape
    mean x ≠ 0 →
      ((∀ p, y p = x p * (target / mean x)) ∧ mean y = target) ∧
      (∀ p, z p = target + (y p - target) * (deviation / Moments.deviation y)) ∧
      (target ≠ 0 → (∃ p q, x p ≠ x q) → 0 ≤ deviation →
        mean z = target ∧ Moments.deviation z = deviation) ∧
      (target = 0 → Moments.deviation y = 0) := by
  intro x y z hx
  have hplaces : Nonempty m.shape.Place := nonempty_places hm
  have hy : y = fun p => x p * (target / mean x) := reals_normalized m target
  have hmean : mean y = target := by rw [hy, mean_mul, mul_div_cancel₀ _ hx]
  have hz : z = fun p => target + (y p - target) * (deviation / Moments.deviation y) :=
    reals_normalized_some deviation rfl hmean
  refine ⟨⟨congrFun hy, hmean⟩, congrFun hz, fun htarget hne hdeviation => ?_, fun htarget => ?_⟩
  · have hpos : Moments.deviation y ≠ 0 := fun h0 => by
      obtain ⟨p, q, hpq⟩ := hne
      have hyy := (deviation_eq_zero_iff y).1 h0 p q
      rw [hy] at hyy
      exact hpq (mul_right_cancel₀ (div_ne_zero htarget hx) hyy)
    rw [hz, mean_stretch, deviation_stretch, hmean, sub_self, zero_mul, add_zero,
      abs_of_nonneg (div_nonneg hdeviation (deviation_nonneg y)), mul_div_cancel₀ _ hpos]
    exact ⟨rfl, rfl⟩
  · rw [hy, deviation_mul, htarget, zero_div, abs_zero, mul_zero]

end Matrix

/-! ## Lanes -/

namespace Graph

open Moments

variable {E : Type} [Arith E] [Laned ℝ E] [Laned.Lawful ℝ E]

/-- **A parameter is scaled to a mean and a deviation.**  Only its value changes, and keeps its
shape.  In each lane whose mean is not zero the entries are multiplied by the quotient of the means,
and then have the mean asked for.  If a deviation is asked for, they are moved along the lines from
that mean by the quotient of the deviations: unless the mean asked for is zero, entries that are not
all equal then have that mean and this deviation.  For a mean of zero the deviation that is
divided by is zero. -/
theorem normalize_moments {g : Graph ℝ E} {n : Node} (hp : g.isParameter n = true)
    (hn : (g.value n).isEmpty = false) (target : ℝ) :
    ∃ v, (normalize n target none).run g = .ok () (g.update n fun c => { c with value := v }) ∧
      v.shape = (g.value n).shape ∧
      (∀ l < Laned.width E,
        let x := ((g.value n).onLane l).reals (g.value n).shape
        let y := (v.onLane l).reals (g.value n).shape
        mean x ≠ 0 → (∀ p, y p = x p * (target / mean x)) ∧ mean y = target) ∧
      ∀ deviation : ℝ, ∃ w,
        (normalize n target (some deviation)).run g =
          .ok () (g.update n fun c => { c with value := w }) ∧
        w.shape = (g.value n).shape ∧
        ∀ l < Laned.width E,
          let x := ((g.value n).onLane l).reals (g.value n).shape
          let y := (v.onLane l).reals (g.value n).shape
          let z := (w.onLane l).reals (g.value n).shape
          mean x ≠ 0 →
            (∀ p, z p = target + (y p - target) * (deviation / Moments.deviation y)) ∧
            (target ≠ 0 → (∃ p q, x p ≠ x q) → 0 ≤ deviation →
              mean z = target ∧ Moments.deviation z = deviation) ∧
            (target = 0 → Moments.deviation y = 0) := by
  have hrun : ∀ deviation, (normalize n target deviation).run g = .ok () (g.update n fun c =>
      { c with value := normalized (g.value n) target deviation }) := fun deviation =>
    run_alter hp (by rw [hn]; rfl)
  -- a lane is scaled by itself
  have hlane : ∀ l < Laned.width E, ∀ deviation,
      normalized ((g.value n).onLane l) target deviation =
        (normalized (g.value n) target deviation).onLane l := fun _ hl _ =>
    normalized_map ⟨Laned.Lawful.preserves hl, fun k => Laned.Lawful.lane_ofLanes hl _⟩ _ _ _
  have hempty : ∀ l, ((g.value n).onLane l).isEmpty = false := fun l =>
    (Matrix.isEmpty_map _).trans hn
  refine ⟨_, hrun none, rfl, fun l hl => ?_, fun deviation => ⟨_, hrun (some deviation), rfl,
    fun l hl => ?_⟩⟩
  · intro x y hx
    have hmoments := Matrix.moments_normalized (hempty l) target 0 hx
    rw [hlane l hl] at hmoments
    exact hmoments.1
  · intro x y z hx
    have hmoments := Matrix.moments_normalized (hempty l) target deviation hx
    rw [hlane l hl, hlane l hl] at hmoments
    exact hmoments.2

/-- The numbers two and four, with the mean five and the deviation one asked for. -/
theorem normalize_moments_pair :
    let g : Graph ℝ ℝ := (empty 0 ⟨fun _ => 0, fun _ => 0⟩).push .parameter
      (fun _ h => absurd h (by simp [Op.operands])) (.parameter (.column [2, 4]))
    g.isParameter 0 = true ∧ (g.value 0).isEmpty = false ∧ ∃ w,
      (normalize 0 5 (some 1)).run g = .ok () (g.update 0 fun c => { c with value := w }) ∧
      mean ((w.onLane 0).reals (2, 1)) = 5 ∧
      Moments.deviation ((w.onLane 0).reals (2, 1)) = 1 := by
  intro g
  have hp : g.isParameter 0 = true := rfl
  have hn : (g.value 0).isEmpty = false := rfl
  obtain ⟨_, -, -, -, hspread⟩ := normalize_moments hp hn 5
  obtain ⟨w, hw, -, hlane⟩ := hspread 1
  let x := ((g.value 0).onLane 0).reals (2, 1)
  have htwo : x (0, 0) = 2 := Matrix.entry_onLane one_pos (g.value 0) 0 0
  have hfour : x (1, 0) = 4 := Matrix.entry_onLane one_pos (g.value 0) 1 0
  have hx : mean x ≠ 0 := by
    have hsum : ∑ p, x p = x (0, 0) + x (1, 0) := by
      simp [Fintype.sum_prod_type, Fin.sum_univ_two]
    rw [mean, hsum, htwo, hfour]
    norm_num
  obtain ⟨-, hmoments, -⟩ := hlane 0 one_pos hx
  have hne : x (0, 0) ≠ x (1, 0) := by
    rw [htwo, hfour]
    norm_num
  obtain ⟨hmean, hdeviation⟩ := hmoments (by norm_num) ⟨_, _, hne⟩ zero_le_one
  exact ⟨hp, hn, w, hw, hmean, hdeviation⟩

end Graph

end DiffGraph
