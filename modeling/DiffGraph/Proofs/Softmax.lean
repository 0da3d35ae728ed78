/-
  The logarithm of the softmax, over the real numbers.

  * `Softmax.log`: each number less the logarithm of the sum of the exponentials.  It does
    not change when the same is taken from all numbers (`Softmax.log_sub`), and its
    exponentials add up to one (`Softmax.sum_exp_log`);
  * `Softmax.hasFDerivAt_log`, `Softmax.sum_mul_deriv`: its derivative, and the transpose of
    that;
  * `Matrix.Stable`: what the exponential and the logarithm are applied to;
  * `logSoftmax_differentiated`: the operation of a graph computes this function in each
    lane, and its contribution is the gradient pulled back along it.
-/
import DiffGraph.Proofs.Comparisons
import DiffGraph.Proofs.Kernels
import DiffGraph.Proofs.Pairing
import DiffGraph.Proofs.Sums
import Mathlib

namespace DiffGraph

open Finset

namespace Softmax

variable {ι : Type} [Fintype ι]

/-- Each number less the logarithm of the sum of the exponentials of all. -/
noncomputable def log (x : ι → ℝ) (i : ι) : ℝ := x i - Real.log (∑ j, Real.exp (x j))

theorem sum_exp_pos [Nonempty ι] (x : ι → ℝ) : 0 < ∑ j, Real.exp (x j) :=
  sum_pos (fun j _ => Real.exp_pos (x j)) univ_nonempty

/-- **Only differences matter.** -/
theorem log_sub [Nonempty ι] (x : ι → ℝ) (a : ℝ) :
    log (fun i => x i - a) = log x := by
  have hsum : ∑ j, Real.exp (x j - a) = (∑ j, Real.exp (x j)) / Real.exp a := by
    rw [sum_div]
    exact sum_congr rfl fun j _ => Real.exp_sub (x j) a
  funext i
  rw [log, log, hsum, Real.log_div (sum_exp_pos x).ne' (Real.exp_ne_zero a),
    Real.log_exp]
  ring

theorem exp_log [Nonempty ι] (x : ι → ℝ) (i : ι) :
    Real.exp (log x i) = Real.exp (x i) / ∑ j, Real.exp (x j) := by
  rw [log, Real.exp_sub, Real.exp_log (sum_exp_pos x)]

/-- **The exponentials add up to one.** -/
theorem sum_exp_log [Nonempty ι] (x : ι → ℝ) : ∑ i, Real.exp (log x i) = 1 := by
  simp only [exp_log, ← sum_div]
  exact div_self (sum_exp_pos x).ne'

/-- The derivative: a change of the numbers, less its mean with the weights of the softmax. -/
noncomputable def deriv (x : ι → ℝ) : (ι → ℝ) →L[ℝ] (ι → ℝ) :=
  ContinuousLinearMap.pi fun i => ContinuousLinearMap.proj i -
    ∑ j, Real.exp (log x j) • ContinuousLinearMap.proj j

theorem deriv_apply (x v : ι → ℝ) (i : ι) :
    deriv x v i = v i - ∑ j, Real.exp (log x j) * v j := by
  simp [deriv]

theorem hasFDerivAt_log [Nonempty ι] (x : ι → ℝ) :
    HasFDerivAt log (deriv x) x := by
  have hproj : ∀ i, HasFDerivAt (fun y : ι → ℝ => y i)
      (ContinuousLinearMap.proj i : (ι → ℝ) →L[ℝ] ℝ) x := fun i =>
    hasFDerivAt_apply i x
  have hsum : HasFDerivAt (fun y : ι → ℝ => ∑ j, Real.exp (y j))
      (∑ j, Real.exp (x j) • (ContinuousLinearMap.proj j : (ι → ℝ) →L[ℝ] ℝ)) x :=
    HasFDerivAt.fun_sum fun j _ => (hproj j).exp
  refine hasFDerivAt_pi.2 fun i => ?_
  have hlog := (hproj i).sub (hsum.log (sum_exp_pos x).ne')
  refine hlog.congr_fderiv ?_
  refine congrArg _ ?_
  rw [smul_sum]
  refine sum_congr rfl fun j _ => ?_
  rw [exp_log, smul_smul, inv_mul_eq_div]

/-- What the gradient `g` of the results adds to the gradient of the numbers. -/
noncomputable def pull (x g : ι → ℝ) (i : ι) : ℝ :=
  g i - Real.exp (log x i) * ∑ j, g j

/-- **The transpose of the derivative.** -/
theorem sum_mul_deriv (x g v : ι → ℝ) :
    ∑ i, g i * deriv x v i = ∑ i, pull x g i * v i := by
  simp only [deriv_apply, pull, mul_sub, sub_mul, sum_sub_distrib]
  congr 1
  rw [← sum_mul, mul_sum]
  exact sum_congr rfl fun j _ => by ring

/-- **All that is added sums up to zero.** -/
theorem sum_pull [Nonempty ι] (x g : ι → ℝ) : ∑ i, pull x g i = 0 := by
  simp only [pull, sum_sub_distrib, ← sum_mul, sum_exp_log, one_mul, sub_self]

end Softmax

/-! ## Matrices of real numbers -/

/-- The places of a shape. -/
abbrev Shape.Place (s : Shape) : Type := Fin s.1 × Fin s.2

namespace Matrix

/-- The entries of a matrix at the places of a shape. -/
def reals (s : Shape) (m : Matrix ℝ) (p : s.Place) : ℝ := m.entry p.1 p.2

theorem sum_reals {s : Shape} {m : Matrix ℝ} (h : m.shape = s) : m.sum = ∑ p, m.reals s p := by
  subst h
  have hsum : m.sum = ∑ r ∈ range m.rows, ∑ c ∈ range m.cols, m.entry r c := sum_eq m
  rw [hsum, Fintype.sum_prod_type, sum_range]
  exact sum_congr rfl fun r _ => sum_range _

theorem reals_map {s : Shape} {m : Matrix ℝ} (h : m.shape = s) (f : ℝ → ℝ) :
    (m.map f).reals s = fun p => f (m.reals s p) := by
  subst h
  funext p
  rw [reals, map_eq]
  exact entry_ofFn p.1.isLt p.2.isLt

theorem nonempty_places {E : Type} {m : Matrix E} (h : m.isEmpty = false) :
    Nonempty m.shape.Place := by
  have harea : m.rows * m.cols ≠ 0 := fun h0 => by
    rw [(isEmpty_iff m).2 h0] at h
    cases h
  have hpos := Nat.pos_of_ne_zero harea
  exact ⟨⟨0, Nat.pos_of_mul_pos_right hpos⟩, ⟨0, Nat.pos_of_mul_pos_left hpos⟩⟩

theorem exists_data_eq {E : Type} {m : Matrix E} (h : m.isEmpty = false) :
    ∃ e es, m.data.toList = e :: es := by
  cases hl : m.data.toList with
  | nil => simp [isEmpty, Array.isEmpty, ← Array.length_toList, hl] at h
  | cons e es => exact ⟨e, es, rfl⟩

/-- **The largest entry** is one of the entries. -/
theorem exists_largest {m : Matrix ℝ} (h : m.isEmpty = false) :
    ∃ a, m.largest? = some a ∧ (∀ p, m.reals m.shape p ≤ a) ∧ ∃ p, m.reals m.shape p = a := by
  obtain ⟨e, es, hdata⟩ := exists_data_eq h
  have hreal : ∀ x ∈ e :: es, Compared.Comparable x := fun _ _ => trivial
  obtain ⟨hmem, hle⟩ := foldl_max hreal
  rw [← hdata] at hmem hle
  refine ⟨es.foldl Arith.max e, by rw [largest?, hdata], fun p => ?_, ?_⟩
  · exact hle _ (mem_toList_iff.2 ⟨p.1, p.1.isLt, p.2, p.2.isLt, rfl⟩)
  · obtain ⟨r, hr, c, hc, hrc⟩ := mem_toList_iff.1 hmem
    exact ⟨(⟨r, hr⟩, ⟨c, hc⟩), hrc⟩

/-- What the exponential and the logarithm are applied to: the numbers less the largest one, and the
sum of their exponentials. -/
structure Stable (s : Shape) (shifted : Matrix ℝ) (sum : ℝ) : Prop where
  nonpos : ∀ p, shifted.reals s p ≤ 0
  zero : ∃ p, shifted.reals s p = 0
  one_le : 1 ≤ sum
  le_area : sum ≤ s.area

/-- **The logarithm of the softmax of a matrix**, as it is computed. -/
theorem exists_logSoftmax {m : Matrix ℝ} (h : m.isEmpty = false) :
    ∃ a, m.largest? = some a ∧
      Stable m.shape (m.map (· - a)) ((m.map (· - a)).map Arith.exp).sum ∧
      ((m.map (· - a)).map (· - Arith.log ((m.map (· - a)).map Arith.exp).sum)).reals m.shape =
        Softmax.log (m.reals m.shape) := by
  obtain ⟨a, ha, hle, hmax⟩ := exists_largest h
  have hplaces : Nonempty m.shape.Place := nonempty_places h
  have hshifted : (m.map (· - a)).reals m.shape = fun p => m.reals m.shape p - a :=
    reals_map rfl _
  have hmap : ∀ f : ℝ → ℝ, ((m.map (· - a)).map f).reals m.shape =
      fun p => f ((m.map (· - a)).reals m.shape p) := fun f => reals_map (m := m.map (· - a)) rfl f
  have hsum : ((m.map (· - a)).map Arith.exp).sum = ∑ p, Real.exp (m.reals m.shape p - a) := by
    have hreals : ((m.map (· - a)).map Arith.exp).sum =
        ∑ p, ((m.map (· - a)).map Arith.exp).reals m.shape p := sum_reals rfl
    rw [hreals, hmap, hshifted]
    rfl
  refine ⟨a, ha, ⟨fun p => ?_, ?_, ?_, ?_⟩, ?_⟩
  · rw [hshifted]
    exact sub_nonpos.2 (hle p)
  · obtain ⟨p, hp⟩ := hmax
    exact ⟨p, by rw [hshifted]; exact sub_eq_zero.2 hp⟩
  · obtain ⟨p, hp⟩ := hmax
    rw [hsum]
    calc (1 : ℝ) = Real.exp (m.reals m.shape p - a) := by rw [hp, sub_self, Real.exp_zero]
      _ ≤ _ := single_le_sum (f := fun p => Real.exp (m.reals m.shape p - a))
          (fun q _ => (Real.exp_pos _).le) (mem_univ p)
  · rw [hsum]
    calc ∑ p, Real.exp (m.reals m.shape p - a)
        ≤ ∑ _p : m.shape.Place, (1 : ℝ) :=
          sum_le_sum fun p _ => Real.exp_le_one_iff.2 (sub_nonpos.2 (hle p))
      _ = m.shape.area := by simp [Shape.area]
  · rw [hmap, hshifted, hsum, ← Softmax.log_sub (m.reals m.shape) a]
    rfl

/-- **What is added to the gradient of the operand.** -/
theorem exists_logSoftmaxInput {s : Shape} {y g : Matrix ℝ} {x : s.Place → ℝ}
    (hy : y.shape = s) (hg : g.shape = s) (hx : y.reals s = Softmax.log x) :
    ∃ d, y.logSoftmaxInput g = .ok d ∧ d.shape = s ∧ d.reals s = Softmax.pull x (g.reals s) := by
  have hsum : g.sum = ∑ p, g.reals s p := sum_reals hg
  subst hg
  refine ⟨_, zipWith_eq hy.symm, rfl, ?_⟩
  funext p
  have hyp : y.entry p.1 p.2 = Softmax.log x p := congrFun hx p
  have hentry : ∀ f : Nat → Nat → ℝ, (ofFn g.rows g.cols f).entry p.1 p.2 = f p.1 p.2 := fun f =>
    entry_ofFn p.1.isLt p.2.isLt
  rw [reals, hentry, hyp, hsum]
  rfl

end Matrix

/-! ## Lanes -/

section
variable {E : Type} [Arith E] [Laned ℝ E] [Laned.Lawful ℝ E]

/-- A lane of what is computed on the way to the value, and a lane of the value. -/
theorem Matrix.onLane_logSoftmax {m : Matrix E} {largest : E} (h : m.isEmpty = false)
    (hlargest : m.largest? = some largest) {l : Nat} (hl : l < Laned.width E) :
    let shifted := m.map (· - largest)
    let sum := (shifted.map Arith.exp).sum
    Stable m.shape (shifted.onLane l) (Laned.lane sum l) ∧
      ((shifted.map (· - Arith.log sum)).onLane l).reals m.shape =
        Softmax.log ((m.onLane l).reals m.shape) := by
  intro shifted sum
  -- a lane keeps every operation, so it is enough to look at matrices of real numbers
  have hlane : Preserves fun v : E => (Laned.lane v l : ℝ) := Laned.Lawful.preserves hl
  obtain ⟨a, ha, hstable, hlog⟩ := exists_logSoftmax (m := m.onLane l) (by simpa [onLane] using h)
  have hmap := largest?_map hlane m
  rw [hlargest] at hmap
  obtain rfl : a = Laned.lane largest l := Option.some_inj.1 (ha.symm.trans hmap)
  have hshifted : (m.onLane l).map (· - Laned.lane largest l) = shifted.onLane l :=
    map_map (fun v => hlane.sub v largest) m
  have hsum : ((shifted.onLane l).map Arith.exp).sum = Laned.lane sum l := by
    rw [onLane, map_map hlane.exp, sum_map hlane]
  have hy : (shifted.onLane l).map (· - Arith.log (Laned.lane sum l)) =
      (shifted.map (· - Arith.log sum)).onLane l := by
    rw [← hlane.log]
    exact map_map (fun v => hlane.sub v _) shifted
  rw [hshifted, hsum] at hstable hlog
  rw [hy] at hlog
  exact ⟨hstable, hlog⟩

/-- **The logarithm of the softmax is normalised, stable and correctly differentiated.**  In each
lane the exponential is applied to numbers that are not positive, one of them zero, and the
logarithm to a number between one and the number of entries; the value is the function
`Softmax.log` of the entries, and its exponentials add up to one.  The contribution of a gradient is
its product with the derivative of this function, and adds up to zero. -/
theorem logSoftmax_differentiated (val : Node → Matrix E) (n : Node) (h : (val n).isEmpty = false)
    (own mask : Matrix E) :
    ∃ largest y, (val n).largest? = some largest ∧
      (let shifted := (val n).map (· - largest)
        let sum := (shifted.map Arith.exp).sum
        y = shifted.map (· - Arith.log sum) ∧
        ∀ l < Laned.width E, Matrix.Stable (val n).shape (shifted.onLane l) (Laned.lane sum l)) ∧
      (Op.logSoftmax n : Op ℝ).value own mask val = .ok y ∧
      (∀ l < Laned.width E,
        (y.onLane l).reals (val n).shape = Softmax.log (((val n).onLane l).reals (val n).shape) ∧
        ∑ p, Real.exp ((y.onLane l).reals (val n).shape p) = 1) ∧
      ∀ grad : Matrix E, grad.shape = (val n).shape → ∃ d,
        (Op.logSoftmax n : Op ℝ).pushes y mask grad val = .ok [(n, .whole d)] ∧
        d.shape = (val n).shape ∧
        ∀ l < Laned.width E,
          let x := ((val n).onLane l).reals (val n).shape
          let g := (grad.onLane l).reals (val n).shape
          let t := (d.onLane l).reals (val n).shape
          (∀ p, t p = g p - Real.exp ((y.onLane l).reals (val n).shape p) * ∑ q, g q) ∧
          (∃ J : ((val n).shape.Place → ℝ) →L[ℝ] ((val n).shape.Place → ℝ),
            HasFDerivAt Softmax.log J x ∧ ∀ v, ∑ p, g p * J v p = ∑ p, t p * v p) ∧
          ∑ p, t p = 0 := by
  obtain ⟨largest, hlargest⟩ : ∃ e, (val n).largest? = some e := by
    obtain ⟨e, es, hdata⟩ := Matrix.exists_data_eq h
    exact ⟨_, by rw [Matrix.largest?, hdata]⟩
  let shifted := (val n).map (· - largest)
  let y := shifted.map (· - Arith.log (shifted.map Arith.exp).sum)
  have hforward := fun l (hl : l < Laned.width E) => Matrix.onLane_logSoftmax h hlargest hl
  have hplaces : Nonempty (val n).shape.Place := Matrix.nonempty_places h
  refine ⟨largest, y, hlargest, ⟨rfl, fun l hl => (hforward l hl).1⟩, ?_, fun l hl => ?_,
    fun grad hg => ?_⟩
  · rw [Op.value, Matrix.logSoftmax, hlargest]
  · obtain ⟨-, hlog⟩ := hforward l hl
    refine ⟨hlog, ?_⟩
    rw [hlog]
    exact Softmax.sum_exp_log _
  · obtain ⟨d, hd, hds⟩ : ∃ d, y.logSoftmaxInput grad = .ok d ∧ d.shape = grad.shape :=
      ⟨_, Matrix.zipWith_eq hg, rfl⟩
    refine ⟨d, by rw [Op.pushes, hd]; rfl, hds.trans hg, fun l hl => ?_⟩
    obtain ⟨-, hlog⟩ := hforward l hl
    obtain ⟨d', hd', -, hpull⟩ :=
      Matrix.exists_logSoftmaxInput (s := (val n).shape) (y := y.onLane l) (g := grad.onLane l) rfl
        hg hlog
    have hlane : Preserves fun v : E => (Laned.lane v l : ℝ) := Laned.Lawful.preserves hl
    have hmap := Matrix.logSoftmaxInput_map hlane y grad
    rw [hd] at hmap
    obtain rfl : d.onLane l = d' := Except.ok.inj (hmap.symm.trans hd')
    refine ⟨fun p => ?_, ⟨_, Softmax.hasFDerivAt_log _, fun v => ?_⟩, ?_⟩
    · rw [hpull, hlog]
      rfl
    · rw [hpull]
      exact Softmax.sum_mul_deriv _ _ v
    · rw [hpull]
      exact Softmax.sum_pull _ _

end

/-- The softmax of two equal numbers is a half for each. -/
theorem logSoftmax_differentiated_zeros :
    (Matrix.zeros 2 1 : Matrix ℝ).isEmpty = false ∧ ∃ y d : Matrix ℝ,
      (Op.logSoftmax 0 : Op ℝ).value .empty .empty (fun _ => .zeros 2 1) = .ok y ∧
      (∀ p, (y.onLane 0).reals (2, 1) p = -Real.log 2) ∧
      (Op.logSoftmax 0 : Op ℝ).pushes y .empty (.column [1, 0]) (fun _ => .zeros 2 1) =
        .ok [(0, .whole d)] ∧
      ∑ p, (d.onLane 0).reals (2, 1) p = 0 := by
  have h : (Matrix.zeros 2 1 : Matrix ℝ).isEmpty = false := rfl
  obtain ⟨_, y, -, -, hval, hlog, hgrad⟩ :=
    logSoftmax_differentiated (fun _ => (.zeros 2 1 : Matrix ℝ)) 0 h .empty .empty
  obtain ⟨d, hd, -, hpull⟩ := hgrad (.column [1, 0]) rfl
  have hzero : ((Matrix.zeros 2 1 : Matrix ℝ).onLane 0).reals (2, 1) = fun _ => 0 := by
    funext q
    rw [Matrix.reals, Matrix.entry_onLane one_pos, Matrix.entry_zeros q.1.isLt q.2.isLt]
    rfl
  refine ⟨h, y, d, hval, fun p => ?_, hd, (hpull 0 one_pos).2.2⟩
  have hp : (y.onLane 0).reals (2, 1) p =
      Softmax.log (((Matrix.zeros 2 1 : Matrix ℝ).onLane 0).reals (2, 1)) p :=
    congrFun (hlog 0 one_pos).1 p
  rw [hp, hzero, Softmax.log]
  norm_num

end DiffGraph
