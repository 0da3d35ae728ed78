/-
  The terms of the logarithm of a softmax.

  For a block the logarithm of the softmax is built from single operations.  The terms for its
  cells are compared with what is known of matrices.

  * `Block.logSoftmax_map`: their values are those of the matrix operation, to the bit, in any
    arithmetic with the laws of `Softens`, if the logarithm is not cut off.  So it is for finite
    numbers in lanes of single precision (`Block.logSoftmax_map_of_isFinite`);
  * `Block.tangent_logTerm`: their derivatives in real numbers are those of `Softmax.log`.  How
    the largest cell is found, and which one it is, does not show: a change of it is taken off
    twice.
-/
import DiffGraph.Proofs.Exponentials
import DiffGraph.Proofs.Softmax
import DiffGraph.Proofs.TermGradients
import Mathlib

namespace DiffGraph

open Finset

variable {K E : Type}

/-- Matrices with the same lanes are equal. -/
theorem Matrix.ext_onLane [Arith K] [Arith E] [Laned K E] [Laned.Lawful K E]
    [Laned.Extensional K E] {a b : Matrix E} (hs : a.shape = b.shape)
    (h : ∀ l < Laned.width E, a.onLane l = b.onLane l) : a = b := by
  obtain ⟨hrows, hcols⟩ := Prod.mk.inj hs
  refine Matrix.ext_entry hrows hcols fun r _ c _ => Laned.Extensional.ext (K := K) fun l hl => ?_
  rw [← entry_onLane hl, h l hl, entry_onLane hl]

namespace Block

variable {b : Block} {n : Node} {ns : List Node}

/-! ## Values -/

section
variable [Arith K]

theorem value_peakTerm (x : Node → K) :
    (peakTerm n ns).value x = (ns.map x).foldl Arith.max (x n) := by
  rw [peakTerm, Term.value_largest, List.map_map]
  rfl

theorem value_totalTerm (x : Node → K) :
    (totalTerm n ns).value x =
      (ns.map fun m => Arith.exp (x m + -(peakTerm n ns).value x)).foldl (· + ·)
        (Arith.exp (x n + -(peakTerm n ns).value x)) := by
  rw [totalTerm, Term.value_chain, List.map_map]
  rfl

theorem largest_map (hb : b.nodes = n :: ns) (x : Node → K) :
    (b.map x).largest? = some ((peakTerm n ns).value x) := by
  have hdata : b.data.toList = n :: ns := hb
  rw [value_peakTerm, Matrix.largest?]
  simp [Matrix.map, hdata]

/-- **The values of the cells** are those of the matrix operation, if the logarithm is not cut
off. -/
theorem logSoftmax_map (h : Softens K) (hb : b.nodes = n :: ns) {x : Node → K}
    (hsum : Arith.eqMask ((totalTerm n ns).value x) 0 = 0) :
    (b.map x).logSoftmax = .ok (b.map fun m => (logTerm n ns m).value x) := by
  have hdata : b.data.toList = n :: ns := hb
  have htotal : (((b.map x).map (· - (peakTerm n ns).value x)).map Arith.exp).sum =
      (totalTerm n ns).value x := by
    rw [value_totalTerm, Matrix.sum]
    simp [Matrix.map, hdata, Function.comp_def, h.sub_eq, h.zero_add_exp]
  rw [Matrix.logSoftmax, largest_map hb]
  simp only [htotal]
  refine congrArg Except.ok ?_
  simp [Matrix.map, Function.comp_def, logTerm, Term.value, Term.sub, h.log _ hsum, h.sub_eq]

end

/-- The logarithm is not cut off. -/
theorem eqMask_totalTerm {F : Functions} (hF : F.Exponential) {x : Node → Single F}
    (hx : ∀ m ∈ n :: ns, Float32.isFinite (x m) = true) :
    Arith.eqMask ((totalTerm n ns).value x) 0 = 0 := by
  have hfinite : ∀ y ∈ x n :: ns.map x, Float32.isFinite y = true := by
    rw [← List.map_cons, List.forall_mem_map]
    exact hx
  refine Binary32.eqMask_of_pos ?_
  rw [value_totalTerm, value_peakTerm]
  simp only [← hF.softens.sub_eq]
  have hlist : ∀ p : Single F, (ns.map fun m => Arith.exp (x m - p)) =
      (ns.map x).map fun y => Arith.exp (y - p) := fun p => by
    rw [List.map_map]
    rfl
  rw [hlist]
  exact hF.sum_pos hfinite

/-- **Finite numbers in single precision.** -/
theorem logSoftmax_map_of_isFinite {F : Functions} (hF : F.Exponential) [Arith E]
    [Laned (Single F) E] [Laned.Lawful (Single F) E] [Laned.Extensional (Single F) E]
    (hb : b.nodes = n :: ns) {x : Node → E}
    (hx : ∀ m ∈ b.nodes, ∀ l < Laned.width E, Float32.isFinite (Laned.lane (x m) l) = true) :
    (b.map x).logSoftmax = .ok (b.map fun m => (logTerm n ns m).value x) := by
  obtain ⟨y, hy, hys⟩ : ∃ y, (b.map x).logSoftmax = .ok y ∧ y.shape = b.shape := by
    rw [Matrix.logSoftmax, largest_map hb]
    exact ⟨_, rfl, rfl⟩
  refine hy.trans (congrArg Except.ok (Matrix.ext_onLane (K := Single F) hys fun l hl => ?_))
  have hlane : Preserves fun v : E => (Laned.lane v l : Single F) := Laned.Lawful.preserves hl
  have hcomp : ∀ f : Node → E, (b.map f).onLane l = b.map fun m => Laned.lane (f m) l := fun f => by
    simp [Matrix.onLane, Matrix.map, Function.comp_def]
  have hmap := Matrix.logSoftmax_map hlane (b.map x)
  rw [hy] at hmap
  have hself := logSoftmax_map hF.softens hb (eqMask_totalTerm hF fun m hm => hx m (hb ▸ hm) l hl)
  rw [← hcomp, Matrix.onLane, hmap] at hself
  rw [hcomp]
  simp only [Term.value_map hlane]
  exact Except.ok.inj hself

/-! ## Derivatives -/

section
variable (x dx : Node → ℝ)

/-- The numbers of the cells. -/
def reals (b : Block) (x : Node → ℝ) : b.shape.Place → ℝ := fun p => x (b.node p.1 p.2)

theorem sum_map_nodes (f : Node → ℝ) : (b.nodes.map f).sum = ∑ p, b.reals f p := by
  have hsum : (b.map f).sum = ∑ p : b.shape.Place, (b.map f).reals b.shape p := Matrix.sum_reals rfl
  rw [Matrix.sum, ← List.sum_eq_foldl, Matrix.map, Array.toList_map] at hsum
  refine hsum.trans (sum_congr rfl fun p _ => ?_)
  exact entry_map f p.1.isLt p.2.isLt

theorem value_totalTerm_real (hb : b.nodes = n :: ns) : (totalTerm n ns).value x =
    ∑ p, Real.exp (b.reals x p - (peakTerm n ns).value x) := by
  let e m := Real.exp (x m - (peakTerm n ns).value x)
  calc (totalTerm n ns).value x = (ns.map e).foldl (· + ·) (e n) := by
        simp only [value_totalTerm, e, sub_eq_add_neg]
        rfl
    _ = (b.nodes.map e).sum := by
        rw [hb, List.sum_eq_foldl, List.map_cons, List.foldl_cons, zero_add]
    _ = _ := sum_map_nodes e

/-- The derivative of the sum of the exponentials. -/
theorem tangent_totalTerm (hb : b.nodes = n :: ns) : (totalTerm n ns).tangent x dx =
    ∑ p, Real.exp (b.reals x p - (peakTerm n ns).value x) *
      (b.reals dx p - (peakTerm n ns).tangent x dx) := by
  let e m := Term.func .exp ((Term.leaf m).sub (peakTerm n ns))
  have he : ∀ m, (e m).tangent x dx = Real.exp (x m - (peakTerm n ns).value x) *
      (dx m - (peakTerm n ns).tangent x dx) := fun m => by
    rw [Term.tangent, Term.tangent_sub, sub_eq_add_neg (x m)]
    rfl
  calc (totalTerm n ns).tangent x dx = ((e n :: ns.map e).map (Term.tangent x dx)).sum :=
        Term.tangent_chain x dx (e n) (ns.map e)
    _ = (b.nodes.map fun m => (e m).tangent x dx).sum := by
        rw [← List.map_cons, ← hb, List.map_map]
        rfl
    _ = _ := by
        simp only [he]
        exact sum_map_nodes _

theorem derivative_log {t : ℝ} (ht : 0 < t) : Unary.log.derivative t = 1 / t := by
  have hmask : Arith.eqMask t 0 = (if t = 0 then 1 else 0 : ℝ) := rfl
  simp [Unary.derivative, hmask, ht.ne']

/-- **The derivative of a cell** is that of the function `Softmax.log`. -/
theorem tangent_logTerm (hb : b.nodes = n :: ns) (p : b.shape.Place) :
    (logTerm n ns (b.node p.1 p.2)).tangent x dx =
      Softmax.deriv (b.reals x) (b.reals dx) p := by
  have hplaces : Nonempty b.shape.Place := ⟨p⟩
  let peak := (peakTerm n ns).value x
  let change := (peakTerm n ns).tangent x dx
  have hpos : 0 < ∑ q, Real.exp (b.reals x q - peak) := Softmax.sum_exp_pos _
  have hweight : ∀ q, Real.exp (Softmax.log (b.reals x) q) =
      1 / (∑ q, Real.exp (b.reals x q - peak)) * Real.exp (b.reals x q - peak) := fun q => by
    rw [← Softmax.log_sub _ peak, Softmax.exp_log]
    ring
  have htotal : Unary.log.derivative ((totalTerm n ns).value x) * (totalTerm n ns).tangent x dx =
      ∑ q, Real.exp (Softmax.log (b.reals x) q) * (b.reals dx q - change) := by
    rw [value_totalTerm_real x hb, derivative_log hpos, tangent_totalTerm x dx hb, mul_sum]
    exact sum_congr rfl fun q _ => by rw [hweight, mul_assoc]
  -- the weights add up to one, so the change of the peak is taken off and added again
  have hchange : ∑ q, Real.exp (Softmax.log (b.reals x) q) * (b.reals dx q - change) =
      ∑ q, Real.exp (Softmax.log (b.reals x) q) * b.reals dx q - change := by
    simp only [mul_sub, sum_sub_distrib, ← sum_mul, Softmax.sum_exp_log, one_mul]
  rw [logTerm, Term.tangent_sub, Term.tangent_sub, Softmax.deriv_apply]
  simp only [Term.tangent]
  rw [htotal, hchange]
  simp only [reals, change]
  ring

variable {x dx}

/-- **The derivatives of all cells, with weights `g`**, are the changes of the cells with the
contributions `d` of the matrix operation. -/
theorem sum_tangent_logTerm (hb : b.nodes = n :: ns) {g d : Matrix ℝ} (hd : d.shape = b.shape)
    (hpull : d.reals b.shape = Softmax.pull (b.reals x) (g.reals b.shape)) :
    ∑ i ∈ range b.rows, ∑ j ∈ range b.cols,
      (logTerm n ns (b.node i j)).tangent x dx * g.entry i j = Matrix.pairing d (b.map dx) := by
  obtain ⟨hrows, hcols⟩ := Prod.mk.inj hd
  have hplaces : ∀ f : Nat → Nat → ℝ, ∑ i ∈ range b.rows, ∑ j ∈ range b.cols, f i j =
      ∑ p : b.shape.Place, f p.1 p.2 := fun f => by
    rw [Fintype.sum_prod_type, sum_range]
    exact sum_congr rfl fun i _ => sum_range _
  rw [hplaces, Matrix.pairing, hrows, hcols, hplaces]
  calc ∑ p : b.shape.Place, (logTerm n ns (b.node p.1 p.2)).tangent x dx * g.entry p.1 p.2
      = ∑ p, g.reals b.shape p * Softmax.deriv (b.reals x) (b.reals dx) p :=
        sum_congr rfl fun p _ => by rw [tangent_logTerm x dx hb, mul_comm]; rfl
    _ = ∑ p, d.reals b.shape p * b.reals dx p := by rw [Softmax.sum_mul_deriv, hpull]
    _ = _ := sum_congr rfl fun p _ => by rw [entry_map dx p.1.isLt p.2.isLt]; rfl

end

end Block

/-- What the operation on a matrix contributes, in a lane. -/
theorem Matrix.onLane_logSoftmaxInput [Arith E] [Laned ℝ E] [Laned.Lawful ℝ E] {m y g d : Matrix E}
    (h : m.isEmpty = false) (hy : m.logSoftmax = .ok y) (hd : y.logSoftmaxInput g = .ok d)
    (hg : g.shape = m.shape) {l : Nat} (hl : l < Laned.width E) : (d.onLane l).shape = m.shape ∧
      (d.onLane l).reals m.shape =
        Softmax.pull ((m.onLane l).reals m.shape) ((g.onLane l).reals m.shape) := by
  have hlane : Preserves fun v : E => (Laned.lane v l : ℝ) := Laned.Lawful.preserves hl
  have hmap := logSoftmaxInput_map hlane y g
  rw [hd] at hmap
  obtain ⟨a, hlargest⟩ : ∃ a, m.largest? = some a := by
    obtain ⟨e, es, hdata⟩ := exists_data_eq h
    exact ⟨_, by rw [largest?, hdata]⟩
  obtain ⟨-, hlog⟩ := onLane_logSoftmax h hlargest hl
  rw [logSoftmax, hlargest] at hy
  obtain rfl := Except.ok.inj hy
  obtain ⟨d', hd', hs, hpull⟩ := exists_logSoftmaxInput (s := m.shape) (g := g.onLane l) rfl hg hlog
  obtain rfl : d.onLane l = d' := Except.ok.inj (hmap.symm.trans hd')
  exact ⟨hs, hpull⟩

end DiffGraph
