/-
  A convolution adds a bias to a correlation, and goes back along its transpose.

  * `Matrix.correlate`: the sums of the products of a kernel with the entries that it
    covers, wherever it fits;
  * `Matrix.pullback_correlate`: the kernel laid back with the gradient of each place is the
    transpose of the correlation in its first argument;
  * `Matrix.pairing_correlate_right`: up to the norm, the gradient of the kernel is the
    transpose in the second one;
  * `Graph.Received`: each gradient has received all contributions to its vertex, and
    nothing else has changed;
  * `Graph.convolution_transposed`: what a convolution computes, and what it adds to the
    gradients of its operands, which may be one and the same vertex.
-/
import Mathlib
import DiffGraph.Proofs.History
import DiffGraph.Proofs.Sums
import DiffGraph.Proofs.Tangent

namespace DiffGraph

open Finset

variable {K E : Type}

namespace Matrix

variable [Exact E]

/-- The valid correlation of a matrix with a kernel. -/
def correlate (a k : Matrix E) : Matrix E :=
  ofFn (a.rows - k.rows + 1) (a.cols - k.cols + 1) fun r c =>
    ∑ i ∈ range k.rows, ∑ j ∈ range k.cols, a.entry (r + i) (c + j) * k.entry i j

@[simp] theorem correlate_scalar (x y : E) :
    (scalar x).correlate (scalar y) = scalar (x * y) := by
  rw [scalar_eq_ofFn (x * y)]
  refine ofFn_congr fun r hr c hc => ?_
  obtain rfl : r = 0 := Nat.lt_one_iff.1 hr
  obtain rfl : c = 0 := Nat.lt_one_iff.1 hc
  show ∑ i ∈ range 1, ∑ j ∈ range 1, (scalar x).entry (0 + i) (0 + j) * (scalar y).entry i j = _
  simp

@[simp] theorem pairing_scalar (x y : E) : pairing (scalar x) (scalar y) = x * y := by
  rw [scalar_eq_ofFn x, pairing_ofFn]
  simp

theorem accumulate_eq_sum (rows cols : Nat) (f : Nat → Nat → E) (x : E) :
    accumulate rows cols f x = x + ∑ r ∈ range rows, ∑ c ∈ range cols, f r c := by
  simp only [accumulate, foldl_eq_sum]

/-- **A convolution is a correlation with the bias added.** -/
theorem convolve_eq {size : Nat} {input kernel bias : Matrix E} (hs : 0 < size)
    (hk : kernel.shape = (size, size)) (hrows : size ≤ input.rows) (hcols : size ≤ input.cols)
    (hb : bias.shape = (1, 1)) :
    convolve size input kernel bias =
      .ok ((input.correlate kernel).map (bias.entry 0 0 + ·)) := by
  obtain ⟨hkr, hkc⟩ := Prod.mk.inj hk
  have hscalar : bias.isScalar = true := by
    rw [eq_scalar_of_shape hb]
    rfl
  rw [convolve, if_neg (by simp [hs.ne', hk]), if_neg (by omega),
    if_neg (not_not.2 hscalar), correlate, hkr, hkc, map_eq]
  refine congrArg Except.ok (ofFn_congr fun r hr c hc => ?_)
  rw [accumulate_eq_sum, entry_ofFn hr hc]

/-! ## The gradient of the input -/

/-- `d'` is `d` with a matrix added that gives `t x` with `x`. -/
structure Grown (d d' : Matrix E) (t : Matrix E → E) : Prop where
  shape : d'.shape = d.shape
  pairing : ∀ x, pairing d' x = pairing d x + t x

/-- A rectangle is added. -/
theorem exists_addBlock {d terms : Matrix E} {row col : Nat} (hrow : row + terms.rows ≤ d.rows)
    (hcol : col + terms.cols ≤ d.cols) :
    ∃ d', d.addBlock row col terms = .ok d' ∧ Grown d d' fun x =>
      ∑ i ∈ range terms.rows, ∑ j ∈ range terms.cols,
        terms.entry i j * x.entry (row + i) (col + j) := by
  have hfits : (Push.block row col terms).Fits d.shape := Push.fits_block hrow hcol
  obtain ⟨d', hd', hds, hpair, -⟩ := exists_add (Push.shape_terms hfits).symm
  refine ⟨d', (Push.apply_eq_add hfits).trans hd', hds, fun x => ?_⟩
  rw [hpair, Push.terms, size_eq_area]
  refine congrArg _ ((pairing_rect hfits.2 _ x).trans ?_)
  -- the cells lie within the matrix, at the positions of its entries
  have hwithin : ¬ Rect.Exceeds ⟨row, col, terms.rows, terms.cols⟩ d.shape :=
    Rect.not_exceeds_iff.2 ⟨hrow, hcol⟩
  refine sum_congr rfl fun i hi => sum_congr rfl fun j hj => ?_
  rw [Rect.position_of_not_exceeds hwithin (mem_range.1 hi) (mem_range.1 hj)]
  have hj' : col + j < d.shape.2 := (Nat.add_lt_add_left (mem_range.1 hj) col).trans_le hcol
  rw [position_div hj', position_mod hj']
  rfl

/-- What a loop adds, step by step. -/
theorem exists_foldlM_grown {f : Matrix E → Nat → Except Failure (Matrix E)}
    {t : Nat → Matrix E → E} {d : Matrix E} {n : Nat}
    (hf : ∀ k < n, ∀ b : Matrix E, b.shape = d.shape → ∃ b', f b k = .ok b' ∧ Grown b b' (t k)) :
    ∃ d', (List.range n).foldlM f d = .ok d' ∧ Grown d d' fun x => ∑ k ∈ range n, t k x := by
  refine exists_foldlM_range (P := fun k b => Grown d b fun x => ∑ i ∈ range k, t i x)
    (fun k hk b hb => ?_) ⟨rfl, fun x => by simp⟩
  obtain ⟨b', hb', hlast⟩ := hf k hk b hb.shape
  refine ⟨b', hb', hlast.shape.trans hb.shape, fun x => ?_⟩
  rw [hlast.pairing, hb.pairing, sum_range_succ, add_assoc]

/-- The kernel is laid on one place. -/
theorem exists_laid {b kernel : Matrix E} {row col : Nat} (e : E)
    (hrow : row + kernel.rows ≤ b.rows) (hcol : col + kernel.cols ≤ b.cols) :
    ∃ b', b.addBlock row col (kernel.map (· * e)) = .ok b' ∧ Grown b b' fun x =>
      e * ∑ i ∈ range kernel.rows, ∑ j ∈ range kernel.cols,
        x.entry (row + i) (col + j) * kernel.entry i j := by
  have hrow' : row + (kernel.map (· * e)).rows ≤ b.rows := hrow
  obtain ⟨b', hb', hgrown⟩ := exists_addBlock hrow' hcol
  refine ⟨b', hb', hgrown.shape, fun x => ?_⟩
  rw [hgrown.pairing, mul_sum]
  refine congrArg _ (sum_congr rfl fun i hi => ?_)
  rw [mul_sum]
  refine sum_congr rfl fun j hj => ?_
  rw [entry_map_of_lt _ (mem_range.1 hi) (mem_range.1 hj)]
  ring

/-- **The kernel laid back on the input** is the transpose of the correlation in its
first argument. -/
theorem pullback_correlate {input kernel grad : Matrix E} (hrows : kernel.rows ≤ input.rows)
    (hcols : kernel.cols ≤ input.cols)
    (hg : grad.shape = (input.rows - kernel.rows + 1, input.cols - kernel.cols + 1)) :
    ∃ d, input.convolveInput kernel grad = .ok d ∧
      Pullback (fun x => .ok (x.correlate kernel)) input.shape grad d := by
  obtain ⟨hgr, hgc⟩ := Prod.mk.inj hg
  -- one place after another, in the order of the loops
  have hplace : ∀ r < grad.rows, ∀ c < grad.cols, ∀ b : Matrix E, b.shape = input.shape →
      ∃ b', b.addBlock r c (kernel.map (· * grad.entry r c)) = .ok b' ∧ Grown b b' fun x =>
        grad.entry r c * ∑ i ∈ range kernel.rows, ∑ j ∈ range kernel.cols,
          x.entry (r + i) (c + j) * kernel.entry i j := by
    intro r hr c hc b hb
    obtain ⟨hbr, hbc⟩ := Prod.mk.inj hb
    exact exists_laid _ (by rw [hbr]; omega) (by rw [hbc]; omega)
  obtain ⟨d, hd, hgrown⟩ := exists_foldlM_grown (d := zeros input.rows input.cols) fun r hr b hb =>
    exists_foldlM_grown (d := b) fun c hc b' hb' => hplace r hr c hc b' (hb'.trans hb)
  refine ⟨d, hd, hgrown.shape, fun x hx => ⟨_, rfl, ?_, ?_⟩⟩
  · obtain ⟨hxr, hxc⟩ := Prod.mk.inj hx
    rw [hg, ← hxr, ← hxc]
    rfl
  · obtain ⟨hxr, hxc⟩ := Prod.mk.inj hx
    rw [hgrown.pairing, pairing_zeros, zero_add, correlate, hxr, hxc, pairing_ofFn_right hg, ← hgr,
      ← hgc]

/-! ## The gradient of the kernel -/

theorem convolveKernel_eq (size : Nat) (input grad : Matrix E) :
    input.convolveKernel size grad = ofFn size size fun i j =>
      (∑ r ∈ range grad.rows, ∑ c ∈ range grad.cols,
        input.entry (r + i) (c + j) * grad.entry r c) /
          Arith.sqrt ((grad.rows * grad.cols : Nat) : E) := by
  simp only [convolveKernel, accumulate_eq_sum, zero_add]

/-- **The gradient of the kernel** is the transpose of the correlation in its second
argument, divided by the norm. -/
theorem pairing_correlate_right {size : Nat} {input grad x : Matrix E}
    (hg : grad.shape = (input.rows - size + 1, input.cols - size + 1))
    (hnorm : Arith.sqrt ((grad.rows * grad.cols : Nat) : E) ≠ 0) (hx : x.shape = (size, size)) :
    pairing grad (input.correlate x) =
      Arith.sqrt ((grad.rows * grad.cols : Nat) : E) *
        pairing (input.convolveKernel size grad) x := by
  obtain ⟨hgr, hgc⟩ := Prod.mk.inj hg
  obtain ⟨hxr, hxc⟩ := Prod.mk.inj hx
  let term (r c i j : Nat) : E := grad.entry r c * (input.entry (r + i) (c + j) * x.entry i j)
  calc pairing grad (input.correlate x)
      = ∑ r ∈ range grad.rows, ∑ c ∈ range grad.cols, ∑ i ∈ range size, ∑ j ∈ range size,
          term r c i j := by
        rw [correlate, hxr, hxc, pairing_ofFn_right hg, ← hgr, ← hgc]
        simp only [mul_sum, term]
    _ = ∑ i ∈ range size, ∑ j ∈ range size, ∑ r ∈ range grad.rows, ∑ c ∈ range grad.cols,
          term r c i j := by
        simpa only [sum_product] using sum_comm (s := range grad.rows ×ˢ range grad.cols)
          (t := range size ×ˢ range size) (f := fun p q => term p.1 p.2 q.1 q.2)
    _ = Arith.sqrt ((grad.rows * grad.cols : Nat) : E) *
          pairing (input.convolveKernel size grad) x := by
        rw [convolveKernel_eq, pairing_ofFn, mul_sum]
        refine sum_congr rfl fun i _ => ?_
        rw [mul_sum]
        refine sum_congr rfl fun j _ => ?_
        rw [← mul_assoc, mul_div_cancel₀ _ hnorm, sum_mul]
        refine sum_congr rfl fun r _ => ?_
        rw [sum_mul]
        exact sum_congr rfl fun c _ => by ring

end Matrix

/-! ## Gradients of operands -/

namespace Graph

section
variable [Exact E] {s s₁ s' : Graph K E} {ps : List (Node × Push E)}

/-- Each gradient of `s` has received the contributions to its vertex.  No operation has
changed, and nothing else in a cell. -/
structure Received (s s' : Graph K E) (ps : List (Node × Push E)) : Prop where
  dag : s'.dag = s.dag
  cell : ∀ m, s'.cell m = { s.cell m with grad := s'.grad m }
  shape : ∀ m, (s'.grad m).shape = (s.grad m).shape
  entry : ∀ m, ∀ r < (s.grad m).rows, ∀ c < (s.grad m).cols,
    (s'.grad m).entry r c = (s.grad m).entry r c +
      (ps.map fun t => if t.1 = m then (t.2.terms (s.grad m).shape).entry r c else 0).sum

theorem Received.nil : Received s s [] :=
  ⟨rfl, fun _ => rfl, fun _ => rfl, fun _ _ _ _ _ => by simp⟩

theorem Received.cons {t : Node × Push E} (h : Received s s₁ [t]) (h' : Received s₁ s' ps) :
    Received s s' (t :: ps) where
  dag := h'.dag.trans h.dag
  cell m := by rw [h'.cell, h.cell]
  shape m := (h'.shape m).trans (h.shape m)
  entry m r hr c hc := by
    obtain ⟨hrows, hcols⟩ := Prod.mk.inj (h.shape m)
    rw [h'.entry m r (hrows ▸ hr) c (hcols ▸ hc), h.entry m r hr c hc, h.shape, List.map_cons,
      List.map_cons, List.sum_cons, List.sum_cons, List.map_nil, List.sum_nil, add_zero, add_assoc]

/-- One contribution. -/
theorem exists_received_one {c : Node} {p : Push E} (hc : c < s.size)
    (hp : p.Fits (s.grad c).shape) :
    ∃ s', (receive c p).run s = .ok () s' ∧ Received s s' [(c, p)] := by
  obtain ⟨d, hd⟩ := Push.exists_apply hp
  have hadd : (s.grad c).add (p.terms (s.grad c).shape) = .ok d :=
    (Push.apply_eq_add hp).symm.trans hd
  let s' := s.update c fun cell => { cell with grad := d }
  have hrun : (receive c p).run s = .ok () s' := by
    simp only [receive, EStateM.run_bind, EStateM.run_get, hd]
    rfl
  have hself : s'.cell c = { s.cell c with grad := d } := cell_update_self s hc _
  have hgrad : s'.grad c = d := by rw [grad, hself]
  have hne : ∀ m, m ≠ c → s'.cell m = s.cell m := fun m hm => cell_update_of_ne s (Ne.symm hm) _
  have hgrad' : ∀ m, m ≠ c → s'.grad m = s.grad m := fun m hm => by rw [grad, hne m hm]; rfl
  refine ⟨s', hrun, rfl, fun m => ?_, fun m => ?_, fun m i hi j hj => ?_⟩
  · by_cases hm : m = c
    · rw [hm, hself, hgrad]
    · rw [hne m hm, hgrad' m hm]
      rfl
  · by_cases hm : m = c
    · rw [hm, hgrad]
      exact Push.shape_apply hd
    · rw [hgrad' m hm]
  · by_cases hm : m = c
    · subst hm
      rw [hgrad, Matrix.entry_add hadd hi hj]
      simp
    · rw [hgrad' m hm]
      simp [Ne.symm hm]

theorem exists_received (hps : ∀ t ∈ ps, t.1 < s.size ∧ t.2.Fits (s.grad t.1).shape) :
    ∃ s', (ps.forM fun t => receive t.1 t.2).run s = .ok () s' ∧ Received s s' ps := by
  induction ps generalizing s with
  | nil => exact ⟨s, rfl, .nil⟩
  | cons t ps ih =>
    obtain ⟨hlt, hfits⟩ := hps t List.mem_cons_self
    obtain ⟨s₁, hr, h⟩ := exists_received_one hlt hfits
    obtain ⟨s', hr', h'⟩ := ih fun u hu => by
      obtain ⟨hult, hufits⟩ := hps u (List.mem_cons_of_mem _ hu)
      rw [size, h.dag, h.shape]
      exact ⟨hult, hufits⟩
    exact ⟨s', Step.run_forM_cons_ok hr hr', h.cons h'⟩

/-- **A convolution is transposed exactly.**  Its value is the bias added to the correlation of
the input with the kernel.  Whatever its gradient is, the contribution to the input is the
transpose of the correlation in its first argument; that to the kernel, times the norm, is the
transpose in the second one; and that to the bias is the sum of the gradient.  The gradient of a
vertex receives all contributions to it, and nothing else changes. -/
theorem convolution_transposed (g : Graph K E) {n input kernel bias : Node} {size : Nat}
    (hop : g.op n = .convolution size input kernel bias) (hs : 0 < size)
    (hrows : size ≤ (g.value input).rows) (hcols : size ≤ (g.value input).cols)
    (hk : (g.value kernel).shape = (size, size)) (hb : (g.value bias).shape = (1, 1))
    (hfit : ∀ c ∈ [input, kernel, bias], (g.grad c).shape = (g.value c).shape)
    (hg : (g.grad n).shape =
      ((g.value input).rows - size + 1, (g.value input).cols - size + 1))
    (hnorm : Arith.sqrt (((g.grad n).rows * (g.grad n).cols : Nat) : E) ≠ 0) :
    (∀ own mask, (g.op n).value own mask g.value =
      .ok (((g.value input).correlate (g.value kernel)).map ((g.value bias).entry 0 0 + ·))) ∧
    ∃ (di dk db : Matrix E) (g' : Graph K E), (propagate n).run g = .ok () g' ∧
      di.shape = (g.value input).shape ∧ dk.shape = (size, size) ∧
      (∀ u : Matrix E, u.shape = (g.value input).shape →
        Matrix.pairing (g.grad n) (u.correlate (g.value kernel)) = Matrix.pairing di u) ∧
      (∀ v : Matrix E, v.shape = (size, size) →
        Matrix.pairing (g.grad n) ((g.value input).correlate v) =
          Arith.sqrt (((g.grad n).rows * (g.grad n).cols : Nat) : E) * Matrix.pairing dk v) ∧
      db = Matrix.scalar (g.grad n).sum ∧
      (∀ m, g'.cell m = { g.cell m with grad := g'.grad m } ∧
        (g'.grad m).shape = (g.grad m).shape ∧
        ∀ r < (g.grad m).rows, ∀ c < (g.grad m).cols, (g'.grad m).entry r c =
          (g.grad m).entry r c + (if m = input then di.entry r c else 0) +
            (if m = kernel then dk.entry r c else 0) + if m = bias then db.entry r c else 0) := by
  refine ⟨fun own mask => ?_, ?_⟩
  · rw [hop]
    exact Matrix.convolve_eq hs hk hrows hcols hb
  obtain ⟨hkr, hkc⟩ := Prod.mk.inj hk
  have hplaces : (g.grad n).shape = ((g.value input).rows - (g.value kernel).rows + 1,
      (g.value input).cols - (g.value kernel).cols + 1) := by rw [hkr, hkc, hg]
  obtain ⟨di, hdi, hpull⟩ :=
    Matrix.pullback_correlate (hkr.trans_le hrows) (hkc.trans_le hcols) hplaces
  let dk := (g.value input).convolveKernel size (g.grad n)
  let ps : List (Node × Push E) :=
    [(input, .whole di), (kernel, .whole dk), (bias, .whole (.scalar (g.grad n).sum))]
  have hpushes : g.pushes n = .ok ps := by
    have hdi' : (g.value input).convolveInput (g.value kernel) (g.cell n).grad = .ok di := hdi
    simp only [pushes, hop, Op.pushes, hdi', ok_bind]
    rfl
  have hlt : ∀ c ∈ [input, kernel, bias], c < g.size := fun c hc => by
    refine lt_size_of_mem_operands (n := n) ?_
    rwa [hop]
  have hfits : ∀ t ∈ ps, t.1 < g.size ∧ t.2.Fits (g.grad t.1).shape := by
    simp only [List.forall_mem_cons] at hlt hfit
    obtain ⟨hgi, hgk, hgb, -⟩ := hfit
    obtain ⟨hi, hk', hb', -⟩ := hlt
    exact List.forall_mem_cons.2 ⟨⟨hi, hpull.shape.trans hgi.symm⟩, List.forall_mem_cons.2
      ⟨⟨hk', (hgk.trans hk).symm⟩, List.forall_mem_singleton.2 ⟨hb', (hgb.trans hb).symm⟩⟩⟩
  obtain ⟨g', hrun, h⟩ := exists_received hfits
  refine ⟨di, dk, _, g', ?_, hpull.shape, rfl, fun u hu => ?_,
    fun v hv => Matrix.pairing_correlate_right hg hnorm hv, rfl,
    fun m => ⟨h.cell m, h.shape m, fun r hr c hc => ?_⟩⟩
  · simp only [propagate, EStateM.run_bind, EStateM.run_get, hpushes]
    exact hrun
  · obtain ⟨_, hm, -, hpair⟩ := hpull.pairing u hu
    cases hm
    exact hpair
  · rw [h.entry m r hr c hc]
    simp [ps, Push.terms, eq_comm, add_assoc]

end

/-- Three, convolved with itself and with itself as the bias. -/
noncomputable def selfConvolved : Graph ℝ ℝ :=
  (Call.runs [.parameter (.scalar 3), .record (.convolution 1 0 0 0)]
    (.empty 0 ⟨fun _ => 0, fun _ => 0⟩)).update 1 fun c => { c with grad := .scalar 1 }

theorem norm_selfConvolved :
    Arith.sqrt (((selfConvolved.grad 1).rows * (selfConvolved.grad 1).cols : Nat) : ℝ) = 1 := by
  have hplaces : (selfConvolved.grad 1).rows * (selfConvolved.grad 1).cols = 1 := rfl
  rw [hplaces, Nat.cast_one]
  exact Real.sqrt_one

/-- A kernel of two rows and two columns on three rows, so that its two places overlap. -/
noncomputable def overlapping : Graph ℝ ℝ :=
  (Call.runs [.parameter ⟨3, 2, #[1, 2, 3, 4, 5, 6], rfl⟩, .parameter ⟨2, 2, #[1, 2, 3, 4], rfl⟩,
      .parameter (.scalar 7), .record (.convolution 2 0 1 2)]
    (.empty 0 ⟨fun _ => 0, fun _ => 0⟩)).update 3 fun c =>
      { c with grad := ⟨2, 1, #[1, 10], rfl⟩ }

theorem norm_overlapping :
    Arith.sqrt (((overlapping.grad 3).rows * (overlapping.grad 3).cols : Nat) : ℝ) = √2 := by
  have hplaces : (overlapping.grad 3).rows * (overlapping.grad 3).cols = 2 := rfl
  rw [hplaces, Nat.cast_ofNat]
  rfl

/-- The matrix that is one in one place. -/
noncomputable def indicator (s : Shape) (i j : Nat) : Matrix ℝ :=
  .ofFn s.1 s.2 fun r c => if r = i ∧ c = j then 1 else 0

theorem entry_indicator {s : Shape} {i j r c : Nat} (hr : r < s.1) (hc : c < s.2) :
    (indicator s i j).entry r c = if r = i ∧ c = j then 1 else 0 := Matrix.entry_ofFn hr hc

theorem pairing_indicator {d : Matrix ℝ} {s : Shape} {i j : Nat} (hd : d.shape = s) (hi : i < s.1)
    (hj : j < s.2) : Matrix.pairing d (indicator s i j) = d.entry i j := by
  have hcell : ∀ r c, (d.entry r c * if r = i ∧ c = j then (1 : ℝ) else 0) =
      if r = i then if c = j then d.entry i j else 0 else 0 := by
    intro r c
    by_cases hr : r = i <;> by_cases hc : c = j <;> simp [hr, hc]
  rw [indicator, Matrix.pairing_ofFn_right hd]
  simp only [hcell, sum_ite_eq', mem_range, hi, hj, if_true, sum_const_zero,
    sum_ite_irrel]

/-- What a kernel of two rows and two columns gives in one of its two places on three rows. -/
theorem entry_correlate_three {x k : Matrix ℝ} {r : Nat} (hx : x.shape = (3, 2))
    (hk : k.shape = (2, 2)) (hr : r < 2) : (x.correlate k).entry r 0 =
      x.entry r 0 * k.entry 0 0 + x.entry r 1 * k.entry 0 1 +
        (x.entry (r + 1) 0 * k.entry 1 0 + x.entry (r + 1) 1 * k.entry 1 1) := by
  obtain ⟨hxr, hxc⟩ := Prod.mk.inj hx
  obtain ⟨hkr, hkc⟩ := Prod.mk.inj hk
  have hrows : x.rows - k.rows + 1 = 2 := by rw [hxr, hkr]
  have hcols : x.cols - k.cols + 1 = 1 := by rw [hxc, hkc]
  rw [Matrix.correlate, hrows, hcols, Matrix.entry_ofFn hr one_pos, hkr, hkc]
  simp [sum_range_succ]

/-- The gradients of both places, one and ten. -/
theorem pairing_overlapping {x k : Matrix ℝ} (hx : x.shape = (3, 2)) (hk : k.shape = (2, 2)) :
    Matrix.pairing (overlapping.grad 3) (x.correlate k) =
      1 * (x.entry 0 0 * k.entry 0 0 + x.entry 0 1 * k.entry 0 1 +
        (x.entry 1 0 * k.entry 1 0 + x.entry 1 1 * k.entry 1 1)) +
      10 * (x.entry 1 0 * k.entry 0 0 + x.entry 1 1 * k.entry 0 1 +
        (x.entry 2 0 * k.entry 1 0 + x.entry 2 1 * k.entry 1 1)) := by
  have hgrad : overlapping.grad 3 = ⟨2, 1, #[1, 10], rfl⟩ := rfl
  rw [← entry_correlate_three hx hk two_pos, ← entry_correlate_three hx hk one_lt_two, hgrad]
  simp [Matrix.pairing, Matrix.entry, sum_range_succ]

/-- A number convolved with itself receives the derivative of its square, from three
contributions.  Where two places of a kernel overlap, an entry of the input receives from both,
and an entry of the kernel receives from all places, divided by the norm. -/
theorem convolution_transposed_selfConvolved_overlapping :
    (selfConvolved.op 1 = .convolution 1 0 0 0 ∧
      ∃ g', (propagate 1).run selfConvolved = .ok () g' ∧ (g'.grad 0).entry 0 0 = 3 + 3 + 1) ∧
    overlapping.op 3 = .convolution 2 0 1 2 ∧
    (∃ m, (overlapping.op 3).value ⟨0, 0, #[], rfl⟩ ⟨0, 0, #[], rfl⟩ overlapping.value = .ok m ∧
      m.entry 0 0 = 7 + (1 * 1 + 2 * 2 + 3 * 3 + 4 * 4) ∧
      m.entry 1 0 = 7 + (3 * 1 + 4 * 2 + 5 * 3 + 6 * 4)) ∧
    ∃ g', (propagate 3).run overlapping = .ok () g' ∧
      (g'.grad 0).entry 1 0 = 1 * 3 + 10 * 1 ∧
      √2 * (g'.grad 1).entry 0 1 = 1 * 2 + 10 * 4 ∧ (g'.grad 2).entry 0 0 = 1 + 10 := by
  constructor
  · have hop : selfConvolved.op 1 = .convolution 1 0 0 0 := rfl
    have hvalue : selfConvolved.value 0 = .scalar 3 := rfl
    have hgrad : selfConvolved.grad 1 = .scalar 1 := rfl
    have hzero : selfConvolved.grad 0 = .zeros 1 1 := rfl
    have hfit : ∀ c ∈ [0, 0, 0], (selfConvolved.grad c).shape = (selfConvolved.value c).shape :=
      List.forall_mem_cons.2 ⟨rfl, List.forall_mem_cons.2 ⟨rfl, List.forall_mem_singleton.2 rfl⟩⟩
    obtain ⟨-, di, dk, db, g', hrun, hdis, hdks, hdi, hdk, hdb, hreceived⟩ :=
      selfConvolved.convolution_transposed hop one_pos le_rfl le_rfl rfl rfl hfit rfl
        (norm_selfConvolved.trans_ne one_ne_zero)
    have hi := hdi (.scalar 1) rfl
    have hk := hdk (.scalar 1) rfl
    rw [hvalue, hgrad, Matrix.correlate_scalar, Matrix.eq_scalar_of_shape hdis,
      Matrix.pairing_scalar, Matrix.pairing_scalar] at hi
    rw [norm_selfConvolved, hvalue, hgrad, Matrix.correlate_scalar,
      Matrix.eq_scalar_of_shape hdks, Matrix.pairing_scalar, Matrix.pairing_scalar] at hk
    obtain ⟨-, -, hentry⟩ := hreceived 0
    have hthree := hentry 0 one_pos 0 one_pos
    rw [hzero, Matrix.entry_zeros one_pos one_pos, hdb, hgrad] at hthree
    refine ⟨hop, g', hrun, ?_⟩
    norm_num at hi hk hthree
    rw [hthree, ← hi, ← hk]
  · have hop : overlapping.op 3 = .convolution 2 0 1 2 := rfl
    have hinput : overlapping.value 0 = ⟨3, 2, #[1, 2, 3, 4, 5, 6], rfl⟩ := rfl
    have hkernel : overlapping.value 1 = ⟨2, 2, #[1, 2, 3, 4], rfl⟩ := rfl
    have hbias : (overlapping.value 2).entry 0 0 = 7 := rfl
    have hsum : (overlapping.grad 3).sum = 0 + 1 + 10 := rfl
    have hzeros : (overlapping.grad 0).entry 1 0 = 0 ∧ (overlapping.grad 1).entry 0 1 = 0 ∧
        (overlapping.grad 2).entry 0 0 = 0 := ⟨rfl, rfl, rfl⟩
    have hfit : ∀ c ∈ [0, 1, 2], (overlapping.grad c).shape = (overlapping.value c).shape :=
      List.forall_mem_cons.2 ⟨rfl, List.forall_mem_cons.2 ⟨rfl, List.forall_mem_singleton.2 rfl⟩⟩
    obtain ⟨hvalue, di, dk, db, g', hrun, hdis, hdks, hdi, hdk, hdb, hreceived⟩ :=
      overlapping.convolution_transposed hop two_pos (by decide) le_rfl rfl rfl hfit rfl
        (norm_overlapping.trans_ne (Real.sqrt_ne_zero'.2 two_pos))
    -- the transposes, at a cell of the input that both places have and at one of the kernel
    have hi := hdi (indicator (3, 2) 1 0) rfl
    have hk := hdk (indicator (2, 2) 0 1) rfl
    rw [pairing_indicator (s := (3, 2)) hdis (by decide) two_pos, pairing_overlapping rfl rfl,
      hkernel] at hi
    rw [pairing_indicator (s := (2, 2)) hdks two_pos one_lt_two, pairing_overlapping rfl rfl,
      norm_overlapping, hinput] at hk
    simp (disch := decide) only [entry_indicator] at hi hk
    have hreceivedi := (hreceived 0).2.2 1 (by decide) 0 two_pos
    have hreceivedk : (g'.grad 1).entry 0 1 = 0 + dk.entry 0 1 := by
      simpa [hzeros] using (hreceived 1).2.2 0 two_pos 1 one_lt_two
    have hreceivedb := (hreceived 2).2.2 0 one_pos 0 one_pos
    rw [hzeros.1, ← hi] at hreceivedi
    rw [hzeros.2.2, hdb, hsum] at hreceivedb
    refine ⟨hop, ⟨_, hvalue _ _, ?_, ?_⟩, g', hrun, ?_, ?_, ?_⟩
    · rw [Matrix.entry_map_of_lt _ two_pos one_pos, entry_correlate_three rfl rfl two_pos, hbias,
        hinput, hkernel]
      norm_num [Matrix.entry]
    · rw [Matrix.entry_map_of_lt _ one_lt_two one_pos, entry_correlate_three rfl rfl one_lt_two,
        hbias, hinput, hkernel]
      norm_num [Matrix.entry]
    · rw [hreceivedi]
      norm_num [Matrix.entry]
    · rw [hreceivedk, zero_add, ← hk]
      norm_num [Matrix.entry]
    · simpa using hreceivedb

end Graph

end DiffGraph
