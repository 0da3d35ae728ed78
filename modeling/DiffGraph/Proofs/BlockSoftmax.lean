/-
  Two ways to compute the logarithm of a softmax.

  It can be built from single operations on the cells of a block, and it is a single operation on
  a matrix.

  * `Graph.answer_logSoftmax`, `Graph.exists_grad_logSoftmax`: the value of the operation on a
    matrix, and the gradient that a sum with weights passes back through it;
  * `Block.exists_values_logSoftmax`: the values of the cells that are built for a block;
  * `Block.exists_grads_logSoftmax`: the gradients that the same sum passes back to the block.
    A cell may stand at several places, and receives the entries of all of them
    (`Block.Collects`).

  Values are the same to the bit, and gradients are the same in exact arithmetic
  (`Block.logSoftmax_agrees`).
-/
import DiffGraph.Proofs.SoftmaxTerms
import Mathlib

namespace DiffGraph

open Finset Relation

variable {K E : Type}

namespace Matrix

/-- A combination that gives the entries of the second matrix. -/
theorem zipWith_eq_right [Zero E] {o : String} {f : E → E → E} {a b : Matrix E} {rows cols : Nat}
    (hb : b.shape = (rows, cols)) (ha : a.shape = (rows, cols))
    (h : ∀ r < rows, ∀ c < cols, f (a.entry r c) (b.entry r c) = b.entry r c) :
    a.zipWith o f b = .ok b := by
  obtain ⟨rfl, rfl⟩ := Prod.mk.inj ha
  obtain ⟨hrows, hcols⟩ := Prod.mk.inj hb
  rw [zipWith_eq (ha.trans hb.symm)]
  refine congrArg Except.ok (ext_entry hrows.symm hcols.symm fun r hr c hc => ?_)
  have hentry : (ofFn a.rows a.cols fun r c => f (a.entry r c) (b.entry r c)).entry r c =
      f (a.entry r c) (b.entry r c) := entry_ofFn hr hc
  rw [hentry]
  exact h r hr c hc

theorem zeros_add [Arith E] {m : Matrix E} {rows cols : Nat} (h0 : ∀ x : E, 0 + x = x)
    (hm : m.shape = (rows, cols)) : (zeros rows cols).add m = .ok m :=
  zipWith_eq_right hm rfl fun r hr c hc => by rw [entry_zeros hr hc, h0]

theorem zipWith_addEach_zeros [Arith E] {o : String} {m : Matrix E} {rows cols : Nat}
    (h0 : ∀ x : E, 0 + x = x) (h1 : ∀ x : E, 1 * x = x) (hm : m.shape = (rows, cols)) :
    ((zeros rows cols).addEach 1).zipWith o (· * ·) m = .ok m := by
  refine zipWith_eq_right hm rfl fun r hr c hc => ?_
  have hmap : ((zeros rows cols).addEach (1 : E)).entry r c = (zeros rows cols).entry r c + 1 := by
    rw [addEach, map_eq]
    exact entry_ofFn hr hc
  rw [hmap, entry_zeros hr hc, h0, h1]

theorem shape_of_logSoftmax [Arith E] {m y : Matrix E} (h : m.logSoftmax = .ok y) :
    y.shape = m.shape := by
  unfold logSoftmax at h
  split at h
  · cases h
  · cases h
    rfl

end Matrix

namespace Graph

/-! ## The operation on a matrix -/

section
variable [Scalar K] [Arith E] [Laned K E] {g : Graph K E}

omit [Scalar K] [Arith E] [Laned K E] in
/-- A vertex whose operands have values is all that is missing. -/
theorem missing_eq_singleton {root : Node} (hroot : root < g.size) (hv : g.hasValue root = false)
    (ho : ∀ c ∈ g.dag.operands root, g.hasValue c = true) : g.missing root = [root] := by
  have hleft : ∀ (cs : List Node) (s : Dag.Search), (∀ c ∈ cs, g.hasValue c = true) →
      (g.dag.searchAll (fun n => ! g.hasValue n) cs s).left = s.left := by
    intro cs
    induction cs with
    | nil => exact fun _ _ => rfl
    | cons c cs ih =>
      intro s hcs
      rw [Dag.searchAll_cons, ih _ fun d hd => hcs d (List.mem_cons_of_mem _ hd)]
      by_cases hc : c ∈ s.entered
      · rw [Dag.search_of_mem hc]
      · rw [Dag.search_of_not hc (by simp [hcs c List.mem_cons_self])]
  rw [missing, Dag.traverse_eq hroot, Dag.search_of_descend (by simp) (by simp [hv]), hleft _ _ ho]
  rfl

/-- A parameter is added. -/
theorem exists_parameter (g : Graph K E) (v : Matrix E) :
    ∃ g', (parameter v).run g = .ok g.size g' ∧ Turns [] g g' ∧ g'.size = g.size + 1 ∧
      g'.op g.size = .parameter ∧ g'.value g.size = v := by
  let g' : Graph K E := g.push .parameter (fun _ h => absurd h (by simp [Op.operands]))
    (.parameter v)
  exact ⟨g', rfl, .single (.push g _ _ _ (.inr ⟨rfl, v, rfl⟩)), size_push ..,
    (op_push ..).trans (if_pos rfl), congrArg Cell.value (cell_push_size ..)⟩

/-- An operation is added.  It has no value yet. -/
theorem exists_record (op : Op K) (hop : op.isParameter = false) (h : g.dag.Admits op) :
    ∃ g', (record op).run g = .ok g.size g' ∧ Turns [] g g' ∧ g'.size = g.size + 1 ∧
      g'.op g.size = op ∧ g'.hasValue g.size = false := by
  have hop' : (g.push op h .blank).op g.size = op := (op_push ..).trans (if_pos rfl)
  refine ⟨g.push op h .blank, ?_, .single (.push g op h .blank (.inl rfl)), size_push .., hop', ?_⟩
  · rw [record, EStateM.run_bind, EStateM.run_get]
    simp only [dif_pos h]
    rfl
  · rw [hasValue, isParameter, hop', hop, cell_push_size]
    rfl

/-- A vertex is read whose operands have values. -/
theorem exists_run_valueOf {root : Node} {v mask : Matrix E} (hroot : root < g.size)
    (hv : g.hasValue root = false) (ho : ∀ c ∈ g.dag.operands root, g.hasValue c = true)
    (hc : g.compute root = .ok (v, mask)) : ∃ g', (valueOf root).run g = .ok v g' := by
  let g' := (g.update root (store v mask)).use (mask.size * Laned.width E)
  have hone : (evaluateOne root).run g = .ok () g' := by rw [run_evaluateOne, hc]
  have hrun : (evaluate root).run g = .ok () g' := by
    rw [run_evaluate_of_missing (missing_eq_singleton hroot hv ho), List.forM_eq_forM,
      List.forM_cons, List.forM_nil, EStateM.run_bind, hone]
    rfl
  have hvalue : g'.value root = v :=
    congrArg Cell.value (cell_update_self g hroot (store v mask))
  refine ⟨g', ?_⟩
  rw [valueOf, EStateM.run_bind, hrun]
  exact congrArg (EStateM.Result.ok · g') hvalue

/-- **The value of the operation on a matrix.** -/
theorem answer_logSoftmax {x z : Matrix E} (hz : x.logSoftmax = .ok z) (g : Graph K E) :
    (do let n ← parameter x; valueOf (← record (.logSoftmax n)) : Step (Graph K E) _).answer g =
      .ok z := by
  obtain ⟨g₁, hr₁, -, hs₁, hop₁, hv₁⟩ := exists_parameter g x
  have hlt : g.size < g₁.size := hs₁ ▸ Nat.lt_succ_self _
  have hp : g₁.isParameter g.size = true := by rw [isParameter, hop₁]; rfl
  obtain ⟨g₂, hr₂, ht₂, hs₂, hop₂, hv₂⟩ :=
    exists_record (g := g₁) (.logSoftmax g.size) rfl fun c hc => List.mem_singleton.1 hc ▸ hlt
  have hvalue : g₂.value g.size = x := (ht₂.edits.value_parameter hlt hp (by simp)).trans hv₁
  have hcompute : g₂.compute g₁.size = .ok (z, .empty) := by
    simp only [compute, hop₂, Op.freshMask, Op.value, hvalue, hz]
    rfl
  obtain ⟨g₃, hr₃⟩ := exists_run_valueOf (hs₂ ▸ Nat.lt_succ_self _) hv₂ (fun c hc => by
    rw [Dag.operands, show g₂.dag.op g₁.size = _ from hop₂] at hc
    rw [List.mem_singleton.1 hc]
    refine hasValue_of_isParameter ?_
    rwa [isParameter, ht₂.edits.extends.op _ hlt]) hcompute
  have hrun : (do let n ← parameter x; valueOf (← record (.logSoftmax n)) :
      Step (Graph K E) _).run g = .ok z g₃ := by
    rw [EStateM.run_bind, hr₁]
    simp only [EStateM.run_bind, hr₂]
    exact hr₃
  exact Step.answer_of_run_ok hrun

end

/-! ## Gradients of the operation on a matrix -/

/-- The entries of a matrix added up, each with a weight. -/
def weighted [Zero E] (n : Node) (weights : Matrix E) : Step (Graph K E) Node := do
  let w ← parameter weights
  let p ← record (.dot n w)
  record (.sum p)

/-- Vertices `y`, `w`, `p` and `l` for the sum of the logarithms of the softmax of the parameter
`n`, with weights. -/
structure Weighing (g : Graph K E) (n y w p l : Node) : Prop where
  operand : g.op n = .parameter
  logSoftmax : g.op y = .logSoftmax n
  weights : g.op w = .parameter
  dot : g.op p = .dot y w
  sum : g.op l = .sum p
  lt : n < y ∧ y < w ∧ w < p ∧ p < l ∧ l < g.size

theorem Weighing.of_dag {g g' : Graph K E} {n y w p l : Node} (h : g.Weighing n y w p l)
    (hd : g'.dag = g.dag) : g'.Weighing n y w p l where
  operand := (op_of_dag hd n).trans h.operand
  logSoftmax := (op_of_dag hd y).trans h.logSoftmax
  weights := (op_of_dag hd w).trans h.weights
  dot := (op_of_dag hd p).trans h.dot
  sum := (op_of_dag hd l).trans h.sum
  lt := by rw [size_of_dag hd]; exact h.lt

theorem Weighing.order_eq {g : Graph K E} {n y w p l : Node} (h : g.Weighing n y w p l) :
    g.order l = [n, y, w, p, l] := by
  obtain ⟨hny, hyw, hwp, hpl, hl⟩ := h.lt
  have hn : g.dag.operands n = [] := congrArg Op.operands h.operand
  have hy : g.dag.operands y = [n] := congrArg Op.operands h.logSoftmax
  have hw : g.dag.operands w = [] := congrArg Op.operands h.weights
  have hp : g.dag.operands p = [y, w] := congrArg Op.operands h.dot
  have hl' : g.dag.operands l = [p] := congrArg Op.operands h.sum
  have hyp := hyw.trans hwp
  have hnw := hny.trans hyw
  rw [order, Dag.traverse_eq hl]
  simp [Dag.search_of_descend, hn, hy, hw, hp, hl', hpl.ne, hyp.ne, (hyp.trans hpl).ne, hny.ne,
    (hny.trans hyp).ne, (hny.trans (hyp.trans hpl)).ne, hyw.ne', hnw.ne', hwp.ne,
    (hwp.trans hpl).ne]

section
variable [Arith E] {g s : Graph K E} {order : List Node} {c n y w p l : Node}

/-- A vertex passes on what it contributes. -/
theorem Regraded.run_propagate (h : Regraded g s order) {ps : List (Node × Push E)}
    (hps : (g.op n).pushes (g.value n) (g.cell n).mask (s.grad n) g.value = .ok ps) :
    (Graph.propagate n).run s = (ps.forM fun t => Graph.receive t.1 t.2).run s := by
  simp only [Graph.propagate, EStateM.run_bind, EStateM.run_get, h.pushes, hps]
  rfl

/-- Nothing is passed on by a parameter. -/
theorem Regraded.run_propagate_parameter (h : Regraded g s order) (hop : g.op n = .parameter) :
    (Graph.propagate n).run s = .ok () s :=
  h.run_propagate (by rw [hop, Op.pushes])

/-- Something is passed on to a single vertex. -/
theorem Regraded.run_propagate_one (h : Regraded g s order) {t : Push E} {m : Matrix E}
    (hps : (g.op n).pushes (g.value n) (g.cell n).mask (s.grad n) g.value = .ok [(c, t)])
    (hlt : c < g.size) (ht : t.apply (s.grad c) = .ok m) (hm : m.shape = (g.value c).shape) :
    ∃ s', (Graph.propagate n).run s = .ok () s' ∧ Regraded g s' order ∧ s'.grad c = m ∧
      ∀ k, k ≠ c → s'.grad k = s.grad k := by
  obtain ⟨s', hr, h'⟩ := h.run_receive hlt ht hm
  refine ⟨s', ?_, h'⟩
  rw [h.run_propagate hps, List.forM_eq_forM, List.forM_cons, List.forM_nil, EStateM.run_bind, hr]
  rfl

/-- The values of the vertices. -/
theorem Weighing.values (h : g.Weighing n y w p l) (hr : g.Ready l) :
    (g.value n).logSoftmax = .ok (g.value y) ∧
      (g.value y).zipWith "dot" (· * ·) (g.value w) = .ok (g.value p) ∧
      g.value l = .scalar (g.value p).sum := by
  have hsettled : ∀ {m op}, m ∈ [n, y, w, p, l] → g.op m = op →
      op.value (g.value m) (g.cell m).mask g.value = .ok (g.value m) := fun hm hop =>
    hop ▸ hr.settled _ ((mem_order h.lt.2.2.2.2).1 (h.order_eq.symm ▸ hm))
  exact ⟨hsettled (by simp) h.logSoftmax, hsettled (by simp) h.dot,
    (Except.ok.inj (hsettled (by simp) h.sum)).symm⟩

/-- All values but the sum have one shape. -/
theorem Weighing.shapes (h : g.Weighing n y w p l) (hr : g.Ready l) :
    (g.value y).shape = (g.value n).shape ∧ (g.value w).shape = (g.value n).shape ∧
      (g.value p).shape = (g.value n).shape := by
  obtain ⟨hyv, hpv, -⟩ := h.values hr
  have hy : (g.value y).shape = (g.value n).shape := Matrix.shape_of_logSoftmax hyv
  exact ⟨hy, (Matrix.shape_eq_of_zipWith hpv).symm.trans hy, (Matrix.shape_of_zipWith hpv).trans hy⟩

/-- Ones arrive at the products. -/
theorem Weighing.exists_run_sum (h : g.Weighing n y w p l) (hr : g.Ready l)
    (hzero : ∀ m ∈ [n, y, w, p, l], g.grad m = .zeros (g.value m).rows (g.value m).cols) :
    ∃ s, (do seed l; propagate l : Step (Graph K E) Unit).run g = .ok () s ∧
      Regraded g s (g.order l) ∧
      s.grad p = (Matrix.zeros (g.value p).rows (g.value p).cols).addEach 1 ∧
      ∀ k ∈ [n, y, w], s.grad k = .zeros (g.value k).rows (g.value k).cols := by
  obtain ⟨hny, hyw, hwp, hpl, hl⟩ := h.lt
  have hself : Regraded g g (g.order l) := by
    refine ⟨rfl, fun _ => rfl, fun _ => rfl, fun m hm => ?_⟩
    rw [hzero m (h.order_eq ▸ hm)]
    rfl
  obtain ⟨h₀, hgl, hne₀⟩ := hself.update hl (f := fun c => { c with grad := c.value.fill 1 })
    (m := (g.value l).fill 1) rfl rfl
  have hseed : (seed l).run g =
      .ok () (g.update l fun c => { c with grad := c.value.fill 1 }) := rfl
  generalize (g.update l fun c => { c with grad := c.value.fill 1 }) = s₀ at h₀ hgl hne₀ hseed
  have hone : (g.op l).pushes (g.value l) (g.cell l).mask (s₀.grad l) g.value =
      .ok [(p, .each 1)] := by
    rw [h.sum, Op.pushes, hgl, (h.values hr).2.2, Matrix.fill_scalar, Matrix.toScalar_scalar]
    rfl
  have hp : s₀.grad p = .zeros (g.value p).rows (g.value p).cols :=
    (hne₀ p hpl.ne).trans (hzero p (by simp))
  obtain ⟨s, hrs, hs, hgp, hne⟩ := h₀.run_propagate_one hone (hpl.trans hl) rfl (by rw [hp]; rfl)
  refine ⟨s, ?_, hs, by rw [hgp, hp], fun k hk => ?_⟩
  · rw [EStateM.run_bind, hseed]
    exact hrs
  · have hkp : k < p := by
      simp only [List.mem_cons, List.not_mem_nil, or_false] at hk
      rcases hk with rfl | rfl | rfl
      · exact hny.trans (hyw.trans hwp)
      · exact hyw.trans hwp
      · exact hwp
    rw [hne k hkp.ne, hne₀ k (hkp.trans hpl).ne]
    refine hzero k ?_
    simp only [List.mem_cons] at hk ⊢
    tauto

/-- The weights arrive at the logarithm of the softmax. -/
theorem Weighing.exists_run_products (h : g.Weighing n y w p l) (hr : g.Ready l)
    (h0 : ∀ x : E, 0 + x = x) (h1 : ∀ x : E, 1 * x = x) (hs : Regraded g s (g.order l))
    (hp : s.grad p = (Matrix.zeros (g.value p).rows (g.value p).cols).addEach 1)
    (hzero : ∀ k ∈ [n, y, w], s.grad k = .zeros (g.value k).rows (g.value k).cols) :
    ∃ s', (Graph.propagate p).run s = .ok () s' ∧ Regraded g s' (g.order l) ∧
      s'.grad y = g.value w ∧ s'.grad n = .zeros (g.value n).rows (g.value n).cols := by
  obtain ⟨hny, hyw, hwp, hpl, hl⟩ := h.lt
  have hw : w < g.size := hwp.trans (hpl.trans hl)
  obtain ⟨hyn, hwn, hpn⟩ := h.shapes hr
  have hps : (g.op p).pushes (g.value p) (g.cell p).mask (s.grad p) g.value =
      .ok [(y, .whole (g.value w)), (w, .whole (g.value y))] := by
    rw [h.dot, Op.pushes, hp, Matrix.zipWith_addEach_zeros h0 h1 (hwn.trans hpn.symm),
      Matrix.zipWith_addEach_zeros h0 h1 (hyn.trans hpn.symm)]
    rfl
  obtain ⟨s₁, hr₁, h₁, hgy, hne₁⟩ := hs.run_receive (hyw.trans hw) (p := .whole (g.value w))
    (m := g.value w)
    (by rw [hzero y (by simp)]; exact Matrix.zeros_add h0 (hwn.trans hyn.symm)) (hwn.trans hyn.symm)
  obtain ⟨s₂, hr₂, h₂, -, hne₂⟩ := h₁.run_receive hw (p := .whole (g.value y)) (m := g.value y)
    (by rw [hne₁ w hyw.ne', hzero w (by simp)]; exact Matrix.zeros_add h0 (hyn.trans hwn.symm))
    (hyn.trans hwn.symm)
  refine ⟨s₂, ?_, h₂, (hne₂ y hyw.ne).trans hgy, ?_⟩
  · rw [hs.run_propagate hps]
    simp only [List.forM_eq_forM, List.forM_cons, List.forM_nil, EStateM.run_bind, hr₁, hr₂]
    rfl
  · rw [hne₂ n (hny.trans hyw).ne, hne₁ n hny.ne, hzero n (by simp)]

/-- **The gradient that arrives at the matrix.** -/
theorem Weighing.exists_sweep (h : g.Weighing n y w p l) (hr : g.Ready l)
    (hzero : ∀ m, g.dag.Below l m → g.grad m = .zeros (g.value m).rows (g.value m).cols)
    (h0 : ∀ x : E, 0 + x = x) (h1 : ∀ x : E, 1 * x = x) :
    ∃ s' d, (do seed l; (g.order l).reverse.forM propagate : Step (Graph K E) Unit).run g =
        .ok () s' ∧ (g.value n).logSoftmax = .ok (g.value y) ∧
      (g.value y).logSoftmaxInput (g.value w) = .ok d ∧ s'.grad n = d := by
  obtain ⟨hny, hyw, hwp, hpl, hl⟩ := h.lt
  have hy : y < g.size := hyw.trans (hwp.trans (hpl.trans hl))
  obtain ⟨hyn, hwn, -⟩ := h.shapes hr
  obtain ⟨d, hd, hds⟩ : ∃ d, (g.value y).logSoftmaxInput (g.value w) = .ok d ∧
      d.shape = (g.value n).shape :=
    ⟨_, Matrix.zipWith_eq (hwn.trans hyn.symm), hwn⟩
  obtain ⟨s₁, hr₁, h₁, hgp, hzero₁⟩ :=
    h.exists_run_sum hr fun m hm => hzero m ((mem_order hl).1 (h.order_eq.symm ▸ hm))
  obtain ⟨s₂, hr₂, h₂, hgy, hgn⟩ := h.exists_run_products hr h0 h1 h₁ hgp hzero₁
  have hps : (g.op y).pushes (g.value y) (g.cell y).mask (s₂.grad y) g.value =
      .ok [(n, .whole d)] := by
    rw [h.logSoftmax, Op.pushes, hgy, hd]
    rfl
  obtain ⟨s₃, hr₃, h₃, hgd, -⟩ := h₂.run_propagate_one (m := d) hps (hny.trans hy)
    (by rw [hgn]; exact Matrix.zeros_add h0 hds) hds
  refine ⟨s₃, d, ?_, (h.values hr).1, hd, hgd⟩
  have hrw := h₂.run_propagate_parameter h.weights
  have hrn := h₃.run_propagate_parameter h.operand
  obtain ⟨s₀, hseed, hrl⟩ : ∃ s₀, (seed l).run g = .ok () s₀ ∧ (propagate l).run s₀ = .ok () s₁ :=
    ⟨_, rfl, hr₁⟩
  rw [h.order_eq]
  simp only [List.reverse_cons, List.reverse_nil, List.nil_append, List.cons_append,
    List.forM_eq_forM, List.forM_cons, List.forM_nil, EStateM.run_bind, hseed, hrl, hr₂, hrw, hr₃,
    hrn]
  rfl

end

section
variable [Scalar K] [Arith E] [Laned K E] {g : Graph K E} {n y w p l : Node}

omit [Arith E] [Laned K E] in
/-- The sum can be computed if the matrix has entries and the weights fit. -/
theorem Weighing.evaluable (h : g.Weighing n y w p l) (hempty : (g.value n).isEmpty = false)
    (hs : (g.value w).shape = (g.value n).shape) : g.Evaluable l := by
  have hparameter : ∀ {m}, g.op m = .parameter →
      g.shapes m = (g.value m).shape ∧ g.Evaluable m := fun {m} hop => by
    have hp : g.isParameter m = true := by rw [isParameter, hop]; rfl
    exact ⟨shapes_parameter hp, (fits_parameter hp (hasValue_of_isParameter hp)).2⟩
  obtain ⟨hsn, hn⟩ := hparameter h.operand
  obtain ⟨hsw, hw⟩ := hparameter h.weights
  have hsy : g.shapes y = g.shapes n := by rw [shapes_eq, h.logSoftmax]; rfl
  have harea : (g.shapes n).area ≠ 0 := fun h0 => by
    rw [hsn, ← Matrix.isEmpty_iff] at h0
    rw [h0] at hempty
    cases hempty
  have hunary : ∀ {m c op}, g.op m = op → op.operands = [c] → op.Evaluable g.shapes →
      g.Evaluable c → g.Evaluable m := fun {m c op} hop ho he hc => by
    subst hop
    exact evaluable_of_operands he fun d hd =>
      List.mem_singleton.1 (ho ▸ (show d ∈ (g.op m).operands from hd)) ▸ hc
  have hy : g.Evaluable y := hunary h.logSoftmax rfl ⟨trivial, harea⟩ hn
  have hp : g.Evaluable p := by
    refine evaluable_of_operands ?_ fun c hc => ?_
    · rw [h.dot]
      exact ⟨trivial, by rw [Op.Accepts, hsy, hsn, hsw, hs]⟩
    · rw [Dag.operands, show g.dag.op p = _ from h.dot] at hc
      rcases List.mem_pair.1 hc with rfl | rfl
      · exact hy
      · exact hw
  exact hunary h.sum rfl ⟨trivial, trivial⟩ hp

/-- What a sum with weights adds to a graph. -/
theorem exists_weighing (hn : g.op n = .parameter) (hlt : n < g.size) (v : Matrix E) :
    ∃ y w p l g', (do weighted (← record (.logSoftmax n)) v : Step (Graph K E) Node).run g =
        .ok l g' ∧ Turns [] g g' ∧ g'.Weighing n y w p l ∧ g'.value w = v := by
  obtain ⟨g₁, hr₁, ht₁, hs₁, hy, -⟩ :=
    exists_record (g := g) (.logSoftmax n) rfl fun c hc => List.mem_singleton.1 hc ▸ hlt
  obtain ⟨g₂, hr₂, ht₂, hs₂, hw, hv⟩ := exists_parameter g₁ v
  have h₁ : g.size < g₁.size := hs₁ ▸ Nat.lt_succ_self _
  have h₂ : g₁.size < g₂.size := hs₂ ▸ Nat.lt_succ_self _
  obtain ⟨g₃, hr₃, ht₃, hs₃, hp, -⟩ :=
    exists_record (g := g₂) (.dot g.size g₁.size) rfl fun c hc => by
      rcases List.mem_pair.1 hc with rfl | rfl
      · exact h₁.trans h₂
      · exact h₂
  have h₃ : g₂.size < g₃.size := hs₃ ▸ Nat.lt_succ_self _
  obtain ⟨g₄, hr₄, ht₄, hs₄, hl, -⟩ :=
    exists_record (g := g₃) (.sum g₂.size) rfl fun c hc => List.mem_singleton.1 hc ▸ h₃
  have h₄ : g₃.size < g₄.size := hs₄ ▸ Nat.lt_succ_self _
  have hpw : g₂.isParameter g₁.size = true := by rw [isParameter, hw]; rfl
  have ht₂₄ : Turns [] g₂ g₄ := ht₃.trans ht₄
  have ht₁₄ : Turns [] g₁ g₄ := ht₂.trans ht₂₄
  have ht : Turns [] g g₄ := ht₁.trans ht₁₄
  refine ⟨g.size, g₁.size, g₂.size, g₃.size, g₄, ?_, ht, ⟨?_, ?_, ?_, ?_, hl, hlt, h₁, h₂, h₃, h₄⟩,
    (ht₂₄.edits.value_parameter h₂ hpw (by simp)).trans hv⟩
  · rw [EStateM.run_bind, hr₁]
    simp only [weighted, EStateM.run_bind, hr₂, hr₃, hr₄]
  · rw [ht.edits.extends.op n hlt, hn]
  · rw [ht₁₄.edits.extends.op _ h₁, hy]
  · rw [ht₂₄.edits.extends.op _ h₂, hw]
  · rw [ht₄.edits.extends.op _ h₃, hp]

/-- **The gradient that a sum with weights passes back** through the logarithm of the softmax. -/
theorem exists_grad_logSoftmax (hf : ∀ m, g.Fits m) (hfit : g.GradsFit)
    (hn : g.isParameter n = true) (hempty : (g.value n).isEmpty = false) {v : Matrix E}
    (hv : v.shape = (g.value n).shape) (h0 : ∀ x : E, 0 + x = x) (h1 : ∀ x : E, 1 * x = x) :
    ∃ l g₁ g₂ y d, (do weighted (← record (.logSoftmax n)) v : Step (Graph K E) Node).run g =
        .ok l g₁ ∧ (backward l).run g₁ = .ok () g₂ ∧ (g.value n).logSoftmax = .ok y ∧
      y.logSoftmaxInput v = .ok d ∧ g₂.grad n = d := by
  have hlt : n < g.size := by
    by_contra hge
    rw [value, cell_of_size_le g (not_lt.1 hge)] at hempty
    cases hempty
  obtain ⟨y, w, p, l, g₁, hr₁, ht, h, hw⟩ := exists_weighing (op_eq_parameter hn) hlt v
  have hvn : g₁.value n = g.value n := ht.edits.value_parameter hlt hn (by simp)
  obtain ⟨g₂, hp, hrun⟩ := exists_prepared (ht.edits.fits_all hf) (ht.edits.gradsFit hfit)
    h.lt.2.2.2.2 (h.evaluable (by rwa [hvn]) (by rw [hw, hvn, hv]))
  obtain ⟨g₃, d, hr₃, hy, hd, hgrad⟩ := (h.of_dag hp.dag).exists_sweep hp.ready
    (fun m hm => hp.grad m (hp.dag ▸ hm)) h0 h1
  have hparameter : ∀ {m}, m < g₁.size → g₁.op m = .parameter → g₂.value m = g₁.value m :=
    fun hm hop => hp.parameter _ hm (by rw [isParameter, hop]; rfl)
  obtain ⟨hny, hyw, hwp, hpl, hl⟩ := h.lt
  have hwl : w < g₁.size := hwp.trans (hpl.trans hl)
  rw [hparameter (hny.trans (hyw.trans hwl)) h.operand, hvn] at hy
  rw [hparameter hwl h.weights, hw] at hd
  refine ⟨l, g₁, g₃, g₂.value y, d, hr₁, ?_, hy, hd, hgrad⟩
  rw [hrun, ← order_of_dag hp.dag]
  exact hr₃

end

end Graph

namespace Block

open DiffGraph.Graph DiffGraph.Binary32

variable {a : Block} {n : Node} {ns : List Node}

/-! ## The operations on a block -/

/-- A cell depends on all cells. -/
theorem mem_leaves_logTerm {m k : Node} :
    k ∈ (logTerm n ns m).leaves ↔ k = m ∨ k ∈ n :: ns := by
  have hpeak : (peakTerm n ns).leaves = n :: ns := by
    simp [peakTerm, Term.leaves_largest, Term.leaves, List.flatMap_map]
  have hexp : ∀ m, (Term.func .exp ((Term.leaf m).sub (peakTerm n ns))).leaves = m :: n :: ns :=
    fun m => by rw [Term.leaves, Term.leaves_sub, hpeak]; rfl
  have htotal : k ∈ (totalTerm n ns).leaves ↔ k ∈ n :: ns := by
    rw [totalTerm, Term.leaves_chain, hexp, List.mem_append, List.mem_flatMap]
    constructor
    · rintro (hk | ⟨_, hmem, hk⟩)
      · simpa using hk
      · obtain ⟨m, hm, rfl⟩ := List.mem_map.1 hmem
        rw [hexp] at hk
        rcases List.mem_cons.1 hk with rfl | hk
        · exact List.mem_cons_of_mem _ hm
        · exact hk
    · exact fun hk => .inl (List.mem_cons_of_mem _ hk)
  simp only [logTerm, Term.leaves, Term.leaves_sub, hpeak, List.mem_append, htotal,
    List.mem_singleton]
  tauto

section
variable {F : Functions} [Arith E] [Laned (Single F) E] [Laned.Lawful (Single F) E]
  [Laned.Extensional (Single F) E] {g : Graph (Single F) E}

/-- **The values of the cells** that are built for finite numbers. -/
theorem exists_values_logSoftmax (hF : F.Exponential) (hf : ∀ m, g.Fits m)
    (ha : ∀ m ∈ a.nodes, g.Readable m) (hempty : a.isEmpty = false) :
    ∃ c g₁ z g₂ x g₃, a.logSoftmax.run g = .ok c g₁ ∧ c.values.run g₁ = .ok z g₂ ∧
      a.values.run g₂ = .ok x g₃ ∧ (a.OfNumbers g → x = a.map g.number) ∧
      ((∀ e ∈ x.data.toList, ∀ l < Laned.width E, Float32.isFinite (Laned.lane e l) = true) →
        x.logSoftmax = .ok z) := by
  obtain ⟨n, ns, hb⟩ : ∃ n ns, a.nodes = n :: ns := Matrix.exists_data_eq hempty
  obtain ⟨c, g₁, hr₁, ht₁, hc⟩ := yields_logSoftmax hb fun m hm => (ha m hm).lt
  have hleaves : ∀ {s}, Turns [] g s → ∀ t ∈ (a.map (logTerm n ns)).data.toList,
      ∀ k ∈ t.leaves, s.Readable k := by
    intro s ht t hmem k hk
    rw [Matrix.map, Array.toList_map, List.mem_map] at hmem
    obtain ⟨m, hm, rfl⟩ := hmem
    refine (ha k ?_).of_edits ht.edits
    rcases mem_leaves_logTerm.1 hk with rfl | hk
    · exact hm
    · rwa [hb]
  obtain ⟨z, g₂, hr₂, ht₂, hcr, hz⟩ :=
    yields_values (hc.readable (hleaves ht₁)) (ht₁.edits.fits_all hf)
  have ht₂' : Turns [] g g₂ := ht₁.trans ht₂
  obtain ⟨x, g₃, hr₃, ht₃, har, hx⟩ :=
    yields_values (fun m hm => (ha m hm).of_edits ht₂'.edits) (ht₂'.edits.fits_all hf)
  have ht₃' : Turns [] g g₃ := ht₂'.trans ht₃
  refine ⟨c, g₁, z, g₂, x, g₃, hr₁, hr₂, hr₃, fun hnumbers => ?_, fun hfin => ?_⟩
  · rw [hx, hnumbers.map_number ht₃']
  have hcells : ∀ m ∈ a.nodes, ∀ l < Laned.width E,
      Float32.isFinite (Laned.lane (g₃.number m) l) = true := fun m hm => by
    refine hfin _ ?_
    rw [hx, Matrix.map, Array.toList_map]
    exact List.mem_map_of_mem hm
  -- what was read is still there at the end
  rw [hx, hz, logSoftmax_map_of_isFinite hF hb hcells, ← hcr.map_number ht₃,
    (hc.of_turns (ht₂.trans ht₃)).map_number (hleaves ht₃') (ht₃'.edits.fits_all hf)
      (hcr.of_turns ht₃)]
  simp [Matrix.map, Function.comp_def]

end

section
variable [Arith E] [Laned ℝ E] [Laned.Lawful ℝ E] {g : Graph ℝ E} {v y d : Matrix E}

/-- The gradient of every cell is the sum of the entries at its places. -/
def Collects (a : Block) (g : Graph ℝ E) (d : Matrix E) : Prop :=
  ∀ m ∈ a.nodes, ∃ e, g.grad m = .scalar e ∧ ∀ i < Laned.width E,
    Laned.lane e i = Matrix.pairing (d.onLane i) (a.map (Pi.single m 1))

/-- The gradients of the cells in one lane. -/
theorem exists_lane_logSoftmax {i : Nat} (hi : i < Laned.width E) (hf : ∀ m, g.Fits m)
    (hfit : g.GradsFit) (ha : a.OfNumbers g) (hempty : a.isEmpty = false) (hv : v.shape = a.shape)
    (hy : (a.map g.number).logSoftmax = .ok y) (hd : y.logSoftmaxInput v = .ok d) :
    ∃ l g₁ g₂, (do weighted (← a.logSoftmax) v : Step (Graph ℝ E) Node).run g = .ok l g₁ ∧
      (backward l).run g₁ = .ok () g₂ ∧ ∀ m ∈ a.nodes, ∃ e : E, g₂.grad m = .scalar e ∧
        Laned.lane e i = Matrix.pairing (d.onLane i) (a.map (Pi.single m 1)) := by
  obtain ⟨n, ns, hb⟩ : ∃ n ns, a.nodes = n :: ns := Matrix.exists_data_eq hempty
  obtain ⟨hvrows, hvcols⟩ := Prod.mk.inj hv
  obtain ⟨c, g₀, hr₀, ht₀, hc⟩ := yields_logSoftmax hb fun m hm => (ha.readable hm).lt
  have hempty : (a.map g.number).isEmpty = false := (Matrix.isEmpty_map a).trans hempty
  obtain ⟨p⟩ : Nonempty (a.map g.number).shape.Place := Matrix.nonempty_places hempty
  have hrows : 0 < v.rows := hvrows ▸ Nat.zero_lt_of_lt p.1.isLt
  have hcols : 0 < v.cols := hvcols ▸ Nat.zero_lt_of_lt p.2.isLt
  have hterms : a.map (logTerm n ns) =
      .ofFn v.rows v.cols fun r c => logTerm n ns (a.node r c) := by
    rw [hvrows, hvcols]
    exact Matrix.map_eq (logTerm n ns) a
  rw [hterms] at hc
  obtain ⟨l, g₁, g₂, hr₁, hr₂, hgrad⟩ := hc.exists_backward (Laned.Lawful.preserves hi)
    (fun r hr c hc k hk => by
      rcases mem_leaves_logTerm.1 hk with rfl | hk
      · exact ha.of_turns ht₀ (node_mem (hvrows ▸ hr) (hvcols ▸ hc))
      · exact ha.of_turns ht₀ (hb ▸ hk))
    (ht₀.edits.fits_all hf) (ht₀.edits.gradsFit hfit) hrows.ne' hcols.ne'
  refine ⟨l, g₁, g₂, ?_, hr₂, fun m hm => ?_⟩
  · rw [EStateM.run_bind, hr₀]
    exact hr₁
  · obtain ⟨e, he, hsum⟩ := hgrad 0 hrows 0 hcols m (mem_leaves_logTerm.2 (.inr (hb ▸ hm)))
    obtain ⟨hds, hpull⟩ := Matrix.onLane_logSoftmaxInput hempty hy hd hv hi
    have hreals : ((a.map g.number).onLane i).reals a.shape =
        a.reals ((fun e : E => (Laned.lane e i : ℝ)) ∘ g₀.number) := by
      funext q
      rw [Matrix.reals, Matrix.entry_onLane hi, ← ha.map_number ht₀, entry_map _ q.1.isLt q.2.isLt]
      rfl
    have hpull : (d.onLane i).reals a.shape = Softmax.pull
        (a.reals ((fun e : E => (Laned.lane e i : ℝ)) ∘ g₀.number))
        ((v.onLane i).reals a.shape) := hreals ▸ hpull
    refine ⟨e, he, hsum.trans ?_⟩
    rw [hvrows, hvcols, ← sum_tangent_logTerm hb hds hpull]
    simp only [Matrix.entry_onLane hi]

/-- **The gradients of the cells** for real numbers. -/
theorem exists_grads_logSoftmax (hw : 0 < Laned.width E) (hf : ∀ m, g.Fits m) (hfit : g.GradsFit)
    (ha : a.OfNumbers g) (hempty : a.isEmpty = false) (hv : v.shape = a.shape)
    (hy : (a.map g.number).logSoftmax = .ok y) (hd : y.logSoftmaxInput v = .ok d) :
    ∃ l g₁ g₂, (do weighted (← a.logSoftmax) v : Step (Graph ℝ E) Node).run g = .ok l g₁ ∧
      (backward l).run g₁ = .ok () g₂ ∧ a.Collects g₂ d := by
  have hlane := fun i (hi : i < Laned.width E) =>
    exists_lane_logSoftmax hi hf hfit ha hempty hv hy hd
  obtain ⟨l, g₁, g₂, hr₁, hr₂, hgrad⟩ := hlane 0 hw
  refine ⟨l, g₁, g₂, hr₁, hr₂, fun m hm => ?_⟩
  obtain ⟨e, he, -⟩ := hgrad m hm
  refine ⟨e, he, fun i hi => ?_⟩
  -- the run is the same for every lane
  obtain ⟨l', g₁', g₂', hr₁', hr₂', hgrad'⟩ := hlane i hi
  obtain ⟨rfl, rfl⟩ := EStateM.Result.ok.inj (hr₁.symm.trans hr₁')
  obtain ⟨-, rfl⟩ := EStateM.Result.ok.inj (hr₂.symm.trans hr₂')
  obtain ⟨e', he', hlane'⟩ := hgrad' m hm
  rw [Matrix.scalar_injective (he.symm.trans he')]
  exact hlane'

/-- The gradients of distinct cells are the entries. -/
theorem run_grads_of_pairing [Laned.Extensional ℝ E] (hnodup : a.nodes.Nodup)
    (hd : d.shape = a.shape) (h : a.Collects g d) :
    a.grads.run g = .ok d g := by
  unfold Collects at h
  refine run_grads hd fun r hr c hc => ?_
  obtain ⟨e, he, hlane⟩ := h _ (node_mem hr hc)
  rw [he]
  refine congrArg Matrix.scalar (Laned.Extensional.ext (K := ℝ) fun i hi => ?_)
  have hds : (d.onLane i).shape = a.shape := hd
  rw [hlane i hi, pairing_single hnodup hds hr hc, Matrix.entry_onLane hi]

theorem lane_zero_add {i : Nat} (hi : i < Laned.width E) (x : E) :
    (Laned.lane (0 + x) i : ℝ) = Laned.lane x i := by
  have hp := Laned.Lawful.preserves (K := ℝ) (T := E) hi
  rw [hp.add, hp.zero, zero_add]

theorem lane_one_mul {i : Nat} (hi : i < Laned.width E) (x : E) :
    (Laned.lane (1 * x) i : ℝ) = Laned.lane x i := by
  have hp := Laned.Lawful.preserves (K := ℝ) (T := E) hi
  rw [hp.mul, hp.one, one_mul]

end

/-- **Both logarithms of a softmax agree.**  The cells that are built for finite numbers have the
values that the operation gives for a matrix of these numbers, to the bit.  In exact arithmetic, a
sum of the cells with weights passes back the gradient that the same sum passes back through the
operation: every cell receives the entries of its places, and distinct cells receive the matrix. -/
theorem logSoftmax_agrees {F : Functions} (hF : F.Exponential) {E R : Type}
    [Arith E] [Laned (Single F) E] [Laned.Lawful (Single F) E] [Laned.Extensional (Single F) E]
    [Arith R] [Laned ℝ R] [Laned.Lawful ℝ R] [Laned.Extensional ℝ R] (a : Block)
    (hempty : a.isEmpty = false) :
    (∀ g : Graph (Single F) E, Reachable g →
      (∀ n ∈ a.nodes, ∃ e, (scalarOf n).answer g = .ok e) →
      ∃ c g₁ z g₂ x g₃, a.logSoftmax.run g = .ok c g₁ ∧ c.values.run g₁ = .ok z g₂ ∧
        a.values.run g₂ = .ok x g₃ ∧ (a.OfNumbers g → x = a.map g.number) ∧
        ((∀ e ∈ x.data.toList, ∀ l < Laned.width E, Float32.isFinite (Laned.lane e l) = true) →
          ∀ h : Graph (Single F) E,
            (do let n ← parameter x; valueOf (← record (.logSoftmax n)) :
              Step (Graph (Single F) E) (Matrix E)).answer h = .ok z)) ∧
    ∀ (g h : Graph ℝ R) (n : Node) (v : Matrix R), 0 < Laned.width R → Reachable g → Reachable h →
      a.OfNumbers g → h.isParameter n = true → a.values.answer g = .ok (h.value n) →
      v.shape = a.shape →
      ∃ l g₁ g₂ root h₁ h₂,
        (do weighted (← a.logSoftmax) v : Step (Graph ℝ R) Node).run g = .ok l g₁ ∧
        (backward l).run g₁ = .ok () g₂ ∧
        (do Graph.weighted (← record (.logSoftmax n)) v : Step (Graph ℝ R) Node).run h =
          .ok root h₁ ∧
        (backward root).run h₁ = .ok () h₂ ∧
        a.Collects g₂ (h₂.grad n) ∧
        (a.nodes.Nodup → a.grads.run g₂ = .ok (h₂.grad n) g₂) := by
  refine ⟨fun g hg hcells => ?_, fun g h n v hw hg hh ha hn hvalues hv => ?_⟩
  · have hread : ∀ m ∈ a.nodes, g.Readable m := fun m hm => by
      obtain ⟨e, he⟩ := hcells m hm
      exact readable_of_answer hg he
    obtain ⟨c, g₁, z, g₂, x, g₃, hr₁, hr₂, hr₃, hx, hz⟩ :=
      exists_values_logSoftmax hF (fits_of_reachable hg) hread hempty
    exact ⟨c, g₁, z, g₂, x, g₃, hr₁, hr₂, hr₃, hx, fun hfinite => answer_logSoftmax (hz hfinite)⟩
  · have hf : ∀ m, g.Fits m := fits_of_reachable hg
    have hx : a.map g.number = h.value n :=
      Except.ok.inj ((answer_values ha hf).symm.trans hvalues)
    have hxempty : (h.value n).isEmpty = false := hx ▸ (Matrix.isEmpty_map a).trans hempty
    have hxshape : v.shape = (h.value n).shape := hx ▸ hv
    have hzero : ∀ x : R, 0 + x = x := fun x =>
      Laned.Extensional.ext (K := ℝ) fun i hi => lane_zero_add hi x
    have hone : ∀ x : R, 1 * x = x := fun x =>
      Laned.Extensional.ext (K := ℝ) fun i hi => lane_one_mul hi x
    obtain ⟨root, h₁, h₂, y, d, hr₁, hr₂, hy, hd, rfl⟩ :=
      exists_grad_logSoftmax (fits_of_reachable hh) hh.gradsFit hn hxempty hxshape hzero hone
    obtain ⟨l, g₁, g₂, hr₁', hr₂', hgrad⟩ :=
      exists_grads_logSoftmax hw hf hg.gradsFit ha hempty hv (hx ▸ hy) hd
    have hds : (h₂.grad n).shape = (h.value n).shape :=
      (Matrix.onLane_logSoftmaxInput hxempty hy hd hxshape hw).1
    exact ⟨l, g₁, g₂, root, h₁, h₂, hr₁', hr₂', hr₁, hr₂, hgrad,
      fun hnodup => run_grads_of_pairing hnodup (hds.trans (hx ▸ rfl)) hgrad⟩

/-- An exponential function that is nowhere less than zero. -/
def nonnegative : Functions where
  exp x := if x.isNaN then x else if x == 0 then 1 else
    if 0 < Float32.exp x then Float32.exp x else 0
  log := Float32.log
  tanh := Float32.tanh

theorem exponential_nonnegative : nonnegative.Exponential where
  zero := by decide +kernel
  ne_negativeZero x h := by
    simp only [nonnegative] at h
    split_ifs at h with hnan h0 hpos
    · subst h
      revert hnan
      decide +kernel
    · revert h
      decide +kernel
    · rw [h] at hpos
      revert hpos
      decide +kernel
    · revert h
      decide +kernel
  nonneg x hx := by
    simp only [nonnegative, hx, Bool.false_eq_true, if_false]
    split_ifs with h0 hpos
    · decide +kernel
    · exact nonneg_iff.2 (.inl (pos_iff.1 hpos))
    · decide +kernel

/-- Two numbers of two lanes, equal in the first lane. -/
def tied : Graph (Single nonnegative) (Lanes (Single nonnegative) 2) :=
  Call.runs [.parameter (.scalar ⟨#v[(2 : Float32), (-1 : Float32)]⟩),
    .parameter (.scalar ⟨#v[(2 : Float32), (3 : Float32)]⟩)] (.empty 0 ⟨fun _ => 0, fun _ => 0⟩)

/-- Two equal numbers, and a matrix of them. -/
noncomputable def tiedReals : Graph ℝ ℝ :=
  Call.runs [.parameter (.scalar 1), .parameter (.scalar 1), .parameter (.column [1, 1])]
    (.empty 0 ⟨fun _ => 0, fun _ => 0⟩)

/-- The largest number occurs twice. -/
theorem logSoftmax_agrees_tied :
    nonnegative.Exponential ∧
    (∃ c g₁ z g₂ x g₃, (logSoftmax ⟨2, 1, #[0, 1], rfl⟩).run tied = .ok c g₁ ∧
      c.values.run g₁ = .ok z g₂ ∧ (values ⟨2, 1, #[0, 1], rfl⟩).run g₂ = .ok x g₃ ∧
      (do let n ← parameter x; valueOf (← record (.logSoftmax n)) :
        Step (Graph (Single nonnegative) (Lanes (Single nonnegative) 2)) (Matrix _)).answer tied =
          .ok z) ∧
    ∃ l g₁ g₂ root h₁ h₂,
      (do weighted (← logSoftmax ⟨2, 1, #[0, 1], rfl⟩) (.column [1, 2]) :
        Step (Graph ℝ ℝ) Node).run tiedReals = .ok l g₁ ∧
      (backward l).run g₁ = .ok () g₂ ∧
      (do Graph.weighted (← record (.logSoftmax 2)) (.column [1, 2]) :
        Step (Graph ℝ ℝ) Node).run tiedReals = .ok root h₁ ∧
      (backward root).run h₁ = .ok () h₂ ∧
      (grads ⟨2, 1, #[0, 1], rfl⟩).run g₂ = .ok (h₂.grad 2) g₂ := by
  have htied : Reachable tied := (Reachable.empty 0 _).runs _
  have hreals : Reachable tiedReals := (Reachable.empty 0 _).runs _
  have hnumbers : OfNumbers ⟨2, 1, #[0, 1], rfl⟩ tied := by
    unfold OfNumbers
    decide +kernel
  have hnumbers' : OfNumbers ⟨2, 1, #[0, 1], rfl⟩ tiedReals :=
    List.forall_mem_cons.2 ⟨⟨rfl, rfl⟩, List.forall_mem_singleton.2 ⟨rfl, rfl⟩⟩
  have hmatrix : Matrix.map tiedReals.number ⟨2, 1, #[0, 1], rfl⟩ = tiedReals.value 2 := by
    have hnumber : tiedReals.number 0 = 1 ∧ tiedReals.number 1 = 1 := ⟨rfl, rfl⟩
    have hvalue : tiedReals.value 2 = .column [1, 1] := rfl
    simp [hvalue, Matrix.map, Matrix.column, hnumber]
  obtain ⟨hvalues, hgrads⟩ := logSoftmax_agrees (E := Lanes (Single nonnegative) 2) (R := ℝ)
    exponential_nonnegative ⟨2, 1, #[0, 1], rfl⟩ rfl
  refine ⟨exponential_nonnegative, ?_, ?_⟩
  · obtain ⟨c, g₁, z, g₂, x, g₃, hr₁, hr₂, hr₃, hx, hz⟩ := hvalues tied htied fun n hn => by
      obtain ⟨s, -, hr, -⟩ :=
        (hnumbers.readable hn).run_scalarOf fun m _ => fits_of_reachable htied m
      exact ⟨_, Step.answer_of_run_ok hr⟩
    refine ⟨c, g₁, z, g₂, x, g₃, hr₁, hr₂, hr₃, hz ?_ tied⟩
    rw [hx hnumbers]
    decide +kernel
  · obtain ⟨l, g₁, g₂, root, h₁, h₂, hr₁, hr₂, hr₁', hr₂', -, hgrad⟩ :=
      hgrads tiedReals tiedReals 2 (.column [1, 2]) one_pos hreals hreals hnumbers' rfl
        ((answer_values hnumbers' (fits_of_reachable hreals)).trans (congrArg _ hmatrix)) rfl
    exact ⟨l, g₁, g₂, root, h₁, h₂, hr₁, hr₂, hr₁', hr₂', hgrad (by decide)⟩

end Block

end DiffGraph
