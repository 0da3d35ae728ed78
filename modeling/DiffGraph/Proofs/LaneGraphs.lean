/-
  The lanes of a graph do not influence each other.

  Two graphs with the same operations, one with the images of the cells of the
  other, stay so when the same is done with both.

  * `Graph.Image`: the relation of the two graphs; `Graph.Follows`: a computation
    on the second graph that answers like one on the first and keeps the relation;
  * `Call.map`: the same call with the images of its elements.  Calls that draw
    samples, write to a single lane or exchange elements with a program are not
    `Lanewise`; all others are followed by their images (`Call.follows`);
  * `Call.lane_of_runs`: a lane of a graph over vectors is the graph over numbers
    that is built and used in the same way with that lane of all elements.
-/
import DiffGraph.Proofs.History
import DiffGraph.Proofs.Kernels

namespace DiffGraph

variable {K E F : Type}

/-! ## Cells -/

namespace Cell

/-- The image of a cell. -/
def map (φ : E → F) (c : Cell E) : Cell F where
  value := c.value.map φ
  hasValue := c.hasValue
  grad := c.grad.map φ
  batchSum := c.batchSum.map φ
  lastSum := c.lastSum.map φ
  mask := c.mask.map φ
  tracked := c.tracked
  isInput := c.isInput

theorem map_blank (φ : E → F) : blank.map φ = blank := by
  simp only [map, blank, Matrix.map_empty]

section
variable [Arith E] [Arith F] {φ : E → F}

theorem fill_zero_map (h : Preserves φ) (m : Matrix E) :
    (m.map φ).fill (0 : F) = (m.fill (0 : E)).map φ := by
  rw [← Matrix.fill_map, h.zero]

theorem zeros_map (h : Preserves φ) (rows cols : Nat) :
    (Matrix.zeros rows cols : Matrix F) = (Matrix.zeros rows cols).map φ := by
  simp [Matrix.zeros, Matrix.filled, Matrix.map, h.zero]

theorem parameter_map (h : Preserves φ) (v : Matrix E) :
    parameter (v.map φ) = (parameter v).map φ := by
  simp only [parameter, map, Matrix.rows_map, Matrix.cols_map, Matrix.map_empty, zeros_map h]

theorem store_map (h : Preserves φ) (v mask : Matrix E) (c : Cell E) :
    Graph.store (v.map φ) (mask.map φ) (c.map φ) = (Graph.store v mask c).map φ := by
  simp only [Graph.store, map, Matrix.rows_map, Matrix.cols_map, Matrix.shape_map, zeros_map h,
    apply_ite (Matrix.map φ)]

theorem clearGrad_map (h : Preserves φ) (c : Cell E) :
    (c.map φ).clearGrad = c.clearGrad.map φ := by
  simp only [clearGrad, map, fill_zero_map h]

theorem endBatch_map (h : Preserves φ) (c : Cell E) : (c.map φ).endBatch = c.endBatch.map φ := by
  simp only [endBatch, map, fill_zero_map h]

theorem add_map (h : Preserves φ) (a b : Matrix E) :
    (a.map φ).add (b.map φ) = (a.add b).map (Matrix.map φ) :=
  Matrix.zipWith_map h.add a b

theorem collect_map (h : Preserves φ) (c : Cell E) :
    (c.map φ).collect = c.collect.map (map φ) := by
  have hstart : (if (c.map φ).batchSum.isEmpty && ! (c.map φ).grad.isEmpty
      then (c.map φ).grad.fill 0 else (c.map φ).batchSum) =
      (if c.batchSum.isEmpty && ! c.grad.isEmpty then c.grad.fill 0 else c.batchSum).map φ := by
    simp only [map, Matrix.isEmpty_map, fill_zero_map h, apply_ite (Matrix.map φ)]
  rw [collect, collect, map_bind, hstart, show (c.map φ).grad = c.grad.map φ from rfl, add_map h,
    bind_map]
  rfl

end

end Cell

/-! ## Graphs -/

theorem Dag.push_congr {d d' : Dag K} (h : d' = d) {op : Op K} (h₁ : d'.Admits op)
    (h₂ : d.Admits op) : d'.push op h₁ = d.push op h₂ := by
  subst h
  rfl

namespace Graph

variable [Scalar K] {φ : E → F}

/-- The second graph has the operations of the first, none of which drops entries,
and the images of its cells. -/
structure Image (φ : E → F) (s : Graph K E) (t : Graph K F) : Prop where
  dag : t.dag = s.dag
  cell : ∀ n, t.cell n = (s.cell n).map φ
  keeps : ∀ n, (s.op n).Keeps
  nonneg : s.noise.Nonneg
  nonneg' : t.noise.Nonneg

/-- What is done with the second graph is what is done with the first. -/
def Follows (φ : E → F) (x : Step (Graph K E) PUnit) (y : Step (Graph K F) PUnit) : Prop :=
  ∀ s t, Image φ s t → Alike (fun _ _ => True) (Image φ) (x.run s) (y.run t)

namespace Image

variable {s : Graph K E} {t : Graph K F} {n : Node}

theorem empty (φ : E → F) (tag tag' : Nat) {noise noise' : Noise K} (h : noise.Nonneg)
    (h' : noise'.Nonneg) : Image φ (Graph.empty tag noise) (Graph.empty tag' noise') :=
  ⟨rfl, fun _ => (Cell.map_blank φ).symm, fun _ => trivial, h, h'⟩

theorem size (h : Image φ s t) : t.size = s.size := by rw [Graph.size, h.dag]; rfl

theorem op (h : Image φ s t) (n : Node) : t.op n = s.op n := by rw [Graph.op, h.dag]; rfl

theorem isParameter (h : Image φ s t) (n : Node) : t.isParameter n = s.isParameter n := by
  rw [Graph.isParameter, h.op]; rfl

theorem kind (h : Image φ s t) : t.kind = s.kind := by
  funext n
  rw [Graph.kind, h.op]; rfl

theorem value (h : Image φ s t) : t.value = fun n => (s.value n).map φ := by
  funext n
  rw [Graph.value, h.cell]; rfl

theorem grad (h : Image φ s t) (n : Node) : t.grad n = (s.grad n).map φ := by
  rw [Graph.grad, h.cell]; rfl

theorem hasValue (h : Image φ s t) : t.hasValue = s.hasValue := by
  funext n
  rw [Graph.hasValue, h.cell, h.isParameter]; rfl

theorem missing (h : Image φ s t) (root : Node) : t.missing root = s.missing root := by
  rw [Graph.missing, Graph.missing, h.hasValue, h.dag]

theorem order (h : Image φ s t) (root : Node) : t.order root = s.order root := by
  rw [Graph.order, Graph.order, h.dag]

theorem use (h : Image φ s t) (a b : Nat) : Image φ (s.use a) (t.use b) :=
  ⟨h.dag, h.cell, h.keeps, h.nonneg, h.nonneg'⟩

/-- The cells of one vertex are replaced by a cell and its image. -/
theorem update (h : Image φ s t) {f : Cell E → Cell E} {f' : Cell F → Cell F}
    (hf : f' ((s.cell n).map φ) = (f (s.cell n)).map φ) :
    Image φ (s.update n f) (t.update n f') where
  dag := h.dag
  cell m := by
    rw [cell_update, cell_update, h.size, h.cell, h.cell, hf, apply_ite (Cell.map φ)]
  keeps := h.keeps
  nonneg := h.nonneg
  nonneg' := h.nonneg'

theorem push (h : Image φ s t) {op : Op K} (hop : op.Keeps) (hs : s.dag.Admits op)
    (ht : t.dag.Admits op) (c : Cell E) : Image φ (s.push op hs c) (t.push op ht (c.map φ)) where
  dag := Dag.push_congr h.dag ht hs
  cell m := by rw [cell_push, cell_push, h.size, h.cell, apply_ite (Cell.map φ)]
  keeps m := by
    rw [op_push]
    split
    · exact hop
    · exact h.keeps m
  nonneg := h.nonneg
  nonneg' := h.nonneg'

end Image

namespace Follows

variable {α : Type}

theorem of_modify {f : Graph K E → Graph K E} {f' : Graph K F → Graph K F}
    (h : ∀ s t, Image φ s t → Image φ (f s) (f' t)) : Follows φ (modify f) (modify f') :=
  fun s t hst => .ok trivial (h s t hst)

/-- The same change is made to the cells along an order. -/
theorem modifyCells {f : Cell E → Cell E} {f' : Cell F → Cell F}
    (h : ∀ c, f' (c.map φ) = (f c).map φ) (order : List Node) :
    Follows (K := K) φ (modify fun g => order.foldl (fun g n => g.update n f) g)
      (modify fun g => order.foldl (fun g n => g.update n f') g) := by
  refine .of_modify fun s t hst => ?_
  induction order generalizing s t with
  | nil => exact hst
  | cons n order ih => exact ih _ _ (hst.update (h _))

theorem modifyCell {f : Cell E → Cell E} {f' : Cell F → Cell F}
    (h : ∀ c, f' (c.map φ) = (f c).map φ) (n : Node) :
    Follows (K := K) φ (modify (·.update n f)) (modify (·.update n f')) :=
  modifyCells h [n]

theorem bind {x x' : Step (Graph K E) PUnit} {y y' : Step (Graph K F) PUnit}
    (h : Follows φ x y) (h' : Follows φ x' y') :
    Follows φ (x >>= fun _ => x') (y >>= fun _ => y') :=
  fun s t hst => (h s t hst).bind fun _ _ s t _ hst => h' s t hst

theorem forM {f : α → Step (Graph K E) PUnit} {f' : α → Step (Graph K F) PUnit} {l : List α}
    (h : ∀ x ∈ l, Follows φ (f x) (f' x)) : Follows φ (l.forM f) (l.forM f') :=
  fun _ _ hst => Alike.forM (fun x hx s t hst => h x hx s t hst) hst

end Follows

/-! ## Vertices and parameters -/

theorem follows_record {op : Op K} (hop : op.Keeps) :
    Follows φ (discard (record (E := E) op)) (discard (record (E := F) op)) := by
  intro s t hst
  refine Alike.bind (A := fun _ _ => True) ?_ fun _ _ s t _ hst => .ok trivial hst
  unfold record
  simp only [EStateM.run_bind, EStateM.run_get]
  by_cases hs : s.dag.Admits op
  · have ht : t.dag.Admits op := by rwa [hst.dag]
    rw [dif_pos hs, dif_pos ht]
    refine .ok trivial ?_
    have hpush := hst.push hop hs ht .blank
    rwa [Cell.map_blank] at hpush
  · have ht : ¬ t.dag.Admits op := by rwa [hst.dag]
    rw [dif_neg hs, dif_neg ht]
    exact .error hst

theorem follows_alter {operation : String} {n : Node} {f : Matrix E → Except Failure (Matrix E)}
    {f' : Matrix F → Except Failure (Matrix F)}
    (hf : ∀ v, f' (v.map φ) = (f v).map (Matrix.map φ)) :
    Follows (K := K) φ (alter operation n f) (alter operation n f') := by
  intro s t hst
  unfold alter
  simp only [EStateM.run_bind, EStateM.run_get, hst.isParameter]
  split
  · exact .error hst
  · refine Alike.ofExcept_map_bind (u := Matrix.map φ) ?_ hst fun v _ =>
      .ok trivial (hst.update rfl)
    rw [hst.value, hf]

theorem follows_setValue (n : Node) (v : Matrix E) :
    Follows (K := K) φ (setValue n v) (setValue n (v.map φ)) := by
  refine follows_alter fun old => ?_
  rw [apply_ite (Except.map _)]
  rfl

theorem follows_assign (n : Node) (e : E) :
    Follows (K := K) φ (assign n e) (assign n (φ e)) := by
  refine follows_alter fun old => ?_
  rw [apply_ite (Except.map _), ← Matrix.map_scalar φ e]
  rfl

omit [Scalar K] in
theorem set_map (m : Matrix E) (r c : Nat) (e : E) :
    (m.map φ).set r c (φ e) = (m.set r c e).map φ := by
  by_cases h : r < m.rows ∧ c < m.cols
  · have h' : r < (m.map φ).rows ∧ c < (m.map φ).cols := h
    rw [Matrix.set, Matrix.set, if_pos h, if_pos h']
    simp [Matrix.map, Array.map_setIfInBounds]
  · have h' : ¬ (r < (m.map φ).rows ∧ c < (m.map φ).cols) := h
    rw [Matrix.set, Matrix.set, if_neg h, if_neg h']

omit [Scalar K] in
theorem checkIndex_map (m : Matrix E) (r c : Nat) :
    checkIndex (m.map φ) r c = checkIndex m r c :=
  rfl

theorem follows_setEntry (n : Node) (r c : Nat) (e : E) :
    Follows (K := K) φ (setEntry n r c e) (setEntry n r c (φ e)) := by
  refine follows_alter fun old => ?_
  rw [checkIndex_map, map_bind, set_map]
  rfl

/-! ## Replicas -/

theorem Image.checkAlike {s : Graph K E} {t : Graph K F} (hst : Image φ s t)
    (order replica : List Node) : t.checkAlike order replica = s.checkAlike order replica := by
  simp only [Graph.checkAlike, Graph.unlike?, hst.kind]

/-- What is done with two orders, once they are found to be alike. -/
theorem follows_alike {order replica : List Node} {x : Step (Graph K E) PUnit}
    {y : Step (Graph K F) PUnit} (h : Follows φ x y) :
    Follows φ (do Step.ofExcept ((← get).checkAlike order replica); x)
      (do Step.ofExcept ((← get).checkAlike order replica); y) := by
  intro s t hst
  refine Alike.ofExcept_map_bind (u := fun a => a) ?_ hst fun _ _ => h s t hst
  rw [hst.checkAlike]
  cases s.checkAlike order replica <;> rfl

theorem follows_copyParameters (order replica : List Node) :
    Follows (K := K) (E := E) φ (copyParameters order replica) (copyParameters order replica) := by
  refine follows_alike (.forM fun p _ s t hst => ?_)
  unfold copyParameter
  simp only [EStateM.run_bind, EStateM.run_get, hst.isParameter, hst.value]
  split
  · exact follows_setValue p.2 _ s t hst
  · exact .ok trivial hst

/-! ## Gradients -/

section
variable [Arith E] [Arith F]

theorem follows_parameter (h : Preserves φ) (v : Matrix E) :
    Follows (K := K) φ (discard (parameter v)) (discard (parameter (v.map φ))) := by
  intro s t hst
  refine .ok trivial ?_
  rw [Cell.parameter_map h]
  exact hst.push (show Op.Keeps .parameter from trivial) _ _ _

theorem follows_oneHot (h : Preserves φ) (n : Node) (col : Nat) :
    Follows (K := K) (E := E) φ (oneHot n col) (oneHot n col) := by
  refine follows_alter fun old => ?_
  rw [checkIndex_map, map_bind]
  refine congrArg _ (funext fun _ => congrArg Except.ok ?_)
  rw [Matrix.map_ofFn]
  refine Matrix.ofFn_congr fun _ _ _ _ => ?_
  rw [apply_ite φ, h.one, h.zero]

theorem follows_seed (h : Preserves φ) (n : Node) :
    Follows (K := K) (E := E) φ (seed n) (seed n) := by
  refine .modifyCell (fun c => ?_) n
  have hones : (c.map φ).value.fill (1 : F) = (c.value.fill (1 : E)).map φ := by
    rw [← h.one]
    exact Matrix.fill_map c.value 1
  rw [hones]
  rfl

theorem follows_receive (h : Preserves φ) (n : Node) (p : Push E) :
    Follows (K := K) φ (receive n p) (receive n (p.map φ)) := by
  intro s t hst
  refine Alike.ofExcept_map_bind (u := Matrix.map φ) ?_ hst fun grad _ => .ok trivial ?_
  · rw [hst.grad, Push.apply_map h]
  · exact hst.update rfl

theorem follows_propagate (h : Preserves φ) (n : Node) :
    Follows (K := K) (E := E) φ (propagate n) (propagate n) := by
  intro s t hst
  refine Alike.ofExcept_map_bind (u := List.map fun p => (p.1, p.2.map φ)) ?_ hst fun ps _ =>
    Alike.forM_map (R := Image φ) (u := fun p : Node × Push E => (p.1, p.2.map φ))
      (fun p _ s t hst => follows_receive h p.1 p.2 s t hst) hst
  unfold Graph.pushes
  rw [hst.op, hst.cell, hst.value]
  exact Op.pushes_map h _ _ _ _ _

theorem follows_reset (h : Preserves φ) (order : List Node) :
    Follows (K := K) (E := E) φ (reset order) (reset order) := by
  refine .of_modify fun s t hst => ?_
  induction order generalizing s t with
  | nil => exact hst
  | cons n order ih =>
    refine ih _ _ ?_
    dsimp only
    rw [hst.isParameter]
    split
    · exact hst.update (Cell.clearGrad_map h _)
    · exact hst.update (congrArg Cell.forget (Cell.clearGrad_map h _))

theorem follows_collect (h : Preserves φ) (order : List Node) :
    Follows (K := K) (E := E) φ (collect order) (collect order) := by
  refine .forM fun n _ s t hst => ?_
  refine Alike.ofExcept_map_bind (u := Cell.map φ) ?_ hst fun c _ => .ok trivial (hst.update rfl)
  rw [hst.cell, Cell.collect_map h]

theorem follows_mergeGrads (h : Preserves φ) (order replica : List Node) :
    Follows (K := K) (E := E) φ (mergeGrads order replica) (mergeGrads order replica) := by
  refine follows_alike (.forM fun p _ s t hst => ?_)
  have hstart : (if ((s.cell p.1).map φ).batchSum.isEmpty then ((s.cell p.2).map φ).batchSum.fill 0
      else ((s.cell p.1).map φ).batchSum) =
      (if (s.cell p.1).batchSum.isEmpty then (s.cell p.2).batchSum.fill 0
        else (s.cell p.1).batchSum).map φ := by
    simp only [Cell.map, Matrix.isEmpty_map, Cell.fill_zero_map h, apply_ite (Matrix.map φ)]
  have hempty : ((s.cell p.2).map φ).batchSum.isEmpty = (s.cell p.2).batchSum.isEmpty :=
    Matrix.isEmpty_map _
  unfold mergeGrad
  simp only [EStateM.run_bind, EStateM.run_get, hst.cell]
  rw [hempty, hstart]
  split
  · exact Alike.ofExcept_map_bind (Cell.add_map h _ _) hst fun v _ => .ok trivial (hst.update rfl)
  · exact .ok trivial hst

/-! ## Evaluation -/

variable [Laned K E] [Laned K F]

theorem Image.compute (h : Uniform φ) {s : Graph K E} {t : Graph K F} (hst : Image φ s t)
    (n : Node) : t.compute n = (s.compute n).map (Prod.map (Matrix.map φ) (Matrix.map φ)) := by
  unfold Graph.compute
  rw [hst.op, hst.value,
    Op.freshMask_map h (hst.keeps n) hst.nonneg hst.nonneg' s.drawn t.drawn, bind_map, map_bind]
  refine congrArg _ (funext fun mask => ?_)
  dsimp only
  rw [Op.value_map h.toPreserves, bind_map, map_bind]
  rfl

theorem follows_evaluateOne (h : Uniform φ) (n : Node) :
    Follows (K := K) (E := E) φ (evaluateOne n) (evaluateOne n) := by
  intro s t hst
  refine Alike.ofExcept_map_bind (hst.compute h n) hst fun p _ => .ok trivial ?_
  exact (hst.update (Cell.store_map h.toPreserves _ _ _)).use _ _

theorem follows_evaluate (h : Uniform φ) (root : Node) :
    Follows (K := K) (E := E) φ (evaluate root) (evaluate root) := by
  intro s t hst
  have ht : (evaluate root).run t = ((s.missing root).forM evaluateOne).run t := by
    rw [← hst.missing]
    rfl
  rw [ht]
  exact Follows.forM (fun n _ => follows_evaluateOne h n) s t hst

theorem follows_reverseAlong (h : Uniform φ) (root : Node) (order : List Node) :
    Follows (K := K) (E := E) φ (reverseAlong root order) (reverseAlong root order) :=
  (follows_evaluate h root).bind ((follows_seed h.toPreserves root).bind
    (.forM fun n _ => follows_propagate h.toPreserves n))

theorem follows_reversePass (h : Uniform φ) (root : Node) :
    Follows (K := K) (E := E) φ (reversePass root) (reversePass root) := by
  intro s t hst
  have ht : (reversePass root).run t = (reverseAlong root (s.order root)).run t := by
    rw [← hst.order]
    rfl
  rw [ht]
  exact follows_reverseAlong h root _ s t hst

/-! ## Numbers written to all lanes -/

theorem follows_constant (h : Uniform φ) (n : Node) (k : K) :
    Follows (E := E) φ (constant n k) (constant n k) :=
  follows_alter fun old => by rw [← h.splat, Matrix.fill_map]; rfl

theorem follows_countFrom (h : Uniform φ) (n : Node) (start : K) :
    Follows (E := E) φ (countFrom n start) (countFrom n start) := by
  refine follows_alter fun old => congrArg Except.ok ?_
  rw [Matrix.map_ofFn, Matrix.size_map]
  exact Matrix.ofFn_congr fun _ _ _ _ => (h.splat _).symm

theorem follows_diagonal (h : Uniform φ) (n : Node) (k : K) :
    Follows (E := E) φ (diagonal n k) (diagonal n k) := by
  refine follows_alter fun old => ?_
  have hdiagonal : (Matrix.ofFn old.rows old.cols fun r c => if r = c then Laned.splat k else 0) =
      Matrix.map φ
        (Matrix.ofFn old.rows old.cols fun r c => if r = c then Laned.splat k else 0) := by
    rw [Matrix.map_ofFn]
    refine Matrix.ofFn_congr fun _ _ _ _ => ?_
    rw [apply_ite φ, h.splat, h.zero]
  rw [apply_ite (Except.map _), Matrix.rows_map, Matrix.cols_map, hdiagonal]
  rfl

omit [Scalar K] in
theorem normalized_map (h : Uniform φ) (m : Matrix E) (mean : K) (deviation : Option K) :
    normalized (m.map φ) mean deviation = (normalized m mean deviation).map φ := by
  have hscaled : (m.map φ).map
        (· * (Laned.splat mean / ((m.map φ).sum / (((m.map φ).size : Nat) : F)))) =
      (m.map (· * (Laned.splat mean / (m.sum / ((m.size : Nat) : E))))).map φ :=
    Matrix.map_map (fun x => by
      rw [h.mul, h.div, h.div, h.splat, h.natCast, Matrix.sum_map h.toPreserves, Matrix.size_map]) m
  unfold normalized
  dsimp only
  rw [hscaled]
  cases deviation with
  | none => rfl
  | some deviation =>
    generalize m.map (· * (Laned.splat mean / (m.sum / ((m.size : Nat) : E)))) = scaled
    dsimp only
    refine Matrix.map_map (fun x => ?_) scaled
    have hsquares : (scaled.map φ).map (fun v => (v - Laned.splat mean) * (v - Laned.splat mean)) =
        (scaled.map fun v => (v - Laned.splat mean) * (v - Laned.splat mean)).map φ :=
      Matrix.map_map (fun v => by rw [h.mul, h.sub, h.splat]) scaled
    rw [hsquares, Matrix.sum_map h.toPreserves, h.add, h.mul, h.sub, h.div, h.sqrt, h.div, h.splat,
      h.splat, h.natCast, Matrix.size_map]

theorem follows_normalize (h : Uniform φ) (n : Node) (mean : K) (deviation : Option K) :
    Follows (E := E) φ (normalize n mean deviation) (normalize n mean deviation) := by
  refine follows_alter fun old => ?_
  rw [Matrix.isEmpty_map, normalized_map h, apply_ite (Except.map _)]
  rfl

theorem Sgd.next_map (h : Uniform φ) (config : Sgd.Config K) (c : Cell E) :
    Sgd.next config (c.map φ) = (Sgd.next config c).map (Matrix.map φ) := by
  unfold Sgd.next
  have hchange : (c.map φ).batchSum.zipWith "sgd momentum"
        (fun a p => Laned.splat config.momentum * a + p) (c.map φ).lastSum = _ :=
    Matrix.zipWith_map (f := fun a p => Laned.splat config.momentum * a + p)
      (fun x y => by rw [h.add, h.mul, h.splat]) c.batchSum c.lastSum
  dsimp only
  rw [hchange, bind_map, map_bind]
  refine congrArg _ (funext fun u => ?_)
  exact Matrix.zipWith_map (fun x y => by rw [h.sub, h.mul, h.splat]) c.value u

theorem follows_sgdStep (h : Uniform φ) (params : List Node) (config : Sgd.Config K) :
    Follows (E := E) φ
      (do
        let o ← Step.ofExcept (Sgd.make (← get) params config)
        discard o.step)
      (do
        let o ← Step.ofExcept (Sgd.make (← get) params config)
        discard o.step) := by
  intro s t hst
  have hmake : Sgd.make t params config = (Sgd.make s params config).map fun o => o := by
    simp only [Sgd.make, hst.isParameter]
    split
    · rfl
    · split <;> rfl
  refine Alike.ofExcept_map_bind hmake hst fun o _ => ?_
  refine Alike.bind (A := fun _ _ => True) ?_ fun _ _ s t _ hst => .ok trivial hst
  refine Alike.bind (A := fun _ _ => True) ?_ fun _ _ s t _ hst => .ok trivial hst
  refine Follows.forM (fun n _ s t hst => ?_) s t hst
  have hempty : ((s.cell n).map φ).batchSum.isEmpty = (s.cell n).batchSum.isEmpty :=
    Matrix.isEmpty_map _
  unfold Sgd.move
  simp only [EStateM.run_bind, EStateM.run_get, hst.cell]
  rw [hempty]
  split
  · exact Alike.ofExcept_map_bind (Sgd.next_map h _ _) hst fun v _ => .ok trivial (hst.update rfl)
  · exact .ok trivial hst

end

end Graph

/-! ## Calls -/

namespace Call

/-- The same call with the images of its elements. -/
def map (φ : E → F) : Call K E → Call K F
  | parameter value => parameter (value.map φ)
  | record op => record op
  | setTracked n mark => setTracked n mark
  | setInput n mark => setInput n mark
  | evaluate root => evaluate root
  | reversePass root => reversePass root
  | reverseAlong root order => reverseAlong root order
  | reset order => reset order
  | clearGrads order => clearGrads order
  | collect order => collect order
  | endBatch order => endBatch order
  | setValue n value => setValue n (value.map φ)
  | assign n e => assign n (φ e)
  | setEntry n r c e => setEntry n r c (φ e)
  | setLane n r c lane k => setLane n r c lane k
  | constant n k => constant n k
  | countFrom n start => countFrom n start
  | diagonal n k => diagonal n k
  | oneHot n col => oneHot n col
  | normalize n mean deviation => normalize n mean deviation
  | randomUniform n bound => randomUniform n bound
  | randomNormal b => randomNormal b
  | copyParameters order replica => copyParameters order replica
  | mergeGrads order replica => mergeGrads order replica
  | sgdStep params config => sgdStep params config
  | sgdEndBatch o => sgdEndBatch o
  | refreshValues p order => refreshValues p order
  | deliverGrads p order => deliverGrads p order
  | load j p b => load j p b
  | unload j p out => unload j p out
  | addGrads j p b => addGrads j p b

variable [Scalar K]

/-- The call does the same in all lanes: it draws no samples, does not write to a single
lane, and exchanges nothing with elements of other lanes. -/
def Lanewise : Call K E → Prop
  | record op => op.Keeps
  | setLane .. | randomUniform .. | randomNormal _ | refreshValues .. | deliverGrads .. | load ..
  | unload .. | addGrads .. => False
  | _ => True

variable [Arith E] [Arith F] [Laned K E] [Laned K F] {φ : E → F}

/-- **A call is followed by its image.** -/
theorem follows (h : Uniform φ) {c : Call K E} (hc : c.Lanewise) :
    Graph.Follows φ c.run (c.map φ).run := by
  have h' : Preserves φ := h.toPreserves
  cases c with
  | parameter value => exact Graph.follows_parameter h' value
  | record op => exact Graph.follows_record hc
  | setTracked n mark =>
    refine .modifyCell (fun c => ?_) n
    rfl
  | setInput n mark =>
    refine .modifyCell (fun c => ?_) n
    rfl
  | evaluate root => exact Graph.follows_evaluate h root
  | reversePass root => exact Graph.follows_reversePass h root
  | reverseAlong root order => exact Graph.follows_reverseAlong h root order
  | reset order => exact Graph.follows_reset h' order
  | clearGrads order => exact .modifyCells (Cell.clearGrad_map h') order
  | collect order => exact Graph.follows_collect h' order
  | endBatch order => exact .modifyCells (Cell.endBatch_map h') order
  | setValue n value => exact Graph.follows_setValue n value
  | assign n e => exact Graph.follows_assign n e
  | setEntry n r c e => exact Graph.follows_setEntry n r c e
  | constant n k => exact Graph.follows_constant h n k
  | countFrom n start => exact Graph.follows_countFrom h n start
  | diagonal n k => exact Graph.follows_diagonal h n k
  | oneHot n col => exact Graph.follows_oneHot h' n col
  | normalize n mean deviation => exact Graph.follows_normalize h n mean deviation
  | copyParameters order replica => exact Graph.follows_copyParameters order replica
  | mergeGrads order replica => exact Graph.follows_mergeGrads h' order replica
  | sgdStep params config => exact Graph.follows_sgdStep h params config
  | sgdEndBatch o =>
    refine .modifyCells (fun c => ?_) o.params
    rw [Cell.endBatch_map h', Cell.clearGrad_map h']
  | setLane | randomUniform | randomNormal | refreshValues | deliverGrads | load | unload
  | addGrads => exact hc.elim

/-- The answers to calls one after another. -/
def answers : List (Call K E) → Graph K E → List (Except Failure Unit)
  | [], _ => []
  | c :: cs, g => c.run.answer g :: answers cs (c.run.final g)

/-- **A run of calls is followed by its image.** -/
theorem runs_follow (h : Uniform φ) {cs : List (Call K E)} (hcs : ∀ c ∈ cs, c.Lanewise)
    {s : Graph K E} {t : Graph K F} (hst : Graph.Image φ s t) :
    answers (cs.map (map φ)) t = answers cs s ∧
      Graph.Image φ (runs cs s) (runs (cs.map (map φ)) t) := by
  induction cs generalizing s t with
  | nil => exact ⟨rfl, hst⟩
  | cons c cs ih =>
    have hc := follows h (hcs c List.mem_cons_self) s t hst
    obtain ⟨hanswers, himage⟩ := ih (fun c' hc' => hcs c' (List.mem_cons_of_mem _ hc')) hc.final
    exact ⟨congrArg₂ List.cons hc.answer.symm hanswers, himage⟩

/-- **A lane of a graph is the graph on that lane.**  Build and use a graph over vectors
of `W` lanes by any calls that do the same in all lanes, and another graph over numbers by
the same calls with lane `l` of all elements.  Then each call succeeds, or fails for the
same reason, on both; and lane `l` of every value and of every gradient of the first graph
is the value and the gradient of the second. -/
theorem lane_of_runs {W l : Nat} (hl : l < W) {noise noise' : Noise K} (hn : noise.Nonneg)
    (hn' : noise'.Nonneg) (tag tag' : Nat) {cs : List (Call K (Lanes K W))}
    (hcs : ∀ c ∈ cs, c.Lanewise) :
    let lane : Lanes K W → K := fun v => Laned.lane v l
    let wide := runs cs (.empty tag noise)
    let single := runs (cs.map (map lane)) (.empty tag' noise')
    answers (cs.map (map lane)) (.empty tag' noise') = answers cs (.empty tag noise) ∧
      ∀ n, single.op n = wide.op n ∧ single.hasValue n = wide.hasValue n ∧
        (wide.value n).map lane = single.value n ∧ (wide.grad n).map lane = single.grad n := by
  intro lane wide single
  obtain ⟨hanswers, himage⟩ := runs_follow (Lanes.uniform_lane hl) hcs
    (Graph.Image.empty lane tag tag' hn hn')
  refine ⟨hanswers, fun n => ⟨himage.op n, congrFun himage.hasValue n, ?_, (himage.grad n).symm⟩⟩
  exact (congrFun himage.value n).symm

/-- The larger of two entries, lane by lane, of which nothing is dropped. -/
def pooled : List (Call Float32 (Lanes Float32 2)) :=
  [.parameter (.column [⟨#v[1, 4]⟩, ⟨#v[3, 2]⟩]), .record (.maxPool 2 0), .record (.dropout 0 1),
    .evaluate 2, .reset [0, 1, 2], .reversePass 2]

theorem lane_of_runs_pooled :
    let single : List (Call Float32 Float32) :=
      [.parameter (.column [4, 2]), .record (.maxPool 2 0), .record (.dropout 0 1), .evaluate 2,
        .reset [0, 1, 2], .reversePass 2]
    let noise : Noise Float32 := ⟨fun _ => 0, fun _ => 0⟩
    answers single (.empty 1 noise) = answers pooled (.empty 0 noise) ∧
      ((runs pooled (.empty 0 noise)).grad 0).map (fun v => Laned.lane v 1) =
        (runs single (.empty 1 noise)).grad 0 := by
  intro single noise
  have hn : noise.Nonneg := fun _ _ h => h
  have hlanewise : ∀ c ∈ pooled, c.Lanewise := by
    simp only [pooled, List.forall_mem_cons]
    exact ⟨trivial, trivial, (by decide +kernel : Scalar.lt (0 : Float32) 0 = false), trivial,
      trivial, trivial, by simp⟩
  have hsingle : pooled.map (map fun v => Laned.lane v 1) = single := by
    simp [pooled, single, map, Matrix.map, Matrix.column, Laned.lane, Laned.lane?]
  obtain ⟨hanswers, h⟩ := lane_of_runs (by decide : 1 < 2) hn hn 0 1 hlanewise
  rw [hsingle] at hanswers h
  exact ⟨hanswers, (h 0).2.2.2⟩

end Call

end DiffGraph
