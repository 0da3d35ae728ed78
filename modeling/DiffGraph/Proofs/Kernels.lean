/-
  Matrix operations on images.

  A map of elements that keeps every operation can be applied before an operation
  on matrices, or after it, to the result.  Failures are the same both ways, since
  shapes decide them.

  * `Op.value_map`, `Op.pushes_map`, `Push.apply_map`: the value of an operation and
    its contributions to gradients;
  * `Matrix.onLane`: one lane of a matrix, an image that keeps every operation;
  * `Uniform`: the map also keeps the numbers that are the same in every lane, such
    as the mask of a dropout that drops nothing (`Op.freshMask_map`).
-/
import DiffGraph.Proofs.Denotation
import DiffGraph.Proofs.Entries
import DiffGraph.Proofs.Lanewise

namespace DiffGraph

variable {K E F : Type}

/-! ## Results that may be failures -/

section
variable {α β γ : Type}

theorem map_bind (x : Except Failure α) (f : α → Except Failure β) (u : β → γ) :
    (x >>= f).map u = x >>= fun a => (f a).map u := by
  cases x <;> rfl

theorem bind_map (x : Except Failure α) (u : α → β) (f : β → Except Failure γ) :
    x.map u >>= f = x >>= fun a => f (u a) := by
  cases x <;> rfl

/-- A map that can be moved through the body of a loop can be moved through the loop. -/
theorem foldlM_map {f : α → γ → Except Failure α} {f' : β → γ → Except Failure β} {u : α → β}
    (h : ∀ a x, f' (u a) x = (f a x).map u) (l : List γ) (a : α) :
    l.foldlM f' (u a) = (l.foldlM f a).map u := by
  induction l generalizing a with
  | nil => rfl
  | cons x l ih =>
    rw [List.foldlM_cons, List.foldlM_cons, h, bind_map, map_bind]
    exact congrArg _ (funext ih)

end

namespace Matrix

/-! ## Shapes and entries -/

section
variable {φ : E → F}

@[simp] theorem shape_map (m : Matrix E) : (m.map φ).shape = m.shape := rfl

@[simp] theorem rows_map (m : Matrix E) : (m.map φ).rows = m.rows := rfl

@[simp] theorem cols_map (m : Matrix E) : (m.map φ).cols = m.cols := rfl

@[simp] theorem isScalar_map (m : Matrix E) : (m.map φ).isScalar = m.isScalar := rfl

@[simp] theorem size_map (m : Matrix E) : (m.map φ).size = m.size := by simp [size, map]

@[simp] theorem isEmpty_map (m : Matrix E) : (m.map φ).isEmpty = m.isEmpty := by
  simp [isEmpty, map, Array.isEmpty]

@[simp] theorem map_empty : (empty : Matrix E).map φ = empty := by simp [empty, map]

theorem map_ofFn (φ : E → F) (rows cols : Nat) (f : Nat → Nat → E) :
    (ofFn rows cols f).map φ = ofFn rows cols fun r c => φ (f r c) := by
  simp [map, ofFn, Function.comp_def]

theorem map_map {f : E → E} {f' : F → F} (h : ∀ x, φ (f x) = f' (φ x)) (m : Matrix E) :
    (m.map φ).map f' = (m.map f).map φ := by
  simp [map, Function.comp_def, h]

theorem fill_map (m : Matrix E) (e : E) : (m.map φ).fill (φ e) = (m.fill e).map φ := by
  simp [fill, map, Function.comp_def]

theorem zipWith_map {operation : String} {f : E → E → E} {f' : F → F → F}
    (h : ∀ x y, φ (f x y) = f' (φ x) (φ y)) (a b : Matrix E) :
    (a.map φ).zipWith operation f' (b.map φ) = (a.zipWith operation f b).map (map φ) := by
  by_cases hs : a.rows = b.rows ∧ a.cols = b.cols
  · have hs' : (a.map φ).rows = (b.map φ).rows ∧ (a.map φ).cols = (b.map φ).cols := hs
    rw [zipWith, zipWith, dif_pos hs, dif_pos hs']
    simp [Except.map, map, Array.zipWith_map, Array.map_zipWith, h]
  · have hs' : ¬ ((a.map φ).rows = (b.map φ).rows ∧ (a.map φ).cols = (b.map φ).cols) := hs
    rw [zipWith, zipWith, dif_neg hs, dif_neg hs']
    rfl

theorem position_map [Zero E] [Zero F] (h0 : φ 0 = 0) (m : Matrix E) (i : Nat) :
    (m.map φ).data.getD i 0 = φ (m.data.getD i 0) := by
  rw [Array.getD_eq_getD_getElem?, Array.getD_eq_getD_getElem?, map, Array.getElem?_map]
  cases m.data[i]? with
  | none => exact h0.symm
  | some x => rfl

theorem entry_map [Zero E] [Zero F] (h0 : φ 0 = 0) (m : Matrix E) (r c : Nat) :
    (m.map φ).entry r c = φ (m.entry r c) :=
  position_map h0 m _

theorem checkRect_map [Zero E] [Zero F] (m : Matrix E) (rect : Rect) :
    (m.map φ).checkRect rect = m.checkRect rect :=
  rfl

end

/-! ## Operations -/

section
variable [Arith E] [Arith F] {φ : E → F}

theorem sum_map (h : Preserves φ) (m : Matrix E) : (m.map φ).sum = φ m.sum := by
  rw [sum, map, Array.toList_map, List.foldl_map, ← h.zero]
  exact List.foldl_hom φ fun x y => (h.add x y).symm

theorem foldl_max_map (h : Preserves φ) (e : E) (es : List E) :
    (es.map φ).foldl Arith.max (φ e) = φ (es.foldl Arith.max e) := by
  rw [List.foldl_map]
  exact List.foldl_hom φ fun x y => (h.max x y).symm

theorem largest?_map (h : Preserves φ) (m : Matrix E) :
    (m.map φ).largest? = m.largest?.map φ := by
  unfold largest?
  rw [map, Array.toList_map]
  cases m.data.toList with
  | nil => rfl
  | cons e es => exact congrArg some (foldl_max_map h e es)

theorem toScalar_map (h : Preserves φ) (m : Matrix E) :
    (m.map φ).toScalar = m.toScalar.map φ := by
  unfold toScalar
  rw [isScalar_map, entry_map h.zero]
  split <;> rfl

theorem transpose_map (h : Preserves φ) (m : Matrix E) :
    (m.map φ).transpose = m.transpose.map φ := by
  simp only [transpose, map_ofFn, entry_map h.zero, rows_map, cols_map]

theorem mul_map (h : Preserves φ) (a b : Matrix E) :
    (a.map φ).mul (b.map φ) = (a.mul b).map (map φ) := by
  by_cases hab : a.cols = b.rows
  · rw [mul_eq hab, mul_eq (a := a.map φ) (b := b.map φ) hab]
    refine congrArg Except.ok ?_
    rw [map_ofFn]
    refine ofFn_congr fun i _ j _ => ?_
    rw [← h.zero]
    refine List.foldl_hom φ fun x k => ?_
    rw [entry_map h.zero, entry_map h.zero, h.add, h.mul]
  · rw [mul, mul, if_neg hab, if_neg (by exact hab)]
    rfl

/-! ## Rectangles -/

theorem block_map (h : Preserves φ) (m : Matrix E) (rect : Rect) :
    (m.map φ).block rect = (m.block rect).map (map φ) := by
  rw [block, block, checkRect_map, map_bind]
  refine congrArg _ (funext fun _ => congrArg Except.ok ?_)
  simp only [map_ofFn, position_map h.zero, shape_map]

theorem addAt_map (h : Preserves φ) (m : Matrix E) (k : Nat) (e : E) :
    (m.map φ).addAt k (φ e) = (m.addAt k e).map φ := by
  unfold addAt map
  congr 1
  refine Array.ext (by simp) fun i _ _ => ?_
  rw [Array.getElem_map, Array.getElem_modify, Array.getElem_modify, Array.getElem_map]
  split
  · exact (h.add _ e).symm
  · rfl

theorem addAll_map (h : Preserves φ) (m : Matrix E) (p : Nat → Nat) (f : Nat → E) (n : Nat) :
    (m.map φ).addAll p (fun k => φ (f k)) n = (m.addAll p f n).map φ :=
  List.foldl_hom (map φ) fun x k => addAt_map h x (p k) (f k)

theorem addBlock_map (h : Preserves φ) (m : Matrix E) (row col : Nat) (other : Matrix E) :
    (m.map φ).addBlock row col (other.map φ) = (m.addBlock row col other).map (map φ) := by
  rw [addBlock, addBlock, map_bind]
  refine congrArg _ (funext fun _ => congrArg Except.ok ?_)
  simp only [position_map h.zero, size_map, rows_map, cols_map, shape_map]
  exact addAll_map h m _ _ _

/-! ## Convolution -/

theorem accumulate_map (h : Preserves φ) {rows cols : Nat} {f : Nat → Nat → E}
    {f' : Nat → Nat → F} (hf : ∀ r c, f' r c = φ (f r c)) (start : E) :
    accumulate rows cols f' (φ start) = φ (accumulate rows cols f start) := by
  refine List.foldl_hom φ fun x r => List.foldl_hom φ fun y c => ?_
  rw [hf, h.add]

theorem convolve_map (h : Preserves φ) (size : Nat) (input kernel bias : Matrix E) :
    convolve size (input.map φ) (kernel.map φ) (bias.map φ) =
      (convolve size input kernel bias).map (map φ) := by
  unfold convolve
  simp only [shape_map, rows_map, cols_map, isScalar_map, entry_map h.zero]
  split
  · rfl
  · split
    · rfl
    · split
      · rfl
      · refine congrArg Except.ok ?_
        rw [map_ofFn]
        refine ofFn_congr fun r _ c _ => accumulate_map h (fun i j => ?_) _
        rw [h.mul]

theorem convolveInput_map (h : Preserves φ) (input kernel grad : Matrix E) :
    convolveInput (input.map φ) (kernel.map φ) (grad.map φ) =
      (convolveInput input kernel grad).map (map φ) := by
  have hzeros : (zeros input.rows input.cols : Matrix F) = (zeros input.rows input.cols).map φ := by
    simp [zeros, filled, map, h.zero]
  unfold convolveInput
  rw [rows_map, cols_map, rows_map, cols_map, hzeros]
  refine foldlM_map (u := map φ) (fun acc r => ?_) (List.range grad.rows) _
  refine foldlM_map (u := map φ) (fun acc c => ?_) (List.range grad.cols) acc
  have hkernel : (kernel.map φ).map (· * φ (grad.entry r c)) =
      (kernel.map (· * grad.entry r c)).map φ := map_map (fun x => h.mul x _) kernel
  rw [entry_map h.zero, hkernel]
  exact addBlock_map h acc r c _

theorem convolveKernel_map (h : Preserves φ) (size : Nat) (input grad : Matrix E) :
    convolveKernel size (input.map φ) (grad.map φ) = (convolveKernel size input grad).map φ := by
  unfold convolveKernel
  rw [map_ofFn]
  refine ofFn_congr fun i _ j _ => ?_
  rw [h.div, h.sqrt, h.natCast, ← h.zero]
  refine congrArg (· / _) (accumulate_map h (fun r c => ?_) 0)
  rw [entry_map h.zero, entry_map h.zero, h.mul]

/-! ## Flattening -/

theorem flatten_map (h : Preserves φ) (members : List (Matrix E)) :
    flatten (members.map (map φ)) = (flatten members).map φ := by
  have hcolumns : (members.map (map φ)).flatMap byColumns =
      (members.flatMap byColumns).map φ := by
    rw [List.flatMap_map, List.map_flatMap]
    refine List.flatMap_congr fun m _ => ?_
    rw [byColumns, byColumns, transpose_map h, map, Array.toList_map]
  rw [flatten, flatten, hcolumns]
  simp [column, map]

theorem unflatten_map (h : Preserves φ) (source : Matrix E) (start : Nat) (m : Matrix E) :
    (source.map φ).unflatten start (m.map φ) = (source.unflatten start m).map (map φ) := by
  unfold unflatten
  simp only [isEmpty_map, size_map, rows_map, cols_map, entry_map h.zero, position_map h.zero]
  split
  · rfl
  · refine congrArg Except.ok ?_
    rw [map_ofFn]
    exact ofFn_congr fun r _ c _ => (h.add _ _).symm

/-! ## Pooling -/

theorem maxPool_map (h : Preserves φ) (size : Nat) (m : Matrix E) :
    (m.map φ).maxPool size = (m.maxPool size).map (map φ) := by
  have htiled : ∀ count, (m.map φ).Tiled size count ↔ m.Tiled size count := fun count => by
    simp [Tiled]
  unfold maxPool
  simp only [rows_map, cols_map, htiled]
  split
  · rfl
  · split
    · rfl
    · refine congrArg Except.ok ?_
      rw [map_ofFn]
      refine ofFn_congr fun i _ j _ => ?_
      rw [show (m.map φ).window size i j = m.window size i j from rfl]
      cases cells (m.window size i j) with
      | nil => exact h.zero.symm
      | cons cell rest =>
        have hrest : rest.map (fun p => (m.map φ).entry p.1 p.2) =
            (rest.map fun p => m.entry p.1 p.2).map φ := by
          rw [List.map_map]
          exact List.map_congr_left fun _ _ => entry_map h.zero m _ _
        have hmax := foldl_max_map h (m.entry cell.1 cell.2) (rest.map fun p => m.entry p.1 p.2)
        rw [← hrest, ← entry_map h.zero] at hmax
        exact hmax

theorem hit_map (h : Preserves φ) (peak taken entry : E) :
    hit (φ peak) (φ taken) (φ entry) = φ (hit peak taken entry) := by
  rw [hit, hit, h.mul, h.eqMask, h.sub, h.one]

theorem unpool_map (h : Preserves φ) (size : Nat) (m pooled grad : Matrix E) :
    (m.map φ).unpool size (pooled.map φ) (grad.map φ) =
      (m.unpool size pooled grad).map (map φ) := by
  have htiled : ∀ count, (m.map φ).Tiled size count ↔ m.Tiled size count := fun count => by
    simp [Tiled]
  unfold unpool
  simp only [htiled, shape_map]
  split
  · rfl
  · refine congrArg Except.ok ?_
    rw [map_ofFn]
    refine ofFn_congr fun r _ c _ => ?_
    have htaken : ∀ (peak : E) (l : List (Nat × Nat)),
        l.foldl (fun t p => t + hit (φ peak) t ((m.map φ).entry p.1 p.2)) 0 =
          φ (l.foldl (fun t p => t + hit peak t (m.entry p.1 p.2)) 0) := by
      intro peak l
      rw [← h.zero]
      refine List.foldl_hom φ fun t p => ?_
      rw [entry_map h.zero, hit_map h, h.add]
    simp only [show (m.map φ).window size (r / size) (c / size) =
      m.window size (r / size) (c / size) from rfl]
    rw [h.add, h.zero, h.mul, ← hit_map h, ← htaken, entry_map h.zero, entry_map h.zero,
      entry_map h.zero]

/-! ## Logarithm of the softmax -/

theorem logSoftmax_map (h : Preserves φ) (m : Matrix E) :
    (m.map φ).logSoftmax = m.logSoftmax.map (map φ) := by
  unfold logSoftmax
  rw [largest?_map h]
  cases m.largest? with
  | none => rfl
  | some largest =>
    refine congrArg Except.ok ?_
    have hshifted : (m.map φ).map (· - φ largest) = (m.map (· - largest)).map φ :=
      map_map (fun x => h.sub x largest) m
    have hsum : (((m.map (· - largest)).map φ).map Arith.exp).sum =
        φ ((m.map (· - largest)).map Arith.exp).sum := by
      rw [map_map h.exp, sum_map h]
    rw [hshifted, hsum, ← h.log]
    exact map_map (fun x => h.sub x _) _

theorem logSoftmaxInput_map (h : Preserves φ) (value grad : Matrix E) :
    (value.map φ).logSoftmaxInput (grad.map φ) =
      (value.logSoftmaxInput grad).map (map φ) := by
  rw [logSoftmaxInput, logSoftmaxInput, sum_map h]
  exact zipWith_map (fun x y => by rw [h.sub, h.mul, h.exp]) _ _

end

/-! ## Lanes -/

/-- One lane of all entries. -/
def onLane [Zero K] [Laned K E] (m : Matrix E) (l : Nat) : Matrix K := m.map fun v => Laned.lane v l

theorem entry_onLane [Arith K] [Arith E] [Laned K E] [Laned.Lawful K E] {l : Nat}
    (hl : l < Laned.width E) (m : Matrix E) (r c : Nat) :
    (m.onLane l).entry r c = Laned.lane (m.entry r c) l :=
  @entry_map E K (fun v => Laned.lane v l) _ _ (Laned.Lawful.preserves hl).zero m r c

end Matrix

/-! ## Values of operations -/

section
variable [Arith E] [Arith F] {φ : E → F}

/-- **The value of an operation on images** is the image of its value. -/
theorem Op.value_map (h : Preserves φ) (op : Op K) (own mask : Matrix E) (val : Node → Matrix E) :
    op.value (own.map φ) (mask.map φ) (fun n => (val n).map φ) =
      (op.value own mask val).map (Matrix.map φ) := by
  cases op with
  | parameter => rfl
  | add l r => exact Matrix.zipWith_map h.add _ _
  | mul l r => exact Matrix.mul_map h _ _
  | div l r =>
    simp only [value, Matrix.isScalar_map, Matrix.shape_map, Matrix.entry_map h.zero]
    split
    · exact congrArg Except.ok (Matrix.map_map (fun x => h.div x _) _)
    · rfl
  | neg l => exact congrArg Except.ok (Matrix.map_map h.neg _)
  | dot l r => exact Matrix.zipWith_map h.mul _ _
  | func f l => exact congrArg Except.ok (Matrix.map_map (h.apply f) _)
  | max l r => exact Matrix.zipWith_map h.max _ _
  | sum l =>
    simp only [value, Matrix.sum_map h, ← Matrix.map_scalar]
    rfl
  | slice rect l => exact Matrix.block_map h _ _
  | flatten members =>
    refine congrArg Except.ok ?_
    rw [← Matrix.flatten_map h, List.map_map]
    rfl
  | convolution size input kernel bias => exact Matrix.convolve_map h _ _ _ _
  | maxPool size l => exact Matrix.maxPool_map h _ _
  | dropout rate l => exact Matrix.zipWith_map h.mul _ _
  | logSoftmax l => exact Matrix.logSoftmax_map h _

end

/-! ## Contributions to gradients -/

/-- The image of a contribution. -/
def Push.map (φ : E → F) : Push E → Push F
  | whole terms => whole (terms.map φ)
  | each term => each (φ term)
  | block row col terms => block row col (terms.map φ)
  | stretch start terms => stretch start (terms.map φ)

section
variable [Arith E] [Arith F] {φ : E → F}

theorem Push.apply_map (h : Preserves φ) (p : Push E) (grad : Matrix E) :
    (p.map φ).apply (grad.map φ) = (p.apply grad).map (Matrix.map φ) := by
  cases p with
  | whole terms => exact Matrix.zipWith_map h.add _ _
  | each term => exact congrArg Except.ok (Matrix.map_map (fun x => h.add x term) _)
  | block row col terms => exact Matrix.addBlock_map h _ _ _ _
  | stretch start terms => exact Matrix.unflatten_map h _ _ _

namespace Op

omit [Arith E] [Arith F] in
theorem stretches_map (val : Node → Matrix E) (terms : Matrix E) (start : Nat)
    (members : List Node) :
    stretches (fun n => (val n).map φ) (terms.map φ) start members =
      (stretches val terms start members).map fun p => (p.1, p.2.map φ) := by
  induction members generalizing start with
  | nil => rfl
  | cons l ls ih =>
    rw [stretches, stretches, Matrix.size_map, ih]
    rfl

/-- **The contributions of an operation on images** are the images of its contributions. -/
theorem pushes_map (h : Preserves φ) (op : Op K) (own mask grad : Matrix E)
    (val : Node → Matrix E) :
    op.pushes (own.map φ) (mask.map φ) (grad.map φ) (fun n => (val n).map φ) =
      (op.pushes own mask grad val).map (List.map fun p => (p.1, p.2.map φ)) := by
  cases op with
  | parameter | add l r | slice rect l => rfl
  | mul l r =>
    simp only [pushes, Matrix.transpose_map h, Matrix.mul_map h, bind_map, map_bind]
    rfl
  | div l r =>
    have hterms : (grad.map φ).zipWith "div backward" (fun g x => -g * x) ((val l).map φ) = _ :=
      Matrix.zipWith_map (f := fun g x => -g * x) (fun x y => by rw [h.mul, h.neg]) grad (val l)
    simp only [pushes, Matrix.toScalar_map h, hterms, bind_map, map_bind, Matrix.sum_map h]
    refine congrArg _ (funext fun d => congrArg _ (funext fun terms => congrArg Except.ok ?_))
    have hquotient : (grad.map φ).map (· / φ d) = (grad.map (· / d)).map φ :=
      Matrix.map_map (fun x => h.div x d) grad
    simp only [List.map_cons, List.map_nil, Push.map, Matrix.map_scalar, h.div, h.mul, hquotient]
  | neg l =>
    refine congrArg Except.ok ?_
    simp only [List.map_cons, List.map_nil, Push.map, Matrix.map_map h.neg]
  | dot l r =>
    simp only [pushes, Matrix.zipWith_map h.mul, bind_map, map_bind]
    rfl
  | func f l =>
    have hterms : (grad.map φ).zipWith "func backward" (fun g x => g * f.derivative x)
        ((val l).map φ) = _ :=
      Matrix.zipWith_map (f := fun g x => g * f.derivative x)
        (fun x y => by rw [h.mul, h.derivative]) grad (val l)
    simp only [pushes, hterms, bind_map, map_bind]
    rfl
  | max l r =>
    have hright : ∀ left : Matrix E, (grad.map φ).zipWith "max backward" (fun g m => g * (1 - m))
        (left.map φ) = _ := fun left =>
      Matrix.zipWith_map (f := fun g m => g * (1 - m)) (fun x y => by rw [h.mul, h.sub, h.one])
        grad left
    simp only [pushes, Matrix.zipWith_map h.ltMask, Matrix.zipWith_map h.mul, hright, bind_map,
      map_bind]
    rfl
  | sum l =>
    simp only [pushes, Matrix.toScalar_map h, bind_map, map_bind]
    rfl
  | flatten members => exact congrArg Except.ok (stretches_map val grad 0 members)
  | convolution size input kernel bias =>
    simp only [pushes, Matrix.convolveInput_map h, Matrix.convolveKernel_map h, Matrix.sum_map h,
      bind_map, map_bind]
    refine congrArg _ (funext fun di => congrArg Except.ok ?_)
    simp only [List.map_cons, List.map_nil, Push.map, Matrix.map_scalar]
  | maxPool size l =>
    simp only [pushes, Matrix.unpool_map h, bind_map, map_bind]
    rfl
  | dropout rate l =>
    simp only [pushes, Matrix.zipWith_map h.mul, bind_map, map_bind]
    rfl
  | logSoftmax l =>
    simp only [pushes, Matrix.logSoftmaxInput_map h, bind_map, map_bind]
    rfl

end Op

end

/-! ## Numbers in every lane -/

/-- A map of elements that keeps every operation, and the elements that have one
number in every lane. -/
structure Uniform [Arith E] [Arith F] [Laned K E] [Laned K F] (φ : E → F) : Prop
    extends Preserves φ where
  splat : ∀ k : K, φ (Laned.splat k) = Laned.splat k

/-- **A lane keeps every operation** and the number of all lanes. -/
theorem Lanes.uniform_lane [Scalar K] {W l : Nat} (hl : l < W) :
    Uniform fun v : Lanes K W => Laned.lane v l where
  toPreserves := Lanes.preserves_lane hl
  splat k := by simp [Laned.lane, Laned.lane?, Laned.splat, Laned.ofLanes, Lanes.ofFn, hl]

/-- **The mask of an operation that drops nothing** is the same for all samples, and in
every lane. -/
theorem Op.freshMask_map [Scalar K] [Arith E] [Arith F] [Laned K E] [Laned K F] {φ : E → F}
    (h : Uniform φ) {op : Op K} (hop : op.Keeps) {noise noise' : Noise K} (hn : noise.Nonneg)
    (hn' : noise'.Nonneg) (first first' : Nat) (val : Node → Matrix E) :
    op.freshMask (fun i => noise'.uniform (first' + i)) (fun n => (val n).map φ) =
      (op.freshMask (fun i => noise.uniform (first + i)) val).map (Matrix.map φ) := by
  rw [freshMask_of_keeps hop hn' hn, freshMask_of_keeps hop hn hn]
  cases op with
  | dropout rate l =>
    have hlt : ∀ i, Scalar.lt (noise.uniform i) rate = false := by
      intro i
      by_contra hi
      have hpos := hn i rate (by simpa using hi)
      rw [show Scalar.lt 0 rate = false from hop] at hpos
      cases hpos
    simp only [freshMask, drawMask, hlt, Matrix.shape_map]
    split
    · refine congrArg Except.ok ?_
      rw [Matrix.map_ofFn]
      exact Matrix.ofFn_congr fun _ _ _ _ => (h.splat _).symm
    · rfl
  | _ => exact congrArg Except.ok Matrix.map_empty.symm

end DiffGraph
