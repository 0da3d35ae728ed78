/-
  Shapes of operations.

  What an operation does to shapes does not depend on any entry.

  * `Op.shape`: the shape of the value, from the shapes of the operands;
  * `Op.Accepts`: the shapes of operands with which there is a value
    (`Op.shape_of_value`);
  * `Op.exists_pushes`: with such operands, and with a gradient of the shape of the
    value, a vertex has contributions, and each of them fits the operand it is for.
-/
import DiffGraph.Proofs.Entries
import DiffGraph.Proofs.Pushes

namespace DiffGraph

variable {K E : Type}

namespace Op

/-- The shape of the value of an operation whose operands have the shapes `s`; a
parameter has the shape `own`. -/
def shape (own : Shape) (s : Node → Shape) : Op K → Shape
  | parameter => own
  | add l _ | div l _ | neg l | dot l _ | func _ l | max l _ | dropout _ l | logSoftmax l => s l
  | mul l r => ((s l).1, (s r).2)
  | sum _ => (1, 1)
  | slice rect _ => rect.shape
  | flatten members => ((members.map fun c => (s c).area).sum, 1)
  | convolution size input _ _ => ((s input).1 - size + 1, (s input).2 - size + 1)
  | maxPool size l => (Matrix.windowCount (s l).1 size, Matrix.windowCount (s l).2 size)

/-- The shapes of operands, and of the mask, that an operation accepts. -/
def Accepts (mask : Shape) (s : Node → Shape) : Op K → Prop
  | parameter | neg _ | func .. | sum _ | flatten _ => True
  | add l r | dot l r | max l r => s l = s r
  | mul l r => (s l).2 = (s r).1
  | div _ r => s r = (1, 1)
  | slice rect l => rect.Admitted (s l) ∧ rect.Inside (s l)
  | convolution size input kernel bias =>
    s kernel = (size, size) ∧ size ≤ (s input).1 ∧ size ≤ (s input).2 ∧ s bias = (1, 1)
  | maxPool size l =>
    size ≠ 0 ∧ ((s l).area = 0 ∨ (s l).1 ≤ Matrix.windowCount (s l).1 size * size ∧
      (s l).2 ≤ Matrix.windowCount (s l).2 size * size)
  | dropout _ l => s l = mask
  | logSoftmax l => (s l).area ≠ 0

theorem shape_congr {op : Op K} {s t : Node → Shape} (own : Shape)
    (h : ∀ c ∈ op.operands, s c = t c) : op.shape own s = op.shape own t := by
  cases op with
  | parameter | sum | slice => rfl
  | mul l r => simp only [shape, h l (by simp [operands]), h r (by simp [operands])]
  | flatten members =>
    exact congrArg (fun l : List Nat => (l.sum, 1))
      (List.map_congr_left fun c hc => congrArg Shape.area (h c hc))
  | add l | div l | neg l | dot l | func f l | max l | dropout rate l | logSoftmax l
  | maxPool size l | convolution size l =>
    simp only [shape, h l (by simp [operands])]

theorem accepts_congr {op : Op K} {mask : Shape} {s t : Node → Shape}
    (h : ∀ c ∈ op.operands, s c = t c) : op.Accepts mask s ↔ op.Accepts mask t := by
  cases op with
  | parameter | neg | func | sum | flatten => rfl
  | add l r | dot l r | max l r | mul l r | div l r =>
    simp only [Accepts, h l (by simp [operands]), h r (by simp [operands])]
  | slice rect l | maxPool size l | dropout rate l | logSoftmax l =>
    simp only [Accepts, h l (by simp [operands])]
  | convolution size input kernel bias =>
    simp only [Accepts, h input (by simp [operands]), h kernel (by simp [operands]),
      h bias (by simp [operands])]

/-- The own shape matters for a parameter only. -/
theorem shape_own {op : Op K} (h : op.isParameter = false) (own own' : Shape) (s : Node → Shape) :
    op.shape own s = op.shape own' s := by
  cases op with
  | parameter => cases h
  | _ => rfl

/-- The operation on renamed vertices. -/
def rename (f : Node → Node) : Op K → Op K
  | parameter => parameter
  | add l r => add (f l) (f r)
  | mul l r => mul (f l) (f r)
  | div l r => div (f l) (f r)
  | neg l => neg (f l)
  | dot l r => dot (f l) (f r)
  | func u l => func u (f l)
  | max l r => max (f l) (f r)
  | sum l => sum (f l)
  | slice rect l => slice rect (f l)
  | flatten members => flatten (members.map f)
  | convolution size input kernel bias => convolution size (f input) (f kernel) (f bias)
  | maxPool size l => maxPool size (f l)
  | dropout rate l => dropout rate (f l)
  | logSoftmax l => logSoftmax (f l)

theorem shape_rename (f : Node → Node) (op : Op K) (own : Shape) (s : Node → Shape) :
    (op.rename f).shape own s = op.shape own fun c => s (f c) := by
  cases op with
  | flatten members => rw [rename, shape, shape, List.map_map]; rfl
  | _ => rfl

end Op

/-! ## Values -/

namespace Matrix

theorem isScalar_iff {m : Matrix E} : m.isScalar = true ↔ m.shape = (1, 1) := by
  simp [isScalar, shape]

theorem tiled_iff {m : Matrix E} {size : Nat} {count : Shape} :
    m.Tiled size count ↔
      m.shape.area = 0 ∨ m.shape.1 ≤ count.1 * size ∧ m.shape.2 ≤ count.2 * size := by
  rw [Tiled, isEmpty_iff]
  rfl

end Matrix

namespace Op

variable [Arith E] {op : Op K} {own mask v grad : Matrix E} {val : Node → Matrix E}

/-- **The shape of a value** is given by the shapes of the operands. -/
theorem shape_of_value (h : op.value own mask val = .ok v) :
    op.Accepts mask.shape (fun c => (val c).shape) ∧
      v.shape = op.shape own.shape fun c => (val c).shape := by
  cases op with
  | parameter | neg l | func f l | sum l => cases h; exact ⟨trivial, rfl⟩
  | add l r | dot l r | max l r | dropout rate l =>
    exact ⟨Matrix.shape_eq_of_zipWith h, Matrix.shape_of_zipWith h⟩
  | mul l r => exact Matrix.shape_of_mul h
  | div l r =>
    simp only [value] at h
    split at h
    · next hs => cases h; exact ⟨Matrix.isScalar_iff.1 hs, rfl⟩
    · cases h
  | slice rect l => exact Matrix.shape_of_block h
  | flatten members =>
    cases h
    refine ⟨trivial, ?_⟩
    rw [Matrix.shape_flatten, List.map_map, shape]
    exact congrArg (fun l : List Nat => (l.sum, 1))
      (List.map_congr_left fun c _ => (val c).size_eq_area)
  | convolution size input kernel bias =>
    simp only [value, Matrix.convolve] at h
    split at h
    · cases h
    split at h
    · cases h
    split at h
    · cases h
    next hkernel hinput hbias =>
    cases h
    rw [not_or, not_not] at hkernel
    rw [not_or, Nat.not_lt, Nat.not_lt] at hinput
    exact ⟨⟨hkernel.2, hinput.1, hinput.2, Matrix.isScalar_iff.1 (not_not.1 hbias)⟩, rfl⟩
  | maxPool size l =>
    simp only [value, Matrix.maxPool] at h
    split at h
    · cases h
    split at h
    · cases h
    next hsize htiled =>
    cases h
    exact ⟨⟨hsize, Matrix.tiled_iff.1 (not_not.1 htiled)⟩, rfl⟩
  | logSoftmax l =>
    simp only [value, Matrix.logSoftmax] at h
    split at h
    · cases h
    next largest hlargest =>
    cases h
    refine ⟨fun harea => ?_, rfl⟩
    have hdata : (val l).data = #[] := by
      rw [← Array.isEmpty_iff]
      exact (val l).isEmpty_iff.2 harea
    rw [Matrix.largest?, hdata] at hlargest
    cases hlargest

end Op

/-! ## Contributions -/

namespace Matrix

variable [Arith E]

theorem exists_zipWith {F G : Type} [Zero F] {o : String} {f : E → F → G} {a : Matrix E}
    {b : Matrix F} (h : a.shape = b.shape) :
    ∃ m, a.zipWith o f b = .ok m ∧ m.shape = a.shape :=
  ⟨_, zipWith_eq h, rfl⟩

/-- The kernel fits wherever it is laid on the input. -/
theorem exists_convolveInput {input kernel grad : Matrix E}
    (hrows : grad.rows + kernel.rows ≤ input.rows + 1)
    (hcols : grad.cols + kernel.cols ≤ input.cols + 1) :
    ∃ d, input.convolveInput kernel grad = .ok d ∧ d.shape = input.shape := by
  refine exists_foldlM (P := fun d : Matrix E => d.shape = input.shape) (fun r hr d hd => ?_) rfl
  refine exists_foldlM (P := fun d : Matrix E => d.shape = input.shape) (fun c hc d hd => ?_) hd
  rw [List.mem_range] at hr hc
  have hfits : (Push.block r c (kernel.map (· * grad.entry r c))).Fits d.shape := by
    have hr' : r + kernel.rows ≤ input.rows := by omega
    have hc' : c + kernel.cols ≤ input.cols := by omega
    rw [hd]
    exact Push.fits_block hr' hc'
  obtain ⟨d', hd'⟩ := Push.exists_apply hfits
  exact ⟨d', hd', (Push.shape_apply hd').trans hd⟩

end Matrix

namespace Op

variable [Arith E] {op : Op K} {own mask grad : Matrix E} {val : Node → Matrix E}

omit [Arith E] in
theorem fits_one {l : Node} {p : Push E} (hp : p.Fits (val l).shape) :
    ∀ t ∈ [(l, p)], t.2.Fits (val t.1).shape := by
  simpa using hp

omit [Arith E] in
theorem fits_two {l r : Node} {p q : Push E} (hp : p.Fits (val l).shape)
    (hq : q.Fits (val r).shape) : ∀ t ∈ [(l, p), (r, q)], t.2.Fits (val t.1).shape := by
  simpa using ⟨hp, hq⟩

/-- **A vertex that was evaluated has contributions**, one that fits for each operand. -/
theorem exists_pushes (h : op.Accepts mask.shape fun c => (val c).shape)
    (hown : own.shape = op.shape own.shape fun c => (val c).shape) (hg : grad.shape = own.shape) :
    ∃ ps, op.pushes own mask grad val = .ok ps ∧ ∀ t ∈ ps, t.2.Fits (val t.1).shape := by
  have hgs := hg.trans hown
  cases op with
  | parameter => exact ⟨[], rfl, by simp⟩
  | add l r => exact ⟨_, rfl, fits_two hgs (hgs.trans h)⟩
  | neg l => exact ⟨_, rfl, fits_one hgs⟩
  | mul l r =>
    obtain ⟨hrows, hcols⟩ := Prod.mk.inj hgs
    have hdl : grad.mul (val r).transpose = _ := Matrix.mul_eq hcols
    have hdr : (val l).transpose.mul grad = _ := Matrix.mul_eq hrows.symm
    rw [pushes, hdl, hdr]
    exact ⟨_, rfl, fits_two (Prod.ext hrows h.symm) (Prod.ext h hcols)⟩
  | div l r =>
    obtain ⟨d, hd⟩ : ∃ d, val r = .scalar d := ⟨_, Matrix.eq_scalar_of_shape h⟩
    obtain ⟨terms, hterms, -⟩ :=
      Matrix.exists_zipWith (o := "div backward") (f := fun g x => -g * x) hgs
    simp only [pushes, hd, Matrix.toScalar_scalar, hterms, ok_bind]
    exact ⟨_, rfl, fits_two hgs h.symm⟩
  | dot l r =>
    obtain ⟨dl, hdl, hl⟩ :=
      Matrix.exists_zipWith (o := "dot backward") (f := (· * ·)) (hgs.trans h)
    obtain ⟨dr, hdr, hr⟩ := Matrix.exists_zipWith (o := "dot backward") (f := (· * ·)) hgs
    rw [pushes, hdl, ok_bind, hdr]
    exact ⟨_, rfl, fits_two (hl.trans hgs) (hr.trans (hgs.trans h))⟩
  | func f l =>
    obtain ⟨dl, hdl, hl⟩ := Matrix.exists_zipWith (o := "func backward")
      (f := fun g x => g * f.derivative x) hgs
    rw [pushes, hdl]
    exact ⟨_, rfl, fits_one (hl.trans hgs)⟩
  | max l r =>
    obtain ⟨left, hleft, hs⟩ :=
      Matrix.exists_zipWith (o := "max backward") (f := Arith.ltMask (E := E)) h.symm
    have hgl : grad.shape = left.shape := hgs.trans (h.trans hs.symm)
    obtain ⟨dl, hdl, hl⟩ := Matrix.exists_zipWith (o := "max backward") (f := (· * ·)) hgl
    obtain ⟨dr, hdr, hr⟩ :=
      Matrix.exists_zipWith (o := "max backward") (f := fun g m => g * (1 - m)) hgl
    rw [pushes, hleft, ok_bind, hdl, ok_bind, hdr]
    exact ⟨_, rfl, fits_two (hl.trans hgs) (hr.trans (hgs.trans h))⟩
  | sum l =>
    obtain ⟨e, rfl⟩ : ∃ e, grad = .scalar e := ⟨_, Matrix.eq_scalar_of_shape hgs⟩
    exact ⟨_, rfl, fits_one trivial⟩
  | slice rect l =>
    obtain ⟨hrows, hcols⟩ := Prod.mk.inj hgs
    refine ⟨_, rfl, fits_one ?_⟩
    rw [Push.Fits, hrows, hcols]
    exact h
  | flatten members =>
    refine ⟨_, rfl, fits_stretches ?_⟩
    have hsum : members.map (fun c => (val c).size) = members.map fun c => (val c).shape.area :=
      List.map_congr_left fun c _ => (val c).size_eq_area
    rw [hsum, Matrix.size_eq_area, hgs, Shape.area, shape]
    omega
  | convolution size input kernel bias =>
    obtain ⟨hkernel, hin, hin', hbias⟩ := h
    obtain ⟨hrows, hcols⟩ := Prod.mk.inj hgs
    obtain ⟨hkr, hkc⟩ := Prod.mk.inj hkernel
    have hfit : grad.rows + (val kernel).rows ≤ (val input).rows + 1 ∧
        grad.cols + (val kernel).cols ≤ (val input).cols + 1 := by
      rw [hrows, hcols, hkr, hkc]
      dsimp only [Matrix.shape] at hin hin' ⊢
      omega
    obtain ⟨di, hdi, hi⟩ := Matrix.exists_convolveInput hfit.1 hfit.2
    rw [pushes, hdi]
    refine ⟨_, rfl, ?_⟩
    have hdk : ((val input).convolveKernel size grad).shape = (val kernel).shape := hkernel.symm
    simpa [Push.Fits] using ⟨hi, hdk, hbias.symm⟩
  | maxPool size l =>
    have htiled : (val l).Tiled size own.shape := by
      rw [Matrix.tiled_iff, hown]
      exact h.2
    have hdl : (val l).unpool size own grad = _ :=
      if_neg (not_or.2 ⟨h.1, not_not.2 htiled⟩)
    rw [pushes, hdl]
    exact ⟨_, rfl, fits_one rfl⟩
  | dropout rate l =>
    obtain ⟨dl, hdl, hl⟩ :=
      Matrix.exists_zipWith (o := "dropout backward") (f := (· * ·)) (hgs.trans h)
    rw [pushes, hdl]
    exact ⟨_, rfl, fits_one (hl.trans hgs)⟩
  | logSoftmax l =>
    obtain ⟨dl, hdl, hl⟩ := Matrix.exists_zipWith (o := "log_softmax backward")
      (f := fun g y => g - Arith.exp y * grad.sum) hg
    have hdl' : own.logSoftmaxInput grad = .ok dl := hdl
    rw [pushes, hdl']
    exact ⟨_, rfl, fits_one (hl.trans hgs)⟩

end Op

end DiffGraph
