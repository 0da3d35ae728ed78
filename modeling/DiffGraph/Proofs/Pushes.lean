/-
  What a vertex adds to the gradients of its operands.

  * `Push.shape_apply`: a contribution does not change the shape of a gradient;
  * `Push.exists_apply`: a contribution that fits can be added;
  * `Op.map_fst_pushes`: a vertex adds to the gradients of its operands, from
    left to right;
  * `Op.pushes_congr`: what it adds depends on the values of its operands only.
-/
import DiffGraph.Op.Adjoint
import DiffGraph.Proofs.Rectangles
import Mathlib

namespace DiffGraph

variable {K E : Type}

/-- A contribution can be added to a gradient of shape `s`. -/
def Push.Fits (s : Shape) : Push E → Prop
  | whole terms => terms.shape = s
  | each _ => True
  | block row col terms =>
    (Rect.mk row col terms.rows terms.cols).Admitted s ∧
      (Rect.mk row col terms.rows terms.cols).Inside s
  | stretch start terms => start + s.area ≤ terms.size

/-- A rectangle that ends within the matrix fits. -/
theorem Push.fits_block {row col : Nat} {terms : Matrix E} {s : Shape}
    (hrow : row + terms.rows ≤ s.1) (hcol : col + terms.cols ≤ s.2) :
    (block row col terms).Fits s :=
  Rect.admitted_of_not_exceeds (Rect.not_exceeds_iff.2 ⟨hrow, hcol⟩)

variable [Arith E]

/-- A contribution does not change the shape of a gradient. -/
theorem Push.shape_apply {p : Push E} {grad grad' : Matrix E}
    (h : p.apply grad = .ok grad') : grad'.shape = grad.shape := by
  cases p with
  | whole terms =>
    simp only [apply, Matrix.add, Matrix.zipWith] at h
    split at h
    · cases h; rfl
    · cases h
  | each term => cases h; rfl
  | block row col terms =>
    obtain ⟨_, -, h⟩ := bind_eq_ok.1 h
    exact Except.ok.inj h ▸ Matrix.shape_addAll grad _ _ _
  | stretch start terms =>
    simp only [apply, Matrix.unflatten] at h
    split at h
    · cases h
    · cases h; rfl

/-- A contribution that fits can be added. -/
theorem Push.exists_apply {p : Push E} {grad : Matrix E} (h : p.Fits grad.shape) :
    ∃ grad', p.apply grad = .ok grad' := by
  cases p with
  | whole terms =>
    obtain ⟨hrows, hcols⟩ := Prod.mk.inj h
    exact ⟨_, dif_pos ⟨hrows.symm, hcols.symm⟩⟩
  | each term => exact ⟨_, rfl⟩
  | block row col terms => exact ⟨_, Matrix.addBlock_ok h⟩
  | stretch start terms =>
    have hsize : grad.size = grad.shape.area := grad.size_data
    have hfits : start + grad.shape.area ≤ terms.size := h
    exact ⟨_, if_neg fun hs => absurd hs.2 (by rw [hsize]; exact Nat.not_lt.2 hfits)⟩

namespace Op

omit [Arith E] in
theorem map_fst_stretches (val : Node → Matrix E) (terms : Matrix E) (start : Nat)
    (members : List Node) : (stretches val terms start members).map Prod.fst = members := by
  induction members generalizing start with
  | nil => rfl
  | cons l ls ih => rw [stretches, List.map_cons, ih]

omit [Arith E] in
theorem stretches_congr {v w : Node → Matrix E} {terms : Matrix E} {members : List Node}
    (h : ∀ c ∈ members, v c = w c) (start : Nat) :
    stretches v terms start members = stretches w terms start members := by
  induction members generalizing start with
  | nil => rfl
  | cons l ls ih =>
    rw [stretches, stretches, h l List.mem_cons_self,
      ih fun c hc => h c (List.mem_cons_of_mem _ hc)]

omit [Arith E] in
/-- The members of a flattening fit into it one after another. -/
theorem fits_stretches {grad : Matrix E} {val : Node → Matrix E} {members : List Node}
    {start : Nat}
    (h : start + (members.map fun c => (val c).size).sum ≤ grad.size) :
    ∀ t ∈ stretches val grad start members, t.2.Fits (val t.1).shape := by
  induction members generalizing start with
  | nil => simp [stretches]
  | cons l ls ih =>
    rw [List.map_cons, List.sum_cons] at h
    intro t ht
    rcases List.mem_cons.1 ht with rfl | ht
    · have hsize : (val l).size = (val l).shape.area := (val l).size_data
      have hfits : start + (val l).shape.area ≤ grad.size := by omega
      exact hfits
    · exact ih (by omega) t ht

/-- **A vertex adds to the gradients of its operands**, to each one once for each
time it is used. -/
theorem map_fst_pushes {op : Op K} {own mask grad : Matrix E} {val : Node → Matrix E}
    {ps : List (Node × Push E)} (h : op.pushes own mask grad val = .ok ps) :
    ps.map Prod.fst = op.operands := by
  cases op with
  | parameter | add l r | neg l | slice rect l => cases h; rfl
  | flatten members => cases h; exact map_fst_stretches val grad 0 members
  | func f l | sum l | maxPool size l | dropout rate l | logSoftmax l
  | convolution size input kernel bias =>
    obtain ⟨_, -, h⟩ := bind_eq_ok.1 h
    cases h
    rfl
  | mul l r | div l r | dot l r =>
    obtain ⟨_, -, h⟩ := bind_eq_ok.1 h
    obtain ⟨_, -, h⟩ := bind_eq_ok.1 h
    cases h
    rfl
  | max l r =>
    obtain ⟨_, -, h⟩ := bind_eq_ok.1 h
    obtain ⟨_, -, h⟩ := bind_eq_ok.1 h
    obtain ⟨_, -, h⟩ := bind_eq_ok.1 h
    cases h
    rfl

/-- What a vertex adds depends on the values of its operands only. -/
theorem pushes_congr {op : Op K} {own mask grad : Matrix E} {v w : Node → Matrix E}
    (h : ∀ c ∈ op.operands, v c = w c) :
    op.pushes own mask grad v = op.pushes own mask grad w := by
  cases op with
  | parameter => rfl
  | add | neg | sum | slice | dropout | logSoftmax => rfl
  | mul l r | div l r | dot l r | max l r =>
    simp only [pushes, h l (by simp [operands]), h r (by simp [operands])]
  | func f l | maxPool size l => simp only [pushes, h l (by simp [operands])]
  | flatten members => exact congrArg Except.ok (stretches_congr h 0)
  | convolution size input kernel bias =>
    simp only [pushes, h input (by simp [operands]), h kernel (by simp [operands])]

end Op

end DiffGraph
