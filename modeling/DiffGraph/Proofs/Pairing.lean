/-
  Sums over the entries of a matrix, in exact arithmetic.

  * `mul_eq_sum`, `sum_eq`: products of matrices and sums of all entries, as sums
    over ranges of indices;
  * `pairing`: the sum of the products of corresponding entries of two matrices.
    `pairing_stretch` and `pairing_rect` move it along a flattening and into a rectangle;
  * `addAll_eq_add`: terms that are added at positions are added as one matrix.
-/
import Mathlib
import DiffGraph.Kernel.Flatten
import DiffGraph.Proofs.Exact
import DiffGraph.Proofs.Rectangles

namespace DiffGraph

open Finset

namespace Matrix

/-- The positions of an array of rows, row by row. -/
theorem sum_range_mul {M : Type} [AddCommMonoid M] (rows cols : Nat) (f : Nat → M) :
    ∑ k ∈ range (rows * cols), f k = ∑ r ∈ range rows, ∑ c ∈ range cols, f (r * cols + c) := by
  induction rows with
  | zero => simp
  | succ rows ih => rw [Nat.succ_mul, sum_range_add, ih, sum_range_succ]

theorem foldl_list_eq_sum {M : Type} [AddCommMonoid M] (l : List M) : ∀ x : M,
    l.foldl (· + ·) x = x + ∑ k ∈ range l.length, l.getD k 0 := by
  induction l with
  | nil => simp
  | cons y l ih =>
    intro x
    rw [List.foldl_cons, ih, List.length_cons, sum_range_succ']
    simp [add_assoc, add_left_comm, add_comm]

/-- **The sum of all entries.** -/
theorem sum_eq {M : Type} [AddCommMonoid M] (m : Matrix M) :
    m.sum = ∑ r ∈ range m.rows, ∑ c ∈ range m.cols, m.entry r c := by
  rw [sum, foldl_list_eq_sum, zero_add, Array.length_toList, m.size_data, sum_range_mul]
  simp [entry, Array.getD_eq_getD_getElem?, List.getD_eq_getElem?_getD]

variable {E : Type} [Exact E]

theorem foldl_eq_sum (f : Nat → E) (n : Nat) (x : E) :
    (List.range n).foldl (fun o k => o + f k) x = x + ∑ k ∈ range n, f k := by
  induction n with
  | zero => simp
  | succ n ih =>
    rw [List.range_succ, List.foldl_append, ih, sum_range_succ]
    simp [add_assoc]

/-- **The entries of a product**, in exact arithmetic. -/
theorem mul_eq_sum {a b : Matrix E} (h : a.cols = b.rows) :
    a.mul b = .ok (ofFn a.rows b.cols fun i j =>
      ∑ k ∈ range a.cols, a.entry i k * b.entry k j) := by
  rw [mul_eq h]
  simp only [foldl_eq_sum, zero_add]

/-- The sum of the products of corresponding entries. -/
def pairing (a b : Matrix E) : E :=
  ∑ r ∈ range a.rows, ∑ c ∈ range a.cols, a.entry r c * b.entry r c

theorem pairing_ofFn {rows cols : Nat} (f : Nat → Nat → E) (b : Matrix E) :
    pairing (ofFn rows cols f) b =
      ∑ r ∈ range rows, ∑ c ∈ range cols, f r c * b.entry r c := by
  refine sum_congr rfl fun r hr => sum_congr rfl fun c hc => ?_
  rw [entry_ofFn (mem_range.1 hr) (mem_range.1 hc)]

theorem pairing_ofFn_right {a : Matrix E} {rows cols : Nat} (h : a.shape = (rows, cols))
    (f : Nat → Nat → E) :
    pairing a (ofFn rows cols f) = ∑ r ∈ range rows, ∑ c ∈ range cols, a.entry r c * f r c := by
  obtain ⟨hrows, hcols⟩ := Prod.mk.inj h
  rw [pairing, hrows, hcols]
  refine sum_congr rfl fun r hr => sum_congr rfl fun c hc => ?_
  rw [entry_ofFn (mem_range.1 hr) (mem_range.1 hc)]

/-- The matrix `g` is pulled back to `d` along a linear map of matrices of shape `s`. -/
structure Pullback (L : Matrix E → Except Failure (Matrix E)) (s : Shape) (g d : Matrix E) :
    Prop where
  shape : d.shape = s
  pairing : ∀ x, x.shape = s → ∃ m, L x = .ok m ∧ m.shape = g.shape ∧ pairing g m = pairing d x

/-- Along a map that acts on each entry by itself. -/
theorem pullback_ofFn {L : Matrix E → Except Failure (Matrix E)} {g : Matrix E} {rows cols : Nat}
    {f : Matrix E → Nat → Nat → E} {h : Nat → Nat → E} (hg : g.shape = (rows, cols))
    (hL : ∀ x, x.shape = (rows, cols) → L x = .ok (ofFn rows cols (f x)))
    (hfh : ∀ x r c, g.entry r c * f x r c = h r c * x.entry r c) :
    Pullback L (rows, cols) g (ofFn rows cols h) := by
  refine ⟨rfl, fun x hx => ⟨_, hL x hx, hg.symm, ?_⟩⟩
  rw [pairing_ofFn_right hg, pairing_ofFn]
  exact sum_congr rfl fun r _ => sum_congr rfl fun c _ => hfh x r c

/-- Along the identity. -/
theorem pullback_self {g : Matrix E} {s : Shape} (hg : g.shape = s) : Pullback .ok s g g := by
  refine ⟨hg, fun x hx => ⟨x, rfl, hx.trans hg.symm, rfl⟩⟩

/-- Along a linear function of each entry. -/
theorem pullback_map {f h : E → E} {g : Matrix E} {s : Shape} (hg : g.shape = s)
    (hfh : ∀ u y, u * f y = h u * y) : Pullback (fun x => .ok (x.map f)) s g (g.map h) := by
  subst hg
  rw [map_eq]
  refine pullback_ofFn rfl (fun x hx => ?_) fun x r c => hfh _ _
  obtain ⟨hrows, hcols⟩ := Prod.mk.inj hx
  rw [map_eq, hrows, hcols]

/-- Along a function that is linear in its second argument. -/
theorem pullback_zipWith {o p : String} {f h : E → E → E} {g a : Matrix E}
    (hg : g.shape = a.shape) (hfh : ∀ u w y, u * f w y = h u w * y) :
    ∃ d, g.zipWith p h a = .ok d ∧ Pullback (a.zipWith o f) a.shape g d := by
  refine ⟨_, zipWith_eq hg, ?_⟩
  obtain ⟨hrows, hcols⟩ := Prod.mk.inj hg
  rw [hrows, hcols]
  exact pullback_ofFn hg (fun x hx => zipWith_eq hx.symm) fun x r c => hfh _ _ _

/-- **Along the left factor of a product.**  The transpose multiplies by the
transposed right factor. -/
theorem pullback_mul_left {g b : Matrix E} {rows : Nat} (hg : g.shape = (rows, b.cols)) :
    ∃ d, g.mul b.transpose = .ok d ∧ Pullback (·.mul b) (rows, b.rows) g d := by
  obtain ⟨hrows, hcols⟩ := Prod.mk.inj hg
  refine ⟨_, mul_eq_sum (b := b.transpose) hcols, Prod.ext hrows rfl, fun x hx => ?_⟩
  obtain ⟨hxrows, hxcols⟩ := Prod.mk.inj hx
  have hg' : g.shape = (x.rows, b.cols) := hg.trans (congrArg (·, b.cols) hxrows.symm)
  refine ⟨_, mul_eq_sum hxcols, hg'.symm, ?_⟩
  rw [pairing_ofFn_right hg', pairing_ofFn, hrows, hxrows,
    show b.transpose.cols = x.cols from hxcols.symm]
  refine sum_congr rfl fun i _ => ?_
  simp only [mul_sum, sum_mul]
  rw [sum_comm]
  refine sum_congr rfl fun k hk => ?_
  rw [hcols]
  refine sum_congr rfl fun j hj => ?_
  rw [entry_transpose b (mem_range.1 hj) (hxcols ▸ mem_range.1 hk)]
  ring

/-- **Along the right factor of a product.** -/
theorem pullback_mul_right {g a : Matrix E} {cols : Nat} (hg : g.shape = (a.rows, cols)) :
    ∃ d, a.transpose.mul g = .ok d ∧ Pullback a.mul (a.cols, cols) g d := by
  obtain ⟨hrows, hcols⟩ := Prod.mk.inj hg
  refine ⟨_, mul_eq_sum (a := a.transpose) hrows.symm, Prod.ext rfl hcols, fun x hx => ?_⟩
  obtain ⟨hxrows, hxcols⟩ := Prod.mk.inj hx
  have hg' : g.shape = (a.rows, x.cols) := hg.trans (congrArg (a.rows, ·) hxcols.symm)
  refine ⟨_, mul_eq_sum hxrows.symm, hg'.symm, ?_⟩
  rw [pairing_ofFn_right hg', pairing_ofFn, hcols, hxcols,
    show a.transpose.rows = a.cols from rfl, show a.transpose.cols = a.rows from rfl]
  simp only [mul_sum, sum_mul]
  -- the columns outermost, then the inner index of each product
  conv_lhs => rw [sum_comm]
  conv_rhs => rw [sum_comm]
  refine sum_congr rfl fun j _ => ?_
  rw [sum_comm]
  refine sum_congr rfl fun k hk => sum_congr rfl fun i hi => ?_
  rw [entry_transpose a (mem_range.1 hk) (mem_range.1 hi)]
  ring

/-- A matrix of ones gives the sum of all entries. -/
theorem pairing_fill_one {F : Type} {a : Matrix F} {b : Matrix E} (h : a.shape = b.shape) :
    pairing (a.fill 1) b = b.sum := by
  obtain ⟨hrows, hcols⟩ := Prod.mk.inj h
  have hone : (a.fill 1 : Matrix E) = ofFn a.rows a.cols fun _ _ => 1 :=
    eq_ofFn_of_data (m := a.fill 1) fun k hk => by simp [fill, map]
  rw [hone, pairing_ofFn, sum_eq, hrows, hcols]
  simp only [one_mul]

/-- A matrix of zeros gives nothing. -/
theorem pairing_zeros (rows cols : Nat) (b : Matrix E) : pairing (zeros rows cols) b = 0 := by
  have hzero : (zeros rows cols : Matrix E) = ofFn rows cols fun _ _ => 0 :=
    eq_ofFn_of_data (m := zeros rows cols) fun k hk => by simp [zeros, filled]
  rw [hzero, pairing_ofFn]
  simp only [zero_mul, sum_const_zero]

/-- **Pairing is additive.** -/
theorem exists_add {a b : Matrix E} (h : a.shape = b.shape) :
    ∃ m, a.add b = .ok m ∧ m.shape = a.shape ∧
      (∀ x, pairing m x = pairing a x + pairing b x) ∧
      ∀ x, x.shape = a.shape → pairing x m = pairing x a + pairing x b := by
  obtain ⟨hrows, hcols⟩ := Prod.mk.inj h
  refine ⟨_, zipWith_eq h, rfl, fun x => ?_, fun x hx => ?_⟩
  · rw [pairing_ofFn, pairing, pairing, ← hrows, ← hcols, ← sum_add_distrib]
    refine sum_congr rfl fun r _ => ?_
    rw [← sum_add_distrib]
    exact sum_congr rfl fun c _ => add_mul _ _ _
  · obtain ⟨hrows', hcols'⟩ := Prod.mk.inj hx
    rw [pairing, pairing, pairing, ← sum_add_distrib]
    refine sum_congr rfl fun r hr => ?_
    rw [← sum_add_distrib]
    refine sum_congr rfl fun c hc => ?_
    rw [entry_ofFn (hrows' ▸ mem_range.1 hr) (hcols' ▸ mem_range.1 hc)]
    exact mul_add _ _ _

/-- Along the sum of all entries. -/
theorem pullback_sum (e : E) (s : Shape) :
    Pullback (fun x => .ok (scalar x.sum)) s (scalar e) (ofFn s.1 s.2 fun _ _ => e) := by
  refine ⟨rfl, fun x hx => ⟨_, rfl, rfl, ?_⟩⟩
  subst hx
  rw [pairing_ofFn, scalar_eq_ofFn x.sum, pairing_ofFn_right (shape_scalar e), sum_eq]
  simp [shape, mul_sum]

/-- Along the effect of the divisor on a quotient. -/
theorem pullback_divisor {x g terms : Matrix E} {d : E} (hg : g.shape = x.shape)
    (ht : g.zipWith "div backward" (fun g x => -g * x) x = .ok terms) :
    Pullback (fun y => .ok (x.map fun x => -(x * y.entry 0 0 / (d * d)))) (1, 1) g
      (.scalar (terms.sum / (d * d))) := by
  refine ⟨rfl, fun y hy => ⟨_, rfl, hg.symm, ?_⟩⟩
  obtain ⟨hrows, hcols⟩ := Prod.mk.inj hg
  have hterms : terms = .ofFn g.rows g.cols fun r c => -g.entry r c * x.entry r c :=
    Except.ok.inj (ht.symm.trans (zipWith_eq hg))
  have hsum : terms.sum = ∑ r ∈ range g.rows, ∑ c ∈ range g.cols, -g.entry r c * x.entry r c := by
    rw [hterms, sum_eq]
    exact sum_congr rfl fun r hr => sum_congr rfl fun c hc =>
      entry_ofFn (mem_range.1 hr) (mem_range.1 hc)
  have hleft : pairing (.scalar (terms.sum / (d * d))) y =
      terms.sum / (d * d) * y.entry 0 0 := by
    rw [scalar_eq_ofFn, pairing_ofFn]
    simp
  rw [hleft, hsum, map_eq, pairing_ofFn_right hg, sum_div, sum_mul, hrows, hcols]
  refine sum_congr rfl fun r _ => ?_
  rw [sum_div, sum_mul]
  exact sum_congr rfl fun c _ => by ring

/-! ## Rectangles -/

/-- What is added at the positions `p k`, as a matrix. -/
def added (s : Shape) (p : Nat → Nat) (f : Nat → E) (n : Nat) : Matrix E :=
  ofFn s.1 s.2 fun r c => ∑ k ∈ range n, if p k = r * s.2 + c then f k else 0

/-- **Terms are added at their positions** as one matrix. -/
theorem addAll_eq_add (m : Matrix E) (p : Nat → Nat) (f : Nat → E) (n : Nat) :
    .ok (m.addAll p f n) = m.add (added m.shape p f n) := by
  refine Eq.trans (congrArg Except.ok ?_) (add_ofFn m _).symm
  obtain ⟨hrows, hcols⟩ := Prod.mk.inj (shape_addAll m p f n)
  refine ext_entry hrows hcols fun r hr c hc => ?_
  rw [hrows] at hr
  rw [hcols] at hc
  have hadded : ∀ k e, (if p k = r * m.cols + c then e + f k else e) =
      e + if p k = r * m.cols + c then f k else 0 := fun k e => by
    split
    · rfl
    · exact (add_zero e).symm
  rw [entry_ofFn hr hc, entry, hcols, getD_addAll m p f ((position_lt hr hc).trans_eq
    m.size_data.symm)]
  simp only [hadded, foldl_eq_sum]
  rfl

/-- Each term is paired with the entry at its position. -/
theorem pairing_added {s : Shape} {p : Nat → Nat} {n : Nat} (h : ∀ k < n, p k < s.area)
    (f : Nat → E) (b : Matrix E) :
    pairing (added s p f n) b = ∑ k ∈ range n, f k * b.entry (p k / s.2) (p k % s.2) := by
  -- all entries, counted by their positions
  have hpositions : pairing (added s p f n) b = ∑ q ∈ range s.area,
      (∑ k ∈ range n, if p k = q then f k else 0) * b.entry (q / s.2) (q % s.2) := by
    rw [Shape.area, sum_range_mul, added, pairing_ofFn]
    refine sum_congr rfl fun r _ => sum_congr rfl fun c hc => ?_
    rw [position_div (mem_range.1 hc), position_mod (mem_range.1 hc)]
  rw [hpositions]
  simp only [sum_mul, ite_mul, zero_mul]
  rw [sum_comm]
  refine sum_congr rfl fun k hk => ?_
  rw [sum_ite_eq, if_pos (mem_range.2 (h k (mem_range.1 hk)))]

/-- The cells of a rectangle, each with the entry at its position. -/
theorem pairing_rect {rect : Rect} {s : Shape} (h : rect.Inside s) (f : Nat → E) (b : Matrix E) :
    pairing (added s (fun k => rect.position s (k / rect.width) (k % rect.width)) f
      rect.shape.area) b =
      ∑ r ∈ range rect.height, ∑ c ∈ range rect.width, f (r * rect.width + c) *
        b.entry (rect.position s r c / s.2) (rect.position s r c % s.2) := by
  have harea : rect.shape.area = rect.height * rect.width := rfl
  rw [pairing_added h, harea, sum_range_mul]
  refine sum_congr rfl fun r _ => sum_congr rfl fun c hc => ?_
  rw [position_div (mem_range.1 hc), position_mod (mem_range.1 hc)]

/-- Along the copy of a rectangle. -/
theorem pullback_block {rect : Rect} {s : Shape} {g : Matrix E}
    (h : rect.Admitted s ∧ rect.Inside s) (hg : g.shape = rect.shape) :
    Pullback (·.block rect) s g (added s
      (fun k => rect.position s (k / rect.width) (k % rect.width)) (g.data.getD · 0)
      rect.shape.area) := by
  refine ⟨rfl, fun x hx => ⟨_, block_ok (hx ▸ h), hg.symm, ?_⟩⟩
  subst hx
  obtain ⟨-, hcols⟩ := Prod.mk.inj hg
  rw [pairing_rect h.2, pairing_ofFn_right hg]
  refine sum_congr rfl fun r _ => sum_congr rfl fun c _ => ?_
  rw [getD_eq_entry x, entry, hcols]
  rfl

/-! ## Flattening -/

/-- The terms of a stretch, for a matrix that is read column by column. -/
theorem pairing_stretch {s : Shape} {b : Matrix E} (h : b.shape = s) (f : Nat → E) (start : Nat) :
    pairing (ofFn s.1 s.2 fun r c => f (start + (c * s.1 + r))) b =
      ∑ k ∈ range (s.1 * s.2), f (start + k) * b.byColumns.getD k 0 := by
  subst h
  have hentry : ∀ c < b.cols, ∀ r < b.rows, b.byColumns.getD (c * b.rows + r) 0 = b.entry r c := by
    intro c hc r hr
    rw [← entry_transpose b hc hr, entry, byColumns, Array.getD_eq_getD_getElem?,
      List.getD_eq_getElem?_getD, Array.getElem?_toList]
    rfl
  rw [pairing_ofFn, sum_comm, Nat.mul_comm, sum_range_mul]
  exact sum_congr rfl fun c hc => sum_congr rfl fun r hr =>
    congrArg _ (hentry c (mem_range.1 hc) r (mem_range.1 hr)).symm

/-- The sum along a list of entries that is put together from two. -/
theorem sum_append (f : Nat → E) (l l' : List E) :
    ∑ k ∈ range (l ++ l').length, f k * (l ++ l').getD k 0 =
      ∑ k ∈ range l.length, f k * l.getD k 0 +
        ∑ k ∈ range l'.length, f (l.length + k) * l'.getD k 0 := by
  rw [List.length_append, sum_range_add]
  congr 1
  · refine sum_congr rfl fun k hk => ?_
    rw [List.getD_append _ _ _ _ (mem_range.1 hk)]
  · refine sum_congr rfl fun k _ => ?_
    rw [List.getD_append_right _ _ _ _ (Nat.le_add_right _ _), Nat.add_sub_cancel_left]

/-- A column is paired along its data. -/
theorem pairing_column {g : Matrix E} {l : List E} (h : g.shape = (l.length, 1)) :
    pairing g (column l) = ∑ k ∈ range l.length, g.data.getD k 0 * l.getD k 0 := by
  obtain ⟨hrows, hcols⟩ := Prod.mk.inj h
  rw [pairing, hrows, hcols]
  refine sum_congr rfl fun k _ => ?_
  simp [entry, column, hcols, Array.getD_eq_getD_getElem?, List.getD_eq_getElem?_getD]

end Matrix

end DiffGraph
