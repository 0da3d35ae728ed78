/-
  Rectangles and the positions of their cells.

  * `Rect.Exceeds`: a rectangle reaches over an edge, its ends taken without a bound.  One that
    does not passes the checks, and its cells have the positions of the cells they are
    (`Rect.position_of_not_exceeds`);
  * `Rect.inside_iff`: the cells that are counted row by row are those of all rows and columns;
  * `Matrix.exists_block`: a rectangle within a matrix is copied out;
  * `Matrix.getD_addAll`: an entry receives what is added at its position, in order.
-/
import Mathlib
import DiffGraph.Proofs.Entries

namespace DiffGraph

variable {E : Type}

theorem Shape.position_of_lt {s : Shape} {r c : Nat} (hr : r < s.1) (hc : c < s.2) :
    s.position r c = r * s.2 + c := if_pos (Matrix.position_lt hr hc)

namespace Rect

variable {rect : Rect} {s : Shape}

/-- The rectangle reaches over the lower or the right edge of a value of shape `s`. -/
def Exceeds (rect : Rect) (s : Shape) : Prop :=
  s.1 < rect.row + rect.height ∨ s.2 < rect.col + rect.width

instance (rect : Rect) (s : Shape) : Decidable (rect.Exceeds s) :=
  inferInstanceAs (Decidable (_ ∨ _))

theorem not_exceeds_iff :
    ¬ rect.Exceeds s ↔ rect.row + rect.height ≤ s.1 ∧ rect.col + rect.width ≤ s.2 := by
  rw [Exceeds, not_or, not_lt, not_lt]

/-- The cells of a rectangle, counted row by row. -/
theorem forall_lt_area_iff {height width : Nat} {P : Nat → Nat → Prop} :
    (∀ k < height * width, P (k / width) (k % width)) ↔
      ∀ r < height, ∀ c < width, P r c := by
  constructor
  · intro h r hr c hc
    have hP := h (r * width + c) (Matrix.position_lt hr hc)
    rwa [Matrix.position_div hc, Matrix.position_mod hc] at hP
  · intro h k hk
    have hpos : 0 < width := Nat.pos_of_ne_zero fun h0 => by simp [h0] at hk
    exact h _ ((Nat.div_lt_iff_lt_mul hpos).2 hk) _ (Nat.mod_lt k hpos)

theorem inside_iff :
    rect.Inside s ↔ ∀ r < rect.height, ∀ c < rect.width, rect.position s r c < s.area :=
  forall_lt_area_iff (P := fun r c => rect.position s r c < s.area)

/-- A cell of a rectangle within the value has the position of the cell it is. -/
theorem position_of_not_exceeds (h : ¬ rect.Exceeds s) {r c : Nat} (hr : r < rect.height)
    (hc : c < rect.width) :
    rect.position s r c = (rect.row + r) * s.2 + (rect.col + c) := by
  obtain ⟨hrow, hcol⟩ := not_exceeds_iff.1 h
  exact Shape.position_of_lt (by omega) (by omega)

/-- A rectangle within a value passes both checks. -/
theorem admitted_of_not_exceeds (h : ¬ rect.Exceeds s) : rect.Admitted s ∧ rect.Inside s := by
  obtain ⟨hrow, hcol⟩ := not_exceeds_iff.1 h
  refine ⟨⟨(Nat.mod_le _ _).trans hrow, (Nat.mod_le _ _).trans hcol⟩, inside_iff.2 ?_⟩
  intro r hr c hc
  rw [position_of_not_exceeds h hr hc]
  exact Matrix.position_lt (by omega) (by omega)

end Rect

namespace Matrix

variable {m : Matrix E} {rect : Rect}

theorem checkRect_ok (h : rect.Admitted m.shape ∧ rect.Inside m.shape) :
    m.checkRect rect = .ok () := by
  rw [checkRect, if_neg (not_not_intro h.1), if_neg (not_not_intro h.2)]

theorem checkRect_of_not_admitted (h : ¬ rect.Admitted m.shape) :
    m.checkRect rect = .error (.rectOutside rect m.shape) := if_pos h

theorem checkRect_of_not_inside (h : rect.Admitted m.shape) (hi : ¬ rect.Inside m.shape) :
    m.checkRect rect = .error .outOfRange := by
  rw [checkRect, if_neg (not_not_intro h), if_pos hi]

section
variable [Zero E]

theorem block_ok (h : rect.Admitted m.shape ∧ rect.Inside m.shape) :
    m.block rect = .ok (ofFn rect.height rect.width fun r c =>
      m.data.getD (rect.position m.shape r c) 0) := by
  rw [block, checkRect_ok h]
  rfl

theorem block_of_error {e : Failure} (h : m.checkRect rect = .error e) :
    m.block rect = .error e := by
  rw [block, h]
  rfl

/-- **A rectangle within a matrix** is copied out. -/
theorem exists_block (h : ¬ rect.Exceeds m.shape) :
    ∃ v, m.block rect = .ok v ∧ v.shape = rect.shape ∧ ∀ r < rect.height, ∀ c < rect.width,
      v.entry r c = m.entry (rect.row + r) (rect.col + c) := by
  refine ⟨_, block_ok (Rect.admitted_of_not_exceeds h), rfl, fun r hr c hc => ?_⟩
  rw [entry_ofFn hr hc, Rect.position_of_not_exceeds h hr hc]
  rfl

end

/-! ## Adding at positions -/

section
variable [Add E]

theorem addAll_succ (m : Matrix E) (p : Nat → Nat) (f : Nat → E) (n : Nat) :
    m.addAll p f (n + 1) = (m.addAll p f n).addAt (p n) (f n) := by
  rw [addAll, List.range_succ, List.foldl_append]
  rfl

theorem shape_addAll (m : Matrix E) (p : Nat → Nat) (f : Nat → E) (n : Nat) :
    (m.addAll p f n).shape = m.shape := by
  induction n with
  | zero => rfl
  | succ n ih => rw [addAll_succ]; exact ih

variable [Zero E]

theorem getD_addAt (m : Matrix E) (k : Nat) (e : E) {i : Nat} (hi : i < m.data.size) :
    (m.addAt k e).data.getD i 0 = if k = i then m.data.getD i 0 + e else m.data.getD i 0 := by
  have hi' : i < (m.data.modify k (· + e)).size := by rwa [Array.size_modify]
  simp only [addAt, Array.getD, hi, hi', dif_pos, Array.getInternal_eq_getElem,
    Array.getElem_modify]

/-- **An entry receives what is added at its position**, in order. -/
theorem getD_addAll (m : Matrix E) (p : Nat → Nat) (f : Nat → E) {i : Nat}
    (hi : i < m.data.size) (n : Nat) :
    (m.addAll p f n).data.getD i 0 =
      (List.range n).foldl (fun e k => if p k = i then e + f k else e) (m.data.getD i 0) := by
  induction n with
  | zero => rfl
  | succ n ih =>
    have hsize : (m.addAll p f n).data.size = m.data.size := by
      rw [(m.addAll p f n).size_data, m.size_data]
      exact congrArg Shape.area (shape_addAll m p f n)
    rw [addAll_succ, getD_addAt _ _ _ (hi.trans_eq hsize.symm), ih, List.range_succ,
      List.foldl_append]
    rfl

theorem addBlock_ok {row col : Nat} {other : Matrix E}
    (h : Rect.Admitted ⟨row, col, other.rows, other.cols⟩ m.shape ∧
      Rect.Inside ⟨row, col, other.rows, other.cols⟩ m.shape) :
    m.addBlock row col other = .ok (m.addAll
      (fun k => Rect.position ⟨row, col, other.rows, other.cols⟩ m.shape (k / other.cols)
        (k % other.cols)) (other.data.getD · 0) other.size) := by
  rw [addBlock, checkRect_ok h]
  rfl

theorem addBlock_of_error {row col : Nat} {other : Matrix E} {e : Failure}
    (h : m.checkRect ⟨row, col, other.rows, other.cols⟩ = .error e) :
    m.addBlock row col other = .error e := by
  rw [addBlock, h]
  rfl

end

end Matrix

end DiffGraph
