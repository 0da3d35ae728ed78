/-
  A matrix is its shape and its entries.

  * `entry_ofFn`: the entries of `ofFn` are those it was made from;
  * `ext_entry`: matrices of one shape with the same entries are equal.
-/
import DiffGraph.Matrix.Basic

namespace DiffGraph.Matrix

variable {E : Type}

theorem position_lt {rows cols r c : Nat} (hr : r < rows) (hc : c < cols) :
    r * cols + c < rows * cols :=
  calc r * cols + c < r * cols + cols := Nat.add_lt_add_left hc _
    _ = (r + 1) * cols := (Nat.succ_mul r cols).symm
    _ ≤ rows * cols := Nat.mul_le_mul_right cols hr

theorem position_div {r c cols : Nat} (hc : c < cols) : (r * cols + c) / cols = r := by
  rw [Nat.mul_comm, Nat.mul_add_div (Nat.zero_lt_of_lt hc), Nat.div_eq_of_lt hc, Nat.add_zero]

theorem position_mod {r c cols : Nat} (hc : c < cols) : (r * cols + c) % cols = c := by
  rw [Nat.mul_comm, Nat.mul_add_mod, Nat.mod_eq_of_lt hc]

@[simp] theorem rows_ofFn {rows cols : Nat} {f : Nat → Nat → E} :
    (ofFn rows cols f).rows = rows := rfl

@[simp] theorem cols_ofFn {rows cols : Nat} {f : Nat → Nat → E} :
    (ofFn rows cols f).cols = cols := rfl

theorem entry_ofFn [Zero E] {rows cols r c : Nat} {f : Nat → Nat → E} (hr : r < rows)
    (hc : c < cols) : (ofFn rows cols f).entry r c = f r c := by
  simp [entry, ofFn, Array.getD, position_lt hr hc, position_div hc, position_mod hc]

theorem ext_entry [Zero E] {a b : Matrix E} (hrows : a.rows = b.rows) (hcols : a.cols = b.cols)
    (h : ∀ r < a.rows, ∀ c < a.cols, a.entry r c = b.entry r c) : a = b := by
  obtain ⟨rows, cols, data, hdata⟩ := a
  obtain ⟨rows', cols', data', hdata'⟩ := b
  obtain rfl : rows = rows' := hrows
  obtain rfl : cols = cols' := hcols
  suffices data = data' by subst this; rfl
  refine Array.ext (hdata.trans hdata'.symm) fun k hk hk' => ?_
  have hk₂ : k < rows * cols := hdata ▸ hk
  have hpos : 0 < cols := Nat.pos_of_ne_zero fun h0 => by simp [h0] at hk₂
  have hk₃ : k / cols * cols + k % cols = k := Nat.div_add_mod' k cols
  have := h (k / cols) ((Nat.div_lt_iff_lt_mul hpos).2 hk₂) (k % cols) (Nat.mod_lt k hpos)
  simpa [entry, hk₃, Array.getD, hk, hk'] using this

end DiffGraph.Matrix
