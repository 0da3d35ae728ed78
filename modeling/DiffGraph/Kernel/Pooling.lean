/-
  Maximum pooling.

  The windows are squares of extent `size` side by side; those at the lower and
  right edge are cut off.  `maxPool` keeps the maximum of each window.
  `unpool` moves the gradient of a window to the first of its cells, in
  row-major order, that holds the maximum.  Both act on each lane by itself.
-/
import DiffGraph.Matrix.Basic

namespace DiffGraph.Matrix

variable {E : Type} [Arith E]

/-- The window in row `i` and column `j` of the windows. -/
def window (m : Matrix E) (size i j : Nat) : Rect :=
  ⟨i * size, j * size, Nat.min size (m.rows - i * size), Nat.min size (m.cols - j * size)⟩

/-- The cells of a rectangle in row-major order. -/
def cells (rect : Rect) : List (Nat × Nat) :=
  (List.range rect.height).flatMap fun r =>
    (List.range rect.width).map fun c => (rect.row + r, rect.col + c)

/-- How many windows lie side by side along an axis of `length` cells. -/
def windowCount (length size : Nat) : Nat := word (length + size - 1) / size

/-- Windows of extent `size` in the arrangement `count` reach every entry. -/
def Tiled (m : Matrix E) (size : Nat) (count : Shape) : Prop :=
  m.isEmpty ∨ m.rows ≤ count.1 * size ∧ m.cols ≤ count.2 * size

instance (m : Matrix E) (size : Nat) (count : Shape) : Decidable (m.Tiled size count) :=
  inferInstanceAs (Decidable (_ ∨ _))

/-- The maximum of each window. -/
def maxPool (size : Nat) (m : Matrix E) : Except Failure (Matrix E) :=
  let count := (windowCount m.rows size, windowCount m.cols size)
  if size = 0 then .error .emptyWindow
  else if ¬ m.Tiled size count then .error .outOfRange
  else
    .ok <| ofFn count.1 count.2 fun i j =>
      match (cells (m.window size i j)).map fun (r, c) => m.entry r c with
      | [] => 0
      | e :: es => es.foldl Arith.max e

/-- Whether the gradient of a window goes to an entry: it has to be the maximum,
and no earlier entry may have taken the gradient. -/
def hit (peak taken entry : E) : E := Arith.eqMask entry peak * (1 - taken)

/-- The gradient of the input of pooling. -/
def unpool (size : Nat) (m pooled grad : Matrix E) : Except Failure (Matrix E) :=
  if size = 0 ∨ ¬ m.Tiled size pooled.shape then .error .outOfRange
  else
    .ok <| ofFn m.rows m.cols fun r c =>
      let (i, j) := (r / size, c / size)
      let peak := pooled.entry i j
      let earlier := (cells (m.window size i j)).takeWhile (· ≠ (r, c))
      let taken := earlier.foldl (fun t (r, c) => t + hit peak t (m.entry r c)) 0
      0 + grad.entry i j * hit peak taken (m.entry r c)

end DiffGraph.Matrix
