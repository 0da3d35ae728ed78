/-
  Rectangles of a matrix.

  The ends of a rectangle are checked, and then its cells are read and written at
  their positions in the data, whatever cells these belong to.
-/
import DiffGraph.Matrix.Basic

namespace DiffGraph.Matrix

variable {E : Type} [Zero E]

/-- What a rectangle may be used for: it has to end within the matrix, and the
positions of its cells have to be there. -/
def checkRect (m : Matrix E) (rect : Rect) : Except Failure Unit :=
  if ¬ rect.Admitted m.shape then .error (.rectOutside rect m.shape)
  else if ¬ rect.Inside m.shape then .error .outOfRange
  else .ok ()

/-- Copies a rectangle out. -/
def block (m : Matrix E) (rect : Rect) : Except Failure (Matrix E) := do
  m.checkRect rect
  return ofFn rect.height rect.width fun r c => m.data.getD (rect.position m.shape r c) 0

/-- Adds to the entry at a position of the data. -/
def addAt [Add E] (m : Matrix E) (k : Nat) (e : E) : Matrix E :=
  ⟨m.rows, m.cols, m.data.modify k (· + e), by simp [m.size_data]⟩

/-- Adds to the entries at the positions `p k`, for `k` below `n`, one after another. -/
def addAll [Add E] (m : Matrix E) (p : Nat → Nat) (f : Nat → E) (n : Nat) : Matrix E :=
  (List.range n).foldl (fun m k => m.addAt (p k) (f k)) m

/-- Adds a matrix into the rectangle of its shape at `(row, col)`, entry by entry. -/
def addBlock [Add E] (m : Matrix E) (row col : Nat) (other : Matrix E) :
    Except Failure (Matrix E) := do
  let rect : Rect := ⟨row, col, other.rows, other.cols⟩
  m.checkRect rect
  return m.addAll (fun k => rect.position m.shape (k / other.cols) (k % other.cols))
    (other.data.getD · 0) other.size

end DiffGraph.Matrix
