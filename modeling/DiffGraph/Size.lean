/-
  Sizes, shapes and rectangles.

  Sizes are machine words.  Their sums and products wrap around, which a caller
  sees only with offsets near the top of the range: a rectangle then ends before
  it begins, and its cells have positions that belong to other cells.
-/
namespace DiffGraph

/-- A size as a machine word holds it. -/
def word (n : Nat) : Nat := n % 0x10000000000000000

/-- Rows and columns. -/
abbrev Shape := Nat × Nat

namespace Shape

/-- The number of cells. -/
def area (s : Shape) : Nat := s.1 * s.2

/-- The position of a cell in row-major data.  One that the data do not reach is
taken as a word. -/
def position (s : Shape) (r c : Nat) : Nat :=
  if r * s.2 + c < s.area then r * s.2 + c else word (r * s.2 + c)

/-- Where the data end within the words, all positions are taken as words. -/
theorem position_eq_word {s : Shape} (h : s.area ≤ 0x10000000000000000) (r c : Nat) :
    s.position r c = word (r * s.2 + c) := by
  unfold position
  split
  · next hlt => exact (Nat.mod_eq_of_lt (Nat.lt_of_lt_of_le hlt h)).symm
  · rfl

/-- `[rows, cols]` -/
def text (s : Shape) : String := "[" ++ toString s.1 ++ ", " ++ toString s.2 ++ "]"

/-- rows, a cross, columns -/
def crossed (s : Shape) : String := toString s.1 ++ "x" ++ toString s.2

end Shape

/-- A rectangle of cells, given by its upper left cell and its extents. -/
structure Rect where
  row : Nat
  col : Nat
  height : Nat
  width : Nat
deriving DecidableEq, Repr

namespace Rect

def shape (r : Rect) : Shape := (r.height, r.width)

/-- The rectangle ends within a value of shape `s`, its ends taken as words. -/
def Admitted (r : Rect) (s : Shape) : Prop :=
  word (r.row + r.height) ≤ s.1 ∧ word (r.col + r.width) ≤ s.2

/-- The position of a cell of the rectangle in the data of a value of shape `s`. -/
def position (rect : Rect) (s : Shape) (r c : Nat) : Nat :=
  s.position (rect.row + r) (rect.col + c)

/-- Every cell of the rectangle, counted row by row, has a position that the data of
a value of shape `s` reach. -/
def Inside (rect : Rect) (s : Shape) : Prop :=
  ∀ k < rect.shape.area, rect.position s (k / rect.width) (k % rect.width) < s.area

/-- The cell belongs to the rectangle. -/
def Covers (r : Rect) (row col : Nat) : Prop :=
  r.row ≤ row ∧ row < r.row + r.height ∧ r.col ≤ col ∧ col < r.col + r.width

instance (r : Rect) (s : Shape) : Decidable (r.Admitted s) := inferInstanceAs (Decidable (_ ∧ _))
instance (r : Rect) (s : Shape) : Decidable (r.Inside s) :=
  inferInstanceAs (Decidable (∀ _ < _, _))
instance (r : Rect) (row col : Nat) : Decidable (r.Covers row col) :=
  inferInstanceAs (Decidable (_ ∧ _))

end Rect

end DiffGraph
