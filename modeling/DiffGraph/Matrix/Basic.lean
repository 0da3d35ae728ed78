/-
  Matrices.

  A `Matrix E` holds `rows * cols` entries in row-major order.  Every value and
  every gradient of a graph is one; a number is a matrix of one row and one
  column.

  * `ofFn` makes a matrix from its entries, `entry` reads one.
  * `position?` reads a position of the row-major data, whatever column it
    belongs to.
  * Operations on two matrices compare the shapes first.
-/
import DiffGraph.Lanes
import DiffGraph.Step

namespace DiffGraph

/-- Entries in row-major order. -/
structure Matrix (E : Type) where
  rows : Nat
  cols : Nat
  data : Array E
  size_data : data.size = rows * cols

namespace Matrix

variable {E F : Type}

/-- The matrix without entries. -/
def empty : Matrix E := ⟨0, 0, #[], rfl⟩

instance : Inhabited (Matrix E) := ⟨empty⟩

def shape (m : Matrix E) : Shape := (m.rows, m.cols)

/-- The number of entries. -/
def size (m : Matrix E) : Nat := m.data.size

def isEmpty (m : Matrix E) : Bool := m.data.isEmpty

/-- A single entry. -/
def isScalar (m : Matrix E) : Bool := m.rows == 1 && m.cols == 1

/-- Equal shapes and equal entries. -/
instance [BEq E] : BEq (Matrix E) where
  beq a b := a.rows == b.rows && a.cols == b.cols && a.data == b.data

/-- The matrix whose entry in row `r` and column `c` is `f r c`. -/
def ofFn (rows cols : Nat) (f : Nat → Nat → E) : Matrix E where
  rows := rows
  cols := cols
  data := Array.ofFn fun k : Fin (rows * cols) => f (k / cols) (k % cols)
  size_data := Array.size_ofFn

/-- The same entry everywhere. -/
def filled (rows cols : Nat) (e : E) : Matrix E :=
  ⟨rows, cols, Array.replicate (rows * cols) e, Array.size_replicate⟩

def zeros [Zero E] (rows cols : Nat) : Matrix E := filled rows cols 0

/-- A number as a matrix. -/
def scalar (e : E) : Matrix E := ⟨1, 1, #[e], rfl⟩

/-- A matrix of given data, which has to fill the shape. -/
def ofData (rows cols : Nat) (data : Array E) : Except Failure (Matrix E) :=
  if h : data.size = rows * cols then .ok ⟨rows, cols, data, h⟩
  else .error (.dataLength data.size (rows, cols))

/-- One column. -/
def column (data : List E) : Matrix E := ⟨data.length, 1, data.toArray, by simp⟩

/-- The entry in row `r` and column `c`, zero outside the shape. -/
def entry [Zero E] (m : Matrix E) (r c : Nat) : E := m.data.getD (r * m.cols + c) 0

/-- The entry in row `r` and column `c`, if the shape has it. -/
def get? (m : Matrix E) (r c : Nat) : Option E :=
  if r < m.rows ∧ c < m.cols then m.data[r * m.cols + c]? else none

/-- The entry at position `r * cols + c` of the data, if the data reach so far. -/
def position? (m : Matrix E) (r c : Nat) : Option E := m.data[m.shape.position r c]?

/-- Replaces the entry at position `r * cols + c` of the data. -/
def setPosition? (m : Matrix E) (r c : Nat) (e : E) : Option (Matrix E) :=
  if h : m.shape.position r c < m.data.size then
    some ⟨m.rows, m.cols, m.data.set (m.shape.position r c) e, by simp [m.size_data]⟩
  else none

/-- Replaces the entry in row `r` and column `c`, if the shape has it. -/
def set (m : Matrix E) (r c : Nat) (e : E) : Matrix E :=
  if r < m.rows ∧ c < m.cols then
    ⟨m.rows, m.cols, m.data.setIfInBounds (r * m.cols + c) e, by simp [m.size_data]⟩
  else m

/-- The entry of a number. -/
def toScalar [Zero E] (m : Matrix E) : Except Failure E :=
  if m.isScalar then .ok (m.entry 0 0) else .error (.shapeMismatch (1, 1) m.shape "to_scalar")

/-- Acts on every entry. -/
def map (f : E → F) (m : Matrix E) : Matrix F :=
  ⟨m.rows, m.cols, m.data.map f, by simp [m.size_data]⟩

/-- The same entry everywhere, in the shape of `m`. -/
def fill (m : Matrix E) (e : F) : Matrix F := m.map fun _ => e

/-- Acts on every entry, in row-major order. -/
def mapM {m : Type → Type} [Monad m] (f : E → m F) (a : Matrix E) : m (Matrix F) := do
  let v ← (Vector.mk a.data a.size_data).mapM f
  return ⟨a.rows, a.cols, v.toArray, v.size_toArray⟩

/-- Combines two matrices of one shape entry by entry. -/
def zipWith {G : Type} (operation : String) (f : E → F → G) (a : Matrix E) (b : Matrix F) :
    Except Failure (Matrix G) :=
  if h : a.rows = b.rows ∧ a.cols = b.cols then
    .ok ⟨a.rows, a.cols, Array.zipWith f a.data b.data, by
      simp [a.size_data, b.size_data, h.1, h.2]⟩
  else .error (.shapeMismatch a.shape b.shape operation)

/-- Sum entry by entry, as a running total adds it. -/
def add [Add E] (a b : Matrix E) : Except Failure (Matrix E) := zipWith "add_assign" (· + ·) a b

/-- Adds the same element to every entry. -/
def addEach [Add E] (m : Matrix E) (e : E) : Matrix E := m.map (· + e)

/-- The entries added up from zero, in row-major order. -/
def sum [Zero E] [Add E] (m : Matrix E) : E := m.data.toList.foldl (· + ·) 0

/-- The largest entry, lane by lane. -/
def largest? [Arith E] (m : Matrix E) : Option E :=
  match m.data.toList with
  | [] => none
  | e :: es => some (es.foldl Arith.max e)

def transpose [Zero E] (m : Matrix E) : Matrix E := ofFn m.cols m.rows fun r c => m.entry c r

/-- One row as a list. -/
def row [Zero E] (m : Matrix E) (r : Nat) : List E := (List.range m.cols).map (m.entry r)

/-- Product.  Each row of the result is built up by adding multiples of the rows
of the right operand, in their order. -/
def mul [Zero E] [Add E] [Mul E] (a b : Matrix E) : Except Failure (Matrix E) :=
  if a.cols = b.rows then
    .ok <| ofRows a.rows b.cols fun i =>
      (List.range a.cols).foldl
        (fun acc k => List.zipWith (fun o e => o + a.entry i k * e) acc (b.row k))
        (List.replicate b.cols 0)
  else .error (.shapeMismatch (a.cols, b.cols) b.shape "matmul")
where
  /-- A matrix from its rows; short rows are filled up with zeros.  Without
  columns there is nothing to compute, however many rows there are. -/
  ofRows (rows cols : Nat) (f : Nat → List E) : Matrix E :=
    let lines := (Array.range (if cols = 0 then 0 else rows)).map fun i => (f i).toArray
    ofFn rows cols fun r c => (lines.getD r #[]).getD c 0

/-- The row of the largest entry of a list of lanes; the first one wins. -/
def argmax {K : Type} [Scalar K] (lanes : List K) : Nat :=
  match lanes with
  | [] => 0
  | k :: ks =>
    ((ks.zipIdx 1).foldl (fun best (v, r) => if Scalar.lt best.1 v then (v, r) else best) (k, 0)).2

/-- The row of the largest entry of a column, judged on one lane. -/
def argmaxColumn {K : Type} [Scalar K] [Zero E] [Laned K E] (m : Matrix E) (col lane : Nat) :
    Except Failure Nat :=
  if m.cols ≤ col ∨ m.rows = 0 then .error (.indexOutside (0, col) m.shape)
  else
    match (List.range m.rows).mapM fun r => Laned.lane? (m.entry r col) lane with
    | some lanes => .ok (argmax lanes)
    | none => .error .outOfRange

end Matrix

end DiffGraph
