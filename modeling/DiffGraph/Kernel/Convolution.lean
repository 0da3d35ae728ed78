/-
  Convolution of a matrix with a square kernel, and its gradients.

  The kernel is laid on the input wherever it fits.  `convolve` adds, at each
  place, the products of the covered entries to the bias.  The gradient with
  respect to the kernel is divided by the square root of the number of places,
  so that it does not grow with the size of the output.
-/
import DiffGraph.Matrix.Rect

namespace DiffGraph.Matrix

variable {E : Type} [Arith E]

/-- Adds up `f r c` over the cells of a shape in row-major order. -/
def accumulate (rows cols : Nat) (f : Nat → Nat → E) (start : E) : E :=
  (List.range rows).foldl
    (fun acc r => (List.range cols).foldl (fun acc c => acc + f r c) acc) start

/-- The convolution of `input` with a kernel of extent `size`, plus a bias. -/
def convolve (size : Nat) (input kernel bias : Matrix E) : Except Failure (Matrix E) :=
  if size = 0 ∨ kernel.shape ≠ (size, size) then
    .error (.shapeMismatch (size, size) kernel.shape "convolution kernel")
  else if input.rows < size ∨ input.cols < size then
    .error (.shapeMismatch (size, size) input.shape "convolution input")
  else if ¬ bias.isScalar then
    .error (.shapeMismatch (1, 1) bias.shape "convolution bias")
  else
    .ok <| ofFn (input.rows - size + 1) (input.cols - size + 1) fun r c =>
      accumulate size size (fun i j => input.entry (r + i) (c + j) * kernel.entry i j)
        (bias.entry 0 0)

/-- The gradient of the input: the kernel times the gradient of each place, laid
back on the entries that the place covers. -/
def convolveInput (input kernel grad : Matrix E) : Except Failure (Matrix E) :=
  (List.range grad.rows).foldlM
    (fun acc r => (List.range grad.cols).foldlM
      (fun acc c => acc.addBlock r c (kernel.map (· * grad.entry r c))) acc)
    (zeros input.rows input.cols)

/-- The gradient of the kernel. -/
def convolveKernel (size : Nat) (input grad : Matrix E) : Matrix E :=
  let norm : E := Arith.sqrt (grad.rows * grad.cols : Nat)
  ofFn size size fun i j =>
    let term r c := input.entry (r + i) (c + j) * grad.entry r c
    accumulate grad.rows grad.cols term 0 / norm

end DiffGraph.Matrix
