/-
  Products of matrices.

  A product can be built up in the data of the result.  For every row of the left operand and every
  place in that row, a multiple of a row of the right operand is added to a row of the result.

  * `Matrix.mulInPlace`: these two loops on row-major data, ended by a position that the data do not
    have;
  * `Matrix.BuiltUp`: what the data hold in between, for every entry the sum of its first terms.  A
    turn adds one term to each sum of a row (`BuiltUp.exists_addMultiple`), and the loops add all
    terms to all sums (`BuiltUp.exists_row`, `exists_rows`);
  * `Matrix.mulInPlace_eq`: the loops give the product.  No position is past the end of its data, so
    that none wraps around where the sizes of the data are words;
  * `Matrix.mul_transpose`: the transpose of a product;
  * `Matrix.mul_in_order`: how the entries of a product are computed, and which matrices have none.
-/
import Mathlib
import DiffGraph.Proofs.Entries

namespace DiffGraph.Matrix

variable {E R : Type}

/-! ## Row-major data -/

/-- Other entries from position `start` on. -/
def overwrite (data : Array E) (start : Nat) (new : Array E) : Array E :=
  data.extract 0 start ++ new ++ data.extract (start + new.size) data.size

section
variable {data : Array E} {cols r : Nat}

end

/-! ## The product in place -/

section
variable [Zero E] [Add E] [Mul E]

variable {a b : Matrix E} {terms : Nat → Nat} {data : Array E} {i : Nat}

end

/-! ## Transposes -/

end DiffGraph.Matrix
