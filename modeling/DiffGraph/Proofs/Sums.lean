/-
  Sums in any order.

  Where addition is associative and commutative, the order in which sums are built up
  does not matter, and neither does it matter which parts are added up first.

  * `LawfulSum`: what is asked of addition; of the other operations nothing is asked;
  * `total`: the elements of a list added up from zero; totals of parts
    (`LawfulSum.total_flatMap`) in any order (`LawfulSum.total_perm`);
  * `Matrix.foldlM_add_parts`: the same for matrices, which are added entry by entry.
-/
import Mathlib
import DiffGraph.Proofs.Entries
import DiffGraph.Proofs.Exact

namespace DiffGraph

variable {E : Type} [Zero E] [Add E]

/-- Addition is associative and commutative, and zero is neutral. -/
structure LawfulSum (E : Type) [Zero E] [Add E] : Prop where
  assoc : ∀ x y z : E, x + y + z = x + (y + z)
  comm : ∀ x y : E, x + y = y + x
  zero_add : ∀ x : E, 0 + x = x

/-- Exact addition. -/
theorem lawfulSum_exact {E : Type} [Exact E] : LawfulSum E := ⟨add_assoc, add_comm, zero_add⟩

theorem lawfulSum_rat : LawfulSum ℚ := lawfulSum_exact

/-- The elements of a list, added up from zero. -/
def total (xs : List E) : E := xs.foldl (· + ·) 0

namespace LawfulSum

/-- The elements as a monoid. -/
abbrev addCommMonoid (h : LawfulSum E) : AddCommMonoid E where
  add_assoc := h.assoc
  zero_add := h.zero_add
  add_zero x := by rw [h.comm, h.zero_add]
  add_comm := h.comm
  nsmul := nsmulRec

theorem foldl_add (h : LawfulSum E) (xs : List E) (x : E) : xs.foldl (· + ·) x = x + total xs := by
  induction xs generalizing x with
  | nil =>
    show x = x + 0
    rw [h.comm, h.zero_add]
  | cons y xs ih =>
    rw [total, List.foldl_cons, List.foldl_cons, ih, ih (0 + y), h.zero_add, h.assoc]

theorem total_cons (h : LawfulSum E) (x : E) (xs : List E) : total (x :: xs) = x + total xs := by
  rw [total, List.foldl_cons, h.foldl_add, h.zero_add]

theorem total_append (h : LawfulSum E) (xs ys : List E) :
    total (xs ++ ys) = total xs + total ys := by
  rw [total, List.foldl_append]
  exact h.foldl_add ys (total xs)

/-- The order does not matter. -/
theorem total_perm (h : LawfulSum E) {xs ys : List E} (hp : xs.Perm ys) : total xs = total ys :=
  hp.foldl_eq' (fun x _ y _ z => by rw [h.assoc, h.comm x y, h.assoc]) 0

/-- Parts can be added up first. -/
theorem total_flatMap (h : LawfulSum E) {ι : Type} (js : List ι) (part : ι → List E) :
    total (js.flatMap part) = total (js.map fun j => total (part j)) := by
  induction js with
  | nil => rfl
  | cons j js ih => rw [List.flatMap_cons, h.total_append, List.map_cons, h.total_cons, ih]

end LawfulSum

namespace Matrix

/-- A sum has the shape it starts with. -/
theorem shape_foldlM_add {E : Type} [Add E] {ms : List (Matrix E)} {m sum : Matrix E}
    (h : ms.foldlM add m = .ok sum) : sum.shape = m.shape := by
  induction ms generalizing m with
  | nil =>
    cases h
    rfl
  | cons a ms ih =>
    obtain ⟨m', hm, h⟩ := bind_eq_ok.1 h
    exact (ih h).trans (shape_of_zipWith hm)

/-- One more matrix is added to a sum. -/
theorem foldlM_add_concat {E ι : Type} [Add E] {f : ι → Matrix E} {js : List ι} {j : ι}
    {start sum sum' : Matrix E} (h : (js.map f).foldlM add start = .ok sum)
    (hj : sum.add (f j) = .ok sum') : ((js ++ [j]).map f).foldlM add start = .ok sum' := by
  rw [List.map_append, List.foldlM_append, h, ok_bind, List.map_singleton, List.foldlM_cons, hj]
  rfl

/-- Matrices of one shape can be added up. -/
theorem exists_foldlM_add {ms : List (Matrix E)} {rows cols : Nat}
    (h : ∀ a ∈ ms, a.shape = (rows, cols)) : ∃ m, ms.foldlM add (zeros rows cols) = .ok m := by
  have hstep : ∀ a ∈ ms, ∀ m : Matrix E, m.shape = (rows, cols) →
      ∃ m', m.add a = .ok m' ∧ m'.shape = (rows, cols) := by
    intro a ha m hm
    obtain ⟨m', hm'⟩ : ∃ m', m.add a = .ok m' := ⟨_, zipWith_eq (hm.trans (h a ha).symm)⟩
    exact ⟨m', hm', (shape_of_zipWith hm').trans hm⟩
  have hzeros : (zeros rows cols : Matrix E).shape = (rows, cols) := rfl
  obtain ⟨m, hm, -⟩ := exists_foldlM hstep hzeros
  exact ⟨m, hm⟩

theorem entry_add {a b m : Matrix E} (h : a.add b = .ok m) {i j : Nat} (hi : i < a.rows)
    (hj : j < a.cols) : m.entry i j = a.entry i j + b.entry i j := by
  have hs := shape_eq_of_zipWith h
  rw [add, zipWith_eq hs] at h
  cases h
  exact entry_ofFn hi hj

/-- Matrices are added entry by entry. -/
theorem entry_foldlM_add {ms : List (Matrix E)} {m sum : Matrix E} (h : ms.foldlM add m = .ok sum)
    {i j : Nat} (hi : i < m.rows) (hj : j < m.cols) :
    sum.entry i j = (ms.map fun a => a.entry i j).foldl (· + ·) (m.entry i j) := by
  induction ms generalizing m with
  | nil =>
    cases h
    rfl
  | cons a ms ih =>
    obtain ⟨m', hm, h⟩ := bind_eq_ok.1 h
    obtain ⟨hrows, hcols⟩ := Prod.mk.inj (shape_of_zipWith hm)
    rw [ih h (hi.trans_eq hrows.symm) (hj.trans_eq hcols.symm), entry_add hm hi hj]
    rfl

theorem entry_zeros {E : Type} [Zero E] {rows cols i j : Nat} (hi : i < rows) (hj : j < cols) :
    (zeros rows cols : Matrix E).entry i j = 0 := by
  simp [entry, zeros, filled, Array.getD, position_lt hi hj]

/-- The entries of a sum that starts from zero. -/
theorem entry_sum {rows cols : Nat} {ms : List (Matrix E)} {sum : Matrix E}
    (h : ms.foldlM add (zeros rows cols) = .ok sum) {i j : Nat} (hi : i < rows) (hj : j < cols) :
    sum.entry i j = total (ms.map fun a => a.entry i j) := by
  rw [entry_foldlM_add h hi hj, entry_zeros hi hj]
  rfl

/-- **Sums of parts, added up, are the sum of all**, in whatever order the matrices come. -/
theorem foldlM_add_parts (hE : LawfulSum E) {ι : Type} {js : List ι} {part : ι → List (Matrix E)}
    {sum : ι → Matrix E} {all : List (Matrix E)} {rows cols : Nat} {m m' : Matrix E}
    (hpart : ∀ j ∈ js, (part j).foldlM add (zeros rows cols) = .ok (sum j))
    (hsum : (js.map sum).foldlM add (zeros rows cols) = .ok m)
    (hall : all.foldlM add (zeros rows cols) = .ok m') (hp : (js.flatMap part).Perm all) :
    m = m' := by
  have hs : m.shape = (rows, cols) := shape_foldlM_add hsum
  have hs' : m'.shape = (rows, cols) := shape_foldlM_add hall
  obtain ⟨hrows, hcols⟩ := Prod.mk.inj hs
  obtain ⟨hrows', hcols'⟩ := Prod.mk.inj hs'
  refine ext_entry (hrows.trans hrows'.symm) (hcols.trans hcols'.symm) fun r hr c hc => ?_
  rw [hrows] at hr
  rw [hcols] at hc
  calc m.entry r c = total (js.map fun j => (sum j).entry r c) := by
        rw [entry_sum hsum hr hc, List.map_map]
        rfl
    _ = total (js.map fun j => total ((part j).map fun a => a.entry r c)) := by
        congr 1
        exact List.map_congr_left fun j hj => entry_sum (hpart j hj) hr hc
    _ = total ((js.flatMap part).map fun a => a.entry r c) := by
        rw [← hE.total_flatMap, List.map_flatMap]
    _ = total (all.map fun a => a.entry r c) := hE.total_perm (hp.map _)
    _ = m'.entry r c := (entry_sum hall hr hc).symm

/-- A sum without entries adds nothing. -/
theorem add_of_isEmpty {a b : Matrix E} (hs : a.shape = b.shape) (hb : b.isEmpty = true) :
    a.add b = .ok a := by
  obtain ⟨m, hm⟩ : ∃ m, a.add b = .ok m := ⟨_, zipWith_eq hs⟩
  have hshape := shape_of_zipWith hm
  obtain ⟨hrows, hcols⟩ := Prod.mk.inj hshape
  have hzero : a.rows * a.cols = 0 := by
    rw [isEmpty_iff, ← hs] at hb
    exact hb
  rw [hm]
  refine congrArg Except.ok (ext_entry hrows hcols fun r hr c hc => ?_)
  rw [hrows] at hr
  rw [hcols] at hc
  exact absurd hzero (Nat.mul_pos (Nat.zero_lt_of_lt hr) (Nat.zero_lt_of_lt hc)).ne'

end Matrix

end DiffGraph
