/-
  Entries of the results of matrix operations.

  Every operation is brought to the form `ofFn rows cols f`, from which its shape
  and its entries are read off: `map_eq`, `zipWith_eq`, `mul_eq`.  Nothing is
  assumed about the arithmetic; the sum in `mul_eq` is built up in the order of
  the inner index.  Matrices that hold a single number are treated by simp lemmas.

  A computation for every entry is one for the list of the data (`mapM_data`).
-/
import DiffGraph.Kernel.Flatten
import DiffGraph.Matrix.Lemmas
import DiffGraph.Matrix.Rect
import DiffGraph.Proofs.Runs
import Mathlib

namespace DiffGraph.Matrix

variable {E F G : Type}

theorem ofFn_congr {rows cols : Nat} {f g : Nat → Nat → E}
    (h : ∀ r < rows, ∀ c < cols, f r c = g r c) : ofFn rows cols f = ofFn rows cols g := by
  unfold ofFn
  congr 1
  refine congrArg Array.ofFn (funext fun k => ?_)
  have hpos : 0 < cols := Nat.pos_of_ne_zero fun h0 => by simpa [h0] using k.isLt
  exact h _ ((Nat.div_lt_iff_lt_mul hpos).2 k.isLt) _ (Nat.mod_lt _ hpos)

/-- A matrix is given by its data. -/
theorem eq_ofFn_of_data {m : Matrix E} {f : Nat → Nat → E}
    (h : ∀ k (hk : k < m.data.size), m.data[k] = f (k / m.cols) (k % m.cols)) :
    m = ofFn m.rows m.cols f := by
  obtain ⟨rows, cols, data, hdata⟩ := m
  unfold ofFn
  congr 1
  refine Array.ext (by simp [hdata]) fun k hk hk' => ?_
  simpa using h k hk

/-- A position belongs to the cell that is reached by counting row by row. -/
theorem getD_eq_entry [Zero E] (m : Matrix E) (k : Nat) :
    m.data.getD k 0 = m.entry (k / m.cols) (k % m.cols) := by
  rw [entry, Nat.div_add_mod']

/-- The data are the entries row by row. -/
theorem entry_div_mod [Zero E] (m : Matrix E) {k : Nat} (hk : k < m.data.size) :
    m.entry (k / m.cols) (k % m.cols) = m.data[k] := by
  simp [entry, Nat.div_add_mod', Array.getD, hk]

/-- What stands at the position of an entry. -/
theorem getElem?_position [Zero E] (m : Matrix E) {r c : Nat} (hr : r < m.rows) (hc : c < m.cols) :
    m.data[r * m.cols + c]? = some (m.entry r c) := by
  have hk : r * m.cols + c < m.data.size := (position_lt hr hc).trans_eq m.size_data.symm
  rw [entry, Array.getD, dif_pos hk]
  exact Array.getElem?_eq_getElem hk

/-- The data are the entries. -/
theorem mem_toList_iff [Zero E] {m : Matrix E} {x : E} :
    x ∈ m.data.toList ↔ ∃ r < m.rows, ∃ c < m.cols, m.entry r c = x := by
  rw [Array.mem_toList_iff]
  constructor
  · intro hx
    obtain ⟨k, hk, rfl⟩ := Array.mem_iff_getElem.1 hx
    have hk' : k < m.rows * m.cols := hk.trans_eq m.size_data
    have hpos : 0 < m.cols := Nat.pos_of_ne_zero fun h0 => by simp [h0] at hk'
    exact ⟨k / m.cols, (Nat.div_lt_iff_lt_mul hpos).2 hk', k % m.cols, Nat.mod_lt _ hpos,
      entry_div_mod m hk⟩
  · rintro ⟨r, hr, c, hc, rfl⟩
    exact Array.mem_of_getElem? (getElem?_position m hr hc)

theorem entry_transpose [Zero E] (m : Matrix E) {r c : Nat} (hr : r < m.cols) (hc : c < m.rows) :
    m.transpose.entry r c = m.entry c r := entry_ofFn hr hc

theorem map_eq [Zero E] (f : E → F) (m : Matrix E) :
    m.map f = ofFn m.rows m.cols fun r c => f (m.entry r c) :=
  eq_ofFn_of_data (m := m.map f) fun k hk => by
    have hk' : k < m.data.size := by simpa [map] using hk
    rw [show (m.map f).cols = m.cols from rfl, entry_div_mod m hk']
    simp [map]

theorem entry_map_of_lt [Zero E] [Zero F] (f : E → F) {m : Matrix E} {r c : Nat} (hr : r < m.rows)
    (hc : c < m.cols) : (m.map f).entry r c = f (m.entry r c) := by
  rw [map_eq, entry_ofFn hr hc]

theorem zipWith_eq [Zero E] [Zero F] {operation : String} {f : E → F → G} {a : Matrix E}
    {b : Matrix F} (h : a.shape = b.shape) :
    a.zipWith operation f b =
      .ok (ofFn a.rows a.cols fun r c => f (a.entry r c) (b.entry r c)) := by
  obtain ⟨rows, cols, x, hx⟩ := a
  obtain ⟨rows', cols', y, hy⟩ := b
  obtain ⟨rfl, rfl⟩ := Prod.mk.inj h
  rw [zipWith, dif_pos ⟨rfl, rfl⟩]
  refine congrArg Except.ok (eq_ofFn_of_data fun k hk => ?_)
  have hk' : k < x.size ∧ k < y.size := by simpa [hx, hy] using hk
  have hxk := entry_div_mod ⟨rows, cols, x, hx⟩ hk'.1
  have hyk := entry_div_mod ⟨rows, cols, y, hy⟩ hk'.2
  simp only at hxk hyk ⊢
  rw [hxk, hyk, Array.getElem_zipWith]

theorem add_ofFn [Zero E] [Add E] (m : Matrix E) (f : Nat → Nat → E) :
    m.add (ofFn m.rows m.cols f) = .ok (ofFn m.rows m.cols fun r c => m.entry r c + f r c) := by
  have hshape : m.shape = (ofFn m.rows m.cols f).shape := rfl
  rw [add, zipWith_eq hshape]
  refine congrArg Except.ok (ofFn_congr fun r hr c hc => ?_)
  rw [entry_ofFn hr hc]

/-- Only matrices of one shape are combined. -/
theorem shape_eq_of_zipWith {operation : String} {f : E → F → G} {a : Matrix E} {b : Matrix F}
    {m : Matrix G} (h : a.zipWith operation f b = .ok m) : a.shape = b.shape := by
  unfold zipWith at h
  split at h
  · next hs => exact Prod.ext hs.1 hs.2
  · cases h

theorem shape_of_zipWith {operation : String} {f : E → F → G} {a : Matrix E} {b : Matrix F}
    {m : Matrix G} (h : a.zipWith operation f b = .ok m) : m.shape = a.shape := by
  unfold zipWith at h
  split at h
  · cases h; rfl
  · cases h

theorem shape_of_block [Zero E] {m b : Matrix E} {rect : Rect} (h : m.block rect = .ok b) :
    (rect.Admitted m.shape ∧ rect.Inside m.shape) ∧ b.shape = rect.shape := by
  unfold block checkRect at h
  by_cases h₁ : rect.Admitted m.shape
  · by_cases h₂ : rect.Inside m.shape
    · simp only [h₁, h₂, not_true_eq_false, if_false, ok_bind] at h
      cases h
      exact ⟨⟨h₁, h₂⟩, rfl⟩
    · simp only [h₁, h₂, not_true_eq_false, not_false_eq_true, if_false, if_true] at h
      cases h
  · simp only [h₁, not_false_eq_true, if_true] at h
    cases h

theorem size_eq_area (m : Matrix E) : m.size = m.shape.area := m.size_data

theorem isEmpty_iff (m : Matrix E) : m.isEmpty = true ↔ m.shape.area = 0 := by
  rw [isEmpty, Array.isEmpty_iff_size_eq_zero, ← size_eq_area]
  rfl

theorem length_byColumns [Zero E] (m : Matrix E) : m.byColumns.length = m.size := by
  rw [byColumns, Array.length_toList, m.transpose.size_data, size, m.size_data]
  exact Nat.mul_comm m.cols m.rows

theorem shape_flatten [Zero E] (members : List (Matrix E)) :
    (flatten members).shape = ((members.map size).sum, 1) := by
  have hlength : (members.flatMap byColumns).length = (members.map size).sum := by
    rw [List.length_flatMap]
    exact congrArg List.sum (List.map_congr_left fun m _ => length_byColumns m)
  exact congrArg (·, 1) hlength

/-! ## Entries one after another -/

/-- The entries are visited in the order of the data. -/
theorem mapM_data {m : Type → Type} [Monad m] [LawfulMonad m] (f : E → m F) (a : Matrix E) :
    (fun b : Matrix F => (b.shape, b.data.toList)) <$> a.mapM f =
      (fun l => (a.shape, l)) <$> a.data.toList.mapM f := by
  have harray : Vector.toArray <$> (Vector.mk a.data a.size_data).mapM f = a.data.mapM f :=
    Vector.toArray_mapM
  rw [← Array.toList_mapM, ← harray]
  simp only [mapM, Functor.map_map, bind_pure_comp]
  rfl

theorem eq_of_data {a b : Matrix E} (hs : a.shape = b.shape) (hd : a.data.toList = b.data.toList) :
    a = b := by
  obtain ⟨rows, cols, data, hdata⟩ := a
  obtain ⟨rows', cols', data', hdata'⟩ := b
  obtain ⟨rfl, rfl⟩ := Prod.mk.inj hs
  obtain rfl := Array.toList_inj.1 hd
  rfl

theorem mapM_ok {f : E → Except Failure F} {a : Matrix E} {l : List F}
    (h : a.data.toList.mapM f = .ok l) :
    ∃ b, a.mapM f = .ok b ∧ b.shape = a.shape ∧ b.data.toList = l := by
  have hdata := mapM_data f a
  rw [h] at hdata
  cases hb : a.mapM f with
  | ok b =>
    rw [hb] at hdata
    obtain ⟨hs, hl⟩ := Prod.mk.inj (Except.ok.inj hdata)
    exact ⟨b, rfl, hs, hl⟩
  | error e => rw [hb] at hdata; cases hdata

theorem run_mapM {σ : Type} {f : E → Step σ F} {a : Matrix E} {l : List F} {s s' : σ}
    (h : (a.data.toList.mapM f).run s = .ok l s') :
    ∃ b, (a.mapM f).run s = .ok b s' ∧ b.shape = a.shape ∧ b.data.toList = l := by
  have hdata := congrArg (fun x : Step σ (Shape × List F) => x.run s) (mapM_data f a)
  simp only [EStateM.run_map, h] at hdata
  cases hb : (a.mapM f).run s with
  | ok b t =>
    rw [hb] at hdata
    obtain ⟨hbl, rfl⟩ := EStateM.Result.ok.inj hdata
    obtain ⟨hs, hl⟩ := Prod.mk.inj hbl
    exact ⟨b, rfl, hs, hl⟩
  | error e t => rw [hb] at hdata; cases hdata

/-! ## Products -/

section
variable [Zero E] [Add E] [Mul E]

/-- One entry of a row that is built up from multiples of rows. -/
theorem getD_foldl_zipWith (x : Nat → E) (b : Matrix E) {c : Nat} (hc : c < b.cols)
    (ks : List Nat) : ∀ acc : List E, acc.length = b.cols →
      (ks.foldl (fun acc k => List.zipWith (fun o e => o + x k * e) acc (b.row k)) acc).getD c 0 =
        ks.foldl (fun o k => o + x k * b.entry k c) (acc.getD c 0) := by
  induction ks with
  | nil => intro acc _; rfl
  | cons k ks ih =>
    intro acc hacc
    have hrow : (b.row k).length = b.cols := by simp [row]
    rw [List.foldl_cons, List.foldl_cons, ih _ (by simp [hacc, hrow])]
    congr 1
    simp [List.getD_eq_getElem?_getD, row, hacc, hc]

/-- **The entries of a product.** -/
theorem mul_eq {a b : Matrix E} (h : a.cols = b.rows) :
    a.mul b = .ok (ofFn a.rows b.cols fun i j =>
      (List.range a.cols).foldl (fun o k => o + a.entry i k * b.entry k j) 0) := by
  rw [mul, if_pos h, mul.ofRows]
  refine congrArg Except.ok (ofFn_congr fun r hr c hc => ?_)
  have hcols : b.cols ≠ 0 := Nat.ne_zero_of_lt hc
  have hget := getD_foldl_zipWith (a.entry r) b hc (List.range a.cols)
    (List.replicate b.cols 0) (by simp)
  simp only [hcols, if_false, Array.getD_eq_getD_getElem?, Array.getElem?_map,
    Array.getElem?_range, hr, if_true, Option.map_some, Option.getD_some, List.getElem?_toArray]
  rw [List.getD_eq_getElem?_getD] at hget
  rw [hget]
  simp [hc]

theorem shape_of_mul {a b m : Matrix E} (h : a.mul b = .ok m) :
    a.cols = b.rows ∧ m.shape = (a.rows, b.cols) := by
  unfold mul at h
  split at h
  · next hab => cases h; exact ⟨hab, rfl⟩
  · cases h

end

/-! ## Numbers as matrices -/

@[simp] theorem shape_scalar (x : E) : (scalar x).shape = (1, 1) := rfl

@[simp] theorem isScalar_scalar (x : E) : (scalar x).isScalar = true := rfl

@[simp] theorem map_scalar (f : E → F) (x : E) : (scalar x).map f = scalar (f x) := by
  simp [map, scalar]

@[simp] theorem fill_scalar (x : E) (y : F) : (scalar x).fill y = scalar y := map_scalar _ x

@[simp] theorem zipWith_scalar (operation : String) (f : E → F → G) (x : E) (y : F) :
    (scalar x).zipWith operation f (scalar y) = .ok (scalar (f x y)) := by
  simp [zipWith, scalar]

@[simp] theorem add_scalar [Add E] (x y : E) :
    (scalar x).add (scalar y) = .ok (scalar (x + y)) := zipWith_scalar _ _ x y

theorem scalar_injective {x y : E} (h : scalar x = scalar y) : x = y := by
  simpa [scalar] using h

theorem scalar_eq_ofFn (x : E) : scalar x = ofFn 1 1 fun _ _ => x :=
  eq_ofFn_of_data fun k hk => by
    have hk' : k < 1 := hk
    simp [scalar, Nat.lt_one_iff.1 hk']

section
variable [Zero E]

@[simp] theorem entry_scalar (x : E) : (scalar x).entry 0 0 = x := rfl

@[simp] theorem toScalar_scalar (x : E) : (scalar x).toScalar = .ok x := rfl

@[simp] theorem sum_scalar [Add E] (x : E) : (scalar x).sum = 0 + x := rfl

/-- A single entry is a number. -/
theorem eq_scalar {m : Matrix E} (h : m.isScalar = true) : m = scalar (m.entry 0 0) := by
  simp only [isScalar, Bool.and_eq_true, beq_iff_eq] at h
  refine ext_entry h.1 h.2 fun r hr c hc => ?_
  obtain rfl : r = 0 := Nat.lt_one_iff.1 (h.1 ▸ hr)
  obtain rfl : c = 0 := Nat.lt_one_iff.1 (h.2 ▸ hc)
  rfl

theorem eq_scalar_of_shape {m : Matrix E} (h : m.shape = (1, 1)) : m = scalar (m.entry 0 0) := by
  obtain ⟨hrows, hcols⟩ := Prod.mk.inj h
  exact eq_scalar (by simp [isScalar, hrows, hcols])

theorem fill_zero_eq_zeros (m : Matrix E) :
    m.fill (0 : E) = zeros m.rows m.cols := by
  obtain ⟨rows, cols, data, hdata⟩ := m
  have hmap : data.map (fun _ => (0 : E)) = Array.replicate (rows * cols) 0 := by
    rw [Array.map_const', hdata]
  simp [fill, map, zeros, filled, hmap]

theorem zeros_one_one : zeros 1 1 = scalar (0 : E) := by
  simp [zeros, filled, scalar]

@[simp] theorem transpose_scalar (x : E) : (scalar x).transpose = scalar x :=
  (scalar_eq_ofFn x).symm ▸ ofFn_congr fun _ hr _ hc => entry_ofFn hc hr

@[simp] theorem mul_scalar [Add E] [Mul E] (x y : E) :
    (scalar x).mul (scalar y) = .ok (scalar (0 + x * y)) := by
  rw [mul_eq rfl, scalar_eq_ofFn (0 + x * y)]
  refine congrArg Except.ok (ofFn_congr fun r hr c hc => ?_)
  obtain rfl : r = 0 := Nat.lt_one_iff.1 hr
  obtain rfl : c = 0 := Nat.lt_one_iff.1 hc
  rfl

end

end DiffGraph.Matrix
