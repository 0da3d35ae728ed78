/-
  Maximum pooling.

  * `covers_window`: each cell belongs to one window, whose row and column are the
    quotients of its own;
  * `Pooled`, `exists_pooled`: the value of a window is attained in it, and bounds it;
  * `Peak`: the first cell of a window that holds its maximum.  Each window has one
    (`exists_peak`, `Peak.unique`);
  * `Routed`, `exists_unpool`: the gradient of a window goes to its peak, and nothing to
    its other cells; so no gradient is lost (`Routed.sum_eq`);
  * `pooling_routes`: all this for each lane of the elements.
-/
import DiffGraph.Proofs.Comparisons
import DiffGraph.Proofs.Kernels
import DiffGraph.Proofs.Pairing
import DiffGraph.Proofs.Sums
import Mathlib

namespace DiffGraph

open Compared Finset

variable {K E : Type}

namespace Matrix

/-! ## Windows -/

/-- Where a window begins and ends along an axis. -/
theorem within_iff {size i n r : Nat} (hs : 0 < size) :
    i * size ≤ r ∧ r < i * size + Nat.min size (n - i * size) ↔ r < n ∧ i = r / size := by
  rw [eq_comm (a := i), Nat.div_eq_iff hs]
  have hmul : (i + 1) * size = i * size + size := Nat.succ_mul i size
  have hmin : Nat.min size (n - i * size) = min size (n - i * size) := rfl
  rw [hmin]
  omega

/-- **Each cell belongs to one window.** -/
theorem covers_window (m : Matrix E) {size i j r c : Nat} (hs : 0 < size) :
    (m.window size i j).Covers r c ↔
      (r < m.rows ∧ c < m.cols) ∧ i = r / size ∧ j = c / size := by
  have hrow := within_iff (i := i) (n := m.rows) (r := r) hs
  have hcol := within_iff (i := j) (n := m.cols) (r := c) hs
  rw [Rect.Covers, window]
  tauto

/-- As many windows as are needed. -/
theorem windowCount_eq {length size : Nat} (h : length + size - 1 < 2 ^ 64) :
    windowCount length size = length ⌈/⌉ size := by
  have hword : word (length + size - 1) = length + size - 1 := Nat.mod_eq_of_lt h
  rw [Nat.ceilDiv_eq_add_pred_div, windowCount, hword]

theorem lt_ceilDiv_iff {size i n : Nat} (hs : 0 < size) : i < n ⌈/⌉ size ↔ i * size < n := by
  rw [← not_le, ← not_le, ceilDiv_le_iff_le_mul hs, Nat.mul_comm]

/-- The window of a cell is one of the windows. -/
theorem div_lt_ceilDiv {size r n : Nat} (hs : 0 < size) (hr : r < n) : r / size < n ⌈/⌉ size :=
  (lt_ceilDiv_iff hs).2 ((Nat.div_mul_le_self r size).trans_lt hr)

theorem tiled_ceilDiv (m : Matrix E) {size : Nat} (hs : 0 < size) :
    m.Tiled size (m.rows ⌈/⌉ size, m.cols ⌈/⌉ size) := by
  have hle : ∀ n, n ≤ n ⌈/⌉ size * size := fun n => by
    rw [Nat.mul_comm, ← ceilDiv_le_iff_le_mul hs]
  exact Or.inr ⟨hle m.rows, hle m.cols⟩

theorem mem_cells {rect : Rect} {r c : Nat} : (r, c) ∈ cells rect ↔ rect.Covers r c := by
  simp only [cells, List.mem_flatMap, List.mem_map, List.mem_range, Prod.mk.injEq, Rect.Covers]
  constructor
  · rintro ⟨i, hi, j, hj, rfl, rfl⟩
    omega
  · rintro ⟨h₁, h₂, h₃, h₄⟩
    exact ⟨r - rect.row, by omega, c - rect.col, by omega, by omega, by omega⟩

/-- The cells are listed in row-major order. -/
theorem pairwise_cells (rect : Rect) : (cells rect).Pairwise fun p q => toLex p < toLex q := by
  rw [cells, List.pairwise_flatMap]
  refine ⟨fun r _ => ?_, List.pairwise_lt_range.imp fun hr p hp q hq => ?_⟩
  · have hcols : ∀ {c c' : Nat}, c < c' →
        toLex (rect.row + r, rect.col + c) < toLex (rect.row + r, rect.col + c') := fun hc =>
      Prod.Lex.toLex_lt_toLex.2 (Or.inr ⟨rfl, Nat.add_lt_add_left hc _⟩)
    rw [List.pairwise_map]
    exact List.pairwise_lt_range.imp hcols
  · obtain ⟨c, -, rfl⟩ := List.mem_map.1 hp
    obtain ⟨c', -, rfl⟩ := List.mem_map.1 hq
    exact Prod.Lex.toLex_lt_toLex.2 (Or.inl (Nat.add_lt_add_left hr _))

/-- In a sorted list, the elements before one of them are the smaller ones. -/
theorem mem_takeWhile_iff {l : List (Nat × Nat)} (hl : l.Pairwise fun p q => toLex p < toLex q)
    {p q : Nat × Nat} (hp : p ∈ l) :
    q ∈ l.takeWhile (· ≠ p) ↔ q ∈ l ∧ toLex q < toLex p := by
  obtain ⟨pre, post, rfl⟩ := List.append_of_mem hp
  obtain ⟨-, hpost, hpre⟩ := List.pairwise_append.1 hl
  have hne : ∀ a ∈ pre, decide (a ≠ p) = true := fun a ha =>
    decide_eq_true fun hap => (hpre a ha p List.mem_cons_self).ne (congrArg toLex hap)
  rw [List.takeWhile_append_of_pos hne, List.takeWhile_cons_of_neg (by simp), List.append_nil]
  constructor
  · exact fun hq => ⟨List.mem_append_left _ hq, hpre q hq p List.mem_cons_self⟩
  · rintro ⟨hq, hlt⟩
    rcases List.mem_append.1 hq with hq | hq
    · exact hq
    · rcases List.mem_cons.1 hq with rfl | hq
      · exact absurd hlt (lt_irrefl _)
      · exact absurd hlt ((List.pairwise_cons.1 hpost).1 q hq).asymm

/-! ## Maxima -/

section
variable [Arith K] [Compared K] {m : Matrix K} {size : Nat}

/-- The largest number of a window. -/
def windowMax (m : Matrix K) (size i j : Nat) : K :=
  match (cells (m.window size i j)).map fun (r, c) => m.entry r c with
  | [] => 0
  | e :: es => es.foldl Arith.max e

omit [Compared K] in
theorem maxPool_eq (hs : 0 < size) (hrows : m.rows + size - 1 < 2 ^ 64)
    (hcols : m.cols + size - 1 < 2 ^ 64) :
    m.maxPool size = .ok (ofFn (m.rows ⌈/⌉ size) (m.cols ⌈/⌉ size) (m.windowMax size)) := by
  rw [maxPool, windowCount_eq hrows, windowCount_eq hcols, if_neg hs.ne',
    if_neg (not_not.2 (m.tiled_ceilDiv hs))]
  rfl

/-- **Pooling keeps the maximum of each window.** -/
theorem windowMax_spec (hs : 0 < size) (hc : ∀ r < m.rows, ∀ c < m.cols, Comparable (m.entry r c))
    {i j : Nat} (hi : i < m.rows ⌈/⌉ size) (hj : j < m.cols ⌈/⌉ size) :
    (∃ r c, (m.window size i j).Covers r c ∧ m.entry r c = m.windowMax size i j) ∧
      ∀ r c, (m.window size i j).Covers r c →
        place (m.entry r c) ≤ place (m.windowMax size i j) := by
  have hcomparable : ∀ x ∈ (cells (m.window size i j)).map fun (r, c) => m.entry r c,
      Comparable x := by
    intro x hx
    obtain ⟨⟨r, c⟩, hrc, rfl⟩ := List.mem_map.1 hx
    obtain ⟨⟨hr, hc'⟩, -⟩ := (covers_window m hs).1 (mem_cells.1 hrc)
    exact hc r hr c hc'
  have hfirst : (i * size, j * size) ∈ cells (m.window size i j) :=
    mem_cells.2 ((covers_window m hs).2 ⟨⟨(lt_ceilDiv_iff hs).1 hi, (lt_ceilDiv_iff hs).1 hj⟩,
      (Nat.mul_div_cancel i hs).symm, (Nat.mul_div_cancel j hs).symm⟩)
  unfold windowMax
  split
  · next hnil =>
    rw [List.map_eq_nil_iff] at hnil
    rw [hnil] at hfirst
    cases hfirst
  · next e es hcons =>
    rw [hcons] at hcomparable
    obtain ⟨hmax, hle⟩ := foldl_max hcomparable
    rw [← hcons] at hmax hle
    obtain ⟨⟨r, c⟩, hrc, hmax⟩ := List.mem_map.1 hmax
    exact ⟨⟨r, c, mem_cells.1 hrc, hmax⟩, fun r c hrc =>
      hle _ (List.mem_map.2 ⟨(r, c), mem_cells.2 hrc, rfl⟩)⟩

end

/-! ## Peaks -/

/-- The first cell, in row-major order, that holds the largest number of its window.  The
numbers stand at the places `x`. -/
structure Peak {P : Type} [LinearOrder P] (s : Shape) (size : Nat) (x : Nat × Nat → P)
    (p : Nat × Nat) : Prop where
  row : p.1 < s.1
  col : p.2 < s.2
  largest : ∀ q : Nat × Nat, q.1 < s.1 → q.2 < s.2 → q.1 / size = p.1 / size →
    q.2 / size = p.2 / size → x q ≤ x p
  first : ∀ q : Nat × Nat, q.1 < s.1 → q.2 < s.2 → q.1 / size = p.1 / size →
    q.2 / size = p.2 / size → toLex q < toLex p → x q < x p

section
variable {P : Type} [LinearOrder P] {s : Shape} {size : Nat} {x : Nat × Nat → P}

/-- **A window has one peak at most.** -/
theorem Peak.unique {p q : Nat × Nat} (hp : Peak s size x p) (hq : Peak s size x q)
    (hrow : p.1 / size = q.1 / size) (hcol : p.2 / size = q.2 / size) : p = q := by
  rcases lt_trichotomy (toLex p) (toLex q) with h | h | h
  · have hlt := hq.first p hp.row hp.col hrow hcol h
    exact absurd (hp.largest q hq.row hq.col hrow.symm hcol.symm) hlt.not_ge
  · exact toLex.injective h
  · have hlt := hp.first q hq.row hq.col hrow.symm hcol.symm h
    exact absurd (hq.largest p hp.row hp.col hrow hcol) hlt.not_ge

/-- **Each window has a peak.** -/
theorem exists_peak (hs : 0 < size) {i j : Nat} (hi : i < s.1 ⌈/⌉ size) (hj : j < s.2 ⌈/⌉ size) :
    ∃ p, Peak s size x p ∧ p.1 / size = i ∧ p.2 / size = j := by
  let window := (range s.1 ×ˢ range s.2).filter fun p => p.1 / size = i ∧ p.2 / size = j
  have hmem : ∀ p, p ∈ window ↔ (p.1 < s.1 ∧ p.2 < s.2) ∧ p.1 / size = i ∧ p.2 / size = j :=
    fun p => by rw [mem_filter, mem_product, mem_range, mem_range]
  have hwindow : window.Nonempty := ⟨(i * size, j * size), (hmem _).2
    ⟨⟨(lt_ceilDiv_iff hs).1 hi, (lt_ceilDiv_iff hs).1 hj⟩, Nat.mul_div_cancel i hs,
      Nat.mul_div_cancel j hs⟩⟩
  obtain ⟨top, htop, hmax⟩ := exists_max_image window x hwindow
  -- the first one of the cells that are as large
  obtain ⟨p, hp, hmin⟩ := exists_min_image (window.filter fun p => x p = x top) toLex
    ⟨top, mem_filter.2 ⟨htop, rfl⟩⟩
  obtain ⟨hpw, hpx⟩ := mem_filter.1 hp
  obtain ⟨⟨hrow, hcol⟩, hpi, hpj⟩ := (hmem p).1 hpw
  have hsame : ∀ q : Nat × Nat, q.1 < s.1 → q.2 < s.2 → q.1 / size = p.1 / size →
      q.2 / size = p.2 / size → q ∈ window := fun q h₁ h₂ h₃ h₄ =>
    (hmem q).2 ⟨⟨h₁, h₂⟩, h₃.trans hpi, h₄.trans hpj⟩
  refine ⟨p, ⟨hrow, hcol, fun q h₁ h₂ h₃ h₄ => ?_, fun q h₁ h₂ h₃ h₄ hlt => ?_⟩, hpi, hpj⟩
  · rw [hpx]
    exact hmax q (hsame q h₁ h₂ h₃ h₄)
  · have hq := hsame q h₁ h₂ h₃ h₄
    rw [hpx]
    refine (hmax q hq).lt_of_ne fun hqx => ?_
    exact absurd (hmin q (mem_filter.2 ⟨hq, hqx⟩)) hlt.not_ge

end

/-! ## Gradients -/

section
variable [Arith K] [Compared K]

/-- The mask of a number that is compared with the maximum. -/
theorem hit_eq {peak x : K} (hp : Comparable peak) (hx : Comparable x) :
    hit peak 0 x = (if place x = place peak then 1 else 0) ∧ hit peak 1 x = 0 := by
  obtain ⟨h₁, h₂, h₃, h₄, h₅, h₆, -, -, -⟩ := masks (K := K)
  rw [hit, hit, eqMask hx hp, h₁, h₂]
  split
  · exact ⟨h₃, h₄⟩
  · exact ⟨h₅, h₆⟩

/-- **The gradient is taken** as soon as the maximum was met. -/
theorem taken_eq {peak : K} (hp : Comparable peak) {xs : List K} (hxs : ∀ x ∈ xs, Comparable x) :
    xs.foldl (fun t x => t + hit peak t x) 0 =
      if ∃ x ∈ xs, place x = place peak then 1 else 0 := by
  obtain ⟨-, -, -, -, -, -, h₇, h₈, h₉⟩ := masks (K := K)
  have hone : ∀ ys : List K, (∀ y ∈ ys, Comparable y) →
      ys.foldl (fun t x => t + hit peak t x) 1 = 1 := by
    intro ys
    induction ys with
    | nil => exact fun _ => rfl
    | cons y ys ih =>
      intro hys
      rw [List.foldl_cons, (hit_eq hp (hys y (by simp))).2, h₉]
      exact ih fun z hz => hys z (by simp [hz])
  induction xs with
  | nil => simp
  | cons x xs ih =>
    have hrest : ∀ y ∈ xs, Comparable y := fun y hy => hxs y (by simp [hy])
    rw [List.foldl_cons, (hit_eq hp (hxs x (by simp))).1]
    by_cases hx : place x = place peak
    · rw [if_pos hx, h₈, hone xs hrest, if_pos ⟨x, by simp, hx⟩]
    · rw [if_neg hx, h₇, ih hrest]
      simp [hx]

variable {m out grad : Matrix K} {size : Nat}

/-- What pooling of a matrix gives. -/
structure Pooled (m out : Matrix K) (size : Nat) : Prop where
  shape : out.shape = (m.rows ⌈/⌉ size, m.cols ⌈/⌉ size)
  attained : ∀ i < out.rows, ∀ j < out.cols, ∃ r c, (m.window size i j).Covers r c ∧
    m.entry r c = out.entry i j
  largest : ∀ i < out.rows, ∀ j < out.cols, ∀ r c, (m.window size i j).Covers r c →
    place (m.entry r c) ≤ place (out.entry i j)

theorem exists_pooled (hs : 0 < size) (hrows : m.rows + size - 1 < 2 ^ 64)
    (hcols : m.cols + size - 1 < 2 ^ 64)
    (hc : ∀ r < m.rows, ∀ c < m.cols, Comparable (m.entry r c)) :
    ∃ out, m.maxPool size = .ok out ∧ Pooled m out size := by
  have hentry : ∀ i < m.rows ⌈/⌉ size, ∀ j < m.cols ⌈/⌉ size,
      (ofFn (m.rows ⌈/⌉ size) (m.cols ⌈/⌉ size) (m.windowMax size)).entry i j =
        m.windowMax size i j := fun i hi j hj => entry_ofFn hi hj
  refine ⟨_, maxPool_eq hs hrows hcols, rfl, fun i hi j hj => ?_, fun i hi j hj => ?_⟩
  · rw [hentry i hi j hj]
    exact (windowMax_spec hs hc hi hj).1
  · rw [hentry i hi j hj]
    exact (windowMax_spec hs hc hi hj).2

/-- Where the entries stand in the order. -/
def places (m : Matrix K) (p : Nat × Nat) : Place K := place (m.entry p.1 p.2)

/-- The gradient of the input of pooling, from the gradient of its result: the gradient of a window
goes to its peak, and zero to its other cells. -/
structure Routed (m grad d : Matrix K) (size : Nat) : Prop where
  shape : d.shape = m.shape
  peak : ∀ r < m.rows, ∀ c < m.cols, Peak m.shape size m.places (r, c) →
    d.entry r c = 0 + grad.entry (r / size) (c / size)
  rest : ∀ r < m.rows, ∀ c < m.cols, ¬ Peak m.shape size m.places (r, c) → d.entry r c = 0

/-- A cell is the peak of its window if it holds the maximum and no earlier cell does. -/
theorem Pooled.peak_iff (h : Pooled m out size) (hs : 0 < size) {r c : Nat} (hr : r < m.rows)
    (hc : c < m.cols) :
    Peak m.shape size m.places (r, c) ↔
      place (m.entry r c) = place (out.entry (r / size) (c / size)) ∧
        ∀ q ∈ (cells (m.window size (r / size) (c / size))).takeWhile (· ≠ (r, c)),
          place (m.entry q.1 q.2) ≠ place (out.entry (r / size) (c / size)) := by
  obtain ⟨hrows, hcols⟩ := Prod.mk.inj h.shape
  have hi : r / size < out.rows := hrows ▸ div_lt_ceilDiv hs hr
  have hj : c / size < out.cols := hcols ▸ div_lt_ceilDiv hs hc
  have hwindow : ∀ q : Nat × Nat, q ∈ cells (m.window size (r / size) (c / size)) ↔
      (q.1 < m.rows ∧ q.2 < m.cols) ∧ r / size = q.1 / size ∧ c / size = q.2 / size := fun q =>
    mem_cells.trans (covers_window m hs)
  have hself : (r, c) ∈ cells (m.window size (r / size) (c / size)) :=
    (hwindow (r, c)).2 ⟨⟨hr, hc⟩, rfl, rfl⟩
  have hearlier : ∀ q : Nat × Nat,
      q ∈ (cells (m.window size (r / size) (c / size))).takeWhile (· ≠ (r, c)) ↔
        q ∈ cells (m.window size (r / size) (c / size)) ∧ toLex q < toLex (r, c) := fun q =>
    mem_takeWhile_iff (pairwise_cells _) hself
  constructor
  · intro hp
    obtain ⟨r', c', hcover, hplace⟩ := h.attained _ hi _ hj
    obtain ⟨⟨hr', hc'⟩, hi', hj'⟩ := (covers_window m hs).1 hcover
    have hle : place (m.entry r' c') ≤ place (m.entry r c) :=
      hp.largest (r', c') hr' hc' hi'.symm hj'.symm
    have hge := h.largest _ hi _ hj r c (mem_cells.1 hself)
    have heq : place (m.entry r c) = place (out.entry (r / size) (c / size)) :=
      hge.antisymm (hplace ▸ hle)
    refine ⟨heq, fun q hq => ?_⟩
    obtain ⟨hmem, hlt⟩ := (hearlier q).1 hq
    obtain ⟨⟨hq₁, hq₂⟩, hq₃, hq₄⟩ := (hwindow q).1 hmem
    exact heq ▸ (hp.first q hq₁ hq₂ hq₃.symm hq₄.symm hlt).ne
  · rintro ⟨heq, hne⟩
    have hle : ∀ q : Nat × Nat, q.1 < m.rows → q.2 < m.cols → q.1 / size = r / size →
        q.2 / size = c / size → place (m.entry q.1 q.2) ≤ place (m.entry r c) := by
      intro q hq₁ hq₂ hq₃ hq₄
      rw [heq]
      exact h.largest _ hi _ hj q.1 q.2 ((covers_window m hs).2 ⟨⟨hq₁, hq₂⟩, hq₃.symm, hq₄.symm⟩)
    refine ⟨hr, hc, hle, fun q hq₁ hq₂ hq₃ hq₄ hlt => ?_⟩
    refine (hle q hq₁ hq₂ hq₃ hq₄).lt_of_ne fun hplace => ?_
    exact hne q ((hearlier q).2 ⟨(hwindow q).2 ⟨⟨hq₁, hq₂⟩, hq₃.symm, hq₄.symm⟩, hlt⟩)
      (hplace.trans heq)

/-- What a cell gets of the gradient of its window. -/
def share (m out grad : Matrix K) (size r c : Nat) : K :=
  let peak := out.entry (r / size) (c / size)
  let earlier := (cells (m.window size (r / size) (c / size))).takeWhile (· ≠ (r, c))
  let taken := earlier.foldl (fun t q => t + hit peak t (m.entry q.1 q.2)) 0
  0 + grad.entry (r / size) (c / size) * hit peak taken (m.entry r c)

omit [Compared K] in
theorem unpool_eq (hs : 0 < size) (h : out.shape = (m.rows ⌈/⌉ size, m.cols ⌈/⌉ size)) :
    m.unpool size out grad = .ok (ofFn m.rows m.cols (share m out grad size)) :=
  if_neg (not_or.2 ⟨hs.ne', not_not.2 (h ▸ m.tiled_ceilDiv hs)⟩)

/-- **The gradient of a window goes to its peak.** -/
theorem share_spec (h : Pooled m out size) (hs : 0 < size)
    (hc : ∀ r < m.rows, ∀ c < m.cols, Comparable (m.entry r c)) {r c : Nat} (hr : r < m.rows)
    (hc' : c < m.cols) (hg : IsFinite (grad.entry (r / size) (c / size))) :
    (Peak m.shape size m.places (r, c) →
        share m out grad size r c = 0 + grad.entry (r / size) (c / size)) ∧
      (¬ Peak m.shape size m.places (r, c) → share m out grad size r c = 0) := by
  obtain ⟨hrows, hcols⟩ := Prod.mk.inj h.shape
  have hpeak : Comparable (out.entry (r / size) (c / size)) := by
    obtain ⟨r', c', hcover, hout⟩ := h.attained _ (hrows ▸ div_lt_ceilDiv hs hr) _
      (hcols ▸ div_lt_ceilDiv hs hc')
    obtain ⟨⟨hr', hc'⟩, -⟩ := (covers_window m hs).1 hcover
    exact hout ▸ hc r' hr' c' hc'
  have hcomparable : ∀ x ∈ ((cells (m.window size (r / size) (c / size))).takeWhile
      (· ≠ (r, c))).map (fun q => m.entry q.1 q.2), Comparable x := by
    intro x hx
    obtain ⟨q, hq, rfl⟩ := List.mem_map.1 hx
    obtain ⟨⟨hq₁, hq₂⟩, -⟩ := (covers_window m hs).1 (mem_cells.1 (List.takeWhile_subset _ hq))
    exact hc q.1 hq₁ q.2 hq₂
  have htaken := taken_eq hpeak hcomparable
  rw [List.foldl_map] at htaken
  obtain ⟨hfirst, hlater⟩ := hit_eq hpeak (hc r hr c hc')
  rw [share, h.peak_iff hs hr hc']
  simp only [htaken]
  by_cases hearlier : ∃ x ∈ ((cells (m.window size (r / size) (c / size))).takeWhile
      (· ≠ (r, c))).map (fun q => m.entry q.1 q.2),
      place x = place (out.entry (r / size) (c / size))
  · -- the gradient was taken by an earlier cell
    rw [if_pos hearlier, hlater]
    obtain ⟨x, hx, hplace⟩ := hearlier
    obtain ⟨q, hq, rfl⟩ := List.mem_map.1 hx
    exact ⟨fun hp => absurd hplace (hp.2 q hq), fun _ => add_mul_zero hg⟩
  · rw [if_neg hearlier, hfirst]
    by_cases hplace : place (m.entry r c) = place (out.entry (r / size) (c / size))
    · rw [if_pos hplace, mul_one hg]
      exact ⟨fun _ => rfl, fun hp => absurd ⟨hplace, fun q hq hqp =>
        hearlier ⟨_, List.mem_map.2 ⟨q, hq, rfl⟩, hqp⟩⟩ hp⟩
    · rw [if_neg hplace]
      exact ⟨fun hp => absurd hp.1 hplace, fun _ => add_mul_zero hg⟩

theorem exists_unpool (h : Pooled m out size) (hs : 0 < size)
    (hc : ∀ r < m.rows, ∀ c < m.cols, Comparable (m.entry r c))
    (hg : ∀ i < out.rows, ∀ j < out.cols, IsFinite (grad.entry i j)) :
    ∃ d, m.unpool size out grad = .ok d ∧ Routed m grad d size := by
  obtain ⟨hrows, hcols⟩ := Prod.mk.inj h.shape
  have hcell : ∀ r < m.rows, ∀ c < m.cols, IsFinite (grad.entry (r / size) (c / size)) :=
    fun r hr c hc' => hg _ (hrows ▸ div_lt_ceilDiv hs hr) _ (hcols ▸ div_lt_ceilDiv hs hc')
  refine ⟨_, unpool_eq hs h.shape, rfl, fun r hr c hc' hp => ?_, fun r hr c hc' hp => ?_⟩
  · rw [entry_ofFn hr hc']
    exact (share_spec h hs hc hr hc' (hcell r hr c hc')).1 hp
  · rw [entry_ofFn hr hc']
    exact (share_spec h hs hc hr hc' (hcell r hr c hc')).2 hp

/-- **No gradient is lost.** -/
theorem Routed.sum_eq {d : Matrix K} (h : Routed m grad d size) (hK : LawfulSum K) (hs : 0 < size)
    (hg : grad.shape = (m.rows ⌈/⌉ size, m.cols ⌈/⌉ size)) : d.sum = grad.sum := by
  classical
  let _ := hK.addCommMonoid
  have hsum : ∀ a : Matrix K, a.sum = ∑ p ∈ range a.rows ×ˢ range a.cols, a.entry p.1 p.2 :=
    fun a => (Matrix.sum_eq a).trans (sum_product' _ _ _).symm
  obtain ⟨hrows, hcols⟩ := Prod.mk.inj h.shape
  obtain ⟨hrows', hcols'⟩ := Prod.mk.inj hg
  calc d.sum
      = ∑ p ∈ range m.rows ×ˢ range m.cols, d.entry p.1 p.2 := by rw [hsum, hrows, hcols]
    _ = ∑ p ∈ range m.rows ×ˢ range m.cols,
          if Peak m.shape size m.places p then grad.entry (p.1 / size) (p.2 / size) else 0 := by
        refine sum_congr rfl fun p hp => ?_
        obtain ⟨hr, hc⟩ := mem_product.1 hp
        have hr' := mem_range.1 hr
        have hc' := mem_range.1 hc
        split
        · next hp => exact (h.peak p.1 hr' p.2 hc' hp).trans (hK.zero_add _)
        · next hp => exact h.rest p.1 hr' p.2 hc' hp
    _ = ∑ p ∈ (range m.rows ×ˢ range m.cols).filter (Peak m.shape size m.places),
          grad.entry (p.1 / size) (p.2 / size) := (sum_filter _ _).symm
    _ = ∑ q ∈ range grad.rows ×ˢ range grad.cols, grad.entry q.1 q.2 := by
        -- each window has one peak
        refine sum_nbij (fun p => (p.1 / size, p.2 / size)) ?_ ?_ ?_ fun _ _ => rfl
        · intro p hp
          have hpeak := (mem_filter.1 hp).2
          rw [mem_product, mem_range, mem_range, hrows', hcols']
          exact ⟨div_lt_ceilDiv hs hpeak.row, div_lt_ceilDiv hs hpeak.col⟩
        · intro p hp q hq hpq
          obtain ⟨hrow, hcol⟩ := Prod.mk.inj hpq
          exact (mem_filter.1 hp).2.unique (mem_filter.1 hq).2 hrow hcol
        · rintro ⟨i, j⟩ hij
          rw [mem_coe, mem_product, mem_range, mem_range, hrows', hcols'] at hij
          obtain ⟨p, hp, rfl, rfl⟩ := exists_peak (s := m.shape) (x := m.places) hs hij.1 hij.2
          refine ⟨p, mem_filter.2 ⟨?_, hp⟩, rfl⟩
          exact mem_product.2 ⟨mem_range.2 hp.row, mem_range.2 hp.col⟩
    _ = grad.sum := (hsum grad).symm

end

end Matrix

/-! ## Lanes -/

section
variable [Arith K] [Compared K] [Arith E] [Laned K E] [Laned.Lawful K E]

/-- **Pooling routes each gradient once.**  The windows of extent `size` cover each cell once and
nothing outside the matrix.  In each lane the value of a window is attained in it and bounds it, and
the gradient of the window is added to its peak, the first of its cells that holds the value, and
zero to its other cells; so where addition is lawful the sum of all gradients stays. -/
theorem pooling_routes (val : Node → Matrix E) (n : Node) {size : Nat} (hs : 0 < size)
    (hrows : (val n).rows + size - 1 < 2 ^ 64) (hcols : (val n).cols + size - 1 < 2 ^ 64)
    (hc : ∀ l < Laned.width E, ∀ r < (val n).rows, ∀ c < (val n).cols,
      Comparable (Laned.lane ((val n).entry r c) l)) (own mask : Matrix E) :
    ∃ out, (Op.maxPool size n : Op K).value own mask val = .ok out ∧
      out.shape = ((val n).rows ⌈/⌉ size, (val n).cols ⌈/⌉ size) ∧
      (∀ r < (val n).rows, ∀ c < (val n).cols, r / size < out.rows ∧ c / size < out.cols) ∧
      (∀ i < out.rows, ∀ j < out.cols, ∀ r c, ((val n).window size i j).Covers r c ↔
        (r < (val n).rows ∧ c < (val n).cols) ∧ i = r / size ∧ j = c / size) ∧
      (∀ l < Laned.width E, Matrix.Pooled ((val n).onLane l) (out.onLane l) size) ∧
      ∀ grad : Matrix E, grad.shape = out.shape →
        (∀ l < Laned.width E, ∀ i < out.rows, ∀ j < out.cols,
          IsFinite (Laned.lane (grad.entry i j) l)) →
        ∃ d, (Op.maxPool size n : Op K).pushes out mask grad val = .ok [(n, .whole d)] ∧
          (∀ l < Laned.width E,
            Matrix.Routed ((val n).onLane l) (grad.onLane l) (d.onLane l) size) ∧
          (∀ old : Matrix E, old.shape = (val n).shape → ∃ new, (Push.whole d).apply old = .ok new ∧
            ∀ l < Laned.width E, ∀ r < (val n).rows, ∀ c < (val n).cols,
              (new.onLane l).entry r c = (old.onLane l).entry r c + (d.onLane l).entry r c) ∧
          (LawfulSum K → ∀ l < Laned.width E, Laned.lane d.sum l = Laned.lane grad.sum l) := by
  -- a lane keeps every operation, so it is enough to look at matrices of numbers
  have hlane : ∀ {l}, l < Laned.width E → Preserves fun v : E => (Laned.lane v l : K) :=
    Laned.Lawful.preserves
  have hcl : ∀ l < Laned.width E, ∀ r < ((val n).onLane l).rows, ∀ c < ((val n).onLane l).cols,
      Comparable (((val n).onLane l).entry r c) := fun l hl r hr c hc' => by
    rw [Matrix.entry_onLane hl]
    exact hc l hl r hr c hc'
  obtain ⟨out, hval, hshape⟩ : ∃ out, (val n).maxPool size = .ok out ∧
      out.shape = ((val n).rows ⌈/⌉ size, (val n).cols ⌈/⌉ size) :=
    ⟨_, Matrix.maxPool_eq hs hrows hcols, rfl⟩
  have hpooled : ∀ l < Laned.width E, Matrix.Pooled ((val n).onLane l) (out.onLane l) size := by
    intro l hl
    obtain ⟨out', hout', hp⟩ :=
      Matrix.exists_pooled (m := (val n).onLane l) hs hrows hcols (hcl l hl)
    have hmap : ((val n).onLane l).maxPool size = .ok (out.onLane l) := by
      rw [Matrix.onLane, Matrix.maxPool_map (hlane hl), hval]
      rfl
    cases hmap.symm.trans hout'
    exact hp
  obtain ⟨hrows', hcols'⟩ := Prod.mk.inj hshape
  refine ⟨out, hval, hshape, fun r hr c hc' => ?_, fun i _ j _ r c => Matrix.covers_window _ hs,
    hpooled, fun grad hgs hg => ?_⟩
  · exact ⟨hrows' ▸ Matrix.div_lt_ceilDiv hs hr, hcols' ▸ Matrix.div_lt_ceilDiv hs hc'⟩
  obtain ⟨d, hd, hds⟩ : ∃ d, (val n).unpool size out grad = .ok d ∧ d.shape = (val n).shape :=
    ⟨_, Matrix.unpool_eq hs hshape, rfl⟩
  have hrouted : ∀ l < Laned.width E,
      Matrix.Routed ((val n).onLane l) (grad.onLane l) (d.onLane l) size := by
    intro l hl
    have hgl : ∀ i < out.rows, ∀ j < out.cols, IsFinite ((grad.onLane l).entry i j) :=
      fun i hi j hj => by
        rw [Matrix.entry_onLane hl]
        exact hg l hl i hi j hj
    obtain ⟨d', hd', hr⟩ := Matrix.exists_unpool (hpooled l hl) hs (hcl l hl) hgl
    have hmap : ((val n).onLane l).unpool size (out.onLane l) (grad.onLane l) =
        .ok (d.onLane l) := by
      rw [Matrix.onLane, Matrix.onLane, Matrix.onLane, Matrix.unpool_map (hlane hl), hd]
      rfl
    cases hmap.symm.trans hd'
    exact hr
  refine ⟨d, ?_, hrouted, fun old hold => ?_, fun hK l hl => ?_⟩
  · rw [Op.pushes, hd]
    rfl
  · refine ⟨_, Matrix.zipWith_eq (hold.trans hds.symm), fun l hl r hr c hc' => ?_⟩
    obtain ⟨hr', hc''⟩ := Prod.mk.inj hold
    rw [Matrix.entry_onLane hl, Matrix.entry_onLane hl, Matrix.entry_onLane hl,
      Matrix.entry_ofFn (hr'.symm ▸ hr) (hc''.symm ▸ hc'), (hlane hl).add]
  · have hsum := (hrouted l hl).sum_eq hK hs (hgs.trans hshape)
    rwa [Matrix.onLane, Matrix.onLane, Matrix.sum_map (hlane hl), Matrix.sum_map (hlane hl)] at hsum

/-- Two lanes, of which the second one has its maxima elsewhere. -/
def twoLanes : Matrix (Lanes Float32 2) := .ofFn 2 3 fun r c =>
  ⟨#v[Float32.ofNat (r * c), Float32.ofNat (3 - r - c)]⟩

theorem pooling_routes_twoLanes :
    (∀ l < 2, ∀ r < 2, ∀ c < 3, (Laned.lane (twoLanes.entry r c) l).isNaN = false) ∧
      ∃ out d, (Op.maxPool 2 0 : Op Float32).value .empty .empty (fun _ => twoLanes) = .ok out ∧
        out.shape = (1, 2) ∧
        (Op.maxPool 2 0 : Op Float32).pushes out .empty out (fun _ => twoLanes) =
          .ok [(0, .whole d)] ∧
        ∀ l < 2, Matrix.Routed (twoLanes.onLane l) (out.onLane l) (d.onLane l) 2 := by
  have hc : ∀ l < 2, ∀ r < 2, ∀ c < 3, (Laned.lane (twoLanes.entry r c) l).isNaN = false := by
    decide +kernel
  have hfinite : ∀ l < 2, ∀ r < 2, ∀ c < 3,
      (Laned.lane (twoLanes.entry r c) l).isFinite = true := by decide +kernel
  obtain ⟨out, hval, hshape, -, -, hpooled, hgrad⟩ :=
    pooling_routes (fun _ => twoLanes) 0 two_pos (by decide) (by decide) hc .empty .empty
  obtain ⟨d, hd, hrouted, -⟩ := hgrad out rfl fun l hl i hi j hj => by
    -- the maxima are entries of the matrix
    obtain ⟨r, c, hcover, hout⟩ := (hpooled l hl).attained i hi j hj
    obtain ⟨⟨hr, hc'⟩, -⟩ := (Matrix.covers_window _ two_pos).1 hcover
    rw [← Matrix.entry_onLane hl, ← hout, Matrix.entry_onLane hl]
    exact hfinite l hl r hr c hc'
  exact ⟨hc, out, d, hval, hshape, hd, hrouted⟩

end

end DiffGraph
