/-
  Rectangles and windows within a value.

  * `Dag.searchAll_before`, `Graph.missing_of_operand`: a vertex with one operand is evaluated
    right after what is missing below the operand;
  * `Graph.answer_of_operand`: it answers what its operation gives for the value of the operand;
  * `Rect.admitted_and_inside_iff`: with cell positions taken for words, the rectangles that pass
    the checks are those within the value and those that wrap back (`Rect.WrapsBack`);
  * `Matrix.AnswersSlice`, `Matrix.AnswersTerms`, `Matrix.AnswersWindows`: what is answered for a
    rectangle that is copied, for one that is added to, and for windows;
  * `Graph.extents_checked`: slices, pooling, and the gradient of a slice.
-/
import Mathlib
import DiffGraph.Proofs.Outcomes
import DiffGraph.Proofs.Windows

namespace DiffGraph

variable {K E : Type}

/-! ## Below one operand -/

namespace Dag

/-- Two searches have left the same vertices, and have entered the same of the vertices
before `n`. -/
structure Before (n : Node) (s t : Search) : Prop where
  left : t.left = s.left
  entered : ∀ m < n, m ∈ t.entered ↔ m ∈ s.entered

variable {d : Dag K} {descend : Node → Bool} {n : Node} {s t : Search}

theorem Before.enter (h : Before n s t) (c : Node) :
    Before n ⟨c :: s.entered, s.left⟩ ⟨c :: t.entered, t.left⟩ where
  left := h.left
  entered m hm := by rw [List.mem_cons, List.mem_cons, h.entered m hm]

theorem Before.leave (h : Before n s t) (c : Node) :
    Before n ⟨s.entered, s.left ++ [c]⟩ ⟨t.entered, t.left ++ [c]⟩ where
  left := congrArg (· ++ [c]) h.left
  entered := h.entered

theorem Before.searchAll {ns : List Node}
    (hsearch : ∀ c ∈ ns, ∀ s t, Before n s t →
      Before n (d.search descend c s) (d.search descend c t))
    (h : Before n s t) : Before n (d.searchAll descend ns s) (d.searchAll descend ns t) := by
  induction ns generalizing s t with
  | nil => exact h
  | cons c ns ih =>
    exact ih (fun m hm => hsearch m (List.mem_cons_of_mem c hm))
      (hsearch c List.mem_cons_self s t h)

/-- A search below a vertex looks at no later one. -/
theorem search_before (c : Node) :
    c < n → ∀ s t, Before n s t → Before n (d.search descend c s) (d.search descend c t) := by
  induction c using Nat.strong_induction_on with
  | _ c ih =>
    intro hc s t h
    by_cases hmem : c ∈ s.entered
    · rwa [search_of_mem hmem, search_of_mem ((h.entered c hc).2 hmem)]
    · have hmem' : c ∉ t.entered := fun hm => hmem ((h.entered c hc).1 hm)
      cases hd : descend c with
      | false =>
        rw [search_of_not hmem hd, search_of_not hmem' hd]
        exact h.enter c
      | true =>
        rw [search_of_descend hmem hd, search_of_descend hmem' hd]
        refine (Before.searchAll (fun m hm => ?_) (h.enter c)).leave c
        have hlt : m < c := d.operands_lt_self hm
        exact ih m hlt (hlt.trans hc)

/-- **A root with one operand** is listed after what is listed below the operand. -/
theorem traverse_of_operand {root l : Node} (h : root < d.size) (hd : descend root = true)
    (ho : d.operands root = [l]) :
    d.traverse descend root = d.traverse descend l ++ [root] := by
  have hl : l < root := d.operands_lt_self (by rw [ho]; exact List.mem_singleton_self l)
  have hentered : Before root ⟨[], []⟩ ⟨[root], []⟩ :=
    ⟨rfl, fun m hm => by simp [hm.ne]⟩
  rw [traverse_eq h, traverse_eq (hl.trans h), search_of_descend (by simp) hd, ho]
  exact congrArg (· ++ [root]) (search_before l hl _ _ hentered).left

end Dag

namespace Graph

section
variable [Scalar K] [Arith E] [Laned K E] {g s : Graph K E} {n l : Node}

omit [Scalar K] [Arith E] [Laned K E] in
theorem missing_of_operand (hv : g.hasValue n = false) (ho : g.dag.operands n = [l]) :
    g.missing n = g.missing l ++ [n] :=
  Dag.traverse_of_operand (lt_size_of_not_hasValue g hv) (by simp [hv]) ho

/-- A vertex with one operand is evaluated after the operand. -/
theorem run_evaluate_of_operand (hv : g.hasValue n = false) (ho : g.dag.operands n = [l]) :
    (evaluate n).run g = (do evaluate l; evaluateOne n : Step (Graph K E) Unit).run g := by
  rw [run_evaluate_of_missing (missing_of_operand hv ho), List.forM_eq_forM, List.forM_append,
    EStateM.run_bind, ← List.forM_eq_forM, ← run_evaluate_of_missing rfl, EStateM.run_bind]
  cases (evaluate l).run g with
  | error e s => rfl
  | ok _ s => simp

/-- **A vertex with one operand answers what its operation gives** for the value of the operand. -/
theorem answer_of_operand {m : Matrix E} {f : Matrix E → Except Failure (Matrix E)}
    (hv : g.hasValue n = false) (ho : g.dag.operands n = [l])
    (hmask : ∀ draw (val : Node → Matrix E), (g.op n).freshMask draw val = .ok .empty)
    (hf : ∀ own mask val, (g.op n).value own mask val = f (val l))
    (hl : (valueOf l).run g = .ok m s) : (valueOf n).answer g = f m := by
  obtain ⟨hr, rfl⟩ : (evaluate l).run g = .ok () s ∧ s.value l = m := by
    simp only [valueOf, EStateM.run_bind, EStateM.run_get] at hl
    cases hr : (evaluate l).run g with
    | ok _ s' => rw [hr] at hl; cases hl; exact ⟨rfl, rfl⟩
    | error e s' => rw [hr] at hl; cases hl
  have hev : Evaluated g s (g.missing l) := (evaluated_of_run_ok hr).1
  have hlt : n < s.size := by rw [size_of_dag hev.dag]; exact lt_size_of_not_hasValue g hv
  have hrun : (evaluate n).run g = (evaluateOne n).run s := by
    rw [run_evaluate_of_operand hv ho, EStateM.run_bind, hr]
  have hc : s.compute n = (f (s.value l)).map fun v => (v, .empty) := by
    rw [compute, hev.op, hmask, ok_bind, hf]
    cases f (s.value l) <;> rfl
  rw [answer_valueOf_eq, Step.answer, Step.final, hrun, run_evaluateOne, hc]
  cases hfl : f (s.value l) with
  | error e => rfl
  | ok v => exact congrArg (Except.ok ∘ Cell.value) (cell_update_self s hlt (store v .empty))

end

end Graph

/-! ## Rectangles -/

namespace Rect

/-- Both ends of the rectangle are machine words. -/
def Addressable (r : Rect) : Prop := r.row + r.height < 2 ^ 64 ∧ r.col + r.width < 2 ^ 64

/-- The rectangle is given by machine words. -/
def Words (r : Rect) : Prop :=
  (r.row < 2 ^ 64 ∧ r.height < 2 ^ 64) ∧ r.col < 2 ^ 64 ∧ r.width < 2 ^ 64

/-- Only the right end of the rectangle is no machine word, it is taken for one within the
value, and the value goes on to the left of the rectangle's cells with the rows above. -/
def WrapsBack (r : Rect) (s : Shape) : Prop :=
  r.row + r.height ≤ s.1 ∧ 2 ^ 64 ≤ r.col + r.width ∧ r.col + r.width - 2 ^ 64 ≤ s.2 ∧
    2 ^ 64 - r.col ≤ r.row * s.2

variable {rect : Rect} {s : Shape}

theorem Exceeds.not_admitted (h : rect.Exceeds s) (ha : rect.Addressable) :
    ¬ rect.Admitted s := by
  have hrow : word (rect.row + rect.height) = rect.row + rect.height := Nat.mod_eq_of_lt ha.1
  have hcol : word (rect.col + rect.width) = rect.col + rect.width := Nat.mod_eq_of_lt ha.2
  rw [Admitted, hrow, hcol]
  exact fun hle => not_exceeds_iff.2 hle h

/-- The cells of a rectangle that wraps back have positions before those that they are taken for. -/
theorem position_of_wrapsBack (h : rect.WrapsBack s) (hw : rect.Words) (hs : s.area < 2 ^ 63)
    {r c : Nat} (hr : r < rect.height) (hc : c < rect.width) :
    rect.position s r c + (2 ^ 64 - rect.col) = (rect.row + r) * s.2 + c ∧
      rect.position s r c < s.area := by
  obtain ⟨hrow, hcol, hend, hback⟩ := h
  have hleft : rect.row * s.2 ≤ (rect.row + r) * s.2 :=
    Nat.mul_le_mul_right _ (Nat.le_add_right _ r)
  have hright : (rect.row + r + 1) * s.2 ≤ s.area := Nat.mul_le_mul_right _ (by omega)
  rw [Nat.succ_mul] at hright
  have hlt : rect.col < 2 ^ 64 := hw.2.1
  have hposition : rect.position s r c = (rect.row + r) * s.2 + c - (2 ^ 64 - rect.col) := by
    rw [position, Shape.position_eq_word (hs.le.trans (by norm_num))]
    unfold word
    omega
  omega

theorem WrapsBack.admitted_and_inside (h : rect.WrapsBack s) (hw : rect.Words)
    (hs : s.area < 2 ^ 63) : rect.Admitted s ∧ rect.Inside s := by
  refine ⟨⟨(Nat.mod_le _ _).trans h.1, ?_⟩,
    inside_iff.2 fun r hr c hc => (position_of_wrapsBack h hw hs hr hc).2⟩
  obtain ⟨-, hcol, hend, -⟩ := h
  obtain ⟨-, hcolw, hwidthw⟩ := hw
  unfold word
  omega

/-- A rectangle with cells below the end of the words is not inside. -/
theorem not_inside_of_row (hw : rect.Words) (hs : s.area < 2 ^ 63) (hwidth : rect.width ≠ 0)
    (hadmitted : rect.Admitted s) (hend : 2 ^ 64 ≤ rect.row + rect.height) : ¬ rect.Inside s := by
  intro hinside
  obtain ⟨⟨hrow, -⟩, hcol, hwidth'⟩ := hw
  have hpositions := inside_iff.1 hinside
  have hcols : s.2 ≤ s.area := by
    have hlt := hpositions (2 ^ 64 - 1 - rect.row) (by omega) 0 (by omega)
    refine Nat.le_mul_of_pos_left _ (Nat.pos_of_ne_zero fun h0 => ?_)
    simp [Shape.area, h0] at hlt
  -- the last row of the words ends one row before position 0
  have hword : ∀ c, rect.position s (2 ^ 64 - 1 - rect.row) c =
      (rect.col + c + (2 ^ 64 - s.2)) % 2 ^ 64 := fun c => by
    have hlast : (2 ^ 64 - 1) * s.2 + (rect.col + c) + 2 ^ 64 =
        2 ^ 64 * s.2 + (rect.col + c + (2 ^ 64 - s.2)) := by omega
    rw [position, Shape.position_eq_word (hs.le.trans (by norm_num)),
      Nat.add_sub_cancel' (by omega), ← Nat.mul_add_mod, ← hlast, Nat.add_mod_right]
    rfl
  have hend' : word (rect.col + rect.width) ≤ s.2 := hadmitted.2
  by_cases hwrap : 2 ^ 64 ≤ rect.col + rect.width
  · -- the last column of the words
    have hlt := hpositions (2 ^ 64 - 1 - rect.row) (by omega) (2 ^ 64 - 1 - rect.col) (by omega)
    rw [hword] at hlt
    omega
  · have hlt := hpositions (2 ^ 64 - 1 - rect.row) (by omega) 0 (by omega)
    rw [hword] at hlt
    unfold word at hend'
    omega

/-- **Which rectangles pass both checks**: those within the value, and those that wrap back. -/
theorem admitted_and_inside_iff (hw : rect.Words) (hs : s.area < 2 ^ 63)
    (hcells : rect.shape.area ≠ 0) :
    rect.Admitted s ∧ rect.Inside s ↔ ¬ rect.Exceeds s ∨ rect.WrapsBack s := by
  constructor
  · rintro ⟨hadmitted, hinside⟩
    obtain ⟨hheight, hwidth⟩ : rect.height ≠ 0 ∧ rect.width ≠ 0 := Nat.mul_ne_zero_iff.1 hcells
    have hrow : rect.row + rect.height < 2 ^ 64 := not_le.1 fun hend =>
      not_inside_of_row hw hs hwidth hadmitted hend hinside
    have hrow' : rect.row + rect.height ≤ s.1 :=
      (Nat.mod_eq_of_lt hrow).symm.le.trans hadmitted.1
    have hcol : word (rect.col + rect.width) ≤ s.2 := hadmitted.2
    obtain ⟨-, hcolw, hwidthw⟩ := hw
    by_cases hend : 2 ^ 64 ≤ rect.col + rect.width
    · refine .inr ⟨hrow', hend, by unfold word at hcol; omega, not_lt.1 fun hback => ?_⟩
      -- otherwise one of the cells is the last one of the words
      have hlt := inside_iff.1 hinside 0 (Nat.pos_of_ne_zero hheight)
        (2 ^ 64 - 1 - rect.col - rect.row * s.2) (by omega)
      rw [position, Shape.position_eq_word (hs.le.trans (by norm_num)), Nat.add_zero] at hlt
      unfold word at hlt
      omega
    · exact .inl (not_exceeds_iff.2 ⟨hrow', (Nat.mod_eq_of_lt (not_le.1 hend)).symm.le.trans hcol⟩)
  · rintro (h | h)
    · exact admitted_of_not_exceeds h
    · exact h.admitted_and_inside hw hs

end Rect

namespace Matrix

section
variable {m : Matrix E} {rect : Rect}

theorem not_inside (hw : rect.Words) (hm : m.size < 2 ^ 63) (hcells : rect.shape.area ≠ 0)
    (ha : rect.Admitted m.shape) (he : rect.Exceeds m.shape) (hb : ¬ rect.WrapsBack m.shape) :
    ¬ rect.Inside m.shape := fun hi =>
  ((Rect.admitted_and_inside_iff hw (m.size_eq_area ▸ hm) hcells).1 ⟨ha, hi⟩).elim (· he) hb

variable [Zero E]

/-- **What is answered for a rectangle of `m`.**  Up to `beyond` all sums are words.  After that
they are taken for words: a rectangle without cells may be found anywhere, one that wraps back
gives the cells that it is taken for, and all others that pass the check of the ends are not
found. -/
structure AnswersSlice (m : Matrix E) (rect : Rect) (a : Except Failure (Matrix E)) : Prop where
  within : ¬ rect.Exceeds m.shape → ∃ v, a = .ok v ∧ v.shape = rect.shape ∧
    ∀ r < rect.height, ∀ c < rect.width, v.entry r c = m.entry (rect.row + r) (rect.col + c)
  beyond : rect.Exceeds m.shape → rect.Addressable → a = .error (.rectOutside rect m.shape)
  outside : ¬ rect.Admitted m.shape → a = .error (.rectOutside rect m.shape)
  hollow : rect.Admitted m.shape → rect.shape.area = 0 → ∃ v, a = .ok v ∧ v.shape = rect.shape
  back : rect.Words → m.size < 2 ^ 63 → rect.WrapsBack m.shape →
    ∃ v, a = .ok v ∧ v.shape = rect.shape ∧ ∀ r < rect.height, ∀ c < rect.width,
      v.entry r c = m.data.getD ((rect.row + r) * m.cols + c - (2 ^ 64 - rect.col)) 0
  lost : rect.Words → m.size < 2 ^ 63 → rect.shape.area ≠ 0 → rect.Admitted m.shape →
    rect.Exceeds m.shape → ¬ rect.WrapsBack m.shape → a = .error .outOfRange

theorem answersSlice_block (m : Matrix E) (rect : Rect) : m.AnswersSlice rect (m.block rect) where
  within := exists_block
  beyond he ha := block_of_error (checkRect_of_not_admitted (he.not_admitted ha))
  outside h := block_of_error (checkRect_of_not_admitted h)
  hollow h hcells :=
    ⟨_, block_ok ⟨h, fun k hk => absurd hk (by rw [hcells]; exact Nat.not_lt_zero k)⟩, rfl⟩
  back hw hm hb := by
    have hs : m.shape.area < 2 ^ 63 := m.size_eq_area ▸ hm
    refine ⟨_, block_ok (hb.admitted_and_inside hw hs), rfl, fun r hr c hc => ?_⟩
    obtain ⟨hposition, -⟩ := Rect.position_of_wrapsBack hb hw hs hr hc
    rw [entry_ofFn hr hc]
    exact congrArg (m.data.getD · 0) (Nat.eq_sub_of_add_eq hposition)
  lost hw hm hcells ha he hb :=
    block_of_error (checkRect_of_not_inside ha (not_inside hw hm hcells ha he hb))

variable [Add E]

/-- **What is answered when `terms` are added into a rectangle of `m`** that reaches over an edge.
In `beyond` all sums are words.  After that they are taken for words: into a rectangle that wraps
back, the terms are added to the entries that it is taken for, in the order of the terms. -/
structure AnswersTerms (m : Matrix E) (rect : Rect) (terms : Matrix E)
    (a : Except Failure (Matrix E)) : Prop where
  beyond : rect.Exceeds m.shape → rect.Addressable → a = .error (.rectOutside rect m.shape)
  outside : ¬ rect.Admitted m.shape → a = .error (.rectOutside rect m.shape)
  back : rect.Words → m.size < 2 ^ 63 → rect.WrapsBack m.shape →
    ∃ v, a = .ok v ∧ v.shape = m.shape ∧ ∀ i < m.size, v.data.getD i 0 =
      (List.range terms.size).foldl (fun e k =>
        if i + (2 ^ 64 - rect.col) = (rect.row + k / rect.width) * m.cols + k % rect.width then
          e + terms.data.getD k 0
        else e) (m.data.getD i 0)
  lost : rect.Words → m.size < 2 ^ 63 → rect.shape.area ≠ 0 → rect.Admitted m.shape →
    rect.Exceeds m.shape → ¬ rect.WrapsBack m.shape → a = .error .outOfRange

theorem answersTerms_addBlock (m : Matrix E) (row col : Nat) (terms : Matrix E) :
    m.AnswersTerms ⟨row, col, terms.rows, terms.cols⟩ terms (m.addBlock row col terms) where
  beyond he ha := addBlock_of_error (checkRect_of_not_admitted (he.not_admitted ha))
  outside h := addBlock_of_error (checkRect_of_not_admitted h)
  back hw hm hb := by
    have hs : m.shape.area < 2 ^ 63 := m.size_eq_area ▸ hm
    refine ⟨_, addBlock_ok (hb.admitted_and_inside hw hs), shape_addAll m _ _ _, fun i hi => ?_⟩
    rw [getD_addAll m _ _ hi]
    refine List.foldl_ext _ _ _ fun e k hk => ?_
    have hk' : k < terms.rows * terms.cols := (List.mem_range.1 hk).trans_eq terms.size_data
    have hpos : 0 < terms.cols := Nat.pos_of_ne_zero fun h0 => by simp [h0] at hk'
    obtain ⟨hposition, -⟩ := Rect.position_of_wrapsBack hb hw hs
      ((Nat.div_lt_iff_lt_mul hpos).2 hk') (Nat.mod_lt k hpos)
    refine if_congr ?_ rfl rfl
    show _ ↔ i + _ = (row + k / terms.cols) * m.shape.2 + k % terms.cols
    rw [← hposition, Nat.add_right_cancel_iff, eq_comm]
  lost hw hm hcells ha he hb :=
    addBlock_of_error (checkRect_of_not_inside ha (not_inside hw hm hcells ha he hb))

end

/-! ## Windows -/

/-- Windows that reach over the end of the words are not counted. -/
theorem windowCount_eq_zero {length size : Nat} (hlength : length < 2 ^ 64) (hsize : size < 2 ^ 64)
    (h : 2 ^ 64 < length + size) : windowCount length size = 0 := by
  refine Nat.div_eq_of_lt ?_
  unfold word
  omega

section
variable [Arith E] {m : Matrix E} {size : Nat}

theorem maxPool_eq_emptyWindow_iff : m.maxPool size = .error .emptyWindow ↔ size = 0 := by
  unfold maxPool
  split
  · next h => simp [h]
  · next h =>
    simp only [h, iff_false]
    split <;> exact nofun

/-- **Windows that reach over the end of the words** are not found. -/
theorem maxPool_of_overflow (hm : m.isEmpty = false) (hrows : m.rows < 2 ^ 64)
    (hcols : m.cols < 2 ^ 64) (hsize : size < 2 ^ 64) (h : 2 ^ 64 < max m.rows m.cols + size) :
    m.maxPool size = .error .outOfRange := by
  have harea : ¬ m.rows * m.cols = 0 := fun h0 => by
    rw [(isEmpty_iff m).2 h0] at hm
    cases hm
  obtain ⟨hr, hc⟩ := Nat.mul_ne_zero_iff.1 harea
  have htiled : ¬ m.Tiled size (windowCount m.rows size, windowCount m.cols size) := by
    rintro (he | ⟨htr, htc⟩)
    · rw [hm] at he
      cases he
    · rcases le_total m.rows m.cols with hle | hle
      · rw [max_eq_right hle] at h
        rw [windowCount_eq_zero hcols hsize h, Nat.zero_mul] at htc
        omega
      · rw [max_eq_left hle] at h
        rw [windowCount_eq_zero hrows hsize h, Nat.zero_mul] at htr
        omega
  rw [maxPool, if_neg (by omega), if_pos htiled]

/-- **What is answered for the windows of `m`.**  In `counted` all sums are words.  After that they
are taken for words: at the end of the words the windows are still right, and beyond it only a
value without entries has any. -/
structure AnswersWindows (m : Matrix E) (size : Nat) (a : Except Failure (Matrix E)) : Prop where
  refused : a = .error .emptyWindow ↔ size = 0
  counted : size ≠ 0 → max m.rows m.cols + size < 2 ^ 64 →
    ∃ v, a = .ok v ∧ v.shape = (m.rows ⌈/⌉ size, m.cols ⌈/⌉ size)
  last : size ≠ 0 → max m.rows m.cols + size = 2 ^ 64 →
    ∃ v, a = .ok v ∧ v.shape = (m.rows ⌈/⌉ size, m.cols ⌈/⌉ size)
  hollow : size ≠ 0 → m.isEmpty = true →
    ∃ v, a = .ok v ∧ v.shape = (windowCount m.rows size, windowCount m.cols size)
  lost : m.isEmpty = false → m.rows < 2 ^ 64 → m.cols < 2 ^ 64 → size < 2 ^ 64 →
    2 ^ 64 < max m.rows m.cols + size → a = .error .outOfRange

theorem answersWindows_maxPool (m : Matrix E) (size : Nat) :
    m.AnswersWindows size (m.maxPool size) := by
  have hok : size ≠ 0 → max m.rows m.cols + size ≤ 2 ^ 64 →
      ∃ v, m.maxPool size = .ok v ∧ v.shape = (m.rows ⌈/⌉ size, m.cols ⌈/⌉ size) := by
    intro hsize hend
    have hrows : m.rows + size - 1 < 2 ^ 64 := by omega
    have hcols : m.cols + size - 1 < 2 ^ 64 := by omega
    exact ⟨_, maxPool_eq (Nat.pos_of_ne_zero hsize) hrows hcols, rfl⟩
  refine ⟨maxPool_eq_emptyWindow_iff, fun hsize h => hok hsize h.le, fun hsize h => hok hsize h.le,
    fun hsize hempty => ?_, maxPool_of_overflow⟩
  rw [maxPool, if_neg hsize, if_neg (not_not_intro (.inl hempty))]
  exact ⟨_, rfl, rfl⟩

end

end Matrix

/-! ## Vertices -/

namespace Graph

variable [Scalar K] [Arith E] [Laned K E] {g s : Graph K E} {n l : Node} {m : Matrix E}

theorem answer_slice {rect : Rect} (hv : g.hasValue n = false) (ho : g.op n = .slice rect l)
    (hl : (valueOf l).run g = .ok m s) : (valueOf n).answer g = m.block rect :=
  answer_of_operand (f := (·.block rect)) hv (congrArg Op.operands ho) (fun _ _ => by rw [ho]; rfl)
    (fun _ _ _ => by rw [ho]; rfl) hl

theorem answer_maxPool {size : Nat} (hv : g.hasValue n = false) (ho : g.op n = .maxPool size l)
    (hl : (valueOf l).run g = .ok m s) : (valueOf n).answer g = m.maxPool size :=
  answer_of_operand (f := (·.maxPool size)) hv (congrArg Op.operands ho)
    (fun _ _ => by rw [ho]; rfl) (fun _ _ _ => by rw [ho]; rfl) hl

/-- **Slices and windows are checked.**  Let the value of an operand be given.  A slice within it is
the rectangle of its entries, and a slice that reaches over an edge is refused; windows without
extent are refused, and all others have a maximum; a contribution to a rectangle that reaches over
an edge is refused, and changes nothing.  All this holds as long as the ends of the rectangle, and
the extents of the value and of a window together, are machine words.  Sums that are not are taken
for the words that they wrap around to: such slices are lost, or give other entries of the value,
such contributions go to other entries, and such windows are lost. -/
theorem extents_checked (hl : (valueOf l).run g = .ok m s) :
    (∀ n rect, g.op n = .slice rect l → g.hasValue n = false →
      m.AnswersSlice rect ((valueOf n).answer g)) ∧
    (∀ n size, g.op n = .maxPool size l → g.hasValue n = false →
      m.AnswersWindows size ((valueOf n).answer g)) ∧
    ∀ (t : Graph K E) (c : Node) (row col : Nat) (terms : Matrix E),
      let rect : Rect := ⟨row, col, terms.rows, terms.cols⟩
      (t.grad c).AnswersTerms rect terms ((t.grad c).addBlock row col terms) ∧
      (¬ rect.Admitted (t.grad c).shape → (receive c (.block row col terms)).run t =
        .error (.rectOutside rect (t.grad c).shape) t) := by
  refine ⟨fun n rect ho hv => ?_, fun n size ho hv => ?_, ?_⟩
  · rw [answer_slice hv ho hl]
    exact m.answersSlice_block rect
  · rw [answer_maxPool hv ho hl]
    exact m.answersWindows_maxPool size
  · intro t c row col terms rect
    have hadd := (t.grad c).answersTerms_addBlock row col terms
    refine ⟨hadd, fun h => ?_⟩
    simp only [receive, EStateM.run_bind, EStateM.run_get, Push.apply, hadd.outside h]
    rfl

/-- Three slices of a column of three numbers, the second over its end, the third over the end of
the words, its windows of two, and windows over the end of the words. -/
def sliced : Graph ℚ ℚ :=
  Call.runs
    [.parameter (.column [1, 2, 3]), .record (.slice ⟨1, 0, 2, 1⟩ 0),
      .record (.slice ⟨2, 0, 2, 1⟩ 0), .record (.slice ⟨1, 2 ^ 64 - 1, 1, 1⟩ 0),
      .record (.maxPool 2 0), .record (.maxPool (2 ^ 64 - 1) 0)]
    (.empty 0 ⟨fun _ => 0, fun _ => 0⟩)

theorem extents_checked_column :
    (valueOf 0).run sliced = .ok (sliced.value 0) sliced ∧
      (∃ v, (valueOf 1).answer sliced = .ok v ∧ v.shape = (2, 1) ∧ v.entry 1 0 = 3) ∧
      (valueOf 2).answer sliced = .error (.rectOutside ⟨2, 0, 2, 1⟩ (3, 1)) ∧
      (∃ v, (valueOf 3).answer sliced = .ok v ∧ v.shape = (1, 1) ∧ v.entry 0 0 = 1) ∧
      (∃ v, (valueOf 4).answer sliced = .ok v ∧ v.shape = (2, 1)) ∧
      (valueOf 5).answer sliced = .error .outOfRange := by
  have hops : sliced.op 1 = .slice ⟨1, 0, 2, 1⟩ 0 ∧ sliced.op 2 = .slice ⟨2, 0, 2, 1⟩ 0 ∧
      sliced.op 3 = .slice ⟨1, 2 ^ 64 - 1, 1, 1⟩ 0 ∧ sliced.op 4 = .maxPool 2 0 ∧
      sliced.op 5 = .maxPool (2 ^ 64 - 1) 0 := ⟨rfl, rfl, rfl, rfl, rfl⟩
  have hnone : ∀ n ∈ [1, 2, 3, 4, 5], sliced.hasValue n = false := by decide +kernel
  have hshape : (sliced.value 0).shape = (3, 1) := by decide +kernel
  have hsize : (sliced.value 0).size = 3 := by decide +kernel
  have hentries : (sliced.value 0).entry 2 0 = 3 ∧ (sliced.value 0).data.getD 0 0 = 1 := by
    decide +kernel
  obtain ⟨hrows, hcols⟩ := Prod.mk.inj hshape
  have hl : (valueOf 0).run sliced = .ok (sliced.value 0) sliced := by
    have hv : sliced.hasValue 0 = true := by decide +kernel
    rw [valueOf, EStateM.run_bind, run_evaluate_of_hasValue hv]
    rfl
  obtain ⟨hslice, hwindows, -⟩ := extents_checked hl
  refine ⟨hl, ?_, ?_, ?_, ?_, ?_⟩
  · obtain ⟨v, hv, hvs, hve⟩ := (hslice 1 _ hops.1 (hnone 1 (by simp))).within
      (by rw [hshape]; decide)
    exact ⟨v, hv, hvs, (hve 1 one_lt_two 0 one_pos).trans hentries.1⟩
  · have hbeyond := (hslice 2 _ hops.2.1 (hnone 2 (by simp))).beyond
    rw [hshape] at hbeyond
    exact hbeyond (by decide) (by simp [Rect.Addressable])
  · -- the cell before the first one of the second row
    obtain ⟨v, hv, hvs, hve⟩ := (hslice 3 _ hops.2.2.1 (hnone 3 (by simp))).back
      (by simp [Rect.Words]) (by rw [hsize]; norm_num) (by rw [hshape]; simp [Rect.WrapsBack])
    have hentry := hve 0 one_pos 0 one_pos
    rw [hcols] at hentry
    exact ⟨v, hv, hvs, hentry.trans hentries.2⟩
  · have hcounted := (hwindows 4 _ hops.2.2.2.1 (hnone 4 (by simp))).counted
    rw [hrows, hcols] at hcounted
    exact hcounted two_ne_zero (by norm_num)
  · have hlost := (hwindows 5 _ hops.2.2.2.2 (hnone 5 (by simp))).lost
    rw [hrows, hcols] at hlost
    exact hlost (by decide +kernel) (by norm_num) (by norm_num) (by norm_num) (by norm_num)

end Graph

end DiffGraph
