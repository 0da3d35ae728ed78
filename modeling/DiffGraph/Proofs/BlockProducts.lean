/-
  Products of blocks.

  A product of blocks is built from single products and sums, one cell after another; a product
  of matrices builds up whole rows.

  * `Absorbs`: what rounded arithmetic needs for both to give the same numbers.  It is known of
    single precision (`Rounds.absorbs`), and of lanes if it is known of the numbers in them;
  * `Block.exists_values_mul`: the values of a product of blocks are the product of their values;
  * `Block.sum_tangent_entryTerm`: its derivative, as a sum over the directions of the cells.  They
    are pulled back along the product as for matrices (`Matrix.Pullback`).

  So the gradients of the cells are those that the product of two matrix vertices passes on
  (`Block.mul_agrees`).
-/
import DiffGraph.Proofs.Refinement
import DiffGraph.Proofs.TermGradients
import Mathlib

namespace DiffGraph

open Finset Relation

variable {K E F L : Type}

/-! ## Sums that start from zero -/

/-- Adding a number to zero first does not matter in a sum that started from zero. -/
structure Absorbs (E : Type) [Arith E] : Prop where
  zero : Kept (0 : E)
  add : ∀ {x : E}, Kept x → ∀ y, Kept (x + y)
  absorb : ∀ {x : E}, Kept x → ∀ y, x + (0 + y) = x + y

theorem Rounds.absorbs [Arith E] (h : Rounds E) : Absorbs E := ⟨h.zero, h.add, h.absorb⟩

/-- Lanes that absorb. -/
theorem Absorbs.of_lanes [Arith K] [Arith E] [Laned K E] [Laned.Lawful K E] [Laned.Extensional K E]
    (h : Absorbs K) : Absorbs E := by
  have hadd : ∀ {l}, l < Laned.width E → ∀ x y : E,
      (Laned.lane (x + y) l : K) = Laned.lane x l + Laned.lane y l := fun hl =>
    (Laned.Lawful.preserves hl).add
  have hzero : ∀ {l}, l < Laned.width E → (Laned.lane (0 : E) l : K) = 0 := fun hl =>
    (Laned.Lawful.preserves hl).zero
  have hkept : ∀ {x : E}, Kept x → ∀ l < Laned.width E, Kept (Laned.lane x l : K) := by
    intro x hx l hl
    rw [Kept, ← hzero hl, ← hadd hl, hx]
  refine ⟨?_, fun {x} hx y => ?_, fun {x} hx y => ?_⟩
  · refine Laned.Extensional.ext (K := K) fun l hl => ?_
    rw [hadd hl, hzero hl]
    exact h.zero
  · refine Laned.Extensional.ext (K := K) fun l hl => ?_
    rw [hadd hl, hadd hl, hzero hl]
    exact h.add (hkept hx l hl) _
  · refine Laned.Extensional.ext (K := K) fun l hl => ?_
    rw [hadd hl, hadd hl, hadd hl, hzero hl]
    exact h.absorb (hkept hx l hl) _

theorem Absorbs.foldl [Arith E] (h : Absorbs E) {x : E} (hx : Kept x) (ys : List E) :
    (ys.map (0 + ·)).foldl (· + ·) x = ys.foldl (· + ·) x := by
  induction ys generalizing x with
  | nil => rfl
  | cons y ys ih =>
    rw [List.map_cons, List.foldl_cons, List.foldl_cons, h.absorb hx]
    exact ih (h.add hx y)

theorem range_eq_cons {n : Nat} (h : n ≠ 0) : List.range n = 0 :: List.range' 1 (n - 1) := by
  obtain ⟨n, rfl⟩ := Nat.exists_eq_succ_of_ne_zero h
  rw [List.range_eq_range', List.range'_succ]
  rfl

/-- Nothing is changed. -/
theorem Preserves.id [Arith E] : Preserves (id : E → E) :=
  ⟨rfl, rfl, fun _ => rfl, fun _ _ => rfl, fun _ _ => rfl, fun _ _ => rfl, fun _ _ => rfl,
    fun _ => rfl, fun _ _ => rfl, fun _ _ => rfl, fun _ _ => rfl, fun _ => rfl, fun _ => rfl,
    fun _ => rfl, fun _ => rfl⟩

namespace Block

open DiffGraph.Graph

variable {a b c : Block} {r : Nat} {col : Nat}

theorem mem_leaves_entryTerm (h0 : a.cols ≠ 0) {m : Node} :
    m ∈ (entryTerm a b r col).leaves ↔ ∃ k < a.cols, m = a.node r k ∨ m = b.node k col := by
  have hterm : (entryTerm a b r col).leaves =
      (List.range a.cols).flatMap fun k => [a.node r k, b.node k col] := by
    rw [entryTerm, Term.leaves_chain, range_eq_cons h0, List.flatMap_cons, List.flatMap_map,
      List.flatMap_map]
    rfl
  simp [hterm]

/-- The value of a cell, over numbers for the vertices. -/
theorem value_entryTerm [Arith E] (h : Absorbs E) (h0 : a.cols ≠ 0) (x : Node → E) :
    (entryTerm a b r col).value x =
      (List.range a.cols).foldl (fun o k => o + x (a.node r k) * x (b.node k col)) 0 := by
  have hfold := h.foldl (h.add h.zero (x (a.node r 0) * x (b.node 0 col)))
    ((List.range' 1 (a.cols - 1)).map fun k => x (a.node r k) * x (b.node k col))
  rw [entryTerm, Term.value_chain, range_eq_cons h0, List.foldl_cons]
  rw [List.map_map, List.foldl_map, List.foldl_map] at hfold
  rw [List.map_map, List.map_map, List.foldl_map]
  exact hfold

/-- The values of the cells are the product of the values. -/
theorem mul_map_eq [Arith E] (h : Absorbs E) (hab : a.cols = b.rows) (h0 : a.cols ≠ 0)
    (x : Node → E) :
    (a.map x).mul (b.map x) =
      .ok ((Matrix.ofFn a.rows b.cols (entryTerm a b)).map (Term.value x)) := by
  rw [Matrix.mul_eq (a := a.map x) (b := b.map x) hab, Matrix.map_ofFn]
  refine congrArg Except.ok (Matrix.ofFn_congr fun r hr col hcol => ?_)
  rw [value_entryTerm h h0]
  refine List.foldl_ext _ _ _ fun o k hk => ?_
  have hk : k < a.cols := List.mem_range.1 hk
  rw [entry_map x hr hk, entry_map x (hab ▸ hk) hcol]

section
variable [Scalar K] [Arith E] [Laned K E] {g : Graph K E}

/-- **The values of a product of blocks** are the product of their values. -/
theorem exists_values_mul (h : Absorbs E) (hf : ∀ n, g.Fits n)
    (ha : ∀ n ∈ a.nodes, g.Readable n) (hb : ∀ n ∈ b.nodes, g.Readable n) (hab : a.cols = b.rows)
    (h0 : a.cols ≠ 0) :
    ∃ c g₁ v g₂ x g₃ y g₄, (a.mul b).run g = .ok c g₁ ∧ c.values.run g₁ = .ok v g₂ ∧
      a.values.run g₂ = .ok x g₃ ∧ b.values.run g₃ = .ok y g₄ ∧ x.mul y = .ok v := by
  obtain ⟨c, g₁, hr₁, ht₁, hc⟩ :=
    yields_mul hab h0 (fun n hn => (ha n hn).lt) fun n hn => (hb n hn).lt
  have hleaves : ∀ {s}, Turns [] g s →
      ∀ t ∈ (Matrix.ofFn a.rows b.cols (entryTerm a b)).data.toList,
        ∀ m ∈ t.leaves, s.Readable m := by
    intro s ht t hmem m hm
    obtain ⟨r, hr, col, hcol, rfl⟩ := Matrix.mem_ofFn_iff.1 hmem
    obtain ⟨k, hk, rfl | rfl⟩ := (mem_leaves_entryTerm h0).1 hm
    · exact (ha _ (node_mem hr hk)).of_edits ht.edits
    · exact (hb _ (node_mem (hab ▸ hk) hcol)).of_edits ht.edits
  obtain ⟨v, g₂, hr₂, ht₂, hcr, hv⟩ :=
    yields_values (hc.readable (hleaves ht₁)) (ht₁.edits.fits_all hf)
  have ht₂' : Turns [] g g₂ := ht₁.trans ht₂
  obtain ⟨x, g₃, hr₃, ht₃, har, hx⟩ :=
    yields_values (fun n hn => (ha n hn).of_edits ht₂'.edits) (ht₂'.edits.fits_all hf)
  have ht₃' : Turns [] g g₃ := ht₂'.trans ht₃
  obtain ⟨y, g₄, hr₄, ht₄, hbr, hy⟩ :=
    yields_values (fun n hn => (hb n hn).of_edits ht₃'.edits) (ht₃'.edits.fits_all hf)
  have ht₄' : Turns [] g g₄ := ht₃'.trans ht₄
  refine ⟨c, g₁, v, g₂, x, g₃, y, g₄, hr₁, hr₂, hr₃, hr₄, ?_⟩
  -- what was read is still there at the end
  rw [hx, ← har.map_number ht₄, hy, mul_map_eq h hab h0, hv, ← hcr.map_number (ht₃.trans ht₄),
    (hc.of_turns (ht₂.trans (ht₃.trans ht₄))).map_number (hleaves ht₄')
      (ht₄'.edits.fits_all hf) (hcr.of_turns (ht₃.trans ht₄))]

end

/-! ## Gradients -/

section
variable [Exact F] {x dx : Node → F}

theorem tangent_entryTerm (h0 : a.cols ≠ 0) :
    (entryTerm a b r col).tangent x dx = ∑ k ∈ range a.cols,
      (dx (a.node r k) * x (b.node k col) + x (a.node r k) * dx (b.node k col)) := by
  have hlist : Term.product (factors a b r col 0) ::
      ((List.range' 1 (a.cols - 1)).map (factors a b r col)).map Term.product =
        (List.range a.cols).map fun k => Term.product (factors a b r col k) := by
    rw [range_eq_cons h0, List.map_cons, List.map_map]
    rfl
  rw [entryTerm, Term.tangent_chain, hlist, List.map_map]
  rfl

/-- A sum over the entries of a product, with weights. -/
theorem pairing_mul {g u v m : Matrix F} (hg : g.shape = (u.rows, v.cols)) (h : u.cols = v.rows)
    (hm : u.mul v = .ok m) : Matrix.pairing g m =
      ∑ r ∈ range u.rows, ∑ c ∈ range v.cols,
        g.entry r c * ∑ k ∈ range u.cols, u.entry r k * v.entry k c := by
  rw [Matrix.mul_eq_sum h] at hm
  rw [← Except.ok.inj hm, Matrix.pairing_ofFn_right hg]

/-- **The derivative of a product of blocks**, summed up with weights `g`. -/
theorem sum_tangent_entryTerm {g dl dr : Matrix F} (hab : a.cols = b.rows) (h0 : a.cols ≠ 0)
    (hg : g.shape = (a.rows, b.cols)) (hl : Matrix.Pullback (·.mul (b.map x)) a.shape g dl)
    (hr : Matrix.Pullback (a.map x).mul b.shape g dr) :
    ∑ r ∈ range a.rows, ∑ c ∈ range b.cols, (entryTerm a b r c).tangent x dx * g.entry r c =
      Matrix.pairing dl (a.map dx) + Matrix.pairing dr (b.map dx) := by
  obtain ⟨p, hp, -, hpl⟩ := hl.pairing (a.map dx) rfl
  obtain ⟨q, hq, -, hqr⟩ := hr.pairing (b.map dx) rfl
  rw [← hpl, ← hqr, pairing_mul (u := a.map dx) (v := b.map x) hg hab hp,
    pairing_mul (u := a.map x) (v := b.map dx) hg hab hq]
  simp only [Matrix.rows_map, Matrix.cols_map, ← sum_add_distrib]
  refine sum_congr rfl fun r hr => sum_congr rfl fun c hc => ?_
  rw [mem_range] at hr hc
  rw [tangent_entryTerm h0, mul_comm, ← mul_add, ← sum_add_distrib]
  refine congrArg _ (sum_congr rfl fun k hk => ?_)
  have hk : k < a.cols := mem_range.1 hk
  rw [entry_map x hr hk, entry_map dx hr hk, entry_map x (hab ▸ hk) hc, entry_map dx (hab ▸ hk) hc]

end

section
variable [Scalar L] [Exact F] [Laned L F] {g : Graph L F} {v : Matrix F}

/-- **Gradients of a product of blocks** of parameters.  A cell receives the entries of both
matrices at its places. -/
theorem exists_pairings_mul (hf : ∀ n, g.Fits n) (hfit : g.GradsFit) (ha : a.OfNumbers g)
    (hb : b.OfNumbers g) (hab : a.cols = b.rows) (h0 : a.cols ≠ 0)
    (hv : v.shape = (a.rows, b.cols)) (hempty : v.isEmpty = false) :
    ∃ l g₁ g₂ da db,
      (do weighted (← a.mul b) v : Step (Graph L F) Node).run g = .ok l g₁ ∧
      (backward l).run g₁ = .ok () g₂ ∧
      v.mul (b.map g.number).transpose = .ok da ∧ (a.map g.number).transpose.mul v = .ok db ∧
      da.shape = a.shape ∧ db.shape = b.shape ∧
      ∀ m ∈ a.nodes ++ b.nodes, g₂.grad m = .scalar (Matrix.pairing da (a.map (Pi.single m 1)) +
        Matrix.pairing db (b.map (Pi.single m 1))) := by
  obtain ⟨hvrows, hvcols⟩ := Prod.mk.inj hv
  obtain ⟨c, g₀, hr₀, ht₀, hc⟩ :=
    yields_mul hab h0 (fun n hn => (ha.readable hn).lt) fun n hn => (hb.readable hn).lt
  have hleaves : ∀ r < a.rows, ∀ c < b.cols, ∀ m ∈ (entryTerm a b r c).leaves,
      g₀.isParameter m = true ∧ g₀.Readable m := by
    intro r hr c hc m hm
    obtain ⟨k, hk, rfl | rfl⟩ := (mem_leaves_entryTerm h0).1 hm
    · exact ha.of_turns ht₀ (node_mem hr hk)
    · exact hb.of_turns ht₀ (node_mem (hab ▸ hk) hc)
  have hpos : v.rows ≠ 0 ∧ v.cols ≠ 0 := by
    constructor <;> intro h <;>
      simp [Matrix.isEmpty, Array.isEmpty, v.size_data, h] at hempty
  rw [← hvrows, ← hvcols] at hc
  obtain ⟨l, g₁, g₂, hr₁, hr₂, hgrad⟩ := hc.exists_backward Preserves.id
    (by rwa [hvrows, hvcols]) (ht₀.edits.fits_all hf) (ht₀.edits.gradsFit hfit) hpos.1 hpos.2
  obtain ⟨da, hda, hl⟩ := Matrix.pullback_mul_left (g := v) (b := b.map g₀.number) hv
  obtain ⟨db, hdb, hr⟩ := Matrix.pullback_mul_right (g := v) (a := a.map g₀.number) hv
  have hl : Matrix.Pullback (·.mul (b.map g₀.number)) a.shape v da := by
    rw [show a.shape = (a.rows, b.rows) from congrArg (a.rows, ·) hab]
    exact hl
  have hr : Matrix.Pullback (a.map g₀.number).mul b.shape v db := by
    rw [show b.shape = (a.cols, b.cols) from congrArg (·, b.cols) hab.symm]
    exact hr
  refine ⟨l, g₁, g₂, da, db, ?_, hr₂, hb.map_number ht₀ ▸ hda, ha.map_number ht₀ ▸ hdb, hl.shape,
    hr.shape, fun m hm => ?_⟩
  · rw [EStateM.run_bind, hr₀]
    exact hr₁
  · -- every cell is a leaf of some entry
    obtain ⟨r, hrow, c, hcol, hleaf⟩ :
        ∃ r < a.rows, ∃ c < b.cols, m ∈ (entryTerm a b r c).leaves := by
      rcases List.mem_append.1 hm with hm | hm
      · obtain ⟨r, hrow, k, hk, rfl⟩ := exists_node hm
        exact ⟨r, hrow, 0, Nat.pos_of_ne_zero (hvcols ▸ hpos.2),
          (mem_leaves_entryTerm h0).2 ⟨k, hk, .inl rfl⟩⟩
      · obtain ⟨k, hk, c, hcol, rfl⟩ := exists_node hm
        exact ⟨0, Nat.pos_of_ne_zero (hvrows ▸ hpos.1), c, hcol,
          (mem_leaves_entryTerm h0).2 ⟨k, hab.symm ▸ hk, .inr rfl⟩⟩
    obtain ⟨d, hd, hsum⟩ := hgrad r (hvrows ▸ hrow) c (hvcols ▸ hcol) m hleaf
    rw [hd, ← sum_tangent_entryTerm hab h0 hv hl hr, ← hvrows, ← hvcols]
    exact congrArg Matrix.scalar hsum

/-- **Gradients of a product of blocks** of distinct parameters. -/
theorem exists_grads_mul (hf : ∀ n, g.Fits n) (hfit : g.GradsFit)
    (hnodup : (a.nodes ++ b.nodes).Nodup) (ha : a.OfNumbers g) (hb : b.OfNumbers g)
    (hab : a.cols = b.rows) (h0 : a.cols ≠ 0) (hv : v.shape = (a.rows, b.cols))
    (hempty : v.isEmpty = false) :
    ∃ l g₁ g₂ da db,
      (do weighted (← a.mul b) v : Step (Graph L F) Node).run g = .ok l g₁ ∧
      (backward l).run g₁ = .ok () g₂ ∧
      v.mul (b.map g.number).transpose = .ok da ∧ (a.map g.number).transpose.mul v = .ok db ∧
      a.grads.run g₂ = .ok da g₂ ∧ b.grads.run g₂ = .ok db g₂ := by
  obtain ⟨hna, hnb, hdisjoint⟩ := List.nodup_append.1 hnodup
  obtain ⟨l, g₁, g₂, da, db, hr₁, hr₂, hda, hdb, hdas, hdbs, hgrad⟩ :=
    exists_pairings_mul hf hfit ha hb hab h0 hv hempty
  refine ⟨l, g₁, g₂, da, db, hr₁, hr₂, hda, hdb, run_grads hdas fun r hr c hc => ?_,
    run_grads hdbs fun r hr c hc => ?_⟩
  · have hmem := node_mem hr hc
    have hnot : a.node r c ∉ b.nodes := fun h => hdisjoint _ hmem _ h rfl
    rw [hgrad _ (List.mem_append_left _ hmem), pairing_single hna hdas hr hc,
      pairing_single_of_not_mem hnot hdbs, add_zero]
  · have hmem := node_mem hr hc
    have hnot : b.node r c ∉ a.nodes := fun h => hdisjoint _ h _ hmem rfl
    rw [hgrad _ (List.mem_append_right _ hmem), pairing_single_of_not_mem hnot hdas,
      pairing_single hnb hdbs hr hc, zero_add]

end

/-- **A product of blocks is the product of matrices.**  Let adding a number to zero first not
matter in a sum that started from zero.  If all cells of two blocks can be read as numbers, and the
blocks fit, their product can be built, and its values are exactly the product of their values;
cells may occur more than once.  Blocks that do not fit, or that have nothing to add up, are
refused.  In exact arithmetic, the gradients of cells that are distinct parameters are those that
the product of two matrix vertices passes on, for any gradient `v` of the result. -/
theorem mul_agrees [Scalar K] [Arith E] [Laned K E] [Scalar L] [Exact F] [Laned L F]
    (a b : Block) :
    (∀ g : Graph K E, Absorbs E → Reachable g →
      (∀ n ∈ a.nodes ++ b.nodes, ∃ e, (scalarOf n).answer g = .ok e) →
      a.cols = b.rows → a.cols ≠ 0 →
      ∃ c g₁ v g₂ x g₃ y g₄, (a.mul b).run g = .ok c g₁ ∧ c.values.run g₁ = .ok v g₂ ∧
        a.values.run g₂ = .ok x g₃ ∧ b.values.run g₃ = .ok y g₄ ∧ x.mul y = .ok v) ∧
    (∀ g : Graph K E, a.cols ≠ b.rows ∨ a.cols = 0 →
      (a.mul b).run g = .error (.shapeMismatch (a.cols, b.cols) b.shape "matmul") g) ∧
    ∀ (g : Graph L F) (v : Matrix F), Reachable g → (a.nodes ++ b.nodes).Nodup →
      a.OfNumbers g → b.OfNumbers g → a.cols = b.rows → a.cols ≠ 0 →
      v.shape = (a.rows, b.cols) → v.isEmpty = false →
      ∃ l g₁ g₂ x y da db,
        (do weighted (← a.mul b) v : Step (Graph L F) Node).run g = .ok l g₁ ∧
        (backward l).run g₁ = .ok () g₂ ∧
        a.values.answer g = .ok x ∧ b.values.answer g = .ok y ∧
        v.mul y.transpose = .ok da ∧ x.transpose.mul v = .ok db ∧
        a.grads.run g₂ = .ok da g₂ ∧ b.grads.run g₂ = .ok db g₂ ∧
        ∀ (m n : Node) (own mask : Matrix F) (val : Node → Matrix F), val m = x → val n = y →
          (Op.mul m n : Op L).pushes own mask v val = .ok [(m, .whole da), (n, .whole db)] := by
  refine ⟨fun g h hg hcells hab h0 => ?_, fun g h => run_mul_of_ne h,
    fun g v hg hnodup ha hb hab h0 hv hempty => ?_⟩
  · have hread : ∀ n ∈ a.nodes ++ b.nodes, g.Readable n := fun n hn => by
      obtain ⟨e, he⟩ := hcells n hn
      exact readable_of_answer hg he
    obtain ⟨hra, hrb⟩ := List.forall_mem_append.1 hread
    exact exists_values_mul h (fits_of_reachable hg) hra hrb hab h0
  · have hf : ∀ n, g.Fits n := fits_of_reachable hg
    obtain ⟨l, g₁, g₂, da, db, hr₁, hr₂, hda, hdb, hga, hgb⟩ :=
      exists_grads_mul hf hg.gradsFit hnodup ha hb hab h0 hv hempty
    refine ⟨l, g₁, g₂, _, _, da, db, hr₁, hr₂, answer_values ha hf, answer_values hb hf, hda, hdb,
      hga, hgb, fun m n own mask val hm hn => ?_⟩
    rw [Op.pushes, hm, hn, hda, hdb]
    rfl

/-- Two numbers of two lanes. -/
def twoNumbers : Graph Float32 (Lanes Float32 2) :=
  Call.runs [.parameter (.scalar ⟨#v[2, -1]⟩), .parameter (.scalar ⟨#v[0, 3]⟩)]
    (.empty 0 ⟨fun _ => 0, fun _ => 0⟩)

/-- Four exact numbers. -/
def fourNumbers : Graph ℚ ℚ :=
  Call.runs [.parameter (.scalar 1), .parameter (.scalar 2), .parameter (.scalar 3),
    .parameter (.scalar 4)] (.empty 0 ⟨fun _ => 0, fun _ => 0⟩)

/-- A row that has one cell twice times a column that has it once more, and a row times a column of
distinct cells. -/
theorem mul_agrees_shared :
    (∃ c g₁ v g₂ x g₃ y g₄,
      (mul ⟨1, 2, #[0, 0], rfl⟩ ⟨2, 1, #[0, 1], rfl⟩).run twoNumbers = .ok c g₁ ∧
        c.values.run g₁ = .ok v g₂ ∧ (values ⟨1, 2, #[0, 0], rfl⟩).run g₂ = .ok x g₃ ∧
        (values ⟨2, 1, #[0, 1], rfl⟩).run g₃ = .ok y g₄ ∧ x.mul y = .ok v) ∧
    (mul ⟨1, 2, #[0, 0], rfl⟩ ⟨1, 2, #[0, 0], rfl⟩).run twoNumbers =
      .error (.shapeMismatch (2, 2) (1, 2) "matmul") twoNumbers ∧
    ∃ l g₁ g₂ x y da db,
      (do weighted (← mul ⟨1, 2, #[0, 1], rfl⟩ ⟨2, 1, #[2, 3], rfl⟩) (.scalar 5) :
        Step (Graph ℚ ℚ) Node).run fourNumbers = .ok l g₁ ∧ (backward l).run g₁ = .ok () g₂ ∧
      (values ⟨1, 2, #[0, 1], rfl⟩).answer fourNumbers = .ok x ∧
      (values ⟨2, 1, #[2, 3], rfl⟩).answer fourNumbers = .ok y ∧
      (Matrix.scalar 5).mul y.transpose = .ok da ∧ x.transpose.mul (.scalar 5) = .ok db ∧
      (grads ⟨1, 2, #[0, 1], rfl⟩).run g₂ = .ok da g₂ ∧
      (grads ⟨2, 1, #[2, 3], rfl⟩).run g₂ = .ok db g₂ := by
  have htwo : Reachable twoNumbers := (Reachable.empty 0 _).runs _
  have hfour : Reachable fourNumbers := (Reachable.empty 0 _).runs _
  have habsorbs : Absorbs (Lanes Float32 2) := rounds_float32.absorbs.of_lanes
  have hnumbers : ∀ n < 2, twoNumbers.isParameter n = true ∧
      (twoNumbers.value n).isScalar = true := by decide +kernel
  have hnumbers' : ∀ n < 4, fourNumbers.isParameter n = true ∧
      (fourNumbers.value n).isScalar = true := by decide +kernel
  have hread : ∀ n < 2, ∃ e, (scalarOf n).answer twoNumbers = .ok e := fun n hn => by
    obtain ⟨s, -, hr, -⟩ := (readable_parameter (hnumbers n hn).1 (hnumbers n hn).2).run_scalarOf
      fun m _ => fits_of_reachable htwo m
    exact ⟨_, Step.answer_of_run_ok hr⟩
  obtain ⟨hvalues, -, -⟩ := mul_agrees (E := Lanes Float32 2) (F := ℚ) ⟨1, 2, #[0, 0], rfl⟩
    ⟨2, 1, #[0, 1], rfl⟩
  obtain ⟨-, hrefused, -⟩ := mul_agrees (E := Lanes Float32 2) (F := ℚ) ⟨1, 2, #[0, 0], rfl⟩
    ⟨1, 2, #[0, 0], rfl⟩
  obtain ⟨-, -, hgrads⟩ := mul_agrees (E := ℚ) (F := ℚ) ⟨1, 2, #[0, 1], rfl⟩ ⟨2, 1, #[2, 3], rfl⟩
  refine ⟨?_, ?_, ?_⟩
  · exact hvalues twoNumbers habsorbs htwo (fun n hn => hread n (by revert n; decide)) rfl
      (by decide)
  · exact hrefused twoNumbers (.inl (by decide))
  · obtain ⟨l, g₁, g₂, x, y, da, db, h₁, h₂, h₃, h₄, h₅, h₆, h₇, h₈, -⟩ :=
      hgrads fourNumbers (.scalar 5) hfour (by decide)
        (fun n hn => hnumbers' n (by revert n; decide))
        (fun n hn => hnumbers' n (by revert n; decide)) rfl (by decide) rfl rfl
    exact ⟨l, g₁, g₂, x, y, da, db, h₁, h₂, h₃, h₄, h₅, h₆, h₇, h₈⟩

end Block

end DiffGraph
