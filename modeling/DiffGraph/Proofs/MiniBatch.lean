/-
  Mini-batches in the lanes of a program.

  A wide program runs on one example in each lane, and its gradients are added up where
  they are moved to narrower elements.

  * `Block.loadLanes`, `Block.Carries`: the examples are written to the lanes of a block;
  * `Program.Holds.load`: from there they get into the lanes of a program;
  * `Block.pass`: the pass of a graph for one example; it gives what the program gives in
    one lane (`Program.Holds.gradient`);
  * `Graph.Gained`: what was added to the gradients of a graph.

  So one pass of a wide program adds what the passes for its examples add one after another
  (`batch_of_lanes`).
-/
import Mathlib
import DiffGraph.Proofs.Folding

namespace DiffGraph

variable {K E S T : Type}

/-! ## Numbers that are written one after another -/

/-- What vertices hold after numbers were written to some of them. -/
def overwrite (ws : List (Node × K)) (x : Node → K) : Node → K :=
  ws.foldl (fun x w => Function.update x w.1 w.2) x

section
variable {ws : List (Node × K)} {x y : Node → K} {n : Node}

/-- What was held before does not matter where something is written. -/
theorem overwrite_congr (h : n ∉ ws.map Prod.fst → x n = y n) :
    overwrite ws x n = overwrite ws y n := by
  induction ws generalizing x y with
  | nil => exact h (by simp)
  | cons w ws ih =>
    have hrest : n ∉ ws.map Prod.fst →
        Function.update x w.1 w.2 n = Function.update y w.1 w.2 n := by
      intro hn
      by_cases hnw : n = w.1
      · rw [hnw, Function.update_self, Function.update_self]
      · rw [Function.update_of_ne hnw, Function.update_of_ne hnw]
        exact h (by simp [hnw, hn])
    exact ih hrest

/-- What is written to other vertices does not matter. -/
theorem overwrite_filter (p : Node → Bool) (hn : n ∈ ws.map Prod.fst → p n = true) :
    overwrite (ws.filter fun w => p w.1) x n = overwrite ws x n := by
  induction ws generalizing x with
  | nil => rfl
  | cons w ws ih =>
    have hrest : n ∈ ws.map Prod.fst → p n = true := fun h => hn (by simp [h])
    rw [List.filter_cons]
    split
    · exact ih hrest
    · next hw =>
      have hnw : n ≠ w.1 := fun hnw => hw (hnw ▸ hn (by simp [hnw]))
      exact (ih hrest).trans (overwrite_congr fun _ => (Function.update_of_ne hnw _ _).symm)

end

/-! ## Examples in the lanes of a block -/

namespace Block

/-- The entries of a matrix, with the vertices of the cells that they belong to. -/
def writes {A : Type} (b : Block) (x : Matrix A) : List (Node × A) := b.nodes.zip x.data.toList

theorem map_fst_writes {A : Type} {b : Block} {x : Matrix A} (hx : x.shape = b.shape) :
    (b.writes x).map Prod.fst = b.nodes := by
  refine List.map_fst_zip (le_of_eq ?_)
  rw [nodes, Array.length_toList, Array.length_toList, b.size_data, x.size_data]
  exact (congrArg Shape.area hx).symm

/-- The cells of a block are parameters that hold numbers. -/
def OfNumbers (b : Block) (g : Graph K E) : Prop :=
  ∀ n ∈ b.nodes, g.isParameter n = true ∧ (g.value n).isScalar = true

section
variable {b : Block} {r c : Nat}

theorem position_lt (hr : r < b.rows) (hc : c < b.cols) : r * b.cols + c < b.data.size := by
  rw [b.size_data]
  exact Matrix.position_lt hr hc

theorem node_eq_getElem (h : r * b.cols + c < b.data.size) :
    b.node r c = b.data[r * b.cols + c] := by
  simp [node, Array.getD, h]

theorem node_mem (hr : r < b.rows) (hc : c < b.cols) : b.node r c ∈ b.nodes := by
  rw [node_eq_getElem (position_lt hr hc), nodes, Array.mem_toList_iff]
  exact Array.getElem_mem _

/-- A block of distinct cells has each of them at one place. -/
theorem idxOf_node (hb : b.nodes.Nodup) (hr : r < b.rows) (hc : c < b.cols) :
    b.nodes.idxOf (b.node r c) = r * b.cols + c := by
  have hlt : r * b.cols + c < b.nodes.length := by
    rw [nodes, Array.length_toList]
    exact position_lt hr hc
  rw [node_eq_getElem (position_lt hr hc), ← Array.getElem_toList]
  exact hb.idxOf_getElem _ hlt

theorem exists_node {n : Node} (hn : n ∈ b.nodes) : ∃ r < b.rows, ∃ c < b.cols, b.node r c = n := by
  obtain ⟨k, hk, rfl⟩ := List.getElem_of_mem hn
  rw [nodes, Array.length_toList] at hk
  have hk' : k < b.rows * b.cols := b.size_data ▸ hk
  have hpos : 0 < b.cols := Nat.pos_of_mul_pos_left (Nat.zero_lt_of_lt hk')
  refine ⟨k / b.cols, (Nat.div_lt_iff_lt_mul hpos).2 hk', k % b.cols, Nat.mod_lt k hpos, ?_⟩
  exact (Matrix.entry_div_mod b hk).trans (Array.getElem_toList hk).symm

theorem cell_eq (hr : r < b.rows) (hc : c < b.cols) : b.cell r c = .ok (b.node r c) := by
  have hlt := position_lt hr hc
  rw [cell, Matrix.get?, if_pos ⟨hr, hc⟩, Array.getElem?_eq_getElem hlt, node_eq_getElem hlt]

end

section
variable [Scalar K] [Arith T] [Laned K T] {b : Block} {w w' : Graph K T} {x : Nat → Matrix K}

/-- Writes example `l` to lane `l` of all cells, for every lane. -/
def loadLanes (b : Block) (x : Nat → Matrix K) : Step (Graph K T) Unit :=
  ((List.range (Laned.width T)).product ((List.range b.rows).product (List.range b.cols))).forM
    fun i => b.setLane i.2.1 i.2.2 i.1 ((x i.1).entry i.2.1 i.2.2)

/-- Lane `l` of the cells of a block holds the entries of `x l`. -/
structure Carries (b : Block) (w : Graph K T) (x : Nat → Matrix K) : Prop where
  numbers : b.OfNumbers w
  lanes : ∀ l < Laned.width T,
    b.nodes.map (fun n => Laned.lane (w.number n) l) = (x l).data.toList

/-- The graph after the lanes `done` of cells were written, lane `l` of `n` with `f n l`. -/
structure Loaded (b : Block) (f : Node → Nat → K) (done : List (Nat × Nat × Nat))
    (w w' : Graph K T) : Prop where
  dag : w'.dag = w.dag
  scalar : ∀ n ∈ b.nodes, (w'.value n).isScalar = true
  lane : ∀ i ∈ done, i.1 < Laned.width T →
    Laned.lane (w'.number (b.node i.2.1 i.2.2)) i.1 = f (b.node i.2.1 i.2.2) i.1

theorem run_setLane {r c l : Nat} (hr : r < b.rows) (hc : c < b.cols) (hl : l < Laned.width T)
    (hp : w.isParameter (b.node r c) = true) (hs : (w.value (b.node r c)).isScalar = true) (k : K) :
    (b.setLane r c l k).run w = .ok () (w.update (b.node r c) fun d => { d with
      value := .scalar (Laned.ofLanes fun i =>
        if i = l then k else Laned.lane (w.number (b.node r c)) i) }) := by
  have hval : w.value (b.node r c) = .scalar (w.number (b.node r c)) := Matrix.eq_scalar hs
  simp only [setLane, EStateM.run_bind, cell_eq hr hc, Step.run_ofExcept_ok]
  rw [Graph.setLane]
  simp only [if_neg (not_le.2 hl)]
  refine Graph.run_alter hp ?_
  rw [hval]
  rfl

/-- One more lane is written. -/
theorem Loaded.setLane {f : Node → Nat → K} [Laned.Lawful K T] {done : List (Nat × Nat × Nat)}
    {r c l : Nat} (h : Loaded b f done w w') (hb : b.OfNumbers w) (hr : r < b.rows)
    (hc : c < b.cols) (hl : l < Laned.width T) :
    ∃ w'', (b.setLane r c l (f (b.node r c) l)).run w' = .ok () w'' ∧
      Loaded b f (done ++ [(l, r, c)]) w w'' := by
  have hmem := node_mem hr hc
  have hp : w'.isParameter (b.node r c) = true :=
    (Graph.isParameter_of_dag h.dag _).trans (hb _ hmem).1
  have hs := h.scalar _ hmem
  have hlt := Graph.lt_size_of_isScalar hs
  refine ⟨_, run_setLane hr hc hl hp hs _, h.dag, fun n hn => ?_, fun i hi hil => ?_⟩
  · rw [Graph.value, Graph.cell_update]
    split
    · exact Matrix.isScalar_scalar _
    · exact h.scalar n hn
  · rw [Graph.number, Graph.value, Graph.cell_update]
    split
    · next hn =>
      rw [Matrix.entry_scalar, Laned.Lawful.lane_ofLanes hil, hn.1]
      split
      · next hil => rw [hil]
      · next hne =>
        rcases List.mem_append.1 hi with hi | hi
        · rw [← hn.1]
          exact h.lane i hi hil
        · obtain rfl := List.mem_singleton.1 hi
          exact absurd rfl hne
    · next hn =>
      rcases List.mem_append.1 hi with hi | hi
      · exact h.lane i hi hil
      · obtain rfl := List.mem_singleton.1 hi
        exact absurd ⟨rfl, hlt⟩ hn

/-- **Examples that fit a block of distinct cells get into its lanes**, whatever the cells
held before. -/
theorem run_loadLanes [Laned.Lawful K T] (hb : b.OfNumbers w) (hnodup : b.nodes.Nodup)
    (hx : ∀ l < Laned.width T, (x l).shape = b.shape) :
    ∃ w', (b.loadLanes x).run w = .ok () w' ∧ b.Carries w' x := by
  let f : Node → Nat → K := fun n l => (x l).data.getD (b.nodes.idxOf n) 0
  have hf : ∀ {r c l}, r < b.rows → c < b.cols → l < Laned.width T →
      (x l).entry r c = f (b.node r c) l := fun {r c l} hr hc hl => by
    have hcols : (x l).cols = b.cols := (Prod.mk.inj (hx l hl)).2
    rw [Matrix.entry, hcols, ← idxOf_node hnodup hr hc]
  obtain ⟨w', hrun, h⟩ := Step.run_forM_ok (fun done w' => Loaded b f done w w')
    (f := fun i : Nat × Nat × Nat => b.setLane i.2.1 i.2.2 i.1 ((x i.1).entry i.2.1 i.2.2))
    (l := (List.range (Laned.width T)).product ((List.range b.rows).product (List.range b.cols)))
    (fun pre i post w' hall h => by
      obtain ⟨l, r, c⟩ := i
      obtain ⟨hl, hr, hc⟩ : l < Laned.width T ∧ r < b.rows ∧ c < b.cols := by
        have hmem := hall ▸ List.mem_append_right pre List.mem_cons_self
        simpa [List.product] using hmem
      rw [hf hr hc hl]
      exact h.setLane hb hr hc hl)
    ⟨rfl, fun n hn => (hb n hn).2, by simp⟩
  refine ⟨w', hrun, fun n hn => ⟨?_, h.scalar n hn⟩, fun l hl => ?_⟩
  · exact (Graph.isParameter_of_dag h.dag n).trans (hb n hn).1
  have hsize : (x l).data.size = b.data.size := by
    rw [(x l).size_data, b.size_data]
    exact congrArg Shape.area (hx l hl)
  refine List.ext_getElem (by simp [nodes, hsize]) fun k hk hk' => ?_
  have hk₁ : k < b.nodes.length := by simpa using hk
  obtain ⟨r, hr, c, hc, hn⟩ := exists_node (List.getElem_mem hk₁)
  rw [List.getElem_map, ← hn, h.lane (l, r, c) (by simp [List.product, hl, hr, hc]) hl, hn]
  have hk₂ : k < (x l).data.size := by simpa using hk'
  have hidx : b.nodes.idxOf b.nodes[k] = k := hnodup.idxOf_getElem k hk₁
  simp [f, hidx, Array.getD, hk₂]

end

end Block

/-! ## Examples in the lanes of a program -/

section
variable [Scalar K] [Arith T] [Laned K T] [Laned.Lawful K T] {g : Graph K E} {order : List Node}
  {p : Program E} {values : Array E} {q : Program T} {input source : Block} {w : Graph K T}
  {x : Nat → Matrix K}

omit [Laned.Lawful K T] in
/-- Cells that hold numbers are loaded without a change of their graph. -/
theorem Projection.run_loadCells {cells : List (Node × Nat)}
    (h : ∀ c ∈ cells, w.isParameter c.1 = true ∧ (w.value c.1).isScalar = true) (q : Program T) :
    (cells.forM loadCell).run (w, q) = .ok () (w, cells.foldl
      (fun q c => q.setValue c.2 (Laned.broadcast (w.number c.1))) q) := by
  induction cells generalizing q with
  | nil => rfl
  | cons c cells ih =>
    obtain ⟨hp, hs⟩ := h c List.mem_cons_self
    rw [List.forM_eq_forM, List.forM_cons, EStateM.run_bind, run_loadCell,
      Graph.run_scalarOf (Graph.hasValue_of_isParameter hp) hs]
    exact ih (fun d hd => h d (List.mem_cons_of_mem _ hd)) _

/-- What is written to lane `l` of a program that is loaded from a block. -/
theorem Block.Carries.writes_eq (hw : source.Carries w x)
    (hsource : source.shape = input.shape) {l : Nat} (hl : l < Laned.width T) :
    (g.entryCells order input source).map (fun c =>
        (c.2, Laned.lane (Laned.broadcast (w.number c.1) : T) l)) =
      (input.writes (x l)).filter fun v => g.hasEntry order v.1 := by
  have hlane : ∀ v : T, Laned.lane (Laned.broadcast v : T) l = Laned.lane v l := fun v => by
    rw [Laned.broadcast, Laned.Lawful.lane_ofLanes hl, Nat.mod_eq_of_lt hl]
  have hzip : input.writes (x l) = (source.nodes.zip input.nodes).map fun c =>
      (c.2, Laned.lane (w.number c.1) l) := by
    rw [Block.writes, ← hw.lanes l hl, List.zip_map_right, ← List.zip_swap, List.map_map]
    rfl
  simp only [hlane]
  rw [hzip, List.filter_map, Graph.entryCells, if_pos hsource]
  rfl

/-- **Every lane of a program gets its example.** -/
theorem Program.Holds.load [Arith E] (hp : Graph.Compiled g order p.code values)
    (hnodup : order.Nodup) (hsource : source.shape = input.shape) (hw : source.Carries w x)
    (hwidth : 0 < Laned.width T) {y : Nat → Node → K}
    (hq : ∀ l < Laned.width T, Holds g order p l (y l) q) :
    ∃ q', ((Projection.make g input p).load source).run (w, q) = .ok () (w, q') ∧
      ∀ l < Laned.width T, Holds g order p l
        (overwrite ((input.writes (x l)).filter fun v => g.hasEntry order v.1) (y l)) q' := by
  let ws : List (Node × T) := (g.entryCells order input source).map fun c =>
    (c.2, Laned.broadcast (w.number c.1))
  refine ⟨ws.foldl (fun q v => q.setValue (order.idxOf v.1) v.2) q, ?_, fun l hl => ?_⟩
  · have hcells : ∀ c ∈ (Projection.make g input p).pairs source,
        w.isParameter c.1 = true ∧ (w.value c.1).isScalar = true := fun c hc => by
      refine hw.numbers c.1 ?_
      rw [Projection.pairs_make hp input source hsource, Graph.entryCells, if_pos hsource,
        List.mem_map] at hc
      obtain ⟨d, hd, rfl⟩ := hc
      exact (List.of_mem_zip (List.mem_of_mem_filter hd)).1
    simp only [Projection.load, EStateM.run_bind, EStateM.run_get,
      Projection.check_make (hq 0 hwidth).fingerprint, if_pos hsource, Step.run_ofExcept_ok,
      Projection.run_loadCells hcells]
    rw [Projection.pairs_make hp input source hsource, List.foldl_map, List.foldl_map]
  · have hholds := (hq l hl).writes hnodup ws
    have henv : ws.foldl (fun x v => Function.update x v.1 (Laned.lane v.2 l)) (y l) =
        overwrite ((input.writes (x l)).filter fun v => g.hasEntry order v.1) (y l) := by
      rw [← hw.writes_eq hsource hl, overwrite]
      simp only [ws, List.foldl_map]
    exact henv ▸ hholds

end

/-! ## Passes for single examples -/

section
variable [Arith E] {g s : Graph K E} {root : Node} {input : Block} {y : Node → E}

/-- Numbers are assigned one after another, and nothing else changes. -/
theorem Graph.run_writes (ws : List (Node × E))
    (h : ∀ v ∈ ws, s.isParameter v.1 = true ∧ (s.value v.1).isScalar = true) :
    ∃ s', (ws.forM fun v => assign v.1 v.2).run s = .ok () s' ∧ s'.dag = s.dag ∧
      (∀ n, s'.grad n = s.grad n) ∧ ∀ n, (s.value n).isScalar = true →
        s'.value n = .scalar (overwrite ws s.number n) := by
  induction ws generalizing s with
  | nil => exact ⟨s, rfl, rfl, fun _ => rfl, fun n hn => Matrix.eq_scalar hn⟩
  | cons v ws ih =>
    obtain ⟨hp, hv⟩ := h v List.mem_cons_self
    let s₁ := s.update v.1 fun c => { c with value := .scalar v.2 }
    have hlt := lt_size_of_isScalar hv
    have hvalue : ∀ n, s₁.value n = if n = v.1 then .scalar v.2 else s.value n := fun n => by
      rw [value, cell_update]
      by_cases hn : n = v.1
      · rw [if_pos ⟨hn, hn ▸ hlt⟩, if_pos hn]
      · rw [if_neg fun h => hn h.1, if_neg hn]
        rfl
    have hnumber : s₁.number = Function.update s.number v.1 v.2 := funext fun n => by
      rw [number, hvalue]
      by_cases hn : n = v.1
      · rw [if_pos hn, hn, Function.update_self, Matrix.entry_scalar]
      · rw [if_neg hn, Function.update_of_ne hn]
        rfl
    have hscalar : ∀ n, (s.value n).isScalar = true → (s₁.value n).isScalar = true := fun n hn => by
      rw [hvalue]
      split
      · exact Matrix.isScalar_scalar _
      · exact hn
    obtain ⟨s', hrun, hdag, hgrad, hnew⟩ := ih (s := s₁) fun u hu =>
      have hu' := h u (List.mem_cons_of_mem _ hu)
      ⟨hu'.1, hscalar _ hu'.2⟩
    refine ⟨s', ?_, hdag, fun n => ?_, fun n hn => ?_⟩
    · have hassign : (assign v.1 v.2).run s = .ok () s₁ := run_alter hp (if_pos hv)
      exact Step.run_forM_cons_ok hassign hrun
    · rw [hgrad, grad, grad, cell_update]
      split
      · next hn => rw [hn.1]
      · rfl
    · rw [hnew n (hscalar n hn), hnumber]
      rfl

/-- **An example that fits is assigned**, and nothing else changes. -/
theorem Block.run_assign (hinput : input.OfNumbers s) {x : Matrix E} (hx : x.shape = input.shape) :
    ∃ s', (input.assign x).run s = .ok () s' ∧ s'.dag = s.dag ∧ (∀ n, s'.grad n = s.grad n) ∧
      ∀ n, (s.value n).isScalar = true →
        s'.value n = .scalar (overwrite (input.writes x) s.number n) := by
  have hpairs : ∃ m, input.zipWith "assign" Prod.mk x = .ok m ∧
      m.data.toList = input.writes x := by
    obtain ⟨hrows, hcols⟩ := Prod.mk.inj hx
    refine ⟨_, dif_pos ⟨hrows.symm, hcols.symm⟩, ?_⟩
    simp [writes, nodes, List.zip]
  obtain ⟨m, hm, hdata⟩ := hpairs
  obtain ⟨s', hrun, h⟩ := Graph.run_writes (s := s) (input.writes x) fun v hv =>
    hinput v.1 (List.of_mem_zip hv).1
  refine ⟨s', ?_, h⟩
  simp only [assign, EStateM.run_bind, hm, Step.run_ofExcept_ok, hdata]
  exact hrun

namespace Graph

/-- A graph with the operations of `g`, in whatever state, that can be given examples.
Its parameters below the root hold `y`, but for the cells of the block. -/
structure Primed (g s : Graph K E) (root : Node) (input : Block) (y : Node → E) : Prop where
  dag : s.dag = g.dag
  gradsFit : s.GradsFit
  cells : input.OfNumbers s
  weight : ∀ n, g.dag.Below root n → g.isParameter n = true → n ∉ input.nodes →
    s.value n = .scalar (y n)

/-- The parameters hold the example when it has been assigned and all else is forgotten. -/
theorem Primed.run_prepare (h : Primed g s root input y) (hroot : root < g.size) {x : Matrix E}
    (hx : x.shape = input.shape) :
    ∃ s', (do input.assign x; reset (g.order root) : Step (Graph K E) Unit).run s = .ok () s' ∧
      Rebound g s' root (overwrite (input.writes x) y) := by
  obtain ⟨s₁, hassign, hdag, hgrad, hvalue⟩ := input.run_assign h.cells hx
  have hscalar : ∀ n, g.dag.Below root n → g.isParameter n = true →
      (s.value n).isScalar = true := fun n hb hp => by
    by_cases hn : n ∈ input.nodes
    · exact (h.cells n hn).2
    · rw [h.weight n hb hp hn, Matrix.isScalar_scalar]
  have hwritten : ∀ n, g.dag.Below root n → g.isParameter n = true →
      s₁.value n = .scalar (overwrite (input.writes x) y n) := fun n hb hp => by
    rw [hvalue n (hscalar n hb hp)]
    refine congrArg Matrix.scalar (overwrite_congr fun hn => ?_)
    rw [Block.map_fst_writes hx] at hn
    rw [number, h.weight n hb hp hn, Matrix.entry_scalar]
  obtain ⟨s', hreset, hs'⟩ := run_reset_rebound hroot (hdag.trans h.dag) hwritten
    fun n hb hp => by
      have hp' : s.isParameter n = true := (isParameter_of_dag h.dag n).trans hp
      rw [hgrad, h.gradsFit n hp', Matrix.eq_scalar (hscalar n hb hp), Matrix.shape_scalar]
  refine ⟨s', ?_, hs'⟩
  rw [EStateM.run_bind, hassign]
  exact hreset

end Graph

/-- The pass of a graph for one example. -/
def Block.pass [Scalar K] [Laned K E] (input : Block) (root : Node) (order : List Node)
    (x : Matrix E) : Step (Graph K E) Unit := do
  input.assign x
  Graph.reset order
  Graph.reverseAlong root order

/-- The gradient of a vertex in the pass for one example. -/
def Graph.gradientFor [Scalar K] [Laned K E] (s : Graph K E) (input : Block) (root : Node)
    (order : List Node) (x : Matrix E) (n : Node) : E :=
  (((input.pass root order x).final s).grad n).entry 0 0

end

namespace Program

theorem Holds.congr [Scalar K] [Arith T] [Laned K T] {g : Graph K E} {order : List Node}
    {p : Program E} {l : Nat} {y z : Node → K} {q : Program T} (h : Holds g order p l y q)
    (hyz : ∀ n ∈ order, g.isParameter n = true → y n = z n) : Holds g order p l z q :=
  { h with value := fun i n hi hn =>
      (h.value i n hi hn).trans (hyz n (List.mem_of_getElem? hi) hn) }

/-- Gradients can be cleared before an evaluation or after it. -/
theorem forward_clearGrads [Arith T] (q : Program T) :
    q.clearGrads.forward = q.forward.clearGrads := by
  have hitem : ∀ (q : Program T) (i : Nat),
      (q.forwardItem i).clearGrads = q.clearGrads.forwardItem i := fun q i => by
    have hcode : q.clearGrads.code = q.code := rfl
    have hvalue : q.clearGrads.value = q.value := rfl
    unfold forwardItem
    rw [hcode, hvalue]
    cases (q.code.instr i).compute q.value <;> rfl
  exact List.foldl_hom clearGrads fun q i => (hitem q i).symm

variable [Scalar K] [Arith T] [Laned K T] [Laned.Lawful K T]

/-- **A lane of a gradient** is the gradient of the pass for its example. -/
theorem Holds.gradient {l : Nat} (hl : l < Laned.width T) {g s : Graph K K} {root : Node}
    {p : Program K} {input : Block} {x : Matrix K} {y : Node → K} {q : Program T}
    (hzero : ∀ x : K, 0 + x = x) (hcomm : ∀ x y : K, x * y = y * x) (hroot : root < g.size)
    (hp : Graph.Compiled g (g.order root) p.code p.values) (hn : g.Numeric root)
    (hs : g.Primed s root input y) (hx : x.shape = input.shape)
    (hq : Holds g (g.order root) p l (overwrite (input.writes x) y) q) :
    ∃ s', (input.pass root (g.order root) x).run s = .ok () s' ∧
      ∀ n, g.Receives (g.order root) n → s'.grad n =
        .scalar (Laned.lane (q.forward.clearGrads.reverse.grad ((g.order root).idxOf n)) l) := by
  obtain ⟨s₁, hprepare, hs₁⟩ := hs.run_prepare hroot hx
  let A : Agreement K := .exact (.of_zero_add hzero hcomm)
  have hf : Graph.FineAlong A g.dag (g.order root) ((Graph.evaluate root).final s₁).number :=
    fun _ _ _ _ _ _ _ => hzero _
  obtain ⟨-, s', hpass, hgrad⟩ := hq.refines hl hs₁ hroot hp hn hf
  refine ⟨s', ?_, fun n hr => ?_⟩
  · have hreverse : (Graph.reverseAlong root (g.order root)).run s₁ = .ok () s' := by
      rw [← hpass, Graph.reversePass]
      simp only [EStateM.run_bind, EStateM.run_get, hs₁.order]
    have hbind : (input.pass root (g.order root) x : Step (Graph K K) Unit) =
        (do input.assign x; Graph.reset (g.order root)) >>= fun _ =>
          Graph.reverseAlong root (g.order root) := by
      simp only [Block.pass, bind_assoc]
    rw [hbind, EStateM.run_bind, hprepare]
    exact hreverse
  · have hi := List.getElem?_idxOf hr.mem
    obtain ⟨a, ha, hab, -⟩ := hgrad _ n hi ((hp.tracked_parameter hi hr.parameter).trans hr.tracked)
    rw [ha, hab, forward_clearGrads]

end Program

/-! ## What a graph gains -/

/-- What was added to the gradients of a graph.  Its cells stand for vertices `n`, to whose
gradients `sum n` was added. -/
structure Graph.Gained [Arith K] [Arith S] [Laned K S] (t t' : Graph K S)
    (stands : Node → Node → Prop) (sum : Node → Nat → K) : Prop where
  beside : t.Beside t'
  gains : ∀ m n, stands m n → (t.cell m).Gains (t'.cell m) (sum n)
  others : ∀ m, (∀ n, ¬ stands m n) → t'.cell m = t.cell m

section
variable [Scalar K] [Arith E] [Arith S] [Arith T] [Laned K S] [Laned K T] [Laned.Lawful K S]
  {g : Graph K E} {order : List Node} {p : Program E} {q : Program T} {values : Array E}
  {t : Graph K S} {sum : Node → Nat → K}

/-- **A block gains the gradients of the parameters that its cells stand for.** -/
theorem Projection.gained_addGrads (h : Graph.Compiled g order p.code values)
    (hq : q.fingerprint = p.fingerprint) {weights target : Block}
    (hs : target.shape = weights.shape) (hnodup : target.nodes.Nodup)
    (hlt : ∀ m ∈ target.nodes, m < t.size)
    (hweights : ∀ n ∈ weights.nodes, g.hasEntry order n = true → g.Receives order n)
    (hsum : ∀ n, g.Receives order n → ∀ j < Laned.width S,
      Laned.lane (Laned.fold (q.grad (order.idxOf n)) : S) j = sum n j) :
    ∃ t', ((make g weights p).addGrads q target).run t = .ok () t' ∧
      t.Gained t' (fun m n => (m, n) ∈ target.nodes.zip weights.nodes ∧ g.Receives order n)
        sum := by
  obtain ⟨t', hrun, hreplaced⟩ := run_addGrads h hq hs hnodup t
  have hcells : ∀ c, c ∈ g.entryCells order weights target ↔
      c ∈ target.nodes.zip weights.nodes ∧ g.hasEntry order c.2 = true := fun c => by
    rw [Graph.entryCells, if_pos hs, List.mem_filter]
    rfl
  refine ⟨t', hrun, hreplaced.beside, fun m n hmn => ?_, fun m hm => hreplaced.old m ?_⟩
  · have hnew := hreplaced.new (m, n) ((hcells _).2 ⟨hmn.1, hmn.2.hasEntry⟩)
      (hlt m (List.of_mem_zip hmn.1).1)
    rw [← Except.ok.inj hnew]
    exact Cell.gains_addEach _ _ (hsum n hmn.2)
  · rw [List.mem_map]
    rintro ⟨⟨m', n⟩, hc, rfl⟩
    obtain ⟨hzip, hentry⟩ := (hcells _).1 hc
    exact hm n ⟨hzip, hweights n (List.of_mem_zip hzip).2 hentry⟩

/-- **The graph of a program gains the gradients of its parameters.** -/
theorem Program.gained_deliverGrads (h : Graph.Compiled g order q.code values)
    (hnodup : order.Nodup) (htag : t.tag = g.tag) (hlt : ∀ n ∈ order, n < t.size)
    (hsum : ∀ n, g.Receives order n → ∀ j < Laned.width S,
      Laned.lane (Laned.fold (q.grad (order.idxOf n)) : S) j = sum n j) :
    ∃ t', (q.deliverGrads order).run t = .ok () t' ∧
      t.Gained t' (fun m n => m = n ∧ g.Receives order n) sum := by
  obtain ⟨t', hrun, hbeside, hnew, hold⟩ := run_deliverGrads h hnodup htag
  refine ⟨t', hrun, hbeside, ?_, fun m hm => hold m fun hr => hm m ⟨rfl, hr⟩⟩
  rintro m n ⟨rfl, hr⟩
  rw [hnew m hr (hlt m hr.mem)]
  exact Cell.gains_addEach _ _ (hsum m hr)

end

/-! ## One pass for a batch -/

namespace Program

variable [Scalar K] [Arith S] [Arith T] [Laned K S] [Laned K T] [Laned.Lawful K S]
  [Laned.Lawful K T] [Laned.Totals K T]

/-- **A pass of a wide program is a mini-batch.**  Let a graph be compiled and its program be
used in any way, and let `s` be the graph with the weights that the program now holds in
all its lanes.  Write the examples `x` to the lanes of a block, load the program from it,
compute the result, clear the gradients and go back.  Then the gradients that are moved to
narrower elements are sums over single passes of `s`: lane `j` of a cell that stands for a
parameter gains the gradients for the examples of the lanes that agree with `j`, from left
to right, and nothing else changes.  An element of one lane gains the sum over all examples. -/
theorem batch_of_lanes (hzero : ∀ x : K, 0 + x = x) (hnegative : ∀ x : K, -0 + x = x)
    (hcomm : ∀ x y : K, x * y = y * x) {g s : Graph K K} {root : Node} (hroot : root < g.size)
    {p : Program K} (hp : g.compile (g.order root) = .ok p) (us : List (Use K))
    {input source : Block} {w : Graph K T} {x : Nat → Matrix K}
    (hs : ∀ l < Laned.width T, g.Primed s root input (held T g (g.order root) us l))
    (hmarked : ∀ n ∈ input.nodes, n ∈ g.order root → g.marked n = true)
    (hsource : source.shape = input.shape) (hcells : source.OfNumbers w)
    (hnodup : source.nodes.Nodup) (hx : ∀ l < Laned.width T, (x l).shape = input.shape)
    (hpos : 0 < Laned.width S) (hwidth : Laned.width S ≤ Laned.width T) :
    let order := g.order root
    let gradient (n : Node) (l : Nat) : K := s.gradientFor input root order (x l) n
    let sum (n : Node) (j : Nat) : K :=
      total ((strideOf (Laned.width T) (Laned.width S) j).map (gradient n))
    ∃ (w' : Graph K T) (q₀ : Program T) (v : T) (q₁ q : Program T),
      (source.loadLanes x).run w = .ok () w' ∧
      ((Projection.make g input p).load source).run (w', uses g p us p.convert) =
        .ok () (w', q₀) ∧
      result.run q₀ = .ok v q₁ ∧ reversePass.run q₁.clearGrads = .ok () q ∧
      (∀ l < Laned.width T, (input.pass root order (x l)).answer s = .ok () ∧
        ∀ n, g.Receives order n →
          ((input.pass root order (x l)).final s).grad n = .scalar (gradient n l)) ∧
      (∀ (weights target : Block) (t : Graph K S), target.shape = weights.shape →
        target.nodes.Nodup → (∀ m ∈ target.nodes, m < t.size) →
        (∀ n ∈ weights.nodes, g.hasEntry order n = true → g.Receives order n) →
        ∃ t', ((Projection.make g weights p).addGrads q target).run t = .ok () t' ∧
          t.Gained t' (fun m n => (m, n) ∈ target.nodes.zip weights.nodes ∧ g.Receives order n)
            sum) ∧
      (∀ t : Graph K S, t.tag = g.tag → g.size ≤ t.size →
        ∃ t', (q.deliverGrads order).run t = .ok () t' ∧
          t.Gained t' (fun m n => m = n ∧ g.Receives order n) sum) ∧
      (Laned.width S = 1 →
        ∀ n, sum n 0 = total ((List.range (Laned.width T)).map (gradient n))) := by
  intro order gradient sum
  obtain ⟨hn, hcomp⟩ := Graph.numeric_of_compile hroot hp
  have horder : order.Nodup := Dag.nodup_traverse root
  -- the lanes of the program
  obtain ⟨w', hload, hcarries⟩ := source.run_loadLanes hcells hnodup
    fun l hl => (hx l hl).trans hsource.symm
  obtain ⟨q₀, hload', hq₀⟩ := Holds.load hcomp horder hsource hcarries
    (hpos.trans_le hwidth) fun l hl => (holds_convert hl hcomp).uses hcomp horder us
  have hholds : ∀ l < Laned.width T, Holds g order p l
      (overwrite (input.writes (x l)) (held T g order us l)) q₀ := fun l hl =>
    (hq₀ l hl).congr fun n hm _ => overwrite_filter (g.hasEntry order) fun hn => by
      rw [Block.map_fst_writes (hx l hl)] at hn
      exact Graph.hasEntry_iff.2 ⟨hm, hmarked n hn hm⟩
  have hq₀' := hholds 0 (hpos.trans_le hwidth)
  have hsize : q₀.forward.size ≠ 0 := by
    rw [size, (reran_forward q₀).code, hq₀'.code]
    exact hcomp.size_ne_zero hroot
  let q := q₀.forward.clearGrads.reverse
  have hreran : Reran q₀ q :=
    ((reran_forward q₀).trans (reran_clearGrads _)).trans (reran_reverse _)
  -- the passes of the graph
  have hpass : ∀ l < Laned.width T, ∃ s', (input.pass root order (x l)).run s = .ok () s' ∧
      ∀ n, g.Receives order n → s'.grad n = .scalar (Laned.lane (q.grad (order.idxOf n)) l) :=
    fun l hl => (hholds l hl).gradient hl hzero hcomm hroot hcomp hn (hs l hl) (hx l hl)
  have hgradient : ∀ l < Laned.width T, ∀ n, g.Receives order n →
      gradient n l = Laned.lane (q.grad (order.idxOf n)) l := fun l hl n hr => by
    obtain ⟨s', hrun, hgrad⟩ := hpass l hl
    simp only [gradient, Graph.gradientFor, Step.final_of_run_ok hrun, hgrad n hr,
      Matrix.entry_scalar]
  have hsum : ∀ n, g.Receives order n → ∀ j < Laned.width S,
      Laned.lane (Laned.fold (q.grad (order.idxOf n)) : S) j = sum n j := fun n hr j hj => by
    rw [Laned.lane_fold hzero hnegative _ hj hwidth]
    refine congrArg total (List.map_congr_left fun l hl => ?_)
    exact (hgradient l (mem_strideOf.1 hl).1 n hr).symm
  refine ⟨w', q₀, q₀.forward.value (q₀.forward.size - 1), q₀.forward, q, hload, hload', ?_, ?_,
    fun l hl => ?_,
    fun weights target t hshape htarget hlt hweights =>
      Projection.gained_addGrads hcomp (hreran.fingerprint.trans hq₀'.fingerprint) hshape htarget
        hlt hweights hsum,
    fun t htag hle => ?_, fun hone n => ?_⟩
  · rw [run_result, if_neg hsize]
  · rw [run_reversePass]
    exact if_neg hsize
  · obtain ⟨s', hrun, hgrad⟩ := hpass l hl
    refine ⟨Step.answer_of_run_ok hrun, fun n hr => ?_⟩
    rw [Step.final_of_run_ok hrun, hgrad n hr, hgradient l hl n hr]
  · have hcode : q.code = p.code := hreran.code.trans hq₀'.code
    exact gained_deliverGrads (hcode.symm ▸ hcomp) horder htag
      (fun n hm => ((Graph.mem_order hroot).1 hm).le.trans_lt (hroot.trans_le hle)) hsum
  · simp only [sum, hone, strideOf_one]

/-- The product of a weight and an input. -/
def weighted : Graph ℚ ℚ :=
  DiffGraph.Call.runs [.parameter (.scalar 2), .setTracked 0 true, .parameter (.scalar 5),
    .setInput 1 true, .record (.mul 0 1)] (.empty 0 ⟨fun _ => 0, fun _ => 0⟩)

/-- A number in each of `W` lanes. -/
def laneCell (W : Nat) : Graph ℚ (Lanes ℚ W) :=
  DiffGraph.Call.runs [.parameter (.scalar 0)] (.empty 1 ⟨fun _ => 0, fun _ => 0⟩)

/-- The examples one, two and three. -/
def counted (l : Nat) : Matrix ℚ := .scalar (l + 1 : Nat)

theorem order_weighted : weighted.order 2 = [0, 1, 2] := by
  have hsize : weighted.dag.size = 3 := by decide +kernel
  have hops : weighted.dag.operands 2 = [0, 1] ∧ weighted.dag.operands 1 = [] ∧
      weighted.dag.operands 0 = [] := by
    decide +kernel
  simp [Graph.order, Dag.traverse, Dag.visit, hsize, hops]

/-- The example `l` is written to the input, and what is computed is forgotten. -/
def prepare (l : Nat) : Step (Graph ℚ ℚ) Unit := do
  Block.assign (.scalar 1) (counted l)
  Graph.reset [0, 1, 2]

theorem missing_prepare {l : Nat} (hl : l < 3) : ((prepare l).final weighted).missing 2 = [2] := by
  have hsize : ∀ l < 3, ((prepare l).final weighted).dag.size = 3 := by decide +kernel
  have hops : ∀ l < 3, ((prepare l).final weighted).dag.operands 2 = [0, 1] := by decide +kernel
  have hv : ∀ l < 3, ∀ n < 3, ((prepare l).final weighted).hasValue n = (n != 2) := by
    decide +kernel
  simp [Graph.missing, Dag.traverse, Dag.visit, hsize l hl, hops l hl, hv l hl]

theorem gradientFor_weighted {l : Nat} (hl : l < 3) :
    weighted.gradientFor (.scalar 1) 2 [0, 1, 2] (counted l) 0 = (l + 1 : Nat) := by
  have hprepare : ∀ l < 3, (prepare l).answer weighted = .ok () := by decide +kernel
  have hpass : Block.pass (.scalar 1) 2 [0, 1, 2] (counted l) =
      prepare l >>= fun _ => Graph.reverseAlong 2 [0, 1, 2] := by
    simp only [Block.pass, prepare, bind_assoc]
  rw [Graph.gradientFor, hpass, Step.final, EStateM.run_bind,
    Step.run_of_answer_ok (hprepare l hl)]
  simp only [Graph.reverseAlong, EStateM.run_bind,
    Graph.run_evaluate_of_missing (missing_prepare hl)]
  clear hpass
  decide +revert +kernel

theorem batch_of_lanes_weighted :
    ∃ p : Program ℚ, weighted.compile [0, 1, 2] = .ok p ∧
      ∃ (w' : Graph ℚ (Lanes ℚ 3)) (q₀ q₁ q : Program (Lanes ℚ 3)) (v : Lanes ℚ 3)
        (t' : Graph ℚ (Lanes ℚ 2)),
        (Block.loadLanes (.scalar 0) counted).run (laneCell 3) = .ok () w' ∧
        ((Projection.make weighted (.scalar 1) p).load (.scalar 0)).run (w', p.convert) =
          .ok () (w', q₀) ∧
        result.run q₀ = .ok v q₁ ∧ reversePass.run q₁.clearGrads = .ok () q ∧
        ((Projection.make weighted (.scalar 0) p).addGrads q (.scalar 0)).run (laneCell 2) =
          .ok () t' ∧
        Laned.lane ((t'.grad 0).entry 0 0) 0 = 4 ∧ Laned.lane ((t'.grad 0).entry 0 0) 1 = 2 := by
  have hroot : 2 < weighted.size := by decide +kernel
  have hcompile : (weighted.compile [0, 1, 2] >>= fun p => .ok p.size) = .ok 3 := by
    decide +kernel
  obtain ⟨p, hp, -⟩ := bind_eq_ok.1 hcompile
  have hcells : ∀ n < 2, weighted.isParameter n = true ∧ (weighted.value n).isScalar = true ∧
      weighted.marked n = true := by
    decide +kernel
  have hprimed : ∀ l < 3, weighted.Primed weighted 2 (.scalar 1)
      (held (Lanes ℚ 3) weighted (weighted.order 2) [] l) := fun l _ =>
    { dag := rfl
      gradsFit := ((Reachable.empty 0 _).runs _).gradsFit
      cells := fun n hn => by
        obtain rfl : n = 1 := List.mem_singleton.1 hn
        exact ⟨(hcells 1 (by decide)).1, (hcells 1 (by decide)).2.1⟩
      weight := fun n hb hn _ => by
        have hn2 : n ≠ 2 := by
          rintro rfl
          revert hn
          decide +kernel
        exact Matrix.eq_scalar (hcells n (Nat.lt_of_le_of_ne hb.le hn2)).2.1 }
  have hmarked : ∀ n ∈ Block.nodes (.scalar 1), n ∈ weighted.order 2 →
      weighted.marked n = true := fun n hn _ => by
    obtain rfl : n = 1 := List.mem_singleton.1 hn
    exact (hcells 1 (by decide)).2.2
  have hsource : Matrix.shape (.scalar 0 : Block) = Matrix.shape (.scalar 1 : Block) := rfl
  have hnumbers : Block.OfNumbers (.scalar 0) (laneCell 3) := fun n hn => by
    obtain rfl : n = 0 := List.mem_singleton.1 hn
    decide +kernel
  have hshape : ∀ l < 3, (counted l).shape = (1, 1) := fun _ _ => rfl
  obtain ⟨w', q₀, v, q₁, q, hlanes, hload, hresult, hreverse, -, hgained, -, -⟩ :=
    batch_of_lanes (S := Lanes ℚ 2) (T := Lanes ℚ 3) (fun x : ℚ => zero_add x)
      (fun x => by rw [neg_zero, zero_add]) mul_comm hroot (order_weighted ▸ hp) [] hprimed
      hmarked hsource hnumbers (List.nodup_singleton _) hshape (by decide) (by decide)
  have hreceives : weighted.Receives [0, 1, 2] 0 :=
    ⟨by simp, (hcells 0 (by decide)).1, by decide +kernel⟩
  rw [order_weighted] at hgained
  obtain ⟨t', hadd, ht'⟩ := hgained (.scalar 0) (.scalar 0) (laneCell 2) rfl
    (List.nodup_singleton _) (fun m hm => by
      obtain rfl : m = 0 := List.mem_singleton.1 hm
      decide +kernel)
    fun n hn _ => by
      obtain rfl : n = 0 := List.mem_singleton.1 hn
      exact hreceives
  have hgain : ∀ j < 2, Laned.lane ((t'.grad 0).entry 0 0) j =
      Laned.lane (((laneCell 2).grad 0).entry 0 0) j +
        total ((strideOf 3 2 j).map fun l => ((l + 1 : Nat) : ℚ)) := fun j hj => by
    have hsum : ((strideOf 3 2 j).map fun l =>
        weighted.gradientFor (.scalar 1) 2 [0, 1, 2] (counted l) 0) =
          (strideOf 3 2 j).map fun l => ((l + 1 : Nat) : ℚ) :=
      List.map_congr_left fun l hl => gradientFor_weighted (mem_strideOf.1 hl).1
    rw [← hsum]
    exact (ht'.gains 0 0 ⟨List.mem_singleton.2 rfl, hreceives⟩).lane 0 (by decide +kernel) 0
      (by decide +kernel) j hj
  refine ⟨p, hp, w', q₀, q₁, q, v, t', hlanes, hload, hresult, hreverse, hadd, ?_, ?_⟩
  · rw [hgain 0 (by decide)]
    decide +kernel
  · rw [hgain 1 (by decide)]
    decide +kernel

end Program

end DiffGraph
