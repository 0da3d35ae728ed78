/-
  New numbers in a program that was compiled once.

  * `Program.Use`: what is done with a program after its compilation.  Numbers are
    loaded through the projections of blocks of its graph, from the vertices of other
    graphs or from matrices, and the program is run;
  * `Program.held`: the number that a parameter holds after that, in one lane.  It is
    the one that was written last to its item, else the one it was compiled with;
  * `Program.Holds`: the items of the parameters hold these numbers, and what is fixed
    by compilation is still there.  Every use keeps this (`Holds.use`);
  * `Graph.Rebound`: a graph whose parameters were assigned numbers and whose computed
    values were forgotten.

  So whatever was done before, the program gives in each lane what its graph gives
  for the numbers of that lane (`uses_refine`).  In single precision they can differ in
  the sign of a zero, and in what a division makes of it.
-/
import DiffGraph.Projection
import DiffGraph.Proofs.Lanewise
import DiffGraph.Proofs.Refinement
import DiffGraph.Proofs.SinglePrecision

namespace DiffGraph

variable {K E S T : Type}

/-! ## What is read from blocks -/

namespace Graph

/-- The numbers of vertices, read one after another until one has none. -/
def readings [Scalar K] [Arith S] [Laned K S] : List Node → Graph K S → List S
  | [], _ => []
  | n :: ns, g =>
    match (scalarOf n).run g with
    | .ok v g' => v :: readings ns g'
    | .error _ _ => []

/-- The vertex has an entry in the program of an order. -/
def hasEntry (g : Graph K E) (order : List Node) (n : Node) : Bool :=
  order.contains n && g.marked n

/-- The entries of a matrix of the shape of a block, with the vertices of the block
that have an entry in the program of an order. -/
def entryCells {A : Type} (g : Graph K E) (order : List Node) (target : Block) (m : Matrix A) :
    List (A × Node) :=
  if m.shape = target.shape then
    (m.data.toList.zip target.nodes).filter fun c => g.hasEntry order c.2
  else []

end Graph

namespace Projection

variable {g : Graph K E} {order : List Node} {p : Program T} {values : Array E}

/-- The items of the cells of a block. -/
theorem slots_make [Arith E] (h : Graph.Compiled g order p.code values) (target : Block) :
    (make g target p).slots =
      target.map fun n => if g.hasEntry order n then some (order.idxOf n) else none := by
  refine congrArg target.map (funext fun n => ?_)
  rw [h.entries, Graph.find?_entries]
  by_cases hn : n ∈ order ∧ g.marked n = true <;> simp [Graph.hasEntry, hn]

/-- What a projection pairs up. -/
theorem pairs_make [Arith E] (h : Graph.Compiled g order p.code values) (target : Block)
    {A : Type} (m : Matrix A) (hm : m.shape = target.shape) :
    (make g target p).pairs m =
      (g.entryCells order target m).map fun c => (c.1, order.idxOf c.2) := by
  rw [pairs, slots_make h, Graph.entryCells, if_pos hm]
  simp only [Matrix.map, Array.toList_map, Block.nodes, List.zip_map_right, List.filterMap_map]
  induction m.data.toList.zip target.data.toList with
  | nil => rfl
  | cons c cs ih =>
    rw [List.filterMap_cons, List.filter_cons, ih]
    cases hc : g.hasEntry order c.2 <;> simp [hc]

/-- A projection fits the program it was made of, and every other one with its
fingerprint, and the shape of its block. -/
theorem check_make {q : Program S} (hq : q.fingerprint = p.fingerprint) (target : Block)
    (s : Shape) : (make g target p).check q s =
      if s = target.shape then .ok () else .error (.otherBlock target.shape s) := by
  have hfit : ¬ q.fingerprint ≠ (make g target p).fingerprint := not_not.2 hq
  have hshape : (make g target p).slots.shape = target.shape := rfl
  rw [check, if_neg hfit, hshape]
  by_cases hs : s = target.shape <;> simp [hs]

section
variable [Scalar K] [Arith S] [Laned K S] [Laned K T]

theorem run_loadCell (cell : Node × Nat) (s : Graph K S) (q : Program T) :
    (loadCell cell).run (s, q) =
      match (Graph.scalarOf cell.1).run s with
      | .ok v s' => .ok () (s', q.setValue cell.2 (Laned.broadcast v))
      | .error e s' => .error e (s', q) := by
  rw [loadCell, EStateM.run_bind, Step.run_onFirst]
  cases (Graph.scalarOf cell.1).run s <;> rfl

/-- The cells are loaded up to the first that cannot be read. -/
theorem final_loadCells (cells : List (Node × Nat)) (s : Graph K S) (q : Program T) :
    ((cells.forM loadCell).final (s, q)).2 =
      ((cells.map Prod.snd).zip (Graph.readings (cells.map Prod.fst) s)).foldl
        (fun q w => q.setValue w.1 (Laned.broadcast w.2)) q := by
  induction cells generalizing s q with
  | nil => rfl
  | cons cell cells ih =>
    simp only [List.map_cons, Graph.readings, List.forM_eq_forM, List.forM_cons, Step.final,
      EStateM.run_bind, run_loadCell] at ih ⊢
    cases (Graph.scalarOf cell.1).run s with
    | ok v s' => exact ih s' _
    | error e s' => rfl

end

end Projection

namespace Program

/-! ## What running a program keeps -/

/-- What stays of a program when it is run: everything but the values that are
computed and the gradients. -/
structure Reran [Zero T] (q q' : Program T) : Prop where
  code : q'.code = q.code
  fingerprint : q'.fingerprint = q.fingerprint
  size_values : q'.values.size = q.values.size
  size_grads : q'.grads.size = q.grads.size
  value : ∀ i, (q.code.instr i).isParameter = true → q'.value i = q.value i

section
variable [Arith T] {q q' q'' : Program T}

theorem Reran.refl (q : Program T) : Reran q q := ⟨rfl, rfl, rfl, rfl, fun _ _ => rfl⟩

theorem Reran.trans (h : Reran q q') (h' : Reran q' q'') : Reran q q'' where
  code := h'.code.trans h.code
  fingerprint := h'.fingerprint.trans h.fingerprint
  size_values := h'.size_values.trans h.size_values
  size_grads := h'.size_grads.trans h.size_grads
  value i hi := (h'.value i (h.code ▸ hi)).trans (h.value i hi)

theorem reran_foldl {A : Type} {f : Program T → A → Program T} (hf : ∀ q a, Reran q (f q a))
    (as : List A) (q : Program T) : Reran q (as.foldl f q) := by
  induction as generalizing q with
  | nil => exact .refl q
  | cons a as ih => exact (hf q a).trans (ih _)

theorem reran_forward (q : Program T) : Reran q q.forward := by
  refine reran_foldl (fun q i => ?_) _ q
  unfold forwardItem
  cases hv : (q.code.instr i).compute q.value with
  | none => exact .refl q
  | some v =>
    refine ⟨rfl, rfl, by simp [setValue], rfl, fun j hj => ?_⟩
    refine value_setValue_of_ne q (fun hij => ?_) v
    subst hij
    cases hi : q.code.instr i with
    | parameter => rw [hi] at hv; cases hv
    | _ => rw [hi] at hj; cases hj

theorem reran_receive (q : Program T) (t : Nat × T) : Reran q (q.receive t) := by
  unfold receive
  split
  · exact ⟨rfl, rfl, rfl, by simp, fun _ _ => rfl⟩
  · exact .refl q

theorem reran_reverse (q : Program T) : Reran q q.reverse := by
  have hseed : Reran q { q with grads := q.grads.setIfInBounds (q.size - 1) 1 } :=
    ⟨rfl, rfl, rfl, by simp, fun _ _ => rfl⟩
  refine hseed.trans (reran_foldl (fun q i => ?_) _ _)
  unfold reverseItem
  split
  · exact reran_foldl reran_receive _ q
  · exact .refl q

theorem reran_clearGrads (q : Program T) : Reran q q.clearGrads :=
  ⟨rfl, rfl, rfl, by simp [clearGrads], fun _ _ => rfl⟩

theorem final_call (c : Call) (q : Program T) : c.run.final q =
    match c with
    | .result => q.forward
    | .clearGrads => q.clearGrads
    | .reversePass => if q.size = 0 then q else q.reverse := by
  cases c with
  | result =>
    simp only [Step.final, Call.run, EStateM.run_bind, run_result]
    by_cases h : q.forward.size = 0
    · rw [if_pos h]
    · rw [if_neg h]
      rfl
  | clearGrads => rfl
  | reversePass =>
    simp only [Step.final, Call.run, EStateM.run_bind, run_reversePass]
    by_cases h : q.size = 0
    · rw [if_pos h, if_pos h]
    · rw [if_neg h, if_neg h]
      rfl

theorem reran_call (c : Call) (q : Program T) : Reran q (c.run.final q) := by
  rw [final_call]
  cases c with
  | result => exact reran_forward q
  | clearGrads => exact reran_clearGrads q
  | reversePass =>
    dsimp only
    split
    · exact .refl q
    · exact reran_reverse q

end

/-! ## Uses of a program -/

/-- What is done with a program.  Numbers are loaded into the items of a block of the
graph that it was compiled from. -/
inductive Use (K : Type) : Type 1 where
  /-- the values of a block of any graph -/
  | load {S : Type} [Arith S] [Laned K S] (target : Block) (graph : Graph K S) (source : Block)
  /-- the entries of a matrix, in all lanes -/
  | loadSplat (target : Block) (values : Matrix K)
  | call (c : Call)

variable [Scalar K] [Arith T] [Laned K T]

/-- The program after a use, also if that fails.  Projections are made of `p`, the
program that was compiled. -/
def Use.run (g : Graph K E) (p : Program E) : Use K → Program T → Program T
  | load target graph source, q => (((Projection.make g target p).load source).final (graph, q)).2
  | loadSplat target values, q =>
    match (Projection.make g target p).loadSplat values q with
    | .ok q' => q'
    | .error _ => q
  | call c, q => c.run.final q

/-- The program after uses one after another. -/
def uses (g : Graph K E) (p : Program E) (us : List (Use K)) (q : Program T) : Program T :=
  us.foldl (fun q u => u.run g p q) q

/-- The numbers that a use writes, in row-major order, with the vertices whose items
they are written to. -/
def Use.writes (g : Graph K E) (order : List Node) : Use K → List (Node × T)
  | load target graph source =>
    let cells := g.entryCells order target source
    (cells.map Prod.snd).zip
      ((Graph.readings (cells.map Prod.fst) graph).map Laned.broadcast)
  | loadSplat target values =>
    (g.entryCells order target values).map fun c => (c.2, Laned.splat c.1)
  | call _ => []

section
variable {g : Graph K E} [Arith E] {order : List Node} {p : Program E} {values : Array E}
  {q : Program T}

/-- The numbers of a block go to the items of their vertices. -/
theorem run_load (h : Graph.Compiled g order p.code values) (hq : q.fingerprint = p.fingerprint)
    [Arith S] [Laned K S] (target : Block) (graph : Graph K S) (source : Block) :
    (Use.load target graph source).run g p q =
      ((Use.load target graph source).writes g order).foldl
        (fun q w => q.setValue (order.idxOf w.1) w.2) q := by
  simp only [Use.run, Use.writes, Projection.load, Step.final, EStateM.run_bind, EStateM.run_get,
    Projection.check_make hq]
  by_cases hs : source.shape = target.shape
  · have hcells := Projection.final_loadCells ((Projection.make g target p).pairs source) graph q
    rw [Projection.pairs_make h target source hs] at hcells
    rw [if_pos hs, Projection.pairs_make h target source hs, Step.run_ofExcept_ok]
    refine hcells.trans ?_
    generalize g.entryCells order target source = cells
    have hfst : (cells.map fun c => (c.1, order.idxOf c.2)).map Prod.fst = cells.map Prod.fst := by
      simp
    have hsnd : (cells.map fun c => (c.1, order.idxOf c.2)).map Prod.snd =
        (cells.map Prod.snd).map (order.idxOf ·) := by
      simp
    rw [hfst, hsnd, List.zip_map_left, List.zip_map_right, List.foldl_map, List.foldl_map]
    rfl
  · rw [if_neg hs, Graph.entryCells, if_neg hs]
    rfl

theorem run_loadSplat (h : Graph.Compiled g order p.code values)
    (hq : q.fingerprint = p.fingerprint) (target : Block) (m : Matrix K) :
    (Use.loadSplat target m).run g p q =
      ((Use.loadSplat target m).writes g order).foldl
        (fun q w => q.setValue (order.idxOf w.1) w.2) q := by
  simp only [Use.run, Use.writes, Projection.loadSplat, Projection.check_make hq]
  by_cases hs : m.shape = target.shape
  · rw [if_pos hs, Projection.pairs_make h target m hs, List.foldl_map, List.foldl_map]
    rfl
  · rw [if_neg hs, Graph.entryCells, if_neg hs]
    rfl

end

/-! ## What parameters hold -/

/-- What a parameter holds in lane `l` after uses: the number that was written last to
its item, else the one that it was compiled with. -/
def held (T : Type) [Arith T] [Laned K T] (g : Graph K K) (order : List Node)
    (us : List (Use K)) (l : Nat) : Node → K :=
  (us.flatMap (Use.writes (T := T) g order)).foldl
    (fun env w => Function.update env w.1 (Laned.lane w.2 l)) fun n => (g.value n).entry 0 0

/-- A program whose parameters hold the numbers `x` in lane `l`. -/
structure Holds (g : Graph K E) (order : List Node) (p : Program E) (l : Nat) (x : Node → K)
    (q : Program T) : Prop where
  code : q.code = p.code
  fingerprint : q.fingerprint = p.fingerprint
  size_values : q.values.size = order.length
  size_grads : q.grads.size = order.length
  value : ∀ i n, order[i]? = some n → g.isParameter n = true → Laned.lane (q.value i) l = x n

section
variable {g : Graph K E} {order : List Node} {p : Program E} {l : Nat} {x : Node → K}
  {q q' : Program T}

theorem Holds.reran (h : Holds g order p l x q) (hq : Reran q q')
    (hparam : ∀ i n, order[i]? = some n → g.isParameter n = true →
      (p.code.instr i).isParameter = true) : Holds g order p l x q' where
  code := hq.code.trans h.code
  fingerprint := hq.fingerprint.trans h.fingerprint
  size_values := hq.size_values.trans h.size_values
  size_grads := hq.size_grads.trans h.size_grads
  value i n hi hn := by
    rw [hq.value i (h.code ▸ hparam i n hi hn)]
    exact h.value i n hi hn

/-- A number is written. -/
theorem Holds.write (h : Holds g order p l x q) (hnodup : order.Nodup) (n : Node) (v : T) :
    Holds g order p l (Function.update x n (Laned.lane v l)) (q.setValue (order.idxOf n) v) where
  code := h.code
  fingerprint := h.fingerprint
  size_values := by simpa [setValue] using h.size_values
  size_grads := h.size_grads
  value i m hi hm := by
    obtain ⟨hlt, rfl⟩ := List.getElem?_eq_some_iff.1 hi
    by_cases hmn : order[i] = n
    · subst hmn
      rw [Function.update_self, hnodup.idxOf_getElem i hlt,
        value_setValue_self q (h.size_values ▸ hlt)]
    · rw [Function.update_of_ne hmn, value_setValue_of_ne]
      · exact h.value i _ hi hm
      · intro hidx
        refine hmn ?_
        subst hidx
        exact List.getElem_idxOf hlt

theorem Holds.writes (hnodup : order.Nodup) (ws : List (Node × T)) {x : Node → K} {q : Program T}
    (h : Holds g order p l x q) :
    Holds g order p l (ws.foldl (fun x w => Function.update x w.1 (Laned.lane w.2 l)) x)
      (ws.foldl (fun q w => q.setValue (order.idxOf w.1) w.2) q) := by
  induction ws generalizing x q with
  | nil => exact h
  | cons w ws ih => exact ih (h.write hnodup w.1 w.2)

/-- A converted program holds what was compiled. -/
theorem holds_convert [Laned.Lawful K T] {g : Graph K K} {p : Program K} (hl : l < Laned.width T)
    (hp : Graph.Compiled g order p.code p.values) :
    Holds g order p l (fun n => (g.value n).entry 0 0) (p.convert (T := T)) where
  code := rfl
  fingerprint := rfl
  size_values := by simpa [convert] using hp.size_values
  size_grads := by simpa [convert, size] using hp.size
  value i n hi hn := by
    have hlt : i < p.values.size := hp.size_values ▸ (List.getElem?_eq_some_iff.1 hi).1
    rw [hp.value i n hi hn]
    simp [value, convert, Array.getD, hlt, lane_broadcast hl]

/-- **A use keeps what parameters hold up to date.** -/
theorem Holds.use [Arith E] {values : Array E} (h : Holds g order p l x q)
    (hp : Graph.Compiled g order p.code values) (hnodup : order.Nodup) (u : Use K) :
    Holds g order p l ((u.writes (T := T) g order).foldl
      (fun x w => Function.update x w.1 (Laned.lane w.2 l)) x) (u.run g p q) := by
  cases u with
  | load target graph source =>
    rw [run_load hp h.fingerprint]
    exact h.writes hnodup _
  | loadSplat target m =>
    rw [run_loadSplat hp h.fingerprint]
    exact h.writes hnodup _
  | call c =>
    refine h.reran (reran_call c q) fun i n hi hn => ?_
    obtain ⟨ins, hins, hcode⟩ := hp.instr i n hi
    rw [hcode, hins.eq_parameter hn]
    rfl

theorem Holds.uses [Arith E] {values : Array E} (hp : Graph.Compiled g order p.code values)
    (hnodup : order.Nodup) (us : List (Use K)) {x : Node → K} {q : Program T}
    (h : Holds g order p l x q) :
    Holds g order p l ((us.flatMap (Use.writes (T := T) g order)).foldl
      (fun x w => Function.update x w.1 (Laned.lane w.2 l)) x) (uses g p us q) := by
  induction us generalizing x q with
  | nil => exact h
  | cons u us ih =>
    rw [List.flatMap_cons, List.foldl_append]
    exact ih (h.use hp hnodup u)

end

end Program

/-! ## The graph with new numbers -/

namespace Graph

variable [Arith E]

/-- Assigns numbers to the parameters of an order and resets it. -/
def rebind (order : List Node) (x : Node → E) : Step (Graph K E) Unit := do
  ((order.filter (← get).isParameter).forM fun n => assign n (x n))
  reset order

/-- The graph after that. -/
structure Rebound (g g' : Graph K E) (root : Node) (x : Node → E) : Prop where
  dag : g'.dag = g.dag
  value : ∀ n, g.dag.Below root n → g.isParameter n = true → g'.value n = .scalar (x n)
  grad : ∀ n, g.dag.Below root n → g.isParameter n = true → g'.grad n = .zeros 1 1
  unevaluated : g'.Unevaluated root

/-- A graph after numbers were assigned to some of its parameters. -/
structure Assigned (g s : Graph K E) (done : List Node) (x : Node → E) : Prop where
  dag : s.dag = g.dag
  grad : ∀ n, s.grad n = g.grad n
  assigned : ∀ n ∈ done, s.value n = .scalar (x n)
  others : ∀ n, n ∉ done → s.value n = g.value n

omit [Arith E] in
theorem run_assigns {g : Graph K E} {ns : List Node} (x : Node → E)
    (hns : ∀ n ∈ ns, n < g.size ∧ g.isParameter n = true ∧ (g.value n).isScalar = true) :
    ∃ s, (ns.forM fun n => assign n (x n)).run g = .ok () s ∧ Assigned g s ns x := by
  refine Step.run_forM_ok (fun done s => Assigned g s done x) (fun pre n post s hl hs => ?_)
    ⟨rfl, fun _ => rfl, by simp, fun _ _ => rfl⟩
  obtain ⟨hlt, hp, hscalar⟩ := hns n (hl ▸ by simp)
  have hlt' : n < s.size := by rwa [size, hs.dag]
  have hp' : s.isParameter n = true := by rwa [isParameter, op, hs.dag]
  have hscalar' : (s.value n).isScalar = true := by
    by_cases hn : n ∈ pre
    · rw [hs.assigned n hn, Matrix.isScalar_scalar]
    · rwa [hs.others n hn]
  have hcell : ∀ m, (s.update n fun c => { c with value := .scalar (x n) }).cell m =
      if m = n then { s.cell n with value := .scalar (x n) } else s.cell m := fun m => by
    rw [cell_update]
    simp [hlt']
  refine ⟨_, run_alter hp' (if_pos hscalar'), hs.dag, fun m => ?_, fun m hm => ?_, fun m hm => ?_⟩
  · rw [← hs.grad m, grad, hcell]
    split
    · next hmn => rw [hmn]; rfl
    · rfl
  · rw [value, hcell]
    split
    · next hmn => rw [hmn]
    · next hmn => exact hs.assigned m (by simpa [hmn] using hm)
  · rw [List.mem_append, not_or, List.mem_singleton] at hm
    rw [value, hcell, if_neg hm.2]
    exact hs.others m hm.1

/-- **What is left by a reset** are the numbers of the parameters. -/
theorem run_reset_rebound {g s : Graph K E} {root : Node} (hroot : root < g.size)
    (hdag : s.dag = g.dag) {x : Node → E}
    (hvalue : ∀ n, g.dag.Below root n → g.isParameter n = true → s.value n = .scalar (x n))
    (hgrad : ∀ n, g.dag.Below root n → g.isParameter n = true → (s.grad n).shape = (1, 1)) :
    ∃ g', (reset (g.order root)).run s = .ok () g' ∧ Rebound g g' root x := by
  obtain ⟨g', hrun, hc⟩ := reset_run s (g.order root)
  have hroot' : root < s.size := by rwa [size, hdag]
  have horder : s.order root = g.order root := by rw [order, hdag]; rfl
  refine ⟨g', hrun, hc.dag.trans hdag, fun n hb hp => ?_, fun n hb hp => ?_, ?_⟩
  · rw [hc.value (hb.le.trans_lt hroot')]
    exact hvalue n hb hp
  · rw [hc.grad (hb.le.trans_lt hroot') ((mem_order hroot).2 hb),
      Matrix.eq_scalar_of_shape (hgrad n hb hp), Matrix.fill_scalar, Matrix.zeros_one_one]
  · exact (horder ▸ hc : Cleared s g' (s.order root)).unevaluated hroot'

/-- **Assigned numbers are there, and nothing else is.** -/
theorem run_rebind {g : Graph K E} {root : Node} (hroot : root < g.size)
    (hvalue : ∀ n, g.dag.Below root n → g.isParameter n = true → (g.value n).isScalar = true)
    (hgrad : g.GradsFit) (x : Node → E) :
    ∃ g', (rebind (g.order root) x).run g = .ok () g' ∧ Rebound g g' root x := by
  have hparams : ∀ n ∈ (g.order root).filter g.isParameter,
      n < g.size ∧ g.isParameter n = true ∧ (g.value n).isScalar = true := fun n hn => by
    obtain ⟨hn, hp⟩ := List.mem_filter.1 hn
    have hb := (mem_order hroot).1 hn
    exact ⟨hb.le.trans_lt hroot, hp, hvalue n hb hp⟩
  obtain ⟨s, hrun, hs⟩ := run_assigns x hparams
  obtain ⟨g', hrun', h⟩ := run_reset_rebound hroot hs.dag (x := x)
    (fun n hb hp => hs.assigned n (List.mem_filter.2 ⟨(mem_order hroot).2 hb, hp⟩))
    fun n hb hp => by
      rw [hs.grad, hgrad n hp, Matrix.eq_scalar (hvalue n hb hp), Matrix.shape_scalar]
  refine ⟨g', ?_, h⟩
  simp only [rebind, EStateM.run_bind, EStateM.run_get, hrun]
  exact hrun'

end Graph

/-! ## Programs do what their graphs do -/

namespace Graph

/-- Only a graph of numbers compiles. -/
theorem numeric_of_compile [Arith E] {g : Graph K E} {root : Node} (hroot : root < g.size)
    {p : Program E} (hp : g.compile (g.order root) = .ok p) :
    g.Numeric root ∧ Compiled g (g.order root) p.code p.values := by
  obtain ⟨r, hrest, -⟩ := bind_eq_ok.1 hp
  have hkind : ∀ n, g.dag.Below root n → _ := fun n hb =>
    kind_of_compileRest hrest n ((mem_order hroot).2 hb)
  have hn : g.Numeric root := ⟨fun n hb => (hkind n hb).1, fun n hb => (hkind n hb).2⟩
  obtain ⟨p', hp', hcomp, -⟩ := compile_order hroot hn.kind hn.parameter
  rw [hp] at hp'
  cases hp'
  exact ⟨hn, hcomp⟩

section
variable [Arith E] {g s : Graph K E} {root : Node} {x : Node → E}

theorem Rebound.order (h : Rebound g s root x) : s.order root = g.order root := by
  rw [Graph.order, h.dag]
  rfl

theorem Rebound.op (h : Rebound g s root x) (n : Node) : s.op n = g.op n := by
  rw [Graph.op, h.dag]
  rfl

theorem Rebound.numeric (h : Rebound g s root x) (hn : g.Numeric root) : s.Numeric root where
  kind n hb := by
    rw [Graph.kind, h.op]
    exact hn.kind n (h.dag ▸ hb)
  parameter n hb hp := by
    rw [Graph.isParameter, h.op] at hp
    rw [h.value n (h.dag ▸ hb) hp, Matrix.isScalar_scalar]

/-- **A program does what its graph does** for the numbers that its parameters hold. -/
theorem Rebound.refines [Scalar K] [Laned K E] (h : Rebound g s root x) {A : Agreement E}
    (hroot : root < g.size) {p q : Program E} (hp : Compiled g (g.order root) p.code p.values)
    (hn : g.Numeric root)
    (hf : FineAlong A g.dag (g.order root) ((evaluate root).final s).number)
    (hcode : q.code = p.code) (hsize : q.values.size = (g.order root).length)
    (hq : ∀ i n, (g.order root)[i]? = some n → g.isParameter n = true → q.value i = x n) :
    (∃ v w, Program.result.run q = .ok v q.forward ∧ (scalarOf root).answer s = .ok w ∧
        A.value w v) ∧
      (q.grads = .replicate p.size 0 → ∃ s', (reversePass root).run s = .ok () s' ∧
        ∀ i n, (g.order root)[i]? = some n → p.code.tracked i = true →
          ∃ a, s'.grad n = .scalar a ∧ A.grad a (q.forward.reverse.grad i)) := by
  have hroot' : root < s.size := by rwa [size, h.dag]
  have hc := h.unevaluated.consistent
  obtain ⟨s₁, hrun, heval, hn₁, hready⟩ := evaluate_numeric (h.numeric hn) hc hroot'
  rw [Step.final_of_run_ok hrun] at hf
  have hstands : Stands s.dag (s.order root) p.code := by
    rw [h.order, h.dag]
    exact hp.stands
  rw [← h.order] at hf hsize hq ⊢
  rw [← h.dag] at hf
  have hlast := getElem?_order_last hroot'
  have hbelow : ∀ {n}, n ∈ s.order root → s.dag.Below root n := fun hm =>
    (mem_order hroot').1 hm
  have hy : ∀ n ∈ s.order root, s₁.value n = .scalar (s₁.number n) := fun n hm =>
    hready.number hn₁ (heval.dag ▸ hbelow hm)
  obtain ⟨hcode', hgrads, hv, v, hresult, hanswer, hwv⟩ := hstands.result (A := A) hroot' hrun
    hready hn₁ hf hcode hsize fun i n hi hpn => by
      have hm := List.mem_of_getElem? hi
      have hpn' : g.isParameter n = true := by rwa [Graph.isParameter, h.op] at hpn
      have hvalue := (heval.value_parameter hpn).trans (h.value n (h.dag ▸ hbelow hm) hpn')
      rw [hq i n hi hpn', Matrix.scalar_injective ((hy n hm).symm.trans hvalue)]
      exact A.same _
  refine ⟨⟨v, _, hresult, hanswer, hwv⟩, fun hzero => ?_⟩
  have hm := heval.matches hready hroot' hc hcode' hstands (hgrads.trans hzero) hy hv
    fun n hn hvn => by
      have hpn := h.unevaluated.isParameter (hbelow hn) hvn
      rw [Graph.isParameter, h.op] at hpn
      exact h.grad n (h.dag ▸ hbelow hn) hpn
  obtain ⟨s', hrun', hm'⟩ := hm.reverse hstands hf hlast
  refine ⟨s', ?_, fun i n hi ht => hm'.grad i n hi ht⟩
  have hroot₁ : s₁.hasValue root = true := hm.hasValue root (List.mem_of_getElem? hlast)
  rw [← hrun']
  simp only [reversePass, reverseAlong, EStateM.run_bind, EStateM.run_get, hrun,
    run_evaluate_of_hasValue hroot₁]

end

end Graph

namespace Program

variable [Scalar K] [Arith T] [Laned K T] [Laned.Lawful K T]

/-- **In each lane a program does what its graph does** for the numbers that its
parameters hold in this lane. -/
theorem Holds.refines {l : Nat} (hl : l < Laned.width T) {g s : Graph K K} {root : Node}
    {p : Program K} {x : Node → K} {q : Program T} (hq : Holds g (g.order root) p l x q)
    (hs : Graph.Rebound g s root x) {A : Agreement K} (hroot : root < g.size)
    (hp : Graph.Compiled g (g.order root) p.code p.values) (hn : g.Numeric root)
    (hf : Graph.FineAlong A g.dag (g.order root) ((Graph.evaluate root).final s).number) :
    (∃ v w, result.run q = .ok v q.forward ∧ (Graph.scalarOf root).answer s = .ok w ∧
        A.value w (Laned.lane v l)) ∧
      ∃ s', (Graph.reversePass root).run s = .ok () s' ∧
        ∀ i n, (g.order root)[i]? = some n → p.code.tracked i = true →
          ∃ a, s'.grad n = .scalar a ∧
            A.grad a (Laned.lane (q.clearGrads.forward.reverse.grad i) l) := by
  have hφ : Preserves fun v : T => Laned.lane v l := Laned.Lawful.preserves hl
  have hpos : q.forward.size ≠ 0 := by
    rw [size, (reran_forward q).code, hq.code]
    exact hp.size_ne_zero hroot
  have key := fun q' : Program T => fun hq' : Holds g (g.order root) p l x q' =>
    hs.refines hroot hp hn hf (q := q'.map fun v => Laned.lane v l) hq'.code
      (by simpa [map] using hq'.size_values) fun i n hi hpn => by
        rw [value_map hφ, hq'.value i n hi hpn]
  obtain ⟨⟨v, w, hv, hw, hwv⟩, -⟩ := key q hq
  have hsize : (q.forward.map fun v => Laned.lane v l).size = q.forward.size := rfl
  rw [run_result, forward_map hφ, hsize, if_neg hpos, value_map hφ] at hv
  cases hv
  refine ⟨⟨_, w, by rw [run_result, if_neg hpos], hw, hwv⟩, ?_⟩
  have hclear : Holds g (g.order root) p l x q.clearGrads :=
    ⟨hq.code, hq.fingerprint, hq.size_values, by simpa [clearGrads] using hq.size_grads, hq.value⟩
  obtain ⟨-, hgrads⟩ := key q.clearGrads hclear
  obtain ⟨s', hrun, hs'⟩ := hgrads <| by
    refine Array.eq_replicate_iff.2 ⟨?_, fun e he => ?_⟩
    · simpa [map, clearGrads, size, hp.size] using hq.size_grads
    · simp only [map, clearGrads, Array.mem_map] at he
      obtain ⟨_, ⟨_, -, rfl⟩, rfl⟩ := he
      exact hφ.zero
  refine ⟨s', hrun, fun i n hi ht => ?_⟩
  obtain ⟨a, ha, hab⟩ := hs' i n hi ht
  refine ⟨a, ha, ?_⟩
  rwa [forward_map hφ, reverse_map hφ, grad_map hφ] at hab

/-- The gradients of what parameters hold: old ones are cleared, all items are
computed, and a reverse pass is done. -/
def freshPass : Step (Program T) Unit := do
  modify clearGrads
  discard result
  reversePass

omit [Scalar K] [Laned K T] [Laned.Lawful K T] in
theorem run_freshPass {q : Program T} (hpos : q.size ≠ 0) :
    freshPass.run q = .ok () q.clearGrads.forward.reverse := by
  have hsize : q.clearGrads.forward.size ≠ 0 := by
    rwa [size, (reran_forward _).code]
  have hresult : (discard result).run q.clearGrads = .ok () q.clearGrads.forward :=
    Step.run_discard (by rw [run_result, if_neg hsize])
  simp only [freshPass, EStateM.run_bind, EStateM.run_modify, hresult]
  rw [run_reversePass, if_neg hsize]

end Program

/-! ## Single precision -/

namespace Graph

variable {d : Dag K} {order : List Node} {y : Node → Float32}

/-- No product of vertices is negative zero. -/
theorem fineAlong_exact
    (h : ∀ n ∈ order, ∀ a b, d.op n = .mul a b → y a * y b ≠ -0) :
    FineAlong (.exact rounds_float32) d order y := by
  intro n hn i hi a b hmul
  subst hmul
  obtain ⟨op, hop⟩ : ∃ op, d.op n = op := ⟨_, rfl⟩
  rw [hop] at hi
  cases hi with
  | mul => exact kept_iff.2 (h n hn a b hop)

/-- No vertex is divided by zero, and no function tells the zeros apart. -/
theorem fineAlong_upToZeros
    (h : ∀ n ∈ order, (∀ a b, d.op n = .div a b → (y b == 0) = false) ∧
      ∀ f a, d.op n = .func f a → (y a == 0) = true → f.Steady) :
    FineAlong .upToZeros d order y := by
  intro n hn i hi
  obtain ⟨hdiv, hfunc⟩ := h n hn
  obtain ⟨op, hop⟩ : ∃ op, d.op n = op := ⟨_, rfl⟩
  rw [hop] at hi
  cases hi with
  | div a b => exact hdiv a b hop
  | func f a => exact hfunc f a hop
  | _ => exact True.intro

end Graph

namespace Program

variable [Arith T] [Laned Float32 T] [Laned.Lawful Float32 T]

/-- **A program that was compiled once can be used for all numbers.**  Whatever was loaded
into a compiled program and however often it was run, let `s` be its graph with the
numbers that the parameters now hold in lane `l`.  Then the next evaluation and the
next gradients of the program give in this lane what `s` gives,

* to the bit, if no product of two vertices is negative zero;
* up to the sign of a zero, if no vertex is divided by zero, and no function that is
  applied to a zero can tell which one it is.

A product of vertices is a sum that starts from zero.  So it is never negative zero, as
a product of items may be. -/
theorem uses_refine {g : Graph Float32 Float32} (hg : Reachable g) {root : Node}
    (hroot : root < g.size) {p : Program Float32} (hp : g.compile (g.order root) = .ok p)
    (us : List (Use Float32)) {l : Nat} (hl : l < Laned.width T) :
    let q : Program T := uses g p us p.convert
    let rebound := Graph.rebind (g.order root) (held T g (g.order root) us l)
    let s := rebound.final g
    let y := ((Graph.evaluate root).final s).number
    rebound.answer g = .ok () ∧
    ∃ v w q' s', result.answer q = .ok v ∧ (Graph.scalarOf root).answer s = .ok w ∧
      freshPass.run q = .ok () q' ∧ (Graph.reversePass root).run s = .ok () s' ∧
      ((∀ n, g.dag.Below root n → ∀ a b, g.op n = .mul a b → y a * y b ≠ -0) →
        w = Laned.lane v l ∧
        ∀ i n, (g.order root)[i]? = some n → p.code.tracked i = true →
          s'.grad n = .scalar (Laned.lane (q'.grad i) l)) ∧
      ((∀ n, g.dag.Below root n → (∀ a b, g.op n = .div a b → (y b == 0) = false) ∧
          ∀ f a, g.op n = .func f a → (y a == 0) = true → f.Steady) →
        SameNumber w (Laned.lane v l) ∧
        ∀ i n, (g.order root)[i]? = some n → p.code.tracked i = true →
          ∃ a, s'.grad n = .scalar a ∧ SameNumber a (Laned.lane (q'.grad i) l)) := by
  intro q rebound s y
  obtain ⟨hn, hcomp⟩ := Graph.numeric_of_compile hroot hp
  obtain ⟨s₁, hrun, hs⟩ := Graph.run_rebind hroot hn.parameter hg.gradsFit
    (held T g (g.order root) us l)
  obtain rfl : s = s₁ := Step.final_of_run_ok hrun
  have hq : Holds g (g.order root) p l (held T g (g.order root) us l) q :=
    (holds_convert hl hcomp).uses hcomp (Dag.nodup_traverse root) us
  have hpos : q.size ≠ 0 := by
    rw [size, hq.code]
    exact hcomp.size_ne_zero hroot
  obtain ⟨⟨v, w, hv, hw, -⟩, s', hpass, -⟩ := hq.refines hl hs (A := .anything) hroot hcomp hn
    fun _ _ _ _ => True.intro
  have hagree : ∀ A : Agreement Float32, Graph.FineAlong A g.dag (g.order root) y →
      A.value w (Laned.lane v l) ∧ ∀ i n, (g.order root)[i]? = some n → p.code.tracked i = true →
        ∃ a, s'.grad n = .scalar a ∧
          A.grad a (Laned.lane (q.clearGrads.forward.reverse.grad i) l) := by
    intro A hf
    obtain ⟨⟨v', w', hv', hw', hwv⟩, s'', hpass', hgrads⟩ := hq.refines hl hs hroot hcomp hn hf
    cases hv.symm.trans hv'
    cases hw.symm.trans hw'
    cases hpass.symm.trans hpass'
    exact ⟨hwv, hgrads⟩
  refine ⟨Step.answer_of_run_ok hrun, v, w, _, s', Step.answer_of_run_ok hv, hw,
    run_freshPass hpos, hpass, fun hprod => ?_, fun hdiv => ?_⟩
  · obtain ⟨hvalue, hgrads⟩ := hagree _ (Graph.fineAlong_exact fun n hm =>
      hprod n ((Graph.mem_order hroot).1 hm))
    refine ⟨hvalue, fun i n hi ht => ?_⟩
    obtain ⟨a, ha, hab, -⟩ := hgrads i n hi ht
    rw [ha, hab]
  · exact hagree _ (Graph.fineAlong_upToZeros fun n hm => hdiv n ((Graph.mem_order hroot).1 hm))

/-- The square of a parameter that receives gradients. -/
def trackedSquare : Graph Float32 Float32 :=
  DiffGraph.Call.runs [.parameter (.scalar 2), .setTracked 0 true, .record (.mul 0 0)]
    (.empty 0 ⟨fun _ => 0, fun _ => 0⟩)

/-- Three is squared and differentiated, and then replaced by five. -/
def loadThreeAndFive : List (Use Float32) :=
  [.loadSplat (.scalar 0) (.scalar 3), .call .result, .call .reversePass,
    .loadSplat (.scalar 0) (.scalar 5)]

theorem order_trackedSquare : trackedSquare.order 1 = [0, 1] := by
  have hsize : trackedSquare.dag.size = 2 := by decide +kernel
  have hops : trackedSquare.dag.operands 1 = [0, 0] ∧ trackedSquare.dag.operands 0 = [] := by
    decide +kernel
  simp [Graph.order, Dag.traverse, Dag.visit, hsize, hops]

theorem uses_refine_trackedSquare :
    1 < trackedSquare.size ∧ ∃ p : Program Float32, trackedSquare.compile [0, 1] = .ok p ∧
      let q : Program (Lanes Float32 2) := uses trackedSquare p loadThreeAndFive p.convert
      let rebound := Graph.rebind [0, 1] (held (Lanes Float32 2) trackedSquare [0, 1]
        loadThreeAndFive 1)
      ∃ v q' s', result.answer q = .ok v ∧
        (Graph.scalarOf 1).answer (rebound.final trackedSquare) = .ok (Laned.lane v 1) ∧
        freshPass.run q = .ok () q' ∧
        (Graph.reversePass 1).run (rebound.final trackedSquare) = .ok () s' ∧
        s'.grad 0 = .scalar (Laned.lane (q'.grad 0) 1) := by
  have hg : Reachable trackedSquare := (Reachable.empty 0 _).runs _
  have hroot : 1 < trackedSquare.size := by decide +kernel
  have hcompile : (trackedSquare.compile [0, 1] >>= fun p => .ok (p.code.tracked 0)) =
      .ok true := by
    decide +kernel
  obtain ⟨p, hp, htracked⟩ := bind_eq_ok.1 hcompile
  refine ⟨hroot, p, hp, ?_⟩
  intro q rebound
  have h := uses_refine (T := Lanes Float32 2) hg hroot (order_trackedSquare ▸ hp) loadThreeAndFive
    (by decide : 1 < 2)
  rw [order_trackedSquare] at h
  obtain ⟨-, v, w, q', s', hv, hw, hq, hs, hexact, -⟩ := h
  have hmissing : (rebound.final trackedSquare).missing 1 = [1] := by
    have hsize : (rebound.final trackedSquare).dag.size = 2 := by decide +kernel
    have hops : (rebound.final trackedSquare).dag.operands 1 = [0, 0] := by decide +kernel
    have hv : (rebound.final trackedSquare).hasValue 1 = false ∧
        (rebound.final trackedSquare).hasValue 0 = true := by decide +kernel
    simp [Graph.missing, Dag.traverse, Dag.visit, hsize, hops, hv]
  have hfive : ((Graph.evaluate 1).final (rebound.final trackedSquare)).number 0 = 5 := by
    rw [Step.final, Graph.run_evaluate_of_missing hmissing]
    decide +kernel
  have hop : trackedSquare.op 0 = .parameter ∧ trackedSquare.op 1 = .mul 0 0 := ⟨rfl, rfl⟩
  obtain ⟨rfl, hgrad⟩ := hexact fun n hb a b hmul => by
    obtain rfl | rfl : n = 0 ∨ n = 1 := Nat.le_one_iff_eq_zero_or_eq_one.1 hb.le
    · rw [hop.1] at hmul
      cases hmul
    · rw [hop.2] at hmul
      cases hmul
      rw [hfive]
      decide +kernel
  exact ⟨v, q', s', hv, hw, hq, hs, hgrad 0 0 rfl (Except.ok.inj htracked)⟩

/-- One divided by a multiple of zero. -/
def zeroDivision : Graph Float32 Float32 :=
  DiffGraph.Call.runs [.parameter (.scalar 2), .setInput 0 true, .parameter (.scalar 0),
    .record (.mul 0 1), .parameter (.scalar 1), .record (.div 3 2)]
    (.empty 0 ⟨fun _ => 0, fun _ => 0⟩)

/-- The two is replaced by minus one. -/
def loadMinusOne : List (Use Float32) := [.loadSplat (.scalar 0) (.scalar (-1))]

theorem order_zeroDivision : zeroDivision.order 4 = [3, 0, 1, 2, 4] := by
  have hsize : zeroDivision.dag.size = 5 := by decide +kernel
  have hops : zeroDivision.dag.operands 4 = [3, 2] ∧ zeroDivision.dag.operands 3 = [] ∧
      zeroDivision.dag.operands 2 = [0, 1] ∧ zeroDivision.dag.operands 1 = [] ∧
      zeroDivision.dag.operands 0 = [] := by
    decide +kernel
  simp [Graph.order, Dag.traverse, Dag.visit, hsize, hops]

/-- **A division by zero shows the difference**: the program divides by negative zero and
its graph by positive zero. -/
theorem uses_zeroDivision :
    Reachable zeroDivision ∧ 4 < zeroDivision.size ∧
      ∃ p : Program Float32, zeroDivision.compile [3, 0, 1, 2, 4] = .ok p ∧
        let q : Program Float32 := uses zeroDivision p loadMinusOne p.convert
        let rebound := Graph.rebind [3, 0, 1, 2, 4]
          (held Float32 zeroDivision [3, 0, 1, 2, 4] loadMinusOne 0)
        zeroDivision.order 4 = [3, 0, 1, 2, 4] ∧
        result.answer q = .ok (-(1 / 0)) ∧
        (Graph.scalarOf 4).answer (rebound.final zeroDivision) = .ok (1 / 0) ∧
        (-(1 / 0) : Float32) ≠ 1 / 0 := by
  have hresult : (zeroDivision.compile [3, 0, 1, 2, 4] >>= fun p =>
      result.answer (uses zeroDivision p loadMinusOne p.convert : Program Float32)) =
        .ok (-(1 / 0)) := by
    decide +kernel
  obtain ⟨p, hp, hanswer⟩ := bind_eq_ok.1 hresult
  refine ⟨(Reachable.empty 0 _).runs _, by decide +kernel, p, hp, ?_⟩
  intro q rebound
  refine ⟨order_zeroDivision, hanswer, ?_, by decide +kernel⟩
  have hmissing : (rebound.final zeroDivision).missing 4 = [2, 4] := by
    have hsize : (rebound.final zeroDivision).dag.size = 5 := by decide +kernel
    have hops : (rebound.final zeroDivision).dag.operands 4 = [3, 2] ∧
        (rebound.final zeroDivision).dag.operands 2 = [0, 1] := by decide +kernel
    have hv : ∀ n < 5, (rebound.final zeroDivision).hasValue n = (n != 2 && n != 4) := by
      decide +kernel
    simp [Graph.missing, Dag.traverse, Dag.visit, hsize, hops, hv]
  rw [Step.answer, Graph.scalarOf, EStateM.run_bind, Graph.run_evaluate_of_missing hmissing]
  decide +kernel

end Program

end DiffGraph
