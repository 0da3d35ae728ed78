/-
  What calls do to a graph.

  A `Call` is one of the computations on a graph that a user can ask for, with
  its arguments.  Whatever the arguments are, and also when it fails half way, a
  call changes the graph by the moves of `Edit` only (`Call.leads`), and it gives
  values to the vertices in `Call.targets` only.

  * `Call.turns`: all but two calls change the graph by turns; `reset` forgets
    values, and `mergeGrads` moves sums from one vertex to another;
  * `runs`: the graph that a list of calls leaves;
  * `Reachable`: the graphs that are left by calls on a new graph;
  * `runs_edits`, `Reachable.gradsFit`: what is kept by the moves is kept by all
    calls.
-/
import DiffGraph.Graph.Gradient
import DiffGraph.Graph.Replica
import DiffGraph.Program.Exchange
import DiffGraph.Projection
import DiffGraph.Proofs.Entries
import DiffGraph.Proofs.Evaluation
import DiffGraph.Proofs.Pushes
import DiffGraph.Sgd

namespace DiffGraph

open Relation

variable {K E : Type}

namespace Graph

variable [Scalar K] [Arith E] [Laned K E] {targets : List Node}

/-! ## The moves of single computations -/

section
variable {g : Graph K E}

theorem turns_sum {n : Node} {f : Cell E → Cell E} (h : (g.cell n).Summed (f (g.cell n))) :
    (modify (·.update n f) : Step (Graph K E) PUnit).Leads (Turn targets) g :=
  .of_modify (.single (.sum g n f h))

/-- The same note on every vertex of an order. -/
theorem turns_sums {f : Cell E → Cell E} (h : ∀ c : Cell E, c.Summed (f c)) (order : List Node) :
    (modify fun g => order.foldl (fun g n => g.update n f) g : Step (Graph K E) PUnit).Leads
      (Turn targets) g :=
  .of_modify (Step.Leads.foldl (fun n _ g => .single (.sum g n f (h _))) g)

theorem turns_parameter (v : Matrix E) : (parameter v).Leads (Turn targets) g :=
  .of_run_ok rfl (.single (.push g _ _ _ (.inr ⟨rfl, v, rfl⟩)))

theorem turns_record (op : Op K) : (record op).Leads (Turn targets) g := by
  refine .get_bind ?_
  split
  · next h =>
    exact .bind (.set (.single (.push g op h .blank (.inl rfl))))
      fun _ _ _ => .pure _ _
  · exact .throw _ _

theorem turns_evaluate (root : Node) : (evaluate root).Leads (Turn targets) g := by
  rcases evaluate_cases g root with ⟨g', hr, -, ht⟩ | ⟨_, _, _, e, g', -, -, ht, -, hr⟩
  · exact .of_run_ok hr (ht.mono (by simp))
  · rw [Step.Leads, Step.final_of_run_error hr]
    exact ht.mono (by simp)

theorem leads_evaluate (root : Node) : (evaluate root).Leads (Edit targets) g :=
  (turns_evaluate root).mono fun _ _ => .turn

theorem turns_scalarOf (n : Node) : (scalarOf n).Leads (Turn targets) g :=
  .bind (turns_evaluate n) fun _ _ _ => .get_bind (.ofExcept _ _)

theorem turns_receive (n : Node) (p : Push E) : (receive n p).Leads (Turn targets) g :=
  .get_bind (.ofExcept_bind fun _ h =>
    .set (.single (.sum g n _ ⟨rfl, rfl, rfl, .inl (Push.shape_apply h), .inl rfl, .inl rfl⟩)))

theorem turns_propagate (n : Node) : (propagate n).Leads (Turn targets) g :=
  .get_bind (.ofExcept_bind fun _ _ => .forM (fun p _ _ => turns_receive p.1 p.2) g)

theorem turns_reverseAlong (root : Node) (order : List Node) :
    (reverseAlong root order).Leads (Turn targets) g :=
  .bind (turns_evaluate root) fun _ _ _ =>
    .bind (turns_sum ⟨rfl, rfl, rfl, .inr rfl, .inl rfl, .inl rfl⟩) fun _ s _ =>
      .forM (fun n _ _ => turns_propagate n) s

omit [Scalar K] [Laned K E] in
theorem summed_collect {c c' : Cell E} (h : c.collect = .ok c') : c.Summed c' := by
  obtain ⟨sum, hsum, h⟩ := bind_eq_ok.1 h
  have hshape := Matrix.shape_of_zipWith hsum
  cases h
  refine ⟨rfl, rfl, rfl, .inl rfl, ?_, .inl rfl⟩
  split at hshape
  · exact .inr hshape
  · exact .inl hshape

theorem turns_collect (order : List Node) :
    (collect order : Step (Graph K E) Unit).Leads (Turn targets) g :=
  .forM (fun n _ g => .get_bind (.ofExcept_bind fun _ h =>
    .set (.single (.sum g n _ (summed_collect h))))) g

/-! ## Moves that are no turns -/

theorem leads_reset (order : List Node) :
    (reset order : Step (Graph K E) Unit).Leads (Edit targets) g := by
  refine .of_modify (Step.Leads.foldl (fun n _ g => ?_) g)
  split
  · exact .single (.note g n _ ⟨rfl, rfl, fun h => h, .inl rfl⟩)
  · exact .single (.note g n _ ⟨rfl, rfl, fun h => (by cases h), .inl rfl⟩)

theorem leads_mergeGrad (target source : Node) :
    (mergeGrad target source : Step (Graph K E) Unit).Leads (Edit targets) g := by
  refine .get_bind ?_
  dsimp only
  split
  · exact .ofExcept_bind fun _ _ =>
      .set (.single (.note g target _ ⟨rfl, rfl, fun h => h, .inl rfl⟩))
  · exact .pure _ _

theorem leads_mergeGrads (order replica : List Node) :
    (mergeGrads order replica : Step (Graph K E) Unit).Leads (Edit targets) g :=
  .get_bind (.ofExcept_bind fun _ _ => .forM (fun p _ _ => leads_mergeGrad p.1 p.2) g)

/-! ## Writes to parameters -/

/-- A change of a value that keeps its shape. -/
def KeepsShape (f : Matrix E → Except Failure (Matrix E)) : Prop :=
  ∀ old v, f old = .ok v → v.shape = old.shape

theorem turns_alter {operation : String} {n : Node} {f : Matrix E → Except Failure (Matrix E)}
    (hn : n ∈ targets) (hf : KeepsShape f) :
    (alter operation n f : Step (Graph K E) Unit).Leads (Turn targets) g := by
  refine .get_bind ?_
  dsimp only
  split
  · exact .throw _ _
  · next hp =>
    refine .ofExcept_bind fun v hv => .set (.single (.assign g n v hn (by simpa using hp) ?_))
    exact hf _ _ hv

omit [Scalar K] [Laned K E] [Arith E] in
theorem run_alter {operation : String} {n : Node} {f : Matrix E → Except Failure (Matrix E)}
    (hp : g.isParameter n = true) {v : Matrix E} (hv : f (g.value n) = .ok v) :
    (alter operation n f).run g = .ok () (g.update n fun c => { c with value := v }) := by
  simp only [alter, EStateM.run_bind, EStateM.run_get, hp, hv]
  rfl

omit [Scalar K] [Laned K E] [Arith E] in
theorem run_alter_ok {operation : String} {n : Node} {f : Matrix E → Except Failure (Matrix E)}
    {g' : Graph K E} (h : (alter operation n f).run g = .ok () g') :
    ∃ v, f (g.value n) = .ok v ∧ g' = g.update n fun c => { c with value := v } := by
  simp only [alter, EStateM.run_bind, EStateM.run_get] at h
  split at h
  · cases h
  · cases hv : f (g.value n) with
    | error e => rw [hv] at h; cases h
    | ok v => rw [hv] at h; cases h; exact ⟨v, rfl, rfl⟩

theorem turns_setValue {n : Node} (hn : n ∈ targets) (v : Matrix E) :
    (setValue n v : Step (Graph K E) Unit).Leads (Turn targets) g := by
  refine turns_alter hn fun old w h => ?_
  split at h
  · next hs => cases h; exact hs.symm
  · cases h

theorem turns_assign {n : Node} (hn : n ∈ targets) (e : E) :
    (assign n e : Step (Graph K E) Unit).Leads (Turn targets) g := by
  refine turns_alter hn fun old w h => ?_
  split at h
  · next hs =>
    cases h
    simp only [Matrix.isScalar, Bool.and_eq_true, beq_iff_eq] at hs
    exact Prod.ext hs.1.symm hs.2.symm
  · cases h

omit [Scalar K] [Laned K E] [Arith E] in
/-- A number that is assigned is there. -/
theorem value_assign {n : Node} (hn : n < g.size) (hp : g.isParameter n = true)
    (hs : (g.value n).isScalar = true) (e : E) : ((assign n e).final g).value n = .scalar e := by
  have hrun : (assign n e).run g = .ok () (g.update n fun c => { c with value := .scalar e }) :=
    run_alter hp (if_pos hs)
  have hfinal : (assign n e).final g = g.update n fun c => { c with value := .scalar e } :=
    Step.final_of_run_ok hrun
  rw [hfinal, value, cell_update_self g hn]

omit [Scalar K] [Laned K E] [Arith E] in
theorem shape_set (m : Matrix E) (r c : Nat) (e : E) : (m.set r c e).shape = m.shape := by
  unfold Matrix.set
  split <;> rfl

omit [Scalar K] [Laned K E] [Arith E] in
/-- A change of an entry that is there. -/
theorem keepsShape_checkIndex {r c : Nat} {f : Matrix E → Matrix E}
    (hf : ∀ m, (f m).shape = m.shape) :
    KeepsShape fun old => do checkIndex old r c; return f old := by
  intro old v h
  cases hc : checkIndex old r c with
  | error e => simp only [hc, bind, Except.bind] at h; cases h
  | ok =>
    simp only [hc, bind, Except.bind] at h
    cases h
    exact hf old

theorem turns_setEntry {n : Node} (hn : n ∈ targets) (r c : Nat) (e : E) :
    (setEntry n r c e : Step (Graph K E) Unit).Leads (Turn targets) g :=
  turns_alter hn (keepsShape_checkIndex fun m => shape_set m r c e)

theorem turns_setLane {n : Node} (hn : n ∈ targets) (r c lane : Nat) (k : K) :
    (setLane n r c lane k : Step (Graph K E) Unit).Leads (Turn targets) g := by
  unfold setLane
  split
  · exact .throw _ _
  · exact turns_alter hn (keepsShape_checkIndex fun m => shape_set m r c _)

theorem turns_constant {n : Node} (hn : n ∈ targets) (k : K) :
    (constant n k : Step (Graph K E) Unit).Leads (Turn targets) g :=
  turns_alter hn fun _ _ h => by cases h; rfl

theorem turns_countFrom {n : Node} (hn : n ∈ targets) (start : K) :
    (countFrom n start : Step (Graph K E) Unit).Leads (Turn targets) g :=
  turns_alter hn fun _ _ h => by cases h; rfl

theorem turns_diagonal {n : Node} (hn : n ∈ targets) (k : K) :
    (diagonal n k : Step (Graph K E) Unit).Leads (Turn targets) g := by
  refine turns_alter hn fun old w h => ?_
  split at h
  · cases h; rfl
  · cases h

theorem turns_oneHot {n : Node} (hn : n ∈ targets) (col : Nat) :
    (oneHot n col : Step (Graph K E) Unit).Leads (Turn targets) g :=
  turns_alter hn (keepsShape_checkIndex fun _ => rfl)

theorem turns_normalize {n : Node} (hn : n ∈ targets) (mean : K) (deviation : Option K) :
    (normalize n mean deviation : Step (Graph K E) Unit).Leads (Turn targets) g := by
  refine turns_alter hn fun old w h => ?_
  split at h
  · cases h
  · cases h
    unfold normalized
    cases deviation <;> rfl

theorem turns_randomUniform {n : Node} (hn : n ∈ targets) (bound : K) :
    (randomUniform n bound : Step (Graph K E) Unit).Leads (Turn targets) g :=
  .get_bind (.bind (turns_alter hn fun _ _ h => by cases h; rfl) fun _ s _ =>
    .of_modify (.single (.use s _)))

theorem turns_randomNormal {b : Block} (hb : b.nodes ⊆ targets) :
    (Block.randomNormal b : Step (Graph K E) Unit).Leads (Turn targets) g :=
  .forM (fun _ hn _ => .get_bind (.bind (turns_assign (hb hn) _) fun _ _ _ =>
    .get_bind (.set (.single (.draw _ _))))) g

theorem turns_copyParameters {order replica : List Node} (hr : replica ⊆ targets) :
    (copyParameters order replica : Step (Graph K E) Unit).Leads (Turn targets) g := by
  refine .get_bind (.ofExcept_bind fun _ _ => .forM (fun p hp s => .get_bind ?_) g)
  split
  · exact turns_setValue (hr (List.of_mem_zip hp).2) _
  · exact .pure _ _

theorem turns_move {config : Sgd.Config K} {n : Node} (hn : n ∈ targets)
    (hp : g.isParameter n = true) :
    (Sgd.move config n : Step (Graph K E) Unit).Leads
      (fun g g' => Turn targets g g' ∧ g'.dag = g.dag) g := by
  refine .get_bind ?_
  dsimp only
  split
  · refine .ofExcept_bind fun v hv => .set (.single ⟨.assign g n v hn hp ?_, rfl⟩)
    simp only [Sgd.next, bind, Except.bind] at hv
    split at hv
    · cases hv
    · unfold Matrix.zipWith at hv
      split at hv
      · cases hv; rfl
      · cases hv
  · exact .pure _ _

omit [Scalar K] [Arith E] [Laned K E] in
/-- An optimizer is made for parameters only. -/
theorem params_of_make {params : List Node} {config : Sgd.Config K} {o : Sgd K}
    (h : Sgd.make g params config = .ok o) :
    o.params = params ∧ ∀ n ∈ params, g.isParameter n = true := by
  unfold Sgd.make at h
  split at h
  · cases h
  · split at h
    · cases h
    · next hnone =>
      cases h
      exact ⟨rfl, by simpa using hnone⟩

theorem turns_step {params : List Node} {config : Sgd.Config K} (hp : params ⊆ targets)
    {o : Sgd K} (ho : Sgd.make g params config = .ok o) :
    (o.step : Step (Graph K E) (Sgd K)).Leads (Turn targets) g := by
  have hparams := params_of_make ho
  refine .bind ?_ fun _ _ _ => .pure _ _
  rw [hparams.1]
  refine .mono (fun _ _ h => h.1) (.forM_of_kept (I := fun s => s.dag = g.dag)
    (fun _ _ h hs => h.2.trans hs) (fun n hn s hs => turns_move (hp hn) ?_) rfl)
  rw [isParameter, op, hs]
  exact hparams.2 n hn

/-! ## Exchange with programs -/

variable {T : Type} [Arith T] [Laned K T]

/-- The turns of a graph and a program: any turns of the graph. -/
abbrev PairTurn (targets : List Node) (s t : Graph K E × Program T) : Prop :=
  Turns targets s.1 t.1

omit [Arith T] [Laned K T] in
theorem turns_onFirst {α : Type} {x : Step (Graph K E) α} {s : Graph K E × Program T}
    (hx : x.Leads (Turn targets) s.1) :
    (Step.onFirst x : Step (Graph K E × Program T) α).Leads (PairTurn targets) s := by
  obtain ⟨g, p⟩ := s
  cases h : x.run g with
  | ok a g' =>
    exact .of_run_ok ((Step.run_onFirst x g p).trans (by rw [h])) (.single (hx.moves h))
  | error e g' =>
    rw [Step.Leads, Step.final_of_run_error ((Step.run_onFirst x g p).trans (by rw [h]))]
    exact .single (hx.moves_of_error h)

omit [Arith T] in
theorem turns_refreshValues (order : List Node) (s : Graph K E × Program T) :
    (Program.refreshValues order : Step (Graph K E × Program T) Unit).Leads
      (PairTurn targets) s := by
  refine .get_bind (.forM (fun e _ s => .get_bind ?_) s)
  dsimp only
  split
  · exact .ofExcept_bind fun n _ => .bind (turns_onFirst (turns_scalarOf n)) fun v s' _ =>
      .of_modify (.single .refl)
  · exact .pure _ _

omit [Arith T] in
theorem turns_load (j : Projection) (b : Block) (s : Graph K E × Program T) :
    (j.load b : Step (Graph K E × Program T) Unit).Leads (PairTurn targets) s := by
  refine .get_bind (.ofExcept_bind fun _ _ => .forM (fun cell _ s => ?_) s)
  exact .bind (turns_onFirst (turns_scalarOf cell.1)) fun _ _ _ => .of_modify (.single .refl)

omit [Arith T] [Laned K T] in
theorem shape_addEach (m : Matrix E) (e : E) : (m.addEach e).shape = m.shape := rfl

theorem turns_deliverGrads (p : Program T) (order : List Node) :
    (p.deliverGrads order : Step (Graph K E) Unit).Leads (Turn targets) g := by
  refine .forM (fun e _ s => ?_) g
  unfold Program.deliverGrad
  split
  · exact .get_bind (.ofExcept_bind fun n _ =>
      turns_sum ⟨rfl, rfl, rfl, .inl (shape_addEach _ _), .inl rfl, .inl rfl⟩)
  · exact .pure _ _

theorem turns_addGrads (j : Projection) (p : Program T) (b : Block) :
    (j.addGrads p b : Step (Graph K E) Unit).Leads (Turn targets) g :=
  .ofExcept_bind fun _ _ => .of_modify (Step.Leads.foldl (fun cell _ s =>
    .single (.sum s cell.1 _
      ⟨rfl, rfl, rfl, .inl (shape_addEach _ _), .inl rfl, .inl rfl⟩)) g)

theorem turns_unload (j : Projection) (p : Program T) {out : Block} (ho : out.nodes ⊆ targets) :
    (j.unload p out : Step (Graph K E) Unit).Leads (Turn targets) g := by
  refine .ofExcept_bind fun _ _ => .forM (fun cell hc s => ?_) g
  have hn : cell.1 ∈ targets := by
    simp only [Projection.pairs, List.mem_filterMap] at hc
    obtain ⟨⟨a, slot⟩, hmem, hslot⟩ := hc
    cases slot with
    | none => cases hslot
    | some i => cases hslot; exact ho (List.of_mem_zip hmem).1
  refine .bind (turns_assign hn _) fun _ s' hr =>
    turns_sum ⟨rfl, rfl, rfl, .inr ?_, .inl rfl, .inl rfl⟩
  obtain ⟨v, hv, hs'⟩ := run_alter_ok hr
  split at hv
  · next hold =>
    cases hv
    rw [hs', cell_update_self s (lt_size_of_isScalar hold)]
    rfl
  · cases hv

end

end Graph

/-! ## Calls -/

/-- The calls that change a graph.  Values that are only read have no call of
their own: reading one evaluates its vertex. -/
inductive Call (K E : Type) : Type 1 where
  | parameter (value : Matrix E)
  | record (op : Op K)
  | setTracked (n : Node) (mark : Bool)
  | setInput (n : Node) (mark : Bool)
  | evaluate (root : Node)
  | reversePass (root : Node)
  | reverseAlong (root : Node) (order : List Node)
  | reset (order : List Node)
  | clearGrads (order : List Node)
  | collect (order : List Node)
  | endBatch (order : List Node)
  | setValue (n : Node) (value : Matrix E)
  | assign (n : Node) (e : E)
  | setEntry (n : Node) (r c : Nat) (e : E)
  | setLane (n : Node) (r c lane : Nat) (k : K)
  | constant (n : Node) (k : K)
  | countFrom (n : Node) (start : K)
  | diagonal (n : Node) (k : K)
  | oneHot (n : Node) (col : Nat)
  | normalize (n : Node) (mean : K) (deviation : Option K)
  | randomUniform (n : Node) (bound : K)
  | randomNormal (b : Block)
  | copyParameters (order replica : List Node)
  | mergeGrads (order replica : List Node)
  /-- a step of a new optimizer; the number of steps done before changes nothing -/
  | sgdStep (params : List Node) (config : Sgd.Config K)
  | sgdEndBatch (o : Sgd K)
  | refreshValues {T : Type} [Arith T] [Laned K T] (p : Program T) (order : List Node)
  | deliverGrads {T : Type} [Arith T] [Laned K T] (p : Program T) (order : List Node)
  | load {T : Type} [Arith T] [Laned K T] (j : Projection) (p : Program T) (b : Block)
  | unload {T : Type} [Arith T] [Laned K T] (j : Projection) (p : Program T) (out : Block)
  | addGrads {T : Type} [Arith T] [Laned K T] (j : Projection) (p : Program T) (b : Block)

namespace Call

/-- The vertices that a call writes to. -/
def targets : Call K E → List Node
  | setValue n _ | assign n _ | setEntry n .. | setLane n .. | constant n _ | countFrom n _
  | diagonal n _ | oneHot n _ | normalize n .. | randomUniform n _ => [n]
  | randomNormal b => b.nodes
  | copyParameters _ replica => replica
  | sgdStep params _ => params
  | unload _ _ out => out.nodes
  | _ => []

variable [Scalar K] [Arith E] [Laned K E]

/-- The computation that a call asks for. -/
def run : Call K E → Step (Graph K E) Unit
  | parameter value => discard (Graph.parameter value)
  | record op => discard (Graph.record op)
  | setTracked n mark => Graph.setTracked n mark
  | setInput n mark => Graph.setInput n mark
  | evaluate root => Graph.evaluate root
  | reversePass root => Graph.reversePass root
  | reverseAlong root order => Graph.reverseAlong root order
  | reset order => Graph.reset order
  | clearGrads order => Graph.clearGrads order
  | collect order => Graph.collect order
  | endBatch order => Graph.endBatch order
  | setValue n value => Graph.setValue n value
  | assign n e => Graph.assign n e
  | setEntry n r c e => Graph.setEntry n r c e
  | setLane n r c lane k => Graph.setLane n r c lane k
  | constant n k => Graph.constant n k
  | countFrom n start => Graph.countFrom n start
  | diagonal n k => Graph.diagonal n k
  | oneHot n col => Graph.oneHot n col
  | normalize n mean deviation => Graph.normalize n mean deviation
  | randomUniform n bound => Graph.randomUniform n bound
  | randomNormal b => b.randomNormal
  | copyParameters order replica => Graph.copyParameters order replica
  | mergeGrads order replica => Graph.mergeGrads order replica
  | sgdStep params config => do
    let o ← Step.ofExcept (Sgd.make (← get) params config)
    discard o.step
  | sgdEndBatch o => o.endBatch
  | refreshValues p order => (Program.refreshValues order).beside p
  | deliverGrads p order => p.deliverGrads order
  | load j p b => (j.load b).beside p
  | unload j p out => j.unload p out
  | addGrads j p b => j.addGrads p b

theorem turns_beside {T : Type} [Arith T] [Laned K T] {targets : List Node} {g : Graph K E}
    {x : Step (Graph K E × Program T) Unit} (p : Program T)
    (hx : x.Leads (Graph.PairTurn targets) (g, p)) :
    (x.beside p).Leads (Graph.Turn targets) g := by
  have key : ∀ {s t : Graph K E × Program T}, ReflTransGen (Graph.PairTurn targets) s t →
      Graph.Turns targets s.1 t.1 := by
    intro s t h
    induction h with
    | refl => exact .refl
    | tail _ hm ih => exact ih.trans hm
  rw [Step.Leads, Step.final_beside]
  exact key hx

omit [Scalar K] [Arith E] [Laned K E] in
/-- The calls that change a graph by turns. -/
def Plain : Call K E → Prop
  | reset _ | mergeGrads .. => False
  | _ => True

/-- **All calls but two change a graph by turns**, also when they fail. -/
theorem turns {c : Call K E} (hc : c.Plain) (g : Graph K E) :
    c.run.Leads (Graph.Turn c.targets) g := by
  cases c with
  | reset | mergeGrads => exact hc.elim
  | parameter value => exact .bind (Graph.turns_parameter value) fun _ _ _ => .pure _ _
  | record op => exact .bind (Graph.turns_record op) fun _ _ _ => .pure _ _
  | setTracked n mark => exact Graph.turns_sum ⟨rfl, rfl, rfl, .inl rfl, .inl rfl, .inl rfl⟩
  | setInput n mark => exact Graph.turns_sum ⟨rfl, rfl, rfl, .inl rfl, .inl rfl, .inl rfl⟩
  | evaluate root => exact Graph.turns_evaluate root
  | reversePass root => exact .get_bind (Graph.turns_reverseAlong root _)
  | reverseAlong root order => exact Graph.turns_reverseAlong root order
  | clearGrads order =>
    exact Graph.turns_sums (f := Cell.clearGrad)
      (fun _ => ⟨rfl, rfl, rfl, .inl rfl, .inl rfl, .inl rfl⟩) order
  | collect order => exact Graph.turns_collect order
  | endBatch order =>
    exact Graph.turns_sums (f := Cell.endBatch)
      (fun _ => ⟨rfl, rfl, rfl, .inl rfl, .inr rfl, .inr rfl⟩) order
  | setValue n value => exact Graph.turns_setValue List.mem_cons_self value
  | assign n e => exact Graph.turns_assign List.mem_cons_self e
  | setEntry n r c e => exact Graph.turns_setEntry List.mem_cons_self r c e
  | setLane n r c lane k => exact Graph.turns_setLane List.mem_cons_self r c lane k
  | constant n k => exact Graph.turns_constant List.mem_cons_self k
  | countFrom n start => exact Graph.turns_countFrom List.mem_cons_self start
  | diagonal n k => exact Graph.turns_diagonal List.mem_cons_self k
  | oneHot n col => exact Graph.turns_oneHot List.mem_cons_self col
  | normalize n mean deviation => exact Graph.turns_normalize List.mem_cons_self mean deviation
  | randomUniform n bound => exact Graph.turns_randomUniform List.mem_cons_self bound
  | randomNormal b => exact Graph.turns_randomNormal fun _ h => h
  | copyParameters order replica => exact Graph.turns_copyParameters fun _ h => h
  | sgdStep params config =>
    exact .get_bind (.ofExcept_bind fun o ho =>
      .bind (Graph.turns_step (fun _ h => h) ho) fun _ _ _ => .pure _ _)
  | sgdEndBatch o =>
    exact Graph.turns_sums (f := fun c => c.endBatch.clearGrad)
      (fun _ => ⟨rfl, rfl, rfl, .inl rfl, .inr rfl, .inr rfl⟩) o.params
  | refreshValues p order => exact turns_beside p (Graph.turns_refreshValues order _)
  | deliverGrads p order => exact Graph.turns_deliverGrads p order
  | load j p b => exact turns_beside p (Graph.turns_load j b _)
  | unload j p out => exact Graph.turns_unload j p fun _ h => h
  | addGrads j p b => exact Graph.turns_addGrads j p b

/-- **A call changes a graph by moves**, also when it fails, and gives values to
its targets only. -/
theorem leads (c : Call K E) (g : Graph K E) : c.run.Leads (Graph.Edit c.targets) g := by
  have hturns : c.Plain → c.run.Leads (Graph.Edit c.targets) g := fun hc =>
    (turns hc g).mono fun _ _ => .turn
  cases c with
  | reset order => exact Graph.leads_reset order
  | mergeGrads order replica => exact Graph.leads_mergeGrads order replica
  | _ => exact hturns trivial

/-- The graph that a list of calls leaves.  A call that fails is not repeated. -/
def runs : List (Call K E) → Graph K E → Graph K E
  | [], g => g
  | c :: cs, g => runs cs (c.run.final g)

/-- No call of a list writes to a vertex below a root of `g`. -/
def Spares (cs : List (Call K E)) (g : Graph K E) (root : Node) : Prop :=
  ∀ c ∈ cs, ∀ n ∈ c.targets, ¬ g.dag.Below root n

/-- **Calls change a graph by moves.** -/
theorem runs_edits (cs : List (Call K E)) (g : Graph K E) :
    Graph.Edits (cs.flatMap targets) g (runs cs g) := by
  induction cs generalizing g with
  | nil => exact .refl
  | cons c cs ih =>
    have hc : Graph.Edits c.targets g (c.run.final g) := c.leads g
    exact (hc.mono (by simp)).trans ((ih _).mono (by simp))

end Call

/-- The graphs that are left by calls on a new graph. -/
inductive Reachable [Scalar K] [Arith E] [Laned K E] : Graph K E → Prop where
  | empty (tag : Nat) (noise : Noise K) : Reachable (.empty tag noise)
  | call {g : Graph K E} (h : Reachable g) (c : Call K E) : Reachable (c.run.final g)

variable [Scalar K] [Arith E] [Laned K E]

/-- **The gradient of a parameter has the shape of its value**, whatever was done
before. -/
theorem Reachable.gradsFit {g : Graph K E} (h : Reachable g) : g.GradsFit := by
  induction h with
  | empty tag noise => exact fun n _ => rfl
  | call h c ih => exact Graph.Edits.gradsFit (c.leads _) ih

theorem Reachable.runs {g : Graph K E} (h : Reachable g) (cs : List (Call K E)) :
    Reachable (Call.runs cs g) := by
  induction cs generalizing g with
  | nil => exact h
  | cons c cs ih => exact ih (h.call c)

end DiffGraph
