/-
  Learning from examples.

  For an example the inputs are given their values, what is below the root is reset, and
  a reverse pass is made; its gradients are added to the sums of the batch
  (`Graph.learn`).

  * `Fed`, `Swept`, `Replaced`: what the parts of this do to the cells;
  * `Learnable`: a root that can be evaluated.  No call changes this, and every example
    that fits can be learned (`Learnable.run_pass`, `Learnable.run_learn`);
  * `Learned`: to the sum of a parameter its gradient is added, once.
-/
import DiffGraph.Proofs.Feasible

namespace DiffGraph

open Relation

variable {K E : Type}

namespace Matrix

/-- Matrices of one shape have entries or not. -/
theorem isEmpty_congr {F : Type} {a : Matrix E} {b : Matrix F} (h : a.shape = b.shape) :
    a.isEmpty = b.isEmpty := by
  rw [Bool.eq_iff_iff, isEmpty_iff, isEmpty_iff, h]

end Matrix

/-! ## Changes of cells -/

namespace Graph

/-- The graphs differ in their cells only. -/
structure Beside (g g' : Graph K E) : Prop where
  tag : g'.tag = g.tag
  dag : g'.dag = g.dag
  noise : g'.noise = g.noise
  drawn : g'.drawn = g.drawn
  drawnNormal : g'.drawnNormal = g.drawnNormal

theorem Beside.refl (g : Graph K E) : g.Beside g := ⟨rfl, rfl, rfl, rfl, rfl⟩

theorem Beside.update (g : Graph K E) (n : Node) (f : Cell E → Cell E) :
    g.Beside (g.update n f) := ⟨rfl, rfl, rfl, rfl, rfl⟩

theorem Beside.trans {g g' g'' : Graph K E} (h : g.Beside g') (h' : g'.Beside g'') :
    g.Beside g'' where
  tag := h'.tag.trans h.tag
  dag := h'.dag.trans h.dag
  noise := h'.noise.trans h.noise
  drawn := h'.drawn.trans h.drawn
  drawnNormal := h'.drawnNormal.trans h.drawnNormal

section
variable {g g' : Graph K E} {n : Node}

theorem op_of_dag (h : g'.dag = g.dag) (n : Node) : g'.op n = g.op n := by
  rw [op, h]
  rfl

theorem isParameter_of_dag (h : g'.dag = g.dag) (n : Node) :
    g'.isParameter n = g.isParameter n := by
  rw [isParameter, op_of_dag h]
  rfl

theorem size_of_dag (h : g'.dag = g.dag) : g'.size = g.size := congrArg Dag.size h

theorem order_of_dag (h : g'.dag = g.dag) (root : Node) : g'.order root = g.order root := by
  rw [order, h]
  rfl

/-- A cell that is replaced by itself. -/
theorem update_cell (g : Graph K E) (n : Node) : (g.update n fun _ => g.cell n) = g := by
  have hself : (g.update n fun _ => g.cell n) = g.update n fun c => c := update_congr g rfl
  rw [hself]
  simp only [update]
  congr
  refine Array.ext_getElem? fun m => ?_
  rw [Array.getElem?_modify]
  split
  · next h => rw [← h, Option.map_id']
  · rfl

/-- The cells of an order after each of them was changed once. -/
theorem cell_foldl_update {ns : List Node} (hns : ns.Nodup) (f : Cell E → Cell E) (g : Graph K E)
    (m : Node) :
    (ns.foldl (fun g n => g.update n f) g).cell m =
      if m ∈ ns ∧ m < g.size then f (g.cell m) else g.cell m := by
  induction ns generalizing g with
  | nil => simp
  | cons n ns ih =>
    obtain ⟨hn, hns⟩ := List.nodup_cons.1 hns
    have hsize : (g.update n f).size = g.size := rfl
    rw [List.foldl_cons, ih hns, hsize, cell_update]
    by_cases hmn : m = n
    · subst hmn
      simp [hn]
    · simp [hmn]

theorem beside_foldl_update (ns : List Node) (f : Cell E → Cell E) (g : Graph K E) :
    g.Beside (ns.foldl (fun g n => g.update n f) g) := by
  induction ns generalizing g with
  | nil => exact Beside.refl g
  | cons n ns ih => exact (Beside.update g n f).trans (ih _)

end

/-- The cells of the vertices `target a`, for the entries `a` of a list, were each replaced
once, by what `f a` makes of them. -/
structure Replaced {α : Type} (target : α → Node) (f : α → Cell E → Except Failure (Cell E))
    (l : List α) (g g' : Graph K E) : Prop where
  beside : g.Beside g'
  old : ∀ n, n ∉ l.map target → g'.cell n = g.cell n
  new : ∀ a ∈ l, target a < g.size → f a (g.cell (target a)) = .ok (g'.cell (target a))

/-- A loop that replaces a cell in each round.  What it reads of other cells has to stay. -/
theorem run_replacing {α : Type} (target : α → Node) {f : α → Cell E → Except Failure (Cell E)}
    {l : List α} {g : Graph K E} (body : α → Step (Graph K E) PUnit)
    (hbody : ∀ a ∈ l, ∀ s : Graph K E, g.Beside s → (∀ n, n ∉ l.map target → s.cell n = g.cell n) →
      (body a).run s =
        match f a (s.cell (target a)) with
        | .ok c => .ok ⟨⟩ (s.update (target a) fun _ => c)
        | .error e => .error e s)
    (hl : (l.map target).Nodup) (hok : ∀ a ∈ l, ∃ c, f a (g.cell (target a)) = .ok c) :
    ∃ g', (l.forM body).run g = .ok ⟨⟩ g' ∧ Replaced target f l g g' := by
  -- what is done so far, as if the list ended here
  refine Step.run_forM_ok (fun pre s => Replaced target f pre g s) ?_
    ⟨Beside.refl g, fun _ _ => rfl, by simp⟩
  rintro pre a post s rfl ⟨hbeside, hold, hnew⟩
  rw [List.map_append, List.nodup_append] at hl
  have hfresh : target a ∉ pre.map target := fun hm =>
    hl.2.2 (target a) hm (target a) (by simp) rfl
  obtain ⟨c, hc⟩ := hok a (by simp)
  have hrun := hbody a (by simp) s hbeside fun n hn => hold n fun hm => hn (by
    rw [List.map_append]
    exact List.mem_append_left _ hm)
  rw [hold _ hfresh, hc] at hrun
  refine ⟨_, hrun, hbeside.trans (Beside.update s _ _), ?_, ?_⟩
  · intro n hn
    rw [List.map_append, List.mem_append, not_or] at hn
    have hne : target a ≠ n := fun h => hn.2 (by simp [h])
    rw [cell_update_of_ne s hne, hold n hn.1]
  · intro b hb hlt
    rcases List.mem_append.1 hb with hb | hb
    · have hne : target a ≠ target b := fun h => hfresh (h ▸ List.mem_map_of_mem hb)
      rw [cell_update_of_ne s hne, ← hnew b hb hlt]
    · obtain rfl := List.mem_singleton.1 hb
      rw [cell_update_self s (hlt.trans_eq (size_of_dag hbeside.dag).symm)]
      exact hc

end Graph

/-! ## Examples -/

/-- The values that inputs are given for one example. -/
abbrev Example (E : Type) := List (Node × Matrix E)

namespace Example

/-- The value that a vertex has after the example is written over `v`. -/
def written (x : Example E) (n : Node) (v : Matrix E) : Matrix E :=
  x.foldl (fun v w => if w.1 = n then w.2 else v) v

/-- The example gives values to parameters only, each of them of the right shape. -/
def Fits (g : Graph K E) (x : Example E) : Prop :=
  ∀ w ∈ x, g.isParameter w.1 = true ∧ w.2.shape = (g.value w.1).shape

theorem Fits.of_shapes {g g' : Graph K E} {x : Example E} (h : x.Fits g) (hdag : g'.dag = g.dag)
    (hs : ∀ n, g.isParameter n = true → (g'.value n).shape = (g.value n).shape) : x.Fits g' := by
  intro w hw
  obtain ⟨hp, hshape⟩ := h w hw
  refine ⟨(Graph.isParameter_of_dag hdag _).trans hp, ?_⟩
  rw [hs w.1 hp]
  exact hshape

theorem shape_written {x : Example E} {n : Node} {v : Matrix E}
    (h : ∀ w ∈ x, w.1 = n → w.2.shape = v.shape) : (x.written n v).shape = v.shape := by
  induction x generalizing v with
  | nil => rfl
  | cons w x ih =>
    have hx : ∀ u ∈ x, u.1 = n → u.2.shape = v.shape := fun u hu =>
      h u (List.mem_cons_of_mem _ hu)
    rw [written, List.foldl_cons]
    split
    · next hw =>
      have hv := h w List.mem_cons_self hw
      rw [← hv]
      exact ih fun u hu hn => (hx u hu hn).trans hv.symm
    · exact ih hx

theorem Fits.shape_written {g : Graph K E} {x : Example E} (h : x.Fits g) (n : Node) :
    (x.written n (g.value n)).shape = (g.value n).shape :=
  Example.shape_written fun w hw hwn => hwn ▸ (h w hw).2

theorem written_of_not_mem {x : Example E} {n : Node} (h : ∀ w ∈ x, w.1 ≠ n) (v : Matrix E) :
    x.written n v = v := by
  induction x with
  | nil => rfl
  | cons w x ih =>
    rw [written, List.foldl_cons, if_neg (h w List.mem_cons_self)]
    exact ih fun u hu => h u (List.mem_cons_of_mem _ hu)

end Example

namespace Graph

section
variable [Scalar K] [Arith E] [Laned K E]

/-- Gives the inputs the values of an example. -/
def feed (x : Example E) : Step (Graph K E) Unit := x.forM fun w => setValue w.1 w.2

/-- The reverse pass for one example. -/
def pass (root : Node) (order : List Node) (x : Example E) : Step (Graph K E) Unit := do
  feed x
  reset order
  reverseAlong root order

/-- Adds the gradients of one example to the sums of the batch. -/
def learn (root : Node) (order : List Node) (x : Example E) : Step (Graph K E) Unit := do
  pass root order x
  collect order

end

/-- The graph after an example was written to its inputs. -/
structure Fed (g g' : Graph K E) (x : Example E) : Prop where
  beside : g.Beside g'
  cell : ∀ n < g.size, g'.cell n = { g.cell n with value := x.written n (g.value n) }

theorem Fed.value {g g' : Graph K E} {x : Example E} (h : Fed g g' x) {n : Node} (hn : n < g.size) :
    g'.value n = x.written n (g.value n) := by
  rw [Graph.value, h.cell n hn]

theorem run_setValue [Scalar K] [Arith E] [Laned K E] {g : Graph K E} {n : Node} {v : Matrix E}
    (hp : g.isParameter n = true) (hv : v.shape = (g.value n).shape) :
    (setValue n v : Step (Graph K E) Unit).run g =
      .ok () (g.update n fun c => { c with value := v }) :=
  run_alter hp (if_pos hv.symm)

/-- **An example that fits can be written.** -/
theorem run_feed [Scalar K] [Arith E] [Laned K E] {x : Example E} {g : Graph K E}
    (h : x.Fits g) : ∃ g', (feed x).run g = .ok () g' ∧ Fed g g' x := by
  induction x generalizing g with
  | nil => exact ⟨g, rfl, Beside.refl g, fun n _ => rfl⟩
  | cons w x ih =>
    obtain ⟨hp, hs⟩ := h w List.mem_cons_self
    let s := g.update w.1 fun c => { c with value := w.2 }
    have hcell : ∀ n < g.size, s.cell n =
        { g.cell n with value := if w.1 = n then w.2 else g.value n } := by
      intro n hn
      rw [cell_update]
      by_cases hnw : n = w.1
      · rw [if_pos ⟨hnw, hnw ▸ hn⟩, if_pos hnw.symm, hnw]
      · rw [if_neg fun h => hnw h.1, if_neg fun h => hnw h.symm]
        rfl
    have hfits : Example.Fits s x := by
      refine Example.Fits.of_shapes (g := g) (fun u hu => h u (List.mem_cons_of_mem _ hu)) rfl ?_
      intro n _
      rw [Graph.value, cell_update]
      split
      · next hn => rw [hn.1]; exact hs
      · rfl
    obtain ⟨g', hr, hfed⟩ := ih hfits
    refine ⟨g', Step.run_forM_cons_ok (run_setValue hp hs) hr,
      (Beside.update g _ _).trans hfed.beside, fun n hn => ?_⟩
    rw [hfed.cell n hn, Graph.value, hcell n hn]
    rfl

/-! ## Gradients -/

/-- The graphs differ in gradients of the vertices `order` only. -/
structure Swept (order : List Node) (g g' : Graph K E) : Prop where
  beside : g.Beside g'
  cell : ∀ n, ∃ m, g'.cell n = { g.cell n with grad := m }
  old : ∀ n, n ∉ order → g'.cell n = g.cell n

theorem Swept.refl (order : List Node) (g : Graph K E) : Swept order g g :=
  ⟨Beside.refl g, fun n => ⟨g.grad n, rfl⟩, fun _ _ => rfl⟩

theorem Swept.trans {order : List Node} {g g' g'' : Graph K E} (h : Swept order g g')
    (h' : Swept order g' g'') : Swept order g g'' := by
  refine ⟨h.beside.trans h'.beside, ?_, ?_⟩
  · intro n
    obtain ⟨m, hm⟩ := h.cell n
    obtain ⟨m', hm'⟩ := h'.cell n
    exact ⟨m', by rw [hm', hm]⟩
  · intro n hn
    rw [h'.old n hn, h.old n hn]

theorem Swept.update {order : List Node} {n : Node} (hn : n ∈ order) (g : Graph K E)
    (m : Matrix E) : Swept order g (g.update n fun c => { c with grad := m }) := by
  refine ⟨Beside.update g n _, ?_, ?_⟩
  · intro k
    rw [cell_update]
    split
    · next hk => exact ⟨m, by rw [hk.1]⟩
    · exact ⟨g.grad k, rfl⟩
  · intro k hk
    exact cell_update_of_ne g (fun hnk : n = k => hk (hnk ▸ hn)) _

theorem regraded_of_moves {order : List Node} {g g' : Graph K E}
    (h : ReflTransGen (Swept order) g g') : Swept order g g' := by
  induction h with
  | refl => exact Swept.refl order g
  | tail _ hm ih => exact ih.trans hm

section
variable [Arith E] {order : List Node} {g : Graph K E}

theorem leads_propagate {n : Node} (hn : ∀ c ∈ (g.op n).operands, c ∈ order) :
    (propagate n).Leads (Swept order) g := by
  refine .get_bind (.ofExcept_bind fun ps hps => .forM (fun p hp s => ?_) g)
  have hmem : p.1 ∈ (g.op n).operands := Op.map_fst_pushes hps ▸ List.mem_map_of_mem hp
  exact .get_bind (.ofExcept_bind fun m _ => .set (.single (.update (hn p.1 hmem) s m)))

/-- The way back through an order that has the operands of its vertices. -/
theorem leads_sweep {ns : List Node} (hns : ∀ n ∈ ns, ∀ c ∈ (g.op n).operands, c ∈ order) :
    (ns.forM propagate).Leads (Swept order) g := by
  refine .forM_of_kept (I := fun s => s.dag = g.dag) (fun s s' hm hs => hm.beside.dag.trans hs)
    (fun n hn s hs => leads_propagate ?_) rfl
  rw [op_of_dag hs]
  exact hns n hn

end

/-! ## Sums -/

section
variable [Arith E]

theorem run_collectOne (n : Node) (g : Graph K E) :
    (collectOne n : Step (Graph K E) Unit).run g =
      match (g.cell n).collect with
      | .ok c => .ok () (g.update n fun _ => c)
      | .error e => .error e g := by
  simp only [collectOne, EStateM.run_bind, EStateM.run_get]
  cases (g.cell n).collect <;> rfl

/-- Only the sum of a cell changes. -/
theorem eq_of_collect {c c' : Cell E} (h : c.collect = .ok c') :
    c' = { c with batchSum := c'.batchSum } := by
  obtain ⟨sum, -, h⟩ := bind_eq_ok.1 h
  cases h
  rfl

/-- The gradient is added to a sum of its shape. -/
theorem collect_eq {c : Cell E} (hs : c.batchSum.shape = c.grad.shape) :
    c.collect = do return { c with batchSum := ← c.batchSum.add c.grad } := by
  have hfalse : (c.batchSum.isEmpty && ! c.grad.isEmpty) = false := by
    rw [Matrix.isEmpty_congr hs, Bool.and_not_self]
  rw [Cell.collect, hfalse, if_neg (by simp)]

theorem add_of_collect {c c' : Cell E} (hs : c.batchSum.shape = c.grad.shape)
    (h : c.collect = .ok c') : c.batchSum.add c.grad = .ok c'.batchSum := by
  rw [collect_eq hs] at h
  obtain ⟨sum, hsum, h⟩ := bind_eq_ok.1 h
  cases h
  exact hsum

/-- **The gradients of vertices that had values are collected**, each of them once. -/
theorem Shaped.run_collecting {had : Node → Prop} {g : Graph K E} (h : Shaped had g)
    {order : List Node} (hnodup : order.Nodup) (ho : ∀ n ∈ order, had n) :
    ∃ g', (collect order : Step (Graph K E) Unit).run g = .ok () g' ∧
      Replaced (fun n => n) (fun _ => Cell.collect) order g g' := by
  refine run_replacing (fun n => n) collectOne (fun n _ s _ _ => run_collectOne n s)
    (by rwa [List.map_id']) fun n hn => ?_
  have hfull := (h.vertex n (ho n hn)).full
  have hs := hfull.batchSum.trans hfull.grad.symm
  obtain ⟨sum, hsum, -⟩ := Matrix.exists_zipWith (o := "add_assign") (f := (· + ·)) hs
  have hadd : (g.cell n).batchSum.add (g.cell n).grad = .ok sum := hsum
  exact ⟨{ g.cell n with batchSum := sum }, by rw [collect_eq hs, hadd]; rfl⟩

end

/-! ## Roots that can be learned -/

/-- What is below the root can be evaluated, and stores what has the right shapes. -/
structure Learnable [Scalar K] (g : Graph K E) (root : Node) : Prop where
  lt : root < g.size
  shaped : ∃ ever, Shaped (Had ever g) g
  evaluable : g.Evaluable root

/-- The graph is left by calls on a new graph that merge sums of isomorphic orders only. -/
def FairlyReached [Scalar K] [Arith E] [Laned K E] (g : Graph K E) : Prop :=
  ∃ tag noise cs, Call.FairRun cs (.empty tag noise) ∧ g = Call.runs cs (.empty tag noise)

section
variable [Scalar K] [Arith E] [Laned K E] {g g' : Graph K E} {root n : Node} {x : Example E}

theorem FairlyReached.shaped (h : g.FairlyReached) : ∃ ever, Shaped (Had ever g) g := by
  obtain ⟨tag, noise, cs, hcs, rfl⟩ := h
  have hg := Call.runs_shaped cs hcs (shaped_empty tag noise)
  refine ⟨Call.HadValue cs (.empty tag noise), ?_⟩
  have hhad : Had (Call.HadValue cs (.empty tag noise)) (Call.runs cs (.empty tag noise)) =
      fun n => False ∨ Call.HadValue cs (.empty tag noise) n := by
    funext n
    refine propext ⟨?_, ?_⟩
    · rintro (hn | ⟨hlt, hv⟩)
      · exact .inr hn
      · exact .inr (Call.hadValue_of_runs hlt hv)
    · rintro (hn | hn)
      · exact hn.elim
      · exact .inl hn
  rw [hhad]
  exact hg

/-- **A root that can be evaluated after a reset can be learned.** -/
theorem FairlyReached.learnable (h : g.FairlyReached) (hroot : root < g.size)
    (he : (evaluate root).answer ((reset (g.order root)).final g) = .ok ()) :
    g.Learnable root := by
  obtain ⟨ever, hs⟩ := h.shaped
  exact ⟨hroot, ⟨ever, hs⟩, (hs.evaluable_iff hroot).2 he⟩

/-- A move somewhere in the graph leaves a root that can be learned. -/
theorem Learnable.of_edits {g' : Graph K E} {targets : List Node} (h : g.Learnable root)
    (he : Edits targets g g') (hs : ∃ ever, Shaped (Had ever g') g') : g'.Learnable root :=
  ⟨h.lt.trans_le he.extends.size, hs, h.evaluable.of_edits he h.lt⟩

/-- **A fair call leaves a root that can be learned.** -/
theorem Learnable.call (h : g.Learnable root) (c : Call K E) (hc : c.Fair g) :
    (c.run.final g).Learnable root := by
  obtain ⟨ever, hs⟩ := h.shaped
  exact h.of_edits (c.leads g) ⟨_, c.shaped hc hs⟩

/-- The stages of a reverse pass for one example: its values are written (`g₁`), what is
below the root is reset (`g₂`) and evaluated (`g₃`), and then only gradients change. -/
structure Passed (g g₁ g₂ g₃ g' : Graph K E) (root : Node) (x : Example E) : Prop where
  fed : Fed g g₁ x
  cleared : Cleared g₁ g₂ (g.order root)
  evaluated : Evaluated g₂ g₃ (g₂.missing root)
  turns : Turns [] g₂ g₃
  swept : (do seed root; (g.order root).reverse.forM propagate : Step (Graph K E) Unit).run g₃ =
    .ok () g'
  regraded : Swept (g.order root) g₃ g'

theorem leads_feed (x : Example E) (g : Graph K E) :
    (feed x : Step (Graph K E) Unit).Leads (Turn (x.map Prod.fst)) g :=
  .forM (fun _ hw _ => turns_setValue (List.mem_map_of_mem hw) _) g

omit [Scalar K] [Laned K E] in
theorem regraded_of_sweep (hroot : root < g.size)
    (hr : (do seed root; (g.order root).reverse.forM propagate : Step (Graph K E) Unit).run g =
      .ok () g') : Swept (g.order root) g g' := by
  have hmem : root ∈ g.order root := (mem_order hroot).2 (Dag.Below.refl _ _)
  have hseed : Swept (g.order root) g
      (g.update root fun c => { c with grad := c.value.fill 1 }) := by
    have hself : (g.update root fun c => { c with grad := c.value.fill 1 }) =
        g.update root fun c => { c with grad := (g.value root).fill 1 } := update_congr g rfl
    rw [hself]
    exact Swept.update hmem g _
  have hsweep : ((g.order root).reverse.forM propagate).Leads (Swept (g.order root))
      (g.update root fun c => { c with grad := c.value.fill 1 }) := by
    refine leads_sweep fun n hn c hc => ?_
    rw [List.mem_reverse, mem_order hroot] at hn
    exact (mem_order hroot).2 (hn.operand hc)
  have hrun : ((g.order root).reverse.forM propagate : Step (Graph K E) Unit).run
      (g.update root fun c => { c with grad := c.value.fill 1 }) = .ok () g' := hr
  exact hseed.trans (regraded_of_moves (hsweep.moves hrun))

/-- **An example that fits has a reverse pass**, and what is below the root has values
after it. -/
theorem Learnable.run_pass (h : g.Learnable root) (hx : x.Fits g) :
    ∃ g₁ g₂ g₃ g', (pass root (g.order root) x).run g = .ok () g' ∧
      Passed g g₁ g₂ g₃ g' root x ∧ g'.Learnable root ∧
      ∃ ever, Shaped (Had ever g') g' ∧ ∀ n ∈ g.order root, Had ever g' n := by
  obtain ⟨ever, hs⟩ := h.shaped
  obtain ⟨g₁, hr₁, hfed⟩ := run_feed hx
  have ht₁ : Turns (x.map Prod.fst) g g₁ := (leads_feed (K := K) x g).moves hr₁
  have hroot₁ : root < g₁.size := h.lt.trans_eq (size_of_dag hfed.beside.dag).symm
  obtain ⟨g₂, hr₂, hc⟩ := reset_run g₁ (g.order root)
  have he₂ : Edits [] g₁ g₂ := (leads_reset _).moves hr₂
  have hroot₂ : root < g₂.size := hroot₁.trans_eq (size_of_dag hc.dag).symm
  have hs₂ := (ht₁.shaped hs).cleared hc
  have hev₂ : g₂.Evaluable root := (h.evaluable.of_edits ht₁.edits h.lt).of_edits he₂ hroot₁
  obtain ⟨g₃, hr₃, hev, ht₃⟩ := hs₂.run_evaluate hroot₂ hev₂
  obtain ⟨g', hr', hhad⟩ := hs₂.run_reversePass hr₃
  have horder : g₂.order root = g.order root :=
    (order_of_dag hc.dag root).trans (order_of_dag hfed.beside.dag root)
  have horder₃ : g₃.order root = g.order root := (order_of_dag hev.dag root).trans horder
  have hroot₃ : root < g₃.size := hroot₂.trans_eq (size_of_dag hev.dag).symm
  have hswept := (Graph.run_reversePass hr₃).symm.trans hr'
  rw [horder, ← horder₃] at hswept
  have ht' : Turns [] g₂ g' := by
    have hrun : (reverseAlong root (g₂.order root)).run g₂ = .ok () g' := hr'
    exact (turns_reverseAlong _ _).moves hrun
  refine ⟨g₁, g₂, g₃, g', ?_, ⟨hfed, hc, hev, ht₃, ?_, ?_⟩, ⟨?_, ⟨_, ht'.shaped hs₂⟩, ?_⟩, _,
    ht'.shaped hs₂, ?_⟩
  · have hpass : (reverseAlong root (g.order root)).run g₂ = .ok () g' := by
      rw [← horder]
      exact hr'
    simp only [pass, EStateM.run_bind, hr₁, hr₂]
    exact hpass
  · rwa [horder₃] at hswept
  · rw [← horder₃]
    exact regraded_of_sweep hroot₃ hswept
  · exact hroot₂.trans_le ht'.edits.extends.size
  · exact hev₂.of_edits ht'.edits hroot₂
  · rw [← horder]
    exact hhad

namespace Passed

variable {g₁ g₂ g₃ : Graph K E}

theorem dag (h : Passed g g₁ g₂ g₃ g' root x) : g'.dag = g.dag := by
  rw [h.regraded.beside.dag, h.evaluated.dag, h.cleared.dag, h.fed.beside.dag]

theorem noise (h : Passed g g₁ g₂ g₃ g' root x) : g'.noise = g.noise := by
  rw [h.regraded.beside.noise, h.evaluated.noise, h.cleared.noise, h.fed.beside.noise]

/-- A vertex that is not below the root is written to at most. -/
theorem cell_of_not_below (h : Passed g g₁ g₂ g₃ g' root x) (hroot : root < g.size)
    (hn : n < g.size) (hb : ¬ g.dag.Below root n) : g'.cell n = g₁.cell n := by
  have hmem : n ∉ g.order root := fun hm => hb ((Graph.mem_order hroot).1 hm)
  have hn₁ : n < g₁.size := hn.trans_eq (size_of_dag h.fed.beside.dag).symm
  have hdag : g₂.dag = g.dag := h.cleared.dag.trans h.fed.beside.dag
  have hroot₂ : root < g₂.size := hroot.trans_eq (size_of_dag hdag).symm
  have hmiss : n ∉ g₂.missing root := by
    intro hm
    have hb' := below_of_mem_missing hroot₂ hm
    rw [hdag] at hb'
    exact hb hb'
  rw [h.regraded.old n hmem, h.evaluated.old n hmiss, h.cleared.cell n hn₁, if_neg hmem]

/-- A parameter is written to, and its gradient changes. -/
theorem cell_parameter (h : Passed g g₁ g₂ g₃ g' root x) (hn : n < g.size)
    (hp : g.isParameter n = true) : ∃ m, g'.cell n = { g₁.cell n with grad := m } := by
  have hn₁ : n < g₁.size := hn.trans_eq (size_of_dag h.fed.beside.dag).symm
  have hp₁ : g₁.isParameter n = true := (isParameter_of_dag h.fed.beside.dag n).trans hp
  have hp₂ : g₂.isParameter n = true := (isParameter_of_dag h.cleared.dag n).trans hp₁
  obtain ⟨m, hm⟩ := h.regraded.cell n
  refine ⟨m, ?_⟩
  rw [hm, h.evaluated.cell_of_hasValue (List.append_nil _).symm (hasValue_of_isParameter hp₂),
    h.cleared.cell n hn₁, clearedCell, if_pos hp₁]
  split <;> rfl

end Passed

/-- The graph after an example was learned: the gradients of its pass `p` were added to
the sums. -/
structure Learned (g p g' : Graph K E) (root : Node) (x : Example E) : Prop where
  passed : ∃ g₁ g₂ g₃, Passed g g₁ g₂ g₃ p root x
  fits : ∀ n, g.dag.Below root n → (p.cell n).batchSum.shape = (p.cell n).grad.shape
  added : Replaced (fun n => n) (fun _ => Cell.collect) (g.order root) p g'

/-- **An example that fits can be learned.** -/
theorem Learnable.run_learn (h : g.Learnable root) (hx : x.Fits g) :
    ∃ p g', (pass root (g.order root) x).run g = .ok () p ∧
      (learn root (g.order root) x).run g = .ok () g' ∧ Learned g p g' root x ∧
      g'.Learnable root := by
  obtain ⟨g₁, g₂, g₃, p, hr, hpass, hp, ever, hs, hhad⟩ := h.run_pass hx
  obtain ⟨g', hr', hadded⟩ := hs.run_collecting (Dag.nodup_traverse root) hhad
  have hlearn : (learn root (g.order root) x).run g = .ok () g' := by
    rw [learn, EStateM.run_bind, hr]
    exact hr'
  refine ⟨p, g', hr, hlearn, ⟨⟨g₁, g₂, g₃, hpass⟩, fun n hn => ?_, hadded⟩, ?_⟩
  · have hfull := (hs.vertex n (hhad n ((Graph.mem_order h.lt).2 hn))).full
    exact hfull.batchSum.trans hfull.grad.symm
  · have hcall := hp.call (.collect (g.order root)) trivial
    have hfinal : (Call.run (.collect (g.order root)) : Step (Graph K E) Unit).final p = g' :=
      Step.final_of_run_ok hr'
    rwa [hfinal] at hcall

namespace Learned

variable {p : Graph K E}

theorem dag (h : Learned g p g' root x) : g'.dag = g.dag := by
  obtain ⟨g₁, g₂, g₃, hp⟩ := h.passed
  rw [h.added.beside.dag, hp.dag]

theorem noise (h : Learned g p g' root x) : g'.noise = g.noise := by
  obtain ⟨g₁, g₂, g₃, hp⟩ := h.passed
  rw [h.added.beside.noise, hp.noise]

/-- A vertex that is not below the root is written to at most. -/
theorem cell_of_not_below (h : Learned g p g' root x) (hroot : root < g.size) (hn : n < g.size)
    (hb : ¬ g.dag.Below root n) :
    g'.cell n = { g.cell n with value := x.written n (g.value n) } := by
  obtain ⟨g₁, g₂, g₃, hp⟩ := h.passed
  have hmem : n ∉ (g.order root).map (fun n => n) := by
    rw [List.map_id']
    exact fun hm => hb ((Graph.mem_order hroot).1 hm)
  rw [h.added.old n hmem, hp.cell_of_not_below hroot hn hb, hp.fed.cell n hn]

/-- **To the sum of a parameter its gradient is added.**  Nothing else of it changes but
the value that the example gives it. -/
theorem cell_parameter (h : Learned g p g' root x) (hroot : root < g.size)
    (hb : g.dag.Below root n) (hp : g.isParameter n = true) :
    ∃ sum, (g.cell n).batchSum.add (p.grad n) = .ok sum ∧
      g'.cell n = { g.cell n with
        value := x.written n (g.value n), grad := p.grad n, batchSum := sum } := by
  obtain ⟨g₁, g₂, g₃, hpass⟩ := h.passed
  have hn : n < g.size := hb.le.trans_lt hroot
  obtain ⟨m, hm⟩ := hpass.cell_parameter hn hp
  rw [hpass.fed.cell n hn] at hm
  have hcollect : (p.cell n).collect = .ok (g'.cell n) :=
    h.added.new n ((Graph.mem_order hroot).2 hb) (hn.trans_eq (size_of_dag hpass.dag).symm)
  have hadd := add_of_collect (h.fits n hb) hcollect
  have hgrad : p.grad n = m := by rw [Graph.grad, hm]
  refine ⟨(g'.cell n).batchSum, ?_, ?_⟩
  · rw [hm] at hadd
    rw [hgrad]
    exact hadd
  · rw [eq_of_collect hcollect, hm, hgrad]

theorem value_parameter (h : Learned g p g' root x) (hn : n < g.size)
    (hp : g.isParameter n = true) : g'.value n = x.written n (g.value n) := by
  obtain ⟨g₁, g₂, g₃, hpass⟩ := h.passed
  obtain ⟨m, hm⟩ := hpass.cell_parameter hn hp
  have hvalue : p.value n = x.written n (g.value n) := by
    rw [Graph.value, hm, hpass.fed.cell n hn]
  rw [← hvalue, Graph.value, Graph.value]
  by_cases hmem : n ∈ g.order root
  · have hcollect : (p.cell n).collect = .ok (g'.cell n) :=
      h.added.new n hmem (hn.trans_eq (size_of_dag hpass.dag).symm)
    rw [eq_of_collect hcollect]
  · rw [h.added.old n (by rwa [List.map_id'])]

/-- Every parameter keeps its shape. -/
theorem shape_parameter (h : Learned g p g' root x) (hx : x.Fits g) (hp : g.isParameter n = true) :
    (g'.value n).shape = (g.value n).shape := by
  by_cases hn : n < g.size
  · rw [h.value_parameter hn hp]
    exact hx.shape_written n
  · have hn' : g'.size ≤ n := by
      rw [size_of_dag h.dag]
      exact not_lt.1 hn
    rw [Graph.value, Graph.value, cell_of_size_le g' hn', cell_of_size_le g (not_lt.1 hn)]

/-- An example that fitted before still fits. -/
theorem fits_of_fits (h : Learned g p g' root x) (hx : x.Fits g) {y : Example E} (hy : y.Fits g) :
    y.Fits g' :=
  hy.of_shapes h.dag fun _ hp => h.shape_parameter hx hp

end Learned

end

end Graph

end DiffGraph
