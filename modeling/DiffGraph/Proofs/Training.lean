/-
  Momentum over whole training runs.

  A batch is a list of examples and a configuration.  Its examples are learned one after
  another, a step of the optimizer moves the parameters, and a new batch begins
  (`Sgd.train`).

  * `Taught`: what learning some examples does to the sums of a parameter;
  * `Sgd.Ready`: what holds of the parameters before every batch (`Ready.run_batch`,
    `Ready.run_train`);
  * `Sgd.momentum_of_train`: in every batch of every run the sums are those of this batch
    and of the one before, and the step is the one that momentum asks for.
-/
import DiffGraph.Proofs.Learning
import DiffGraph.Proofs.Sums

namespace DiffGraph

variable {K E : Type} [Scalar K] [Arith E] [Laned K E]

namespace Graph

/-- The gradients of a vertex, for one example after another. -/
def exampleGrads (root : Node) (order : List Node) (n : Node) :
    List (Example E) → Graph K E → List (Matrix E)
  | [], _ => []
  | x :: xs, g =>
    ((pass root order x).final g).grad n ::
      exampleGrads root order n xs ((learn root order x).final g)

section
variable {g g' : Graph K E} {root n : Node}

/-- The graph after some examples were learned. -/
structure Taught (g g' : Graph K E) (root : Node) (xs : List (Example E)) : Prop where
  dag : g'.dag = g.dag
  learnable : g'.Learnable root
  shape : ∀ n, g.isParameter n = true → (g'.value n).shape = (g.value n).shape
  /-- the gradients of the examples are added one after another -/
  sum : ∀ n, g.dag.Below root n → g.isParameter n = true →
    (exampleGrads root (g.order root) n xs g).foldlM Matrix.add (g.cell n).batchSum =
      .ok (g'.cell n).batchSum
  last : ∀ n, g.dag.Below root n → g.isParameter n = true →
    (g'.cell n).lastSum = (g.cell n).lastSum

/-- **Examples that fit are learned**, one after another. -/
theorem Learnable.run_examples {xs : List (Example E)} (h : g.Learnable root)
    (hxs : ∀ x ∈ xs, x.Fits g) :
    ∃ g', (xs.forM (learn root (g.order root))).run g = .ok () g' ∧ Taught g g' root xs := by
  induction xs generalizing g with
  | nil => exact ⟨g, rfl, rfl, h, fun _ _ => rfl, fun _ _ _ => rfl, fun _ _ _ => rfl⟩
  | cons x xs ih =>
    have hx : x.Fits g := hxs x List.mem_cons_self
    obtain ⟨p, g₁, hp, hr, hlearned, h₁⟩ := h.run_learn hx
    have horder : g₁.order root = g.order root := order_of_dag hlearned.dag root
    have hparameter : ∀ n, g.isParameter n = true → g₁.isParameter n = true := fun n hpn =>
      (isParameter_of_dag hlearned.dag n).trans hpn
    have hbelow : ∀ n, g.dag.Below root n → g₁.dag.Below root n := fun n hb =>
      hlearned.dag.symm ▸ hb
    obtain ⟨g', hr', ht⟩ := ih h₁ fun y hy =>
      hlearned.fits_of_fits hx (hxs y (List.mem_cons_of_mem _ hy))
    rw [horder] at hr'
    refine ⟨g', Step.run_forM_cons_ok hr hr', ht.dag.trans hlearned.dag, ht.learnable,
      ?_, ?_, ?_⟩
    · intro n hpn
      rw [ht.shape n (hparameter n hpn)]
      exact hlearned.shape_parameter hx hpn
    · intro n hb hpn
      obtain ⟨sum, hadd, hcell⟩ := hlearned.cell_parameter h.lt hb hpn
      have hrest := ht.sum n (hbelow n hb) (hparameter n hpn)
      rw [horder, hcell] at hrest
      rw [exampleGrads, List.foldlM_cons, Step.final_of_run_ok hp, Step.final_of_run_ok hr, hadd]
      exact hrest
    · intro n hb hpn
      obtain ⟨sum, -, hcell⟩ := hlearned.cell_parameter h.lt hb hpn
      rw [ht.last n (hbelow n hb) (hparameter n hpn), hcell]

end

end Graph

namespace Sgd

/-- The examples of a batch, and the configuration of the step that ends it. -/
structure Batch (K E : Type) where
  examples : List (Example E)
  config : Config K

/-- Learns the examples of a batch, moves the parameters, and begins a new batch. -/
def batch (root : Node) (order : List Node) (o : Sgd K) (b : Batch K E) :
    Step (Graph K E) (Sgd K) := do
  b.examples.forM (Graph.learn root order)
  let o ← step { o with config := b.config }
  o.endBatch
  return o

/-- One batch after another. -/
def train (root : Node) (order : List Node) (o : Sgd K) (bs : List (Batch K E)) :
    Step (Graph K E) (Sgd K) :=
  bs.foldlM (batch root order) o

/-! ## A step -/

/-- The cell of a parameter after a step. -/
def moved (config : Config K) (c : Cell E) : Except Failure (Cell E) :=
  if c.batchSum.isEmpty then .ok c else do return { c with value := ← next config c }

section
variable {g g' : Graph K E} {root n : Node} {o : Sgd K}

theorem run_move (config : Config K) (n : Node) (g : Graph K E) :
    (move config n).run g =
      match moved config (g.cell n) with
      | .ok c => .ok () (g.update n fun _ => c)
      | .error e => .error e g := by
  unfold moved
  cases hempty : (g.cell n).batchSum.isEmpty with
  | true =>
    rw [if_pos rfl]
    simp only [move, EStateM.run_bind, EStateM.run_get, hempty, Graph.update_cell]
    rfl
  | false =>
    rw [if_neg (by simp)]
    simp only [move, EStateM.run_bind, EStateM.run_get, hempty]
    cases hnext : next config (g.cell n) with
    | error e => rfl
    | ok v =>
      have hself : (g.update n fun c => { c with value := v }) =
          g.update n fun _ => { g.cell n with value := v } := Graph.update_congr g rfl
      show EStateM.Result.ok () _ = EStateM.Result.ok () _
      rw [hself]

/-- The sums of a cell give every entry of its value its change. -/
theorem entry_next {config : Config K} {c : Cell E} {v : Matrix E} (h : next config c = .ok v) :
    v.shape = c.value.shape ∧ ∀ i < v.rows, ∀ j < v.cols, v.entry i j = c.value.entry i j -
      Laned.splat (config.rate / (config.batchSize : K)) *
        (Laned.splat config.momentum * c.batchSum.entry i j + c.lastSum.entry i j) := by
  obtain ⟨change, hchange, hv⟩ := bind_eq_ok.1 h
  have hs := Matrix.shape_eq_of_zipWith hchange
  have hs' := Matrix.shape_eq_of_zipWith hv
  have hshape := Matrix.shape_of_zipWith hv
  have hcs := Matrix.shape_of_zipWith hchange
  refine ⟨hshape, fun i hi j hj => ?_⟩
  have hi' : i < c.value.rows := hi.trans_eq (congrArg Prod.fst hshape)
  have hj' : j < c.value.cols := hj.trans_eq (congrArg Prod.snd hshape)
  have hic : i < c.batchSum.rows := hi'.trans_eq (congrArg Prod.fst (hs'.trans hcs))
  have hjc : j < c.batchSum.cols := hj'.trans_eq (congrArg Prod.snd (hs'.trans hcs))
  rw [Matrix.zipWith_eq hs] at hchange
  rw [Matrix.zipWith_eq hs'] at hv
  cases hv
  cases hchange
  rw [Matrix.entry_ofFn hi' hj', Matrix.entry_ofFn hic hjc]

theorem exists_moved (config : Config K) {c : Cell E} {s : Shape} (h : c.Full s) :
    ∃ c', moved config c = .ok c' := by
  unfold moved
  split
  · exact ⟨c, rfl⟩
  · obtain ⟨change, hchange, hs⟩ := Matrix.exists_zipWith (o := "sgd momentum")
      (f := fun a p => (Laned.splat config.momentum : E) * a + p)
      (h.batchSum.trans h.lastSum.symm)
    obtain ⟨v, hv, -⟩ := Matrix.exists_zipWith (o := "sgd step")
      (f := fun v u => v - (Laned.splat (config.rate / (config.batchSize : K)) : E) * u)
      (h.value.trans (hs.trans h.batchSum).symm)
    have hnext : next config c = .ok v := by
      rw [next, hchange]
      exact hv
    rw [hnext]
    exact ⟨_, rfl⟩

/-- **A step over parameters succeeds**, and moves each of them once. -/
theorem run_step (h : g.Learnable root) (ho : o.params.Nodup)
    (hp : ∀ n ∈ o.params, n < g.size ∧ g.isParameter n = true) :
    ∃ g', (step o).run g = .ok { o with steps := o.steps + 1 } g' ∧
      Graph.Replaced (fun n => n) (fun _ => moved o.config) o.params g g' ∧ g'.Learnable root := by
  obtain ⟨ever, hs⟩ := h.shaped
  obtain ⟨g', hr, hmoved⟩ := Graph.run_replacing (fun n => n) (g := g) (move o.config)
    (f := fun _ => moved (E := E) o.config) (l := o.params)
    (fun n _ s _ _ => run_move o.config n s) (by rwa [List.map_id']) fun n hn =>
      exists_moved o.config (hs.vertex n (.inr ⟨(hp n hn).1,
        Graph.hasValue_of_isParameter (hp n hn).2⟩)).full
  have hturns : (o.params.forM (move o.config) : Step (Graph K E) Unit).Leads
      (Graph.Turn o.params) g := by
    refine .mono (fun _ _ h => h.1) (.forM_of_kept (I := fun s => s.dag = g.dag)
      (fun _ _ h hs => h.2.trans hs) (fun n hn s hs => Graph.turns_move hn ?_) rfl)
    exact (Graph.isParameter_of_dag hs n).trans (hp n hn).2
  have ht : Graph.Turns o.params g g' := hturns.moves hr
  refine ⟨g', ?_, hmoved, ?_⟩
  · rw [step, EStateM.run_bind, hr]
    rfl
  · exact h.of_edits ht.edits ⟨_, ht.shaped hs⟩

/-! ## A batch -/

/-- What holds of the parameters before a batch: they are below the root, have entries, and
nothing was added to their sums. -/
structure Ready (params : List Node) (g : Graph K E) (root : Node) : Prop where
  learnable : g.Learnable root
  nodup : params.Nodup
  below : ∀ n ∈ params, g.dag.Below root n
  parameter : ∀ n ∈ params, g.isParameter n = true
  nonempty : ∀ n ∈ params, (g.value n).isEmpty = false
  sum : ∀ n ∈ params, (g.cell n).batchSum = .zeros (g.value n).rows (g.value n).cols

variable {params : List Node}

omit [Laned K E] in
theorem Ready.sum_nonempty (h : Ready params g root) (hn : n ∈ params) :
    (g.cell n).batchSum.isEmpty = false := by
  have hshape : (g.cell n).batchSum.shape = (g.value n).shape := by
    rw [h.sum n hn]
    rfl
  rw [Matrix.isEmpty_congr hshape]
  exact h.nonempty n hn

/-- **A batch is learned**: its examples (`g₂`), the step (`g₃`), and the beginning of a
new batch (`g'`). -/
structure Trained (params : List Node) (config : Config K) (g g₂ g₃ g' : Graph K E) (root : Node)
    (xs : List (Example E)) : Prop where
  taught : Graph.Taught g g₂ root xs
  stepped : Graph.Replaced (fun n => n) (fun _ => moved config) params g₂ g₃
  beside : g₃.Beside g'
  cell : ∀ n, g'.cell n =
    if n ∈ params ∧ n < g₃.size then (g₃.cell n).endBatch.clearGrad else g₃.cell n

theorem Ready.run_batch (h : Ready o.params g root) {b : Batch K E}
    (hb : ∀ x ∈ b.examples, x.Fits g) :
    ∃ g₂ g₃ g', (b.examples.forM (Graph.learn root (g.order root))).run g = .ok () g₂ ∧
      (step { o with config := b.config }).run g₂ =
        .ok { o with config := b.config, steps := o.steps + 1 } g₃ ∧
      (endBatch o).run g₃ = .ok () g' ∧
      (batch root (g.order root) o b).run g =
        .ok { o with config := b.config, steps := o.steps + 1 } g' ∧
      Trained o.params b.config g g₂ g₃ g' root b.examples ∧ g'.Learnable root := by
  obtain ⟨g₂, hr₂, ht⟩ := h.learnable.run_examples hb
  obtain ⟨g₃, hr₃, hmoved, h₃⟩ := run_step (o := { o with config := b.config }) ht.learnable h.nodup
    fun n hn => ⟨(h.below n hn).le.trans_lt (h.learnable.lt.trans_eq
      (Graph.size_of_dag ht.dag).symm),
      (Graph.isParameter_of_dag ht.dag n).trans (h.parameter n hn)⟩
  refine ⟨g₂, g₃, _, hr₂, hr₃, rfl, ?_, ⟨ht, hmoved, ?_, ?_⟩, ?_⟩
  · rw [batch, EStateM.run_bind, hr₂]
    show ((step { o with config := b.config } >>= fun o => do o.endBatch; return o) :
      Step (Graph K E) (Sgd K)).run g₂ = _
    rw [EStateM.run_bind, hr₃]
    rfl
  · exact Graph.beside_foldl_update o.params _ g₃
  · exact Graph.cell_foldl_update h.nodup _ g₃
  · exact h₃.call (.sgdEndBatch o) trivial

/-- The value of a parameter that has a sum follows from its sums. -/
theorem cell_of_moved {config : Config K} {c c' : Cell E} (h : moved config c = .ok c')
    (hc : c.batchSum.isEmpty = false) :
    next config c = .ok c'.value ∧ c' = { c with value := c'.value } := by
  rw [moved, if_neg (by simp [hc])] at h
  obtain ⟨v, hv, h⟩ := bind_eq_ok.1 h
  cases h
  exact ⟨hv, rfl⟩

namespace Trained

variable {config : Config K} {g₂ g₃ : Graph K E} {xs : List (Example E)}

theorem dag (h : Trained params config g g₂ g₃ g' root xs) : g'.dag = g.dag := by
  rw [h.beside.dag, h.stepped.beside.dag, h.taught.dag]

theorem sum_nonempty (h : Trained params config g g₂ g₃ g' root xs) (hr : Ready params g root)
    (hn : n ∈ params) : (g₂.cell n).batchSum.isEmpty = false := by
  have hsum := h.taught.sum n (hr.below n hn) (hr.parameter n hn)
  rw [Matrix.isEmpty_congr (Matrix.shape_foldlM_add hsum)]
  exact hr.sum_nonempty hn

/-- The step moves a parameter, and changes nothing else of it. -/
theorem cell_moved (h : Trained params config g g₂ g₃ g' root xs) (hr : Ready params g root)
    (hn : n ∈ params) :
    next config (g₂.cell n) = .ok (g₃.value n) ∧
      g₃.cell n = { g₂.cell n with value := g₃.value n } := by
  have hlt : n < g₂.size := by
    rw [Graph.size_of_dag h.taught.dag]
    exact (hr.below n hn).le.trans_lt hr.learnable.lt
  exact cell_of_moved (h.stepped.new n hn hlt) (h.sum_nonempty hr hn)

theorem value (h : Trained params config g g₂ g₃ g' root xs) (n : Node) :
    g'.value n = g₃.value n := by
  rw [Graph.value, h.cell n]
  split <;> rfl

/-- The shapes of parameters stay the same. -/
theorem shape (h : Trained params config g g₂ g₃ g' root xs) (hr : Ready params g root)
    (hp : g.isParameter n = true) : (g'.value n).shape = (g.value n).shape := by
  have hshape := h.taught.shape n hp
  rw [h.value n, ← hshape]
  by_cases hn : n ∈ params
  · have hnext := entry_next (h.cell_moved hr hn).1
    exact hnext.1
  · rw [Graph.value, h.stepped.old n (by rwa [List.map_id'])]
    rfl

/-- **After a batch the parameters are ready for the next one**, and remember its sums. -/
theorem ready (h : Trained params config g g₂ g₃ g' root xs) (hr : Ready params g root)
    (hl : g'.Learnable root) :
    Ready params g' root ∧ ∀ n ∈ params, (g'.cell n).lastSum = (g₂.cell n).batchSum := by
  have hsize : g₃.size = g.size :=
    Graph.size_of_dag (h.stepped.beside.dag.trans h.taught.dag)
  have hcell : ∀ n ∈ params, g'.cell n = (g₃.cell n).endBatch.clearGrad := by
    intro n hn
    rw [h.cell n, if_pos ⟨hn, hsize ▸ (hr.below n hn).le.trans_lt hr.learnable.lt⟩]
  have hparameter : ∀ n ∈ params, g'.isParameter n = true := fun n hn =>
    (Graph.isParameter_of_dag h.dag n).trans (hr.parameter n hn)
  refine ⟨⟨hl, hr.nodup, ?_, hparameter, ?_, ?_⟩, ?_⟩
  · intro n hn
    rw [h.dag]
    exact hr.below n hn
  · intro n hn
    rw [Matrix.isEmpty_congr (h.shape hr (hr.parameter n hn))]
    exact hr.nonempty n hn
  · intro n hn
    have hsum : (g'.cell n).batchSum = (g₃.grad n).fill 0 := by
      rw [hcell n hn]
      rfl
    have hgrad : (g₃.grad n).shape = (g'.value n).shape := by
      obtain ⟨ever, hs⟩ := hl.shaped
      have hhad : Graph.Had ever g' n :=
        .inr ⟨(hr.below n hn).le.trans_lt (hr.learnable.lt.trans_eq
          (Graph.size_of_dag h.dag).symm), Graph.hasValue_of_isParameter (hparameter n hn)⟩
      have hfull := (hs.vertex n hhad).full
      have hgrad' : (g'.grad n).shape = (g₃.grad n).shape := by
        rw [Graph.grad, hcell n hn]
        rfl
      exact hgrad'.symm.trans (hfull.grad.trans hfull.value.symm)
    rw [hsum, Matrix.fill_zero_eq_zeros]
    exact congrArg₂ Matrix.zeros (congrArg Prod.fst hgrad) (congrArg Prod.snd hgrad)
  · intro n hn
    rw [hcell n hn, (h.cell_moved hr hn).2]
    rfl

end Trained

/-! ## A run -/

/-- **A training run succeeds**, and leaves everything ready for the next batch. -/
theorem Ready.run_train (h : Ready o.params g root) {bs : List (Batch K E)}
    (hbs : ∀ b ∈ bs, ∀ x ∈ b.examples, x.Fits g) :
    ∃ c g', (train root (g.order root) o bs).run g = .ok ⟨o.params, c, o.steps + bs.length⟩ g' ∧
      Ready o.params g' root ∧ g'.dag = g.dag ∧
      ∀ n, g.isParameter n = true → (g'.value n).shape = (g.value n).shape := by
  induction bs generalizing g o with
  | nil => exact ⟨o.config, g, rfl, h, rfl, fun _ _ => rfl⟩
  | cons b bs ih =>
    obtain ⟨g₂, g₃, g₁, -, -, -, hrun, ht, hl⟩ := h.run_batch (hbs b List.mem_cons_self)
    have horder : g₁.order root = g.order root := Graph.order_of_dag ht.dag root
    obtain ⟨c, g', hr', hready, hdag, hshape⟩ := ih (o := ⟨o.params, b.config, o.steps + 1⟩)
      (ht.ready h hl).1 fun b' hb' x hx => (hbs b' (List.mem_cons_of_mem _ hb') x hx).of_shapes
        ht.dag fun n hp => ht.shape h hp
    refine ⟨c, g', ?_, hready, hdag.trans ht.dag, fun n hp => ?_⟩
    · have hsteps : o.steps + 1 + bs.length = o.steps + (b :: bs).length := by
        rw [List.length_cons]
        omega
      rw [horder, hsteps] at hr'
      rw [train, List.foldlM_cons, EStateM.run_bind, hrun]
      exact hr'
    · rw [hshape n ((Graph.isParameter_of_dag ht.dag n).trans hp)]
      exact ht.shape h hp

/-- The graph before the step that ends the batch `b`, after the batches `bs`. -/
def beforeStep (root : Node) (order : List Node) (o : Sgd K) (bs : List (Batch K E))
    (b : Batch K E) (g : Graph K E) : Graph K E :=
  (b.examples.forM (Graph.learn root order)).final ((train root order o bs).final g)

/-- The batch `b` of a training run, after the batches `bs`: it begins in `g₁`, its step
leads from `g₂` to `g₃`, and it ends in `g₄`. -/
structure Stage (o : Sgd K) (g : Graph K E) (root : Node) (bs : List (Batch K E)) (b : Batch K E)
    (g₁ g₂ g₃ g₄ : Graph K E) : Prop where
  run : ∃ c, (train root (g.order root) o bs).run g = .ok ⟨o.params, c, o.steps + bs.length⟩ g₁
  examples : (b.examples.forM (Graph.learn root (g.order root))).run g₁ = .ok () g₂
  step : (step (⟨o.params, b.config, o.steps + bs.length⟩ : Sgd K)).run g₂ =
    .ok ⟨o.params, b.config, o.steps + bs.length + 1⟩ g₃
  endBatch : (endBatch o).run g₃ = .ok () g₄
  final : (train root (g.order root) o (bs ++ [b])).final g = g₄
  dag : g₁.dag = g.dag
  shape : ∀ n, g.isParameter n = true → (g₁.value n).shape = (g.value n).shape
  ready : Ready o.params g₁ root
  trained : Trained o.params b.config g₁ g₂ g₃ g₄ root b.examples
  learnable : g₄.Learnable root

/-- **Every batch of a training run has its turn.** -/
theorem Ready.exists_stage (h : Ready o.params g root) (bs : List (Batch K E)) (b : Batch K E)
    (hfits : ∀ b' ∈ b :: bs, ∀ x ∈ b'.examples, x.Fits g) :
    ∃ g₁ g₂ g₃ g₄, Stage o g root bs b g₁ g₂ g₃ g₄ := by
  obtain ⟨c, g₁, hr₁, hready, hdag, hshape⟩ := h.run_train fun b' hb' =>
    hfits b' (List.mem_cons_of_mem _ hb')
  have horder : g₁.order root = g.order root := Graph.order_of_dag hdag root
  obtain ⟨g₂, g₃, g₄, hr₂, hr₃, hr₄, hbatch, ht, hl⟩ :=
    Ready.run_batch (o := ⟨o.params, c, o.steps + bs.length⟩) hready (b := b) fun x hx =>
      (hfits b List.mem_cons_self x hx).of_shapes hdag hshape
  rw [horder] at hr₂ hbatch
  refine ⟨g₁, g₂, g₃, g₄, ⟨c, hr₁⟩, hr₂, hr₃, hr₄, ?_, hdag, hshape, hready, ht, hl⟩
  have hfold : (bs.foldlM (batch root (g.order root)) o).run g =
      .ok ⟨o.params, c, o.steps + bs.length⟩ g₁ := hr₁
  refine Step.final_of_run_ok (a := ⟨o.params, b.config, o.steps + bs.length + 1⟩) ?_
  rw [train, List.foldlM_append, EStateM.run_bind, hfold]
  simp only [List.foldlM_cons, List.foldlM_nil, bind_pure]
  exact hbatch

namespace Stage

variable {bs : List (Batch K E)} {b : Batch K E} {g₁ g₂ g₃ g₄ : Graph K E}

theorem final_train (h : Stage o g root bs b g₁ g₂ g₃ g₄) :
    (train root (g.order root) o bs).final g = g₁ := by
  obtain ⟨c, hc⟩ := h.run
  exact Step.final_of_run_ok hc

theorem beforeStep_eq (h : Stage o g root bs b g₁ g₂ g₃ g₄) :
    beforeStep root (g.order root) o bs b g = g₂ := by
  rw [beforeStep, h.final_train]
  exact Step.final_of_run_ok h.examples

variable (hn : n ∈ o.params)
include hn

/-- The sum of a parameter is that of its gradients in the batch. -/
theorem sum (h : Stage o g root bs b g₁ g₂ g₃ g₄) (hp : g.isParameter n = true) :
    (Graph.exampleGrads root (g.order root) n b.examples g₁).foldlM Matrix.add
      (.zeros (g.value n).rows (g.value n).cols) = .ok (g₂.cell n).batchSum := by
  have hsum := h.trained.taught.sum n (h.ready.below n hn) (h.ready.parameter n hn)
  obtain ⟨hrows, hcols⟩ := Prod.mk.inj (h.shape n hp)
  rw [h.ready.sum n hn, hrows, hcols, Graph.order_of_dag h.dag root] at hsum
  exact hsum

/-- The sum that is kept of a parameter is the one from before the batch. -/
theorem last (h : Stage o g root bs b g₁ g₂ g₃ g₄) : (g₂.cell n).lastSum = (g₁.cell n).lastSum :=
  h.trained.taught.last n (h.ready.below n hn) (h.ready.parameter n hn)

/-- The sum of a batch is kept through the next one. -/
theorem last_concat {s₁ s₂ s₃ s₄ : Graph K E} (h' : Stage o g root bs b s₁ s₂ s₃ s₄)
    {b' : Batch K E} (h : Stage o g root (bs ++ [b]) b' g₁ g₂ g₃ g₄) :
    (g₂.cell n).lastSum = (s₂.cell n).batchSum := by
  have hbegin : g₁ = s₄ := h.final_train.symm.trans h'.final
  rw [h.last hn, hbegin]
  exact (h'.trained.ready h'.ready h'.learnable).2 n hn

end Stage

/-- **Momentum over a training run.**  Let the parameters of an optimizer be distinct and
below a root that can be evaluated, with entries and with sums of zeros.  Consider the
step that ends the batch `b`, after any batches `bs`.  Every computation up to it succeeds.

* Before it, the sum of a parameter is that of its gradients in this batch, added to zero
  one after another, and the sum kept is the one of the batch before, or the one that was
  there before the first batch;
* it moves each parameter as these two sums say, counts itself, and changes nothing else;
* the beginning of a new batch changes no value. -/
theorem momentum_of_train (hg : g.FairlyReached) (hroot : root < g.size)
    (hloss : (Graph.evaluate root).answer ((Graph.reset (g.order root)).final g) = .ok ())
    (hnodup : o.params.Nodup)
    (hparams : ∀ n ∈ o.params, g.dag.Below root n ∧ g.isParameter n = true ∧
      (g.value n).isEmpty = false ∧
      (g.cell n).batchSum = .zeros (g.value n).rows (g.value n).cols)
    (bs : List (Batch K E)) (b : Batch K E)
    (hfits : ∀ b' ∈ b :: bs, ∀ x ∈ b'.examples, x.Fits g) :
    let order := g.order root
    let g₁ := (train root order o bs).final g
    let g₂ := beforeStep root order o bs b g
    let o₁ : Sgd K := ⟨o.params, b.config, o.steps + bs.length⟩
    let g₃ := (step o₁).final g₂
    (∃ c, (train root order o bs).answer g = .ok ⟨o.params, c, o.steps + bs.length⟩) ∧
    (b.examples.forM (Graph.learn root order)).answer g₁ = .ok () ∧
    (step o₁).answer g₂ = .ok { o₁ with steps := o₁.steps + 1 } ∧
    (∀ n ∈ o.params,
      (Graph.exampleGrads root order n b.examples g₁).foldlM Matrix.add
        (.zeros (g.value n).rows (g.value n).cols) = .ok (g₂.cell n).batchSum ∧
      (bs = [] → (g₂.cell n).lastSum = (g.cell n).lastSum) ∧
      (∀ bs' b', bs = bs' ++ [b'] →
        (g₂.cell n).lastSum = ((beforeStep root order o bs' b' g).cell n).batchSum) ∧
      g₃.cell n = { g₂.cell n with value := g₃.value n } ∧
      (g₃.value n).shape = (g₂.value n).shape ∧
      ∀ i < (g₃.value n).rows, ∀ j < (g₃.value n).cols, (g₃.value n).entry i j =
        (g₂.value n).entry i j - Laned.splat (b.config.rate / (b.config.batchSize : K)) *
          (Laned.splat b.config.momentum * (g₂.cell n).batchSum.entry i j +
            (g₂.cell n).lastSum.entry i j)) ∧
    (∀ n, n ∉ o.params → g₃.cell n = g₂.cell n) ∧ g₂.Beside g₃ ∧
    ∀ n, ((endBatch o₁).final g₃).value n = g₃.value n := by
  intro order g₁ g₂ o₁ g₃
  have hready : Ready o.params g root :=
    { learnable := hg.learnable hroot hloss
      nodup := hnodup
      below := fun n hn => (hparams n hn).1
      parameter := fun n hn => (hparams n hn).2.1
      nonempty := fun n hn => (hparams n hn).2.2.1
      sum := fun n hn => (hparams n hn).2.2.2 }
  obtain ⟨s₁, s₂, s₃, s₄, hs⟩ := hready.exists_stage _ _ hfits
  have hg₁ : g₁ = s₁ := hs.final_train
  have hg₂ : g₂ = s₂ := hs.beforeStep_eq
  have hg₃ : g₃ = s₃ := by
    show (step o₁).final g₂ = s₃
    rw [hg₂]
    exact Step.final_of_run_ok hs.step
  have hg₄ : (endBatch o₁).final g₃ = s₄ := by
    rw [hg₃]
    exact Step.final_of_run_ok hs.endBatch
  obtain ⟨c, hc⟩ := hs.run
  rw [hg₄, hg₃, hg₂, hg₁]
  refine ⟨⟨c, Step.answer_of_run_ok hc⟩, Step.answer_of_run_ok hs.examples,
    Step.answer_of_run_ok hs.step, ?_, fun n hn => hs.trained.stepped.old n (by rwa [List.map_id']),
    hs.trained.stepped.beside, hs.trained.value⟩
  intro n hn
  obtain ⟨hnext, hcell⟩ := hs.trained.cell_moved hs.ready hn
  obtain ⟨hshape, hentry⟩ := entry_next hnext
  refine ⟨hs.sum hn (hready.parameter n hn), ?_, ?_, hcell, hshape, hentry⟩
  · rintro rfl
    have hbegin : g = s₁ := (EStateM.Result.ok.inj hc).2
    rw [hs.last hn, hbegin]
  · rintro bs' b' rfl
    obtain ⟨t₁, t₂, t₃, t₄, ht⟩ := hready.exists_stage bs' b' fun b'' hb'' =>
      hfits b'' (by
        rcases List.mem_cons.1 hb'' with rfl | hb'' <;> simp [*])
    have hbefore : beforeStep root order o bs' b' g = t₂ := ht.beforeStep_eq
    rw [hbefore]
    exact ht.last_concat hn hs

end

/-- A weight times an input, over a batch of two examples and one of one. -/
theorem momentum_of_train_product :
    let g : Graph Float32 Float32 := Call.runs
      [.parameter (.scalar 2), .parameter (.scalar 3), .record (.mul 0 1)]
      (.empty 0 ⟨fun _ => 0, fun _ => 0⟩)
    let o : Sgd Float32 := ⟨[0], ⟨1, 1, 1⟩, 0⟩
    let b : Batch Float32 Float32 := ⟨[[(1, .scalar 5)], [(1, .scalar 7)]], ⟨1, 1, 2⟩⟩
    let b' : Batch Float32 Float32 := ⟨[[(1, .scalar 4)]], ⟨2, 1, 1⟩⟩
    let g₂ := beforeStep 2 (g.order 2) o [b] b' g
    (g₂.cell 0).lastSum = ((beforeStep 2 (g.order 2) o [] b g).cell 0).batchSum ∧
      (step (⟨[0], b'.config, 1⟩ : Sgd Float32)).answer g₂ = .ok ⟨[0], b'.config, 2⟩ := by
  intro g o b b' g₂
  have hg : g.FairlyReached := by
    refine ⟨0, ⟨fun _ => 0, fun _ => 0⟩, _, ?_, rfl⟩
    exact ⟨trivial, trivial, trivial, trivial⟩
  have hroot : 2 < g.size := by decide
  have hparameter : ∀ n < 2, g.isParameter n = true := by decide
  have hshape : ∀ n < 2, (g.value n).shape = (1, 1) := by decide
  have hop : g.op 2 = .mul 0 1 := rfl
  have hevaluable : g.Evaluable 2 := by
    intro n hn
    rcases Nat.lt_or_eq_of_le hn.le with hlt | rfl
    · exact Graph.evaluable_parameter (hparameter n hlt)
    · rw [hop]
      refine ⟨trivial, ?_⟩
      show (g.shapes 0).2 = (g.shapes 1).1
      rw [Graph.shapes_parameter (hparameter 0 (by decide)),
        Graph.shapes_parameter (hparameter 1 (by decide)), hshape 0 (by decide),
        hshape 1 (by decide)]
  obtain ⟨ever, hs⟩ := hg.shaped
  have hfits : ∀ c ∈ [b', b], ∀ x ∈ c.examples, x.Fits g := by
    have hinput : ∀ e : Float32, Example.Fits g [(1, .scalar e)] := by
      intro e w hw
      rw [List.mem_singleton] at hw
      subst hw
      exact ⟨rfl, rfl⟩
    simpa [b, b'] using ⟨hinput 4, hinput 5, hinput 7⟩
  obtain ⟨-, -, hstep, hsums, -⟩ := momentum_of_train (o := o) hg hroot
    ((hs.evaluable_iff hroot).1 hevaluable) (by decide) (List.forall_mem_singleton.2
      ⟨(Dag.Below.refl _ _).operand (by decide), rfl, rfl, rfl⟩) [b] b' hfits
  obtain ⟨-, -, hlast, -⟩ := hsums 0 (by decide)
  exact ⟨hlast [] b rfl, hstep⟩

end Sgd

end DiffGraph
