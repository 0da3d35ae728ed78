/-
  Workers that share a queue of examples.

  Each worker has a copy of a compiled program and a block of its own.  It takes examples
  from the queue in batches, and adds the gradients for each of them to those of its
  block, until the queue has no more.

  * `Crew.turn`: what a worker does in its turn.  Batches are taken from the queue one at a
    time, and the queue is all that workers share.  So what a worker does with an example
    is one turn, too;
  * `Crew.Reached`: what holds after any turns of the workers.  Every example is in the
    queue, in hand or learned, and just once (`Reached.run_turn`, `run_turns`);
  * `Crew.sums_of_turns`: when all have finished, their blocks sum up to the gradients for
    all examples.
-/
import Mathlib
import DiffGraph.Epoch
import DiffGraph.Proofs.Exact
import DiffGraph.Proofs.Rounds

namespace DiffGraph

variable {K S T : Type}

/-! ## Workers -/

/-- Computes on a part of a state. -/
def Step.zoom {σ τ α : Type} (part : σ → τ) (put : τ → σ → σ) (x : Step τ α) : Step σ α :=
  fun s =>
    match x.run (part s) with
    | .ok a t => .ok a (put t s)
    | .error e t => .error e (put t s)

theorem Step.run_zoom_ok {σ τ α : Type} {part : σ → τ} {put : τ → σ → σ} {x : Step τ α} {s : σ}
    {a : α} {t : τ} (h : x.run (part s) = .ok a t) :
    (zoom part put x).run s = .ok a (put t s) := by
  have hx : x (part s) = .ok a t := h
  rw [EStateM.run, zoom, EStateM.run, hx]

/-- What workers are given: a program with projections for the examples and for the
weights, and the examples themselves. -/
structure Job (K T : Type) where
  program : Program T
  input : Projection
  weights : Projection
  examples : Nat → Matrix K

/-- A worker with a copy of the program and a block of its own, the examples in its hands,
and whether it was told that there are no more. -/
structure Worker (K S T : Type) where
  program : Program T
  store : Graph K S
  block : Block
  batch : List Nat
  finished : Bool

/-- Workers and the queue that they share. -/
structure Crew (K S T : Type) (k : Nat) where
  queue : IndexQueue
  workers : Fin k → Worker K S T

section
variable [Scalar K] [Arith S] [Arith T] [Laned K S] [Laned K T]

/-- The gradients of the weights for an example, if the program learns nothing else. -/
def Job.grads (job : Job K T) (i : Nat) : Matrix S :=
  job.weights.gradients ((Program.learn job.input (job.examples i)).final job.program)

/-- A worker adds the gradients of its program to those of its block. -/
def Worker.gather (job : Job K T) : Step (Worker K S T) Unit := do
  let w ← get
  Step.zoom store (fun s w => { w with store := s }) (job.weights.addGrads w.program w.block)

/-- A worker learns an example. -/
def Worker.learn (job : Job K T) (i : Nat) : Step (Worker K S T) Unit := do
  Step.zoom program (fun p w => { w with program := p }) (Program.learn job.input (job.examples i))
  gather job

/-- Replaces a worker. -/
def Crew.set {k : Nat} (c : Crew K S T k) (j : Fin k) (w : Worker K S T) : Crew K S T k :=
  { c with workers := Function.update c.workers j w }

/-- The turn of a worker.  It learns the next example in its hands, or takes up to `n`
examples from the queue if it has none. -/
def Crew.turn {k : Nat} (job : Job K T) (j : Fin k) (n : Nat) : Step (Crew K S T k) Unit := do
  let w := (← get).workers j
  if w.finished then return
  match w.batch with
  | [] =>
    let batch ← Step.zoom queue (fun q c => { c with queue := q }) (IndexQueue.take n)
    modify (·.set j { w with batch := batch, finished := batch.isEmpty })
  | i :: rest =>
    Step.zoom (·.workers j) (fun w c => c.set j w) (Worker.learn job i)
    modify fun c => c.set j { c.workers j with batch := rest }

end

/-- A worker before its first turn: it has the program as it is, and a block of zeros. -/
structure Worker.Ready [Zero S] (w : Worker K S T) (p : Program T) (shape : Shape) : Prop where
  program : w.program = p
  block : ∃ own, (Block.zeros shape.1 shape.2).run own = .ok w.block w.store
  batch : w.batch = []
  unfinished : w.finished = false

/-! ## What a worker has learned -/

/-- The program has items, and both projections are projections onto it. -/
structure Job.Fits (job : Job K T) : Prop where
  size : job.program.size ≠ 0
  size_values : job.program.values.size = job.program.size
  input : job.program.fingerprint = job.input.fingerprint
  weights : job.program.fingerprint = job.weights.fingerprint

/-- The worker has learned the examples `done`: its block holds their gradients, and its
program has changed in nothing that counts. -/
structure Worker.Learned [Scalar K] [Arith S] [Arith T] [Laned K S] [Laned K T] (job : Job K T)
    (done : List Nat) (w : Worker K S T) : Prop where
  program : Program.Agrees job.program.code (job.input.Spares job.program.code) job.program
    w.program
  block : ∃ m, (done.map job.grads).foldlM Matrix.add
    (Matrix.zeros job.weights.slots.rows job.weights.slots.cols) = .ok m ∧ w.block.Gathers w.store m

section
variable [Scalar K] [Arith S] [Arith T] [Laned K S] [Laned K T] {job : Job K T}
  {w : Worker K S T} {done : List Nat} {i : Nat}

theorem Worker.Ready.learned (h : w.Ready job.program job.weights.slots.shape) :
    w.Learned job [] := by
  obtain ⟨own, hown⟩ := h.block
  obtain ⟨b, s, hrun, hgathers⟩ := Block.run_zeros job.weights.slots.rows job.weights.slots.cols own
  obtain ⟨rfl, rfl⟩ := EStateM.Result.ok.inj (hrun.symm.trans hown)
  exact ⟨h.program.symm ▸ ⟨rfl, rfl, rfl, rfl, rfl, fun _ _ => rfl⟩, _, rfl, hgathers⟩

/-- What the program gives for an example by itself. -/
theorem Job.Fits.grads_eq (h : job.Fits) (hx : (job.examples i).shape = job.input.slots.shape) :
    (job.grads i : Matrix S) =
      job.weights.gradients (Program.learned job.input (job.examples i) job.program) := by
  rw [Job.grads, Step.final_of_run_ok (Program.run_learn h.input hx h.size)]

theorem Worker.run_gather {s : Graph K S}
    (h : (job.weights.addGrads w.program w.block).run w.store = .ok () s) :
    (gather job).run w = .ok () { w with store := s } := by
  rw [gather, EStateM.run_bind, EStateM.run_get]
  exact Step.run_zoom_ok h

theorem Worker.run_learn {p : Program T} {s : Graph K S}
    (hp : (Program.learn job.input (job.examples i)).run w.program = .ok () p)
    (hs : (job.weights.addGrads p w.block).run w.store = .ok () s) :
    (Worker.learn job i).run w = .ok () { w with program := p, store := s } := by
  have hgather : (gather job).run { w with program := p } =
      .ok () { w with program := p, store := s } := run_gather hs
  rw [Worker.learn, EStateM.run_bind, Step.run_zoom_ok hp]
  exact hgather

/-- **A worker learns one more example**, whatever it has learned before. -/
theorem Worker.Learned.run_learn (hS : LawfulSum S) (hjob : job.Fits) (h : w.Learned job done)
    (hx : (job.examples i).shape = job.input.slots.shape) :
    ∃ w', (Worker.learn job i).run w = .ok () w' ∧ w'.Learned job (done ++ [i]) ∧
      w'.batch = w.batch ∧ w'.finished = w.finished := by
  obtain ⟨m, hm, hgathers⟩ := h.block
  have hsize : w.program.size ≠ 0 := by
    rw [Program.size, h.program.second]
    exact hjob.size
  -- what the worker has learned does not matter for the gradients of this example
  have hlearn := Program.run_learn (h.program.fingerprint.trans hjob.input) hx hsize
  rw [h.program.learned_eq hx hjob.size_values] at hlearn
  have hagrees := Program.agrees_learned (q := job.program) hx rfl
  have hblock : w.block.shape = job.weights.slots.shape :=
    hgathers.shape.symm.trans (Matrix.shape_foldlM_add hm)
  obtain ⟨s', m', hadd, hm', hgathers'⟩ := hgathers.run_addGrads hS
    (hagrees.fingerprint.trans hjob.weights) hblock
  rw [← hjob.grads_eq hx] at hm'
  exact ⟨_, Worker.run_learn hlearn hadd,
    ⟨hagrees, m', Matrix.foldlM_add_concat hm hm', hgathers'⟩, rfl, rfl⟩

end

/-! ## Crews -/

/-- A list for each index, and then one of them gets longer. -/
theorem perm_flatMap_update {ι α : Type} [DecidableEq ι] {js : List ι} (hjs : js.Nodup) {j : ι}
    (hj : j ∈ js) (f : ι → List α) (xs : List α) :
    (js.flatMap (Function.update f j (f j ++ xs))).Perm (js.flatMap f ++ xs) := by
  induction js with
  | nil => cases hj
  | cons i js ih =>
    obtain ⟨hi, hjs⟩ := List.nodup_cons.1 hjs
    rw [List.flatMap_cons, List.flatMap_cons, List.append_assoc]
    rcases List.mem_cons.1 hj with rfl | hj
    · have hrest : js.flatMap (Function.update f j (f j ++ xs)) = js.flatMap f :=
        List.flatMap_congr fun k hk => Function.update_of_ne (ne_of_mem_of_not_mem hk hi) _ _
      rw [Function.update_self, hrest, List.append_assoc]
      exact List.perm_append_comm.append_left _
    · rw [Function.update_of_ne (ne_of_mem_of_not_mem hj hi).symm]
      exact (ih hjs hj).append_left _

namespace Crew

section
variable {k : Nat} (c : Crew K S T k) {i j : Fin k} (w : Worker K S T)

@[simp] theorem queue_set : (c.set j w).queue = c.queue := rfl

@[simp] theorem workers_set_self : (c.set j w).workers j = w := Function.update_self ..

theorem workers_set_of_ne (h : i ≠ j) : (c.set j w).workers i = c.workers i :=
  Function.update_of_ne h ..

/-- What the workers have learned or have in their hands. -/
def held (done : Fin k → List Nat) (i : Fin k) : List Nat := done i ++ (c.workers i).batch

theorem held_set (j : Fin k) (done : Fin k → List Nat) (is : List Nat) :
    (c.set j w).held (Function.update done j is) =
      Function.update (c.held done) j (is ++ w.batch) := by
  funext i
  rcases eq_or_ne i j with rfl | hij
  · rw [held, workers_set_self, Function.update_self, Function.update_self]
  · rw [held, workers_set_of_ne c w hij, Function.update_of_ne hij, Function.update_of_ne hij]
    rfl

end

section
variable [Scalar K] [Arith S] [Arith T] [Laned K S] [Laned K T] {k : Nat} {job : Job K T}
  {indices : List Nat} {pre : List (Fin k × Nat)} {done : Fin k → List Nat} {c : Crew K S T k}
  {j : Fin k} {n : Nat}

/-- What holds after the turns `pre`, when the workers have learned the examples `done`.
Nothing is handed out twice, who has finished has found the queue empty, and every turn
of a worker brought it an example or was spent on learning one. -/
structure Reached (job : Job K T) (indices : List Nat) (pre : List (Fin k × Nat))
    (done : Fin k → List Nat) (c : Crew K S T k) : Prop where
  learned : ∀ j, (c.workers j).Learned job (done j)
  once : ((List.finRange k).flatMap (c.held done) ++ c.queue.pending).Perm indices
  finished : ∀ j, (c.workers j).finished = true →
    (c.workers j).batch = [] ∧ c.queue.pending = []
  pace : ∀ j, (c.workers j).finished = false →
    (pre.map Prod.fst).count j + (c.workers j).batch.length ≤
      2 * (c.held done j).length

theorem reached_nil (hw : ∀ j, (c.workers j).Ready job.program job.weights.slots.shape) :
    Reached job c.queue.pending [] (fun _ => []) c where
  learned j := (hw j).learned
  once := by
    have hnone : (List.finRange k).flatMap (c.held fun _ => []) = [] :=
      List.flatMap_eq_nil_iff.2 fun j _ => (hw j).batch
    rw [hnone]
    exact .refl _
  finished j hj := absurd hj (by simp [(hw j).unfinished])
  pace j _ := by simp [(hw j).batch]

/-! ## Turns -/

theorem run_turn_finished (h : (c.workers j).finished = true) :
    (turn job j n).run c = .ok () c := by
  simp only [turn, EStateM.run_bind, EStateM.run_get, h, if_true]
  rfl

theorem run_turn_take (hf : (c.workers j).finished = false) (hb : (c.workers j).batch = [])
    (hn : n ≠ 0) : (turn job j n).run c = .ok () (set
      { c with queue := ⟨c.queue.pending.drop n⟩ } j
      { c.workers j with
        batch := c.queue.pending.take n
        finished := (c.queue.pending.take n).isEmpty }) := by
  have htake : (Step.zoom queue (fun q (c : Crew K S T k) => { c with queue := q })
      (IndexQueue.take n)).run c =
        .ok (c.queue.pending.take n) { c with queue := ⟨c.queue.pending.drop n⟩ } :=
    Step.run_zoom_ok (IndexQueue.run_take hn c.queue)
  simp only [turn, EStateM.run_bind, EStateM.run_get, hf, hb, Bool.false_eq_true, if_false, htake]
  rfl

theorem run_turn_learn {i : Nat} {rest : List Nat} {w : Worker K S T}
    (hf : (c.workers j).finished = false) (hb : (c.workers j).batch = i :: rest)
    (hw : (Worker.learn job i).run (c.workers j) = .ok () w) :
    (turn job j n).run c = .ok () (c.set j { w with batch := rest }) := by
  have hlearn : (Step.zoom (fun c : Crew K S T k => c.workers j) (fun w c => c.set j w)
      (Worker.learn job i)).run c = .ok () (c.set j w) := Step.run_zoom_ok hw
  simp only [turn, EStateM.run_bind, EStateM.run_get, hf, hb, Bool.false_eq_true, if_false, hlearn]
  rw [EStateM.run_modify]
  simp [set]

theorem count_append_self (pre : List (Fin k × Nat)) (j : Fin k) (n : Nat) :
    ((pre ++ [(j, n)]).map Prod.fst).count j = (pre.map Prod.fst).count j + 1 := by
  simp

theorem count_append_of_ne {i j : Fin k} (h : i ≠ j) (pre : List (Fin k × Nat)) (n : Nat) :
    ((pre ++ [(j, n)]).map Prod.fst).count i = (pre.map Prod.fst).count i := by
  simp [h.symm]

/-- Nothing happens in the turn of a worker that has finished. -/
theorem Reached.finish (h : Reached job indices pre done c) (hf : (c.workers j).finished = true) :
    Reached job indices (pre ++ [(j, n)]) done c where
  learned := h.learned
  once := h.once
  finished := h.finished
  pace i hi := by
    have hij : i ≠ j := by
      rintro rfl
      exact absurd hf (by simp [hi])
    rw [count_append_of_ne hij]
    exact h.pace i hi

/-- A worker takes examples from the queue. -/
theorem Reached.take (h : Reached job indices pre done c) (hf : (c.workers j).finished = false)
    (hb : (c.workers j).batch = []) (hn : n ≠ 0) :
    Reached job indices (pre ++ [(j, n)]) done (set
      { c with queue := ⟨c.queue.pending.drop n⟩ } j
      { c.workers j with
        batch := c.queue.pending.take n
        finished := (c.queue.pending.take n).isEmpty }) where
  learned i := by
    rcases eq_or_ne i j with rfl | hij
    · rw [workers_set_self]
      exact ⟨(h.learned i).program, (h.learned i).block⟩
    · rw [workers_set_of_ne _ _ hij]
      exact h.learned i
  once := by
    have hheld := held_set { c with queue := ⟨c.queue.pending.drop n⟩ }
      { c.workers j with
        batch := c.queue.pending.take n
        finished := (c.queue.pending.take n).isEmpty } j done (done j)
    have hj : c.held done j = done j := by rw [held, hb, List.append_nil]
    rw [Function.update_eq_self] at hheld
    rw [hheld, ← hj]
    refine ((perm_flatMap_update (List.nodup_finRange k) (List.mem_finRange j)
      (c.held done) _).append_right _).trans ?_
    rw [List.append_assoc, queue_set, List.take_append_drop]
    exact h.once
  finished i hi := by
    rcases eq_or_ne i j with rfl | hij
    · rw [workers_set_self] at hi ⊢
      have hnone : c.queue.pending.take n = [] := List.isEmpty_iff.1 hi
      have hpending : c.queue.pending = [] := (List.take_eq_nil_iff.1 hnone).resolve_left hn
      refine ⟨hnone, ?_⟩
      rw [queue_set, hpending]
      exact List.drop_nil
    · rw [workers_set_of_ne _ _ hij] at hi ⊢
      refine ⟨(h.finished i hi).1, ?_⟩
      rw [queue_set, (h.finished i hi).2]
      exact List.drop_nil
  pace i hi := by
    rcases eq_or_ne i j with rfl | hij
    · have hpace := h.pace i hf
      rw [workers_set_self] at hi
      rw [held] at hpace ⊢
      rw [workers_set_self]
      have hsome : 0 < (c.queue.pending.take n).length :=
        List.length_pos_iff.2 fun hnone => by simp [hnone] at hi
      rw [count_append_self]
      simp only [hb, List.length_append, List.length_nil] at hpace ⊢
      omega
    · rw [workers_set_of_ne _ _ hij] at hi
      rw [held, workers_set_of_ne _ _ hij, count_append_of_ne hij]
      exact h.pace i hi

/-- A worker learns the next example in its hands. -/
theorem Reached.learn {i : Nat} {rest : List Nat} {w : Worker K S T}
    (h : Reached job indices pre done c) (hf : (c.workers j).finished = false)
    (hb : (c.workers j).batch = i :: rest) (hw : w.Learned job (done j ++ [i]))
    (hf' : w.finished = false) :
    Reached job indices (pre ++ [(j, n)]) (Function.update done j (done j ++ [i]))
      (c.set j { w with batch := rest }) where
  learned m := by
    rcases eq_or_ne m j with rfl | hmj
    · rw [workers_set_self, Function.update_self]
      exact ⟨hw.program, hw.block⟩
    · rw [workers_set_of_ne _ _ hmj, Function.update_of_ne hmj]
      exact h.learned m
  once := by
    have hj : done j ++ [i] ++ rest = c.held done j := by
      rw [held, hb, List.append_assoc]
      rfl
    rw [held_set, hj, Function.update_eq_self]
    exact h.once
  finished m hm := by
    rcases eq_or_ne m j with rfl | hmj
    · rw [workers_set_self] at hm
      exact absurd hm (by simp [hf'])
    · rw [workers_set_of_ne _ _ hmj] at hm ⊢
      exact h.finished m hm
  pace m hm := by
    rcases eq_or_ne m j with rfl | hmj
    · have hpace := h.pace m hf
      rw [held] at hpace ⊢
      rw [workers_set_self, Function.update_self, count_append_self]
      simp only [hb, List.length_append, List.length_cons, List.length_nil] at hpace ⊢
      omega
    · rw [workers_set_of_ne _ _ hmj] at hm
      rw [held, workers_set_of_ne _ _ hmj, Function.update_of_ne hmj, count_append_of_ne hmj]
      exact h.pace m hm

/-- **One turn** of any worker. -/
theorem Reached.run_turn (hS : LawfulSum S) (hjob : job.Fits)
    (hx : ∀ i ∈ indices, (job.examples i).shape = job.input.slots.shape)
    (h : Reached job indices pre done c) (hn : n ≠ 0) :
    ∃ c' done', (turn job j n).run c = .ok () c' ∧
      Reached job indices (pre ++ [(j, n)]) done' c' := by
  cases hf : (c.workers j).finished with
  | true => exact ⟨c, done, run_turn_finished hf, h.finish hf⟩
  | false =>
    cases hb : (c.workers j).batch with
    | nil => exact ⟨_, done, run_turn_take hf hb hn, h.take hf hb hn⟩
    | cons i rest =>
      have hi : i ∈ indices := by
        refine h.once.subset (List.mem_append_left _ (List.mem_flatMap.2 ⟨j, ?_, ?_⟩))
        · exact List.mem_finRange j
        · rw [held, hb]
          exact List.mem_append_right _ List.mem_cons_self
      obtain ⟨w, hw, hlearned, -, hfinished⟩ := (h.learned j).run_learn hS hjob (hx i hi)
      exact ⟨_, _, run_turn_learn hf hb hw, h.learn hf hb hlearned (hfinished.trans hf)⟩

/-- **Any turns** of the workers. -/
theorem run_turns (hS : LawfulSum S) (hjob : job.Fits)
    (hx : ∀ i ∈ indices, (job.examples i).shape = job.input.slots.shape)
    (hc : c.queue.pending = indices)
    (hw : ∀ j, (c.workers j).Ready job.program job.weights.slots.shape)
    {ts : List (Fin k × Nat)} (hts : ∀ t ∈ ts, t.2 ≠ 0) :
    ∃ c', (ts.forM fun t => turn job t.1 t.2).run c = .ok () c' ∧
      ∃ done, Reached job indices ts done c' := by
  refine Step.run_forM_ok (fun pre c => ∃ done, Reached job indices pre done c)
    (fun pre t post c hl hc => ?_) ⟨_, hc ▸ reached_nil hw⟩
  obtain ⟨done, hdone⟩ := hc
  obtain ⟨c', done', hr, h'⟩ := hdone.run_turn hS hjob hx (hts t (hl ▸ by simp))
  exact ⟨c', hr, done', h'⟩

/-- A worker that has had turns enough has finished. -/
theorem Reached.finished_of_count (h : Reached job indices pre done c)
    (hj : 2 * indices.length < (pre.map Prod.fst).count j) : (c.workers j).finished = true := by
  by_contra hf
  have hpace := h.pace j (Bool.eq_false_iff.2 hf)
  have hheld : (c.held done j).length ≤ indices.length := by
    rw [← h.once.length_eq]
    refine List.Sublist.length_le ?_
    exact (List.sublist_flatten_of_mem (List.mem_map.2 ⟨j, List.mem_finRange j, rfl⟩)).trans
      (List.sublist_append_left _ _)
  omega

/-- When all have finished, all examples have been learned. -/
theorem Reached.perm_of_finished {k : Nat} {pre : List (Fin (k + 1) × Nat)}
    {done : Fin (k + 1) → List Nat} {c : Crew K S T (k + 1)}
    (h : Reached job indices pre done c) (hf : ∀ j, (c.workers j).finished = true) :
    ((List.finRange (k + 1)).flatMap done).Perm indices := by
  have hheld : c.held done = done := funext fun j => by
    rw [held, (h.finished j (hf j)).1, List.append_nil]
  have honce := h.once
  rwa [hheld, (h.finished 0 (hf 0)).2, List.append_nil] at honce

/-- **Workers that share a queue compute the gradients for all examples.**

A program is compiled, with projections for the examples and for the weights.  Each worker
has a copy of it and a block of zeros, and the queue holds the indices of the examples.
Whatever turns the workers take, and however many examples they ask for, no turn fails,
and who has turns enough finishes.  When all have finished, the gradients of their
blocks add up to the sum over all examples of what the program gives for the example by
itself. -/
theorem sums_of_turns (hS : LawfulSum S) {g : Graph K T} {root : Node} (hroot : root < g.size)
    {p : Program T} (hp : g.compile (g.order root) = .ok p) (inputs weights : Block)
    {examples : Nat → Matrix K} {indices : List Nat}
    (hx : ∀ i ∈ indices, (examples i).shape = inputs.shape) {k : Nat} {c : Crew K S T (k + 1)}
    (hc : c.queue.pending = indices) (hw : ∀ j, (c.workers j).Ready p weights.shape)
    {ts : List (Fin (k + 1) × Nat)} (hts : ∀ t ∈ ts, t.2 ≠ 0) :
    let job : Job K T := ⟨p, .make g inputs p, .make g weights p, examples⟩
    (∀ i ∈ indices, (Program.learn job.input (examples i)).answer p = .ok ()) ∧
    ∃ c', (ts.forM fun t => turn job t.1 t.2).run c = .ok () c' ∧
      (∀ j, 2 * indices.length < (ts.map Prod.fst).count j → (c'.workers j).finished = true) ∧
      ((∀ j, (c'.workers j).finished = true) → ∃ (sums : Fin (k + 1) → Matrix S) (m : Matrix S),
        (∀ j, (c'.workers j).block.grads.run (c'.workers j).store =
          .ok (sums j) (c'.workers j).store) ∧
        ((List.finRange (k + 1)).map sums).foldlM Matrix.add
          (Matrix.zeros weights.rows weights.cols) = .ok m ∧
        (indices.map job.grads).foldlM Matrix.add
          (Matrix.zeros weights.rows weights.cols) = .ok m) := by
  intro job
  obtain ⟨-, hcomp⟩ := Graph.numeric_of_compile hroot hp
  have hjob : job.Fits :=
    { size := hcomp.size_ne_zero hroot
      size_values := hcomp.size_values.trans hcomp.size.symm
      input := rfl
      weights := rfl }
  refine ⟨fun i hi => Step.answer_of_run_ok (Program.run_learn hjob.input (hx i hi) hjob.size), ?_⟩
  obtain ⟨c', hr, done, hreached⟩ := run_turns hS hjob hx hc hw hts
  refine ⟨c', hr, fun j => hreached.finished_of_count, fun hf => ?_⟩
  choose sums hsums hgathers using fun j => (hreached.learned j).block
  have hshape : ∀ a ∈ (List.finRange (k + 1)).map sums, a.shape = (weights.rows, weights.cols) := by
    intro a ha
    obtain ⟨j, -, rfl⟩ := List.mem_map.1 ha
    exact Matrix.shape_foldlM_add (hsums j)
  have hshape' : ∀ a ∈ indices.map (job.grads (S := S)),
      a.shape = (weights.rows, weights.cols) := by
    intro a ha
    obtain ⟨i, -, rfl⟩ := List.mem_map.1 ha
    rfl
  obtain ⟨m, hm⟩ := Matrix.exists_foldlM_add hshape
  obtain ⟨m', hm'⟩ := Matrix.exists_foldlM_add hshape'
  have hall : ((List.finRange (k + 1)).flatMap fun j => (done j).map job.grads).Perm
      (indices.map (job.grads (S := S))) := by
    rw [← List.map_flatMap]
    exact (hreached.perm_of_finished hf).map _
  obtain rfl := Matrix.foldlM_add_parts hS (fun j _ => hsums j) hm hm' hall
  exact ⟨sums, m, fun j => (hgathers j).run_grads, hm, hm'⟩

end

/-- A weight times an input. -/
def weighted : Graph ℚ ℚ := Call.runs
  [.parameter (.scalar 2), .setTracked 0 true, .parameter (.scalar 0), .setInput 1 true,
    .record (.mul 0 1)]
  (.empty 0 ⟨fun _ => 0, fun _ => 0⟩)

theorem order_weighted : weighted.order 2 = [0, 1, 2] := by
  have hsize : weighted.dag.size = 3 := by decide +kernel
  have hops : weighted.dag.operands 2 = [0, 1] ∧ weighted.dag.operands 1 = [] ∧
      weighted.dag.operands 0 = [] := by
    decide +kernel
  simp [Graph.order, Dag.traverse, Dag.visit, hsize, hops]

/-- Two workers learn three examples.  The first takes them in twos, the second one by one. -/
theorem sums_of_turns_product :
    ∃ p b s, weighted.compile [0, 1, 2] = .ok p ∧
      (Block.zeros 1 1).run (.empty 0 ⟨fun _ => 0, fun _ => 0⟩ : Graph ℚ ℚ) = .ok b s ∧
      let job : Job ℚ ℚ := ⟨p, .make weighted (.scalar 1) p, .make weighted (.scalar 0) p,
        fun i => .scalar (i + 3)⟩
      let ts : List (Fin 2 × Nat) := (List.replicate 7 [(0, 2), (1, 1)]).flatten
      ∃ (c' : Crew ℚ ℚ ℚ 2) (sums : Fin 2 → Matrix ℚ) (m : Matrix ℚ),
        (ts.forM fun t => turn job t.1 t.2).run ⟨⟨[0, 1, 2]⟩, fun _ => ⟨p, s, b, [], false⟩⟩ =
          .ok () c' ∧
        (∀ j, (c'.workers j).block.grads.run (c'.workers j).store =
          .ok (sums j) (c'.workers j).store) ∧
        ((List.finRange 2).map sums).foldlM Matrix.add (Matrix.zeros 1 1) = .ok m ∧
        m.toScalar = .ok 12 := by
  have hcompile : (weighted.compile [0, 1, 2] >>= fun p =>
      ([0, 1, 2].map (Job.grads (S := ℚ) ⟨p, .make weighted (.scalar 1) p,
        .make weighted (.scalar 0) p, fun i => .scalar (i + 3)⟩)).foldlM Matrix.add
          (Matrix.zeros 1 1) >>= Matrix.toScalar) = .ok 12 := by
    decide +kernel
  obtain ⟨p, hp, htotal⟩ := bind_eq_ok.1 hcompile
  obtain ⟨b, s, hb, -⟩ := Block.run_zeros 1 1 (.empty 0 ⟨fun _ => 0, fun _ => 0⟩ : Graph ℚ ℚ)
  refine ⟨p, b, s, hp, hb, ?_⟩
  intro job ts
  have hroot : 2 < weighted.size := by decide +kernel
  have hshape : ∀ i ∈ [0, 1, 2], (job.examples i).shape = (Matrix.scalar 1 : Block).shape :=
    fun _ _ => rfl
  have hts : ∀ t ∈ ts, t.2 ≠ 0 := by decide
  have hready : ∀ j : Fin 2, Worker.Ready (⟨p, s, b, [], false⟩ : Worker ℚ ℚ ℚ) p (1, 1) :=
    fun _ => ⟨rfl, ⟨_, hb⟩, rfl, rfl⟩
  obtain ⟨-, c', hr, hfinished, hsums⟩ := sums_of_turns lawfulSum_rat hroot (order_weighted ▸ hp)
    (.scalar 1) (.scalar 0) hshape (c := ⟨⟨[0, 1, 2]⟩, fun _ => ⟨p, s, b, [], false⟩⟩) rfl hready
    hts
  have hturns : ∀ j : Fin 2, 2 * [0, 1, 2].length < (ts.map Prod.fst).count j := by decide
  obtain ⟨sums, m, hgrads, hm, hm'⟩ := hsums fun j => hfinished j (hturns j)
  obtain ⟨m', hfold, hscalar⟩ := bind_eq_ok.1 htotal
  obtain rfl : m = m' := Except.ok.inj (hm'.symm.trans hfold)
  exact ⟨c', sums, m, hr, hgrads, hm, hscalar⟩

end Crew

end DiffGraph
