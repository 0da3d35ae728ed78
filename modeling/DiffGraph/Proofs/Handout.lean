/-
  Workers that call one queue of indices.

  A call takes effect as a whole.  So whatever the workers do at the same time, there is
  an order in which their calls take effect, and `Handout.serveAll` runs a list of calls.

  * `Sampler.indices_perm`: an epoch has each index once, in whatever order;
  * `Handout.Balanced`: what was handed out, followed by what is pending, is what was
    filled in.  A call keeps this (`Balanced.serve`), and so do all
    (`Balanced.serveAll`);
  * `Handout.handed_in_order`: what follows for the answers of the queue, and for how
    often each index is handed out.
-/
import Mathlib
import DiffGraph.Epoch

namespace DiffGraph

/-- An epoch has each index below its length once. -/
theorem Sampler.indices_perm (s : Sampler) (seeded : UInt64 → Shuffle) (fresh : Shuffle)
    (length : Nat) : (s.indices seeded fresh length).Perm (List.range length) := by
  cases s with
  | sequential => exact .refl _
  | random seed => exact Shuffle.perm _ _

/-! ## Calls -/

/-- A call of a queue: for a batch, or to fill in the indices of one more epoch. -/
inductive Demand where
  | batch (n : Nat)
  | refill (indices : List Nat)

/-- The lists of indices that some calls fill in. -/
def Demand.fills {W : Type} (calls : List (W × Demand)) : List (List Nat) :=
  calls.filterMap fun
    | (_, .refill indices) => some indices
    | (_, .batch _) => none

/-- A queue that workers share, and the batches it has handed out: which worker got them,
and in which order they were taken. -/
structure Handout (W : Type) where
  queue : IndexQueue
  batches : List (W × List Nat)

namespace Handout

variable {W : Type}

/-- A new queue. -/
def start (indices : List Nat) : Handout W := ⟨⟨indices⟩, []⟩

/-- The queue answers one call.  Who asks for a batch and gets a failure gets no batch. -/
def serve (h : Handout W) : W × Demand → Handout W
  | (w, .batch n) =>
    match (IndexQueue.take n).run h.queue with
    | .ok batch q => ⟨q, h.batches ++ [(w, batch)]⟩
    | .error _ q => ⟨q, h.batches⟩
  | (_, .refill indices) => ⟨h.queue.refill indices, h.batches⟩

/-- The queue answers calls in the order in which they take effect. -/
def serveAll (h : Handout W) (calls : List (W × Demand)) : Handout W := calls.foldl serve h

/-- All indices that were handed out, in order. -/
def handed (h : Handout W) : List Nat := h.batches.flatMap Prod.snd

/-- The indices that a worker received. -/
def received [DecidableEq W] (h : Handout W) (w : W) : List Nat :=
  (h.batches.filter (·.1 = w)).flatMap Prod.snd

theorem serve_batch {n : Nat} (hn : n ≠ 0) (h : Handout W) (w : W) :
    h.serve (w, .batch n) =
      ⟨⟨h.queue.pending.drop n⟩, h.batches ++ [(w, h.queue.pending.take n)]⟩ := by
  rw [serve, IndexQueue.run_take hn]

theorem serve_batch_zero (h : Handout W) (w : W) : h.serve (w, .batch 0) = h := by
  rw [serve, IndexQueue.run_take_zero]

/-! ## What every call keeps -/

/-- The lists `filled` were filled in so far: all of them were handed out up to some
place, and the rest is pending. -/
def Balanced (h : Handout W) (filled : List (List Nat)) : Prop :=
  h.handed ++ h.queue.pending = filled.flatten

theorem balanced_start (indices : List Nat) : (start indices : Handout W).Balanced [indices] := by
  simp [Balanced, start, handed]

/-- **One call.** -/
theorem Balanced.serve {h : Handout W} {filled : List (List Nat)} (hh : h.Balanced filled)
    (call : W × Demand) : (h.serve call).Balanced (filled ++ Demand.fills [call]) := by
  unfold Balanced at hh ⊢
  obtain ⟨w, n | indices⟩ := call
  · rcases Nat.eq_zero_or_pos n with rfl | hn
    · simpa [serve_batch_zero, Demand.fills] using hh
    · rw [serve_batch hn.ne']
      simpa [handed, Demand.fills] using hh
  · calc h.handed ++ (h.queue.pending ++ indices)
      _ = h.handed ++ h.queue.pending ++ indices := (List.append_assoc ..).symm
      _ = (filled ++ [indices]).flatten := by simp [hh]

/-- **Any calls**, of any workers. -/
theorem Balanced.serveAll {h : Handout W} {filled : List (List Nat)} (hh : h.Balanced filled)
    (calls : List (W × Demand)) : (h.serveAll calls).Balanced (filled ++ Demand.fills calls) := by
  induction calls generalizing h filled with
  | nil => simpa [Demand.fills, Handout.serveAll] using hh
  | cons call calls ih =>
    have hfills : Demand.fills (call :: calls) = Demand.fills [call] ++ Demand.fills calls := by
      rw [Demand.fills, Demand.fills, Demand.fills, ← List.filterMap_append, List.singleton_append]
    rw [hfills, ← List.append_assoc]
    exact ih (hh.serve call)

/-- What was handed out has come to some worker. -/
theorem sum_count_received [Fintype W] [DecidableEq W] (h : Handout W) (i : Nat) :
    ∑ w, (h.received w).count i = h.handed.count i := by
  obtain ⟨q, batches⟩ := h
  induction batches with
  | nil => simp [received, handed]
  | cons b batches ih =>
    have hreceived : ∀ w, ((⟨q, b :: batches⟩ : Handout W).received w).count i =
        (if b.1 = w then b.2.count i else 0) + ((⟨q, batches⟩ : Handout W).received w).count i := by
      intro w
      by_cases hw : b.1 = w <;> simp [received, hw]
    have hhanded : (⟨q, b :: batches⟩ : Handout W).handed.count i =
        b.2.count i + (⟨q, batches⟩ : Handout W).handed.count i := by
      simp [handed]
    rw [Finset.sum_congr rfl fun w _ => hreceived w, Finset.sum_add_distrib, ih, hhanded]
    simp

/-- If an epoch has each index below `length` once, epochs have it once each. -/
theorem count_flatten_of_perm {epochs : List (List Nat)} {length : Nat}
    (he : ∀ e ∈ epochs, e.Perm (List.range length)) (i : Nat) :
    epochs.flatten.count i = if i < length then epochs.length else 0 := by
  have hone : ∀ e ∈ epochs, e.count i = if i < length then 1 else 0 := by
    intro e hmem
    rw [(he e hmem).count_eq, List.nodup_range.count]
    simp
  rw [List.count_flatten, List.map_congr_left hone, List.map_const', List.sum_replicate]
  split <;> simp

/-- **A queue hands out every index once, and in order.**  Whatever calls have taken
effect so far, the batches in the order in which they were taken, followed by what is
pending, are the lists filled in.  The next call for a batch gets as many indices as it
asks for if there are that many, and none only if all were handed out; a call for a batch
of none fails and changes nothing.  When nothing is pending after some epochs, each index
of an epoch was handed out once in each, to all workers together. -/
theorem handed_in_order {W : Type} [Fintype W] [DecidableEq W] (indices : List Nat)
    (calls : List (W × Demand)) :
    let h := (start indices).serveAll calls
    let filled := indices :: Demand.fills calls
    h.handed ++ h.queue.pending = filled.flatten ∧
    (∀ w n, 1 ≤ n → ∃ batch,
      (IndexQueue.take n).run h.queue = .ok batch (h.serve (w, .batch n)).queue ∧
      (h.serve (w, .batch n)).batches = h.batches ++ [(w, batch)] ∧
      batch.length = min n h.queue.remaining ∧
      (batch = [] → h.handed = filled.flatten)) ∧
    (∀ w, (IndexQueue.take 0).run h.queue = .error .emptyBatch h.queue ∧
      h.serve (w, .batch 0) = h) ∧
    ∀ length, (∀ epoch ∈ filled, epoch.Perm (List.range length)) → h.queue.pending = [] →
      ∀ i, h.handed.count i = (if i < length then filled.length else 0) ∧
        ∑ w, (h.received w).count i = if i < length then filled.length else 0 := by
  intro h filled
  have hbalanced : h.handed ++ h.queue.pending = filled.flatten :=
    (balanced_start indices).serveAll calls
  refine ⟨hbalanced, ?_, ?_, ?_⟩
  · intro w n hn
    have hn' : n ≠ 0 := Nat.one_le_iff_ne_zero.1 hn
    refine ⟨h.queue.pending.take n, ?_, ?_, List.length_take, ?_⟩
    · rw [serve_batch hn', IndexQueue.run_take hn']
    · rw [serve_batch hn']
    · intro hempty
      rw [List.take_eq_nil_iff] at hempty
      rw [← hbalanced, hempty.resolve_left hn', List.append_nil]
  · intro w
    exact ⟨IndexQueue.run_take_zero _, serve_batch_zero h w⟩
  · intro length hepochs hpending i
    rw [hpending, List.append_nil] at hbalanced
    rw [sum_count_received, hbalanced, count_flatten_of_perm hepochs]
    exact ⟨rfl, rfl⟩

/-- Two workers empty a queue that is filled twice, each time in another order. -/
theorem handed_in_order_shuffled :
    let epoch n := (Sampler.random none).indices (fun _ => .cut 0) (.cut n) 3
    let calls : List (Fin 2 × Demand) :=
      [(0, .batch 2), (1, .refill (epoch 2)), (1, .batch 3), (0, .batch 0), (0, .batch 5)]
    let h := (start (epoch 1)).serveAll calls
    h.queue.pending = [] ∧ epoch 1 ≠ epoch 2 ∧
      (∃ batch, (IndexQueue.take 4).run h.queue = .ok batch (h.serve (1, .batch 4)).queue ∧
        batch = []) ∧
      ∀ i, ∑ w, (h.received w).count i = if i < 3 then 2 else 0 := by
  intro epoch calls h
  have hpending : h.queue.pending = [] := by decide +kernel
  have hdiffer : epoch 1 ≠ epoch 2 := by decide +kernel
  have hepochs : ∀ e ∈ epoch 1 :: Demand.fills calls, e.Perm (List.range 3) := by
    intro e he
    have he' : e = epoch 1 ∨ e = epoch 2 := by simpa [calls, Demand.fills] using he
    rcases he' with rfl | rfl <;> exact Sampler.indices_perm ..
  obtain ⟨-, hbatch, -, hcounts⟩ := handed_in_order (epoch 1) calls
  obtain ⟨batch, hrun, -, hlength, -⟩ := hbatch 1 4 (by decide)
  refine ⟨hpending, hdiffer, ⟨batch, hrun, ?_⟩, fun i => (hcounts 3 hepochs hpending i).2⟩
  have hnone : (start (epoch 1) : Handout (Fin 2)).serveAll calls = h := rfl
  rw [hnone, IndexQueue.remaining, hpending] at hlength
  simpa using hlength

end Handout

end DiffGraph
