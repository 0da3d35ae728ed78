/-
  Handing out the examples of an epoch.

  A `Sampler` puts the indices of a data set in order: as they are, or shuffled.
  How a generator shuffles is left open, but for what makes it a `Shuffle`: nothing
  is lost or doubled.
  An `IndexQueue` holds the indices that are still to be handed out; the workers
  of a training loop take them from its front in batches.
-/
import DiffGraph.Step

namespace DiffGraph

/-- What a generator of random numbers does to a list: it puts it in another order. -/
structure Shuffle where
  apply : List Nat → List Nat
  perm : ∀ xs, (apply xs).Perm xs

/-- The first `n` indices go to the end. -/
def Shuffle.cut (n : Nat) : Shuffle where
  apply xs := xs.drop n ++ xs.take n
  perm xs := List.perm_append_comm.trans (.of_eq (List.take_append_drop n xs))

/-- The order of the indices of an epoch. -/
inductive Sampler where
  | sequential
  /-- shuffled; without a seed, differently each time -/
  | random (seed : Option UInt64)

namespace Sampler

/-- The indices below `length` in the order of the sampler.  A seed gives a generator
(`seeded`).  A sampler without one takes the generator of whoever calls it, and `fresh` is
what this one does now. -/
def indices (s : Sampler) (seeded : UInt64 → Shuffle) (fresh : Shuffle) (length : Nat) :
    List Nat :=
  match s with
  | sequential => List.range length
  | random seed => ((seed.map seeded).getD fresh).apply (List.range length)

/-- How many indices an epoch has. -/
def length (_ : Sampler) (length : Nat) : Nat := length

end Sampler

/-- The indices that were not handed out yet, the next one first. -/
structure IndexQueue where
  pending : List Nat
deriving DecidableEq, Repr

namespace IndexQueue

def remaining (q : IndexQueue) : Nat := q.pending.length

/-- Adds indices at the end. -/
def refill (q : IndexQueue) (indices : List Nat) : IndexQueue := ⟨q.pending ++ indices⟩

/-- Takes up to `n` indices from the front. -/
def take (n : Nat) : Step IndexQueue (List Nat) := do
  if n = 0 then throw .emptyBatch
  let q ← get
  set (IndexQueue.mk (q.pending.drop n))
  return q.pending.take n

theorem run_take {n : Nat} (h : n ≠ 0) (q : IndexQueue) :
    (take n).run q = .ok (q.pending.take n) ⟨q.pending.drop n⟩ := by
  simp only [take, h, if_false]
  rfl

theorem run_take_zero (q : IndexQueue) : (take 0).run q = .error .emptyBatch q := rfl

end IndexQueue

end DiffGraph
