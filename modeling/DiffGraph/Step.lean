/-
  Computations on a state that may fail half way.

  A `Step σ α` takes a state to a result or a failure, and in both cases to a
  new state: what was done before a failure stays done.
-/
import DiffGraph.Failure

namespace DiffGraph

/-- A computation on states of type `σ`. -/
abbrev Step (σ α : Type) := EStateM Failure σ α

namespace Step

variable {σ τ α : Type}

/-- A result that was computed without touching the state. -/
def ofExcept (x : Except Failure α) : Step σ α := fun s =>
  match x with
  | .ok a => .ok a s
  | .error e => .error e s

@[simp] theorem run_ofExcept_ok (a : α) (s : σ) : (ofExcept (.ok a)).run s = .ok a s := rfl

@[simp] theorem run_ofExcept_error (e : Failure) (s : σ) :
    (ofExcept (.error e) : Step σ α).run s = .error e s := rfl

/-- Computes on the first part of a state. -/
def onFirst (x : Step σ α) : Step (σ × τ) α := fun (s, t) =>
  match x.run s with
  | .ok a s => .ok a (s, t)
  | .error e s => .error e (s, t)

end Step

end DiffGraph
