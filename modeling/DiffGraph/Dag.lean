/-
  The operations of a graph and the order in which they are evaluated.

  A `Dag` is a table of operations.  An operation refers to earlier entries
  only, so that there are no cycles.  The table grows and is never changed.

  `Dag.traverse` lists the vertices below a root, operands before the vertices
  that use them and each vertex once.  It goes through the operands from left to
  right and does not look below a vertex at which `descend` is false.  The
  pending vertices wait on a list instead of a call stack, so that long chains
  are no problem.
-/
import DiffGraph.Failure
import DiffGraph.Op.Basic

namespace DiffGraph

/-- Operations over earlier operations. -/
structure Dag (K : Type) where
  ops : Array (Op K)
  operands_lt : ∀ (n : Nat) (h : n < ops.size), ∀ c ∈ ops[n].operands, c < n

namespace Dag

variable {K : Type}

def empty : Dag K := ⟨#[], fun _ h => absurd h (by simp)⟩

/-- The number of vertices. -/
def size (d : Dag K) : Nat := d.ops.size

/-- The operation of a vertex. -/
def op (d : Dag K) (n : Node) : Op K := d.ops.getD n .parameter

/-- The vertices that a vertex reads. -/
def operands (d : Dag K) (n : Node) : List Node := (d.op n).operands

/-- The operation reads vertices of the graph only. -/
def Admits (d : Dag K) (op : Op K) : Prop := ∀ c ∈ op.operands, c < d.size

instance (d : Dag K) (op : Op K) : Decidable (d.Admits op) :=
  inferInstanceAs (Decidable (∀ c ∈ op.operands, c < d.size))

/-- Adds a vertex; its name is the old size. -/
def push (d : Dag K) (op : Op K) (h : d.Admits op) : Dag K where
  ops := d.ops.push op
  operands_lt n hn c hc := by
    rw [Array.getElem_push] at hc
    split at hc
    · exact d.operands_lt n _ c hc
    · have : n = d.ops.size := by simp at hn; omega
      exact this ▸ h c hc

@[simp] theorem size_push (d : Dag K) (op : Op K) (h : d.Admits op) :
    (d.push op h).size = d.size + 1 := by
  simp [size, push]

@[simp] theorem op_push_size (d : Dag K) (op : Op K) (h : d.Admits op) :
    (d.push op h).op d.size = op := by
  simp [Dag.op, push, size, Array.getD]

theorem op_push_of_lt (d : Dag K) {op : Op K} {h : d.Admits op} {n : Node} (hn : n < d.size) :
    (d.push op h).op n = d.op n := by
  have hn' : n < d.ops.size := hn
  simp [Dag.op, push, Array.getD, hn', Nat.lt_succ_of_lt hn', Array.getElem_push]

theorem operands_lt_self (d : Dag K) {n c : Node} (hc : c ∈ d.operands n) : c < n := by
  by_cases h : n < d.ops.size
  · exact d.operands_lt n h c (by simpa [operands, op, Array.getD, h] using hc)
  · simp [operands, op, Array.getD, h, Op.operands] at hc

theorem count_set_lt {seen : Array Bool} {n : Nat} (h : n < seen.size) (hn : seen[n] = false) :
    (seen.set n true).count false < seen.count false := by
  have hpos : 0 < seen.count false := Array.count_pos_iff.2 (hn ▸ Array.getElem_mem h)
  rw [Array.count_set h, hn, show (true == false) = false from rfl,
    show (false == false) = true from rfl]
  exact Nat.sub_lt hpos Nat.one_pos

/-- The traversal with pending vertices `stack`.  A vertex is entered on the
first visit (`false`) and emitted on the second (`true`), after all that was
pushed in between; `seen` are the vertices entered so far, `sorted` those
emitted, last one first. -/
def visit (d : Dag K) (descend : Node → Bool) (stack : List (Node × Bool)) (seen : Array Bool)
    (sorted : List Node) : List Node :=
  match stack with
  | [] => sorted.reverse
  | (n, true) :: stack => visit d descend stack seen (n :: sorted)
  | (n, false) :: stack =>
    if h : n < seen.size then
      if hn : seen[n] = false then
        let seen' := seen.set n true
        if descend n then
          let fresh := (d.operands n).filter fun c => seen'[c]? = some false
          visit d descend (fresh.map (·, false) ++ (n, true) :: stack) seen' sorted
        else visit d descend stack seen' sorted
      else visit d descend stack seen sorted
    else visit d descend stack seen sorted
termination_by (seen.count false, stack.length)
decreasing_by
  · exact Prod.Lex.right _ (by simp)
  · exact Prod.Lex.left _ _ (count_set_lt h hn)
  · exact Prod.Lex.left _ _ (count_set_lt h hn)
  · exact Prod.Lex.right _ (by simp)
  · exact Prod.Lex.right _ (by simp)

/-- The vertices below `root` that the traversal emits, operands first. -/
def traverse (d : Dag K) (descend : Node → Bool) (root : Node) : List Node :=
  d.visit descend [(root, false)] (Array.replicate d.size false) []

end Dag

end DiffGraph
