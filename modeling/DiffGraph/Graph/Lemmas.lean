/-
  A graph is its operations and its cells.

  `update` changes one cell and no operation; `push` adds one of each and changes
  nothing that was there before.
-/
import DiffGraph.Graph.Basic

namespace DiffGraph.Graph

variable {K E : Type}

@[simp] theorem dag_update (g : Graph K E) (n : Node) (f : Cell E → Cell E) :
    (g.update n f).dag = g.dag := rfl

@[simp] theorem op_update (g : Graph K E) (n m : Node) (f : Cell E → Cell E) :
    (g.update n f).op m = g.op m := rfl

theorem cell_update_self (g : Graph K E) {n : Node} (h : n < g.size) (f : Cell E → Cell E) :
    (g.update n f).cell n = f (g.cell n) := by
  have h' : n < g.cells.size := g.size_cells.symm ▸ h
  simp [cell, update, Array.getD, Array.getElem_modify, h']

theorem cell_update_of_ne (g : Graph K E) {n m : Node} (h : n ≠ m) (f : Cell E → Cell E) :
    (g.update n f).cell m = g.cell m := by
  simp [cell, update, Array.getD_eq_getD_getElem?, Array.getElem?_modify, h]

@[simp] theorem size_push (g : Graph K E) (op : Op K) (h : g.dag.Admits op) (c : Cell E) :
    (g.push op h c).size = g.size + 1 := by
  simp [size, push]

@[simp] theorem cell_push_size (g : Graph K E) (op : Op K) (h : g.dag.Admits op) (c : Cell E) :
    (g.push op h c).cell g.size = c := by
  have h' : g.size = g.cells.size := g.size_cells.symm
  simp [cell, push, Array.getD, h']

theorem cell_push_of_lt (g : Graph K E) {op : Op K} {h : g.dag.Admits op} {c : Cell E} {n : Node}
    (hn : n < g.size) : (g.push op h c).cell n = g.cell n := by
  have h' : n < g.cells.size := g.size_cells.symm ▸ hn
  simp [cell, push, Array.getD, h', Nat.lt_succ_of_lt h', Array.getElem_push]

end DiffGraph.Graph
