/-
  What can happen to a graph.

  Every computation on a graph changes it by a few kinds of moves (`Edit`): a
  vertex is added, a parameter is given another value of its shape, an operation
  whose operands have values is evaluated, or a note is made, of a gradient, a
  sum or a mark.  What is kept by each of them is kept by all computations.  Most
  of them are turns (`Turn`): they forget no value, and what they write down for a
  vertex has a shape that the vertex has already.

  * `Edit.cell_cases`: what a move does to a cell;
  * `Edits.extends`, `Edits.value_parameter`: operations are added and never
    changed, and a parameter keeps its value unless it is written to;
  * `Edits.gradsFit`: the gradient of a parameter has the shape of its value.
-/
import DiffGraph.Graph.Eval
import DiffGraph.Graph.Lemmas
import DiffGraph.Proofs.Recursion
import DiffGraph.Proofs.Runs

namespace DiffGraph

open Relation

variable {K E : Type}

/-- A cell that differs in gradients, sums and marks, and may have forgotten its
value. -/
structure Cell.Noted (c c' : Cell E) : Prop where
  value : c'.value = c.value
  mask : c'.mask = c.mask
  hasValue : c'.hasValue = true → c.hasValue = true
  grad : c'.grad.shape = c.grad.shape ∨ c'.grad.shape = c.value.shape

theorem Cell.Noted.refl (c : Cell E) : c.Noted c := ⟨rfl, rfl, fun h => h, Or.inl rfl⟩

/-- A cell that differs in marks, and in a gradient and sums that have the shapes
of those before. -/
structure Cell.Summed (c c' : Cell E) : Prop where
  value : c'.value = c.value
  mask : c'.mask = c.mask
  hasValue : c'.hasValue = c.hasValue
  grad : c'.grad.shape = c.grad.shape ∨ c'.grad.shape = c.value.shape
  batchSum : c'.batchSum.shape = c.batchSum.shape ∨ c'.batchSum.shape = c.grad.shape
  lastSum : c'.lastSum.shape = c.lastSum.shape ∨ c'.lastSum.shape = c.batchSum.shape

theorem Cell.Summed.noted {c c' : Cell E} (h : c.Summed c') : c.Noted c' :=
  ⟨h.value, h.mask, fun hv => h.hasValue ▸ hv, h.grad⟩

namespace Graph

variable [Scalar K] [Arith E] [Laned K E]

/-- The moves of a graph that forget no value.  Only the vertices in `targets` are
given a value from outside. -/
inductive Turn (targets : List Node) : Graph K E → Graph K E → Prop where
  | push (g : Graph K E) (op : Op K) (h : g.dag.Admits op) (c : Cell E)
      (hc : c = .blank ∨ op.isParameter = true ∧ ∃ v, c = .parameter v) :
      Turn targets g (g.push op h c)
  | assign (g : Graph K E) (n : Node) (v : Matrix E) (ht : n ∈ targets)
      (hn : g.isParameter n = true) (hs : v.shape = (g.value n).shape) :
      Turn targets g (g.update n fun c => { c with value := v })
  | evaluate (g : Graph K E) (n : Node) (v m : Matrix E) (hn : g.hasValue n = false)
      (ho : ∀ c ∈ g.dag.operands n, g.hasValue c = true) (h : g.compute n = .ok (v, m)) :
      Turn targets g (g.update n (store v m))
  | sum (g : Graph K E) (n : Node) (f : Cell E → Cell E)
      (h : (g.cell n).Summed (f (g.cell n))) : Turn targets g (g.update n f)
  | draw (g : Graph K E) (normal : Nat) : Turn targets g { g with drawnNormal := normal }
  | use (g : Graph K E) (samples : Nat) : Turn targets g (g.use samples)

/-- The moves of a graph. -/
inductive Edit (targets : List Node) : Graph K E → Graph K E → Prop where
  | turn {g g' : Graph K E} (h : Turn targets g g') : Edit targets g g'
  | note (g : Graph K E) (n : Node) (f : Cell E → Cell E) (h : (g.cell n).Noted (f (g.cell n))) :
      Edit targets g (g.update n f)

/-- Any number of turns. -/
abbrev Turns (targets : List Node) : Graph K E → Graph K E → Prop := ReflTransGen (Turn targets)

/-- Any number of moves. -/
abbrev Edits (targets : List Node) : Graph K E → Graph K E → Prop := ReflTransGen (Edit targets)

theorem Turn.mono {targets targets' : List Node} (h : targets ⊆ targets') {g g' : Graph K E}
    (ht : Turn targets g g') : Turn targets' g g' := by
  cases ht with
  | push op ha c hc => exact .push g op ha c hc
  | assign n v ht hn hs => exact .assign g n v (h ht) hn hs
  | evaluate n v m hn ho hc => exact .evaluate g n v m hn ho hc
  | sum n f hf => exact .sum g n f hf
  | draw normal => exact .draw g normal
  | use samples => exact .use g samples

theorem Turns.mono {targets targets' : List Node} (h : targets ⊆ targets') {g g' : Graph K E}
    (ht : Turns targets g g') : Turns targets' g g' :=
  ReflTransGen.mono (fun _ _ ht => Turn.mono h ht) g g' ht

theorem Turns.edits {targets : List Node} {g g' : Graph K E} (h : Turns targets g g') :
    Edits targets g g' :=
  ReflTransGen.mono (fun _ _ ht => Edit.turn ht) g g' h

theorem Edits.mono {targets targets' : List Node} (h : targets ⊆ targets') {g g' : Graph K E}
    (he : Edits targets g g') : Edits targets' g g' := by
  refine ReflTransGen.mono (fun s s' he => ?_) g g' he
  cases he with
  | turn ht => exact .turn (ht.mono h)
  | note n f hf => exact .note s n f hf

/-- The moves of one after those of another. -/
theorem Edits.append {targets targets' : List Node} {g s g' : Graph K E} (h : Edits targets g s)
    (h' : Edits targets' s g') : Edits (targets ++ targets') g g' :=
  (h.mono (List.subset_append_left _ _)).trans (h'.mono (List.subset_append_right _ _))

/-! ## Cells and operations after a move -/

section
omit [Scalar K] [Arith E] [Laned K E]

theorem cell_of_size_le (g : Graph K E) {n : Node} (h : g.size ≤ n) : g.cell n = .blank := by
  have h' : ¬ n < g.cells.size := by rw [g.size_cells]; exact not_lt.2 h
  simp [cell, Array.getD, h']

/-- A vertex that has a number is there. -/
theorem lt_size_of_isScalar {g : Graph K E} {n : Node} (h : (g.value n).isScalar = true) :
    n < g.size := by
  by_contra hge
  rw [value, cell_of_size_le g (not_lt.1 hge)] at h
  cases h

theorem op_of_size_le (g : Graph K E) {n : Node} (h : g.size ≤ n) : g.op n = .parameter := by
  have h' : ¬ n < g.dag.ops.size := not_lt.2 h
  simp [op, Dag.op, Array.getD, h']

/-- Operands are in the graph. -/
theorem lt_size_of_mem_operands {g : Graph K E} {n c : Node} (hc : c ∈ (g.op n).operands) :
    c < g.size := by
  refine (g.dag.operands_lt_self hc).trans ?_
  by_contra hle
  rw [op_of_size_le g (not_lt.1 hle)] at hc
  cases hc

theorem cell_update (g : Graph K E) (n m : Node) (f : Cell E → Cell E) :
    (g.update n f).cell m = if m = n ∧ n < g.size then f (g.cell n) else g.cell m := by
  by_cases hmn : m = n
  · subst hmn
    by_cases hm : m < g.size
    · rw [if_pos ⟨rfl, hm⟩, cell_update_self g hm]
    · rw [if_neg fun h => hm h.2, cell_of_size_le g (not_lt.1 hm)]
      exact cell_of_size_le (g.update m f) (not_lt.1 hm)
  · rw [if_neg fun h => hmn h.1, cell_update_of_ne g (Ne.symm hmn)]

/-- Two changes of a cell, one after the other. -/
theorem update_update (g : Graph K E) (n : Node) (f f' : Cell E → Cell E) :
    (g.update n f).update n f' = g.update n fun c => f' (f c) := by
  simp only [update]
  congr 1
  refine Array.ext_getElem? fun m => ?_
  simp only [Array.getElem?_modify]
  split
  · rw [Option.map_map]
    rfl
  · rfl

/-- A change of a cell is what it does to the cell that is there. -/
theorem update_congr (g : Graph K E) {n : Node} {f f' : Cell E → Cell E}
    (h : f (g.cell n) = f' (g.cell n)) : g.update n f = g.update n f' := by
  have hcells : g.cells.modify n f = g.cells.modify n f' := by
    refine Array.ext_getElem? fun m => ?_
    rw [Array.getElem?_modify, Array.getElem?_modify]
    split
    · next hnm =>
      subst hnm
      by_cases hn : n < g.cells.size
      · simpa [cell, Array.getD, hn] using h
      · simp [hn]
    · rfl
  simp only [update, hcells]

theorem cell_push (g : Graph K E) (op : Op K) (h : g.dag.Admits op) (c : Cell E) (n : Node) :
    (g.push op h c).cell n = if n = g.size then c else g.cell n := by
  rcases lt_trichotomy n g.size with hn | rfl | hn
  · rw [if_neg hn.ne, cell_push_of_lt g hn]
  · rw [if_pos rfl, cell_push_size]
  · rw [if_neg hn.ne', cell_of_size_le g hn.le, cell_of_size_le]
    rw [size_push]
    exact hn

theorem op_push (g : Graph K E) (op : Op K) (h : g.dag.Admits op) (c : Cell E) (n : Node) :
    (g.push op h c).op n = if n = g.size then op else g.op n := by
  rcases lt_trichotomy n g.size with hn | rfl | hn
  · rw [if_neg hn.ne]
    exact g.dag.op_push_of_lt (h := h) hn
  · rw [if_pos rfl]
    exact g.dag.op_push_size op h
  · rw [if_neg hn.ne', op_of_size_le g hn.le, op_of_size_le]
    rw [size_push]
    exact hn

theorem isParameter_of_size_le (g : Graph K E) {n : Node} (h : g.size ≤ n) :
    g.isParameter n = true := by
  simp [isParameter, op_of_size_le g h, Op.isParameter, Op.kind]

theorem lt_size_of_not_hasValue (g : Graph K E) {n : Node} (h : g.hasValue n = false) :
    n < g.size := by
  by_contra hn
  simp [hasValue, isParameter_of_size_le g (not_lt.1 hn)] at h

end

/-- `g'` has the operations of `g`, and perhaps more. -/
structure Extends (g g' : Graph K E) : Prop where
  size : g.size ≤ g'.size
  op : ∀ n < g.size, g'.op n = g.op n
  noise : g'.noise = g.noise

omit [Scalar K] [Arith E] [Laned K E] in
theorem Extends.trans {g g' g'' : Graph K E} (h : g.Extends g') (h' : g'.Extends g'') :
    g.Extends g'' where
  size := h.size.trans h'.size
  op n hn := (h'.op n (hn.trans_le h.size)).trans (h.op n hn)
  noise := h'.noise.trans h.noise

variable {targets : List Node} {g g' : Graph K E}

omit [Scalar K] [Arith E] [Laned K E] in
theorem Extends.order {root : Node} (h : g.Extends g') (hroot : root < g.size) :
    g'.order root = g.order root :=
  Dag.traverse_congr hroot (hroot.trans_le h.size) fun m hm =>
    ⟨congrArg Op.operands (h.op m (hm.trans_lt hroot)), rfl⟩

omit [Scalar K] [Arith E] [Laned K E] in
theorem Extends.below_iff {root n : Node} (h : g.Extends g') (hroot : root < g.size) :
    g'.dag.Below root n ↔ g.dag.Below root n :=
  Dag.below_congr fun m hm => congrArg Op.operands (h.op m (hm.trans_lt hroot))

/-- Operations are added, and never changed. -/
theorem Turn.extends (h : Turn targets g g') : g.Extends g' := by
  cases h with
  | push op ha c hc =>
    exact ⟨by simp, fun n hn => by rw [op_push, if_neg hn.ne], rfl⟩
  | assign | evaluate | sum | draw | use => exact ⟨le_rfl, fun _ _ => rfl, rfl⟩

theorem Edit.extends (h : Edit targets g g') : g.Extends g' := by
  cases h with
  | turn h => exact h.extends
  | note => exact ⟨le_rfl, fun _ _ => rfl, rfl⟩

theorem Edits.extends (h : Edits targets g g') : g.Extends g' := by
  induction h with
  | refl => exact ⟨le_rfl, fun _ _ => rfl, rfl⟩
  | tail _ he ih => exact ih.trans he.extends

/-- A graph keeps its tag. -/
theorem Edit.tag (h : Edit targets g g') : g'.tag = g.tag := by
  cases h with
  | turn h => cases h <;> rfl
  | note => rfl

theorem Edits.tag (h : Edits targets g g') : g'.tag = g.tag := by
  induction h with
  | refl => rfl
  | tail _ he ih => exact he.tag.trans ih

/-- **What a turn does to a cell**: sums are added to it, it is written to, or it is
evaluated. -/
theorem Turn.cell_cases (h : Turn targets g g') {n : Node} (hn : n < g.size) :
    (g.cell n).Summed (g'.cell n) ∨
      (n ∈ targets ∧ g.isParameter n = true ∧ ∃ v, v.shape = (g.value n).shape ∧
        g'.cell n = { g.cell n with value := v }) ∨
      (g.hasValue n = false ∧ (∀ c ∈ g.dag.operands n, g.hasValue c = true) ∧
        ∃ v mask, g.compute n = .ok (v, mask) ∧ g'.cell n = store v mask (g.cell n)) := by
  have hself : (g.cell n).Summed (g.cell n) := ⟨rfl, rfl, rfl, .inl rfl, .inl rfl, .inl rfl⟩
  cases h with
  | push op ha c hc =>
    rw [cell_push, if_neg hn.ne]
    exact Or.inl hself
  | assign m v hm hp hs =>
    rw [cell_update]
    split
    · next hnm =>
      obtain ⟨rfl, -⟩ := hnm
      exact Or.inr (Or.inl ⟨hm, hp, v, hs, rfl⟩)
    · exact Or.inl hself
  | evaluate m v mask hm ho hcomp =>
    rw [cell_update]
    split
    · next hnm =>
      obtain ⟨rfl, -⟩ := hnm
      exact Or.inr (Or.inr ⟨hm, ho, v, mask, hcomp, rfl⟩)
    · exact Or.inl hself
  | sum m f hf =>
    rw [cell_update]
    split
    · next hnm =>
      obtain ⟨rfl, -⟩ := hnm
      exact Or.inl hf
    · exact Or.inl hself
  | draw | use => exact Or.inl hself

/-- **What a move does to a cell**: it takes a note, is written to, or is evaluated. -/
theorem Edit.cell_cases (h : Edit targets g g') {n : Node} (hn : n < g.size) :
    (g.cell n).Noted (g'.cell n) ∨
      (n ∈ targets ∧ g.isParameter n = true ∧ ∃ v, v.shape = (g.value n).shape ∧
        g'.cell n = { g.cell n with value := v }) ∨
      (g.hasValue n = false ∧ (∀ c ∈ g.dag.operands n, g.hasValue c = true) ∧
        ∃ v mask, g.compute n = .ok (v, mask) ∧ g'.cell n = store v mask (g.cell n)) := by
  cases h with
  | turn h => exact (h.cell_cases hn).imp_left Cell.Summed.noted
  | note m f hf =>
    rw [cell_update]
    split
    · next hnm =>
      obtain ⟨rfl, -⟩ := hnm
      exact Or.inl hf
    · exact Or.inl (.refl _)

/-- **A parameter keeps its value unless it is written to.** -/
theorem Edit.value_parameter (h : Edit targets g g') {n : Node} (hn : n < g.size)
    (hp : g.isParameter n = true) (ht : n ∉ targets) : g'.value n = g.value n := by
  rcases h.cell_cases hn with hc | ⟨hm, -⟩ | ⟨hv, -⟩
  · exact hc.value
  · exact absurd hm ht
  · simp [hasValue, hp] at hv

theorem Edits.value_parameter (h : Edits targets g g') {n : Node} (hn : n < g.size)
    (hp : g.isParameter n = true) (ht : n ∉ targets) : g'.value n = g.value n := by
  induction h with
  | refl => rfl
  | @tail b c hb he ih =>
    have hbe := Edits.extends hb
    refine (he.value_parameter (hn.trans_le hbe.size) ?_ ht).trans ih
    rwa [isParameter, hbe.op n hn]

/-! ## Gradients of parameters -/

/-- The gradient of a parameter has the shape of its value. -/
def GradsFit (g : Graph K E) : Prop :=
  ∀ n, g.isParameter n = true → (g.grad n).shape = (g.value n).shape

/-- What is stored for a vertex that was not there before. -/
theorem Turn.cell_of_size_le (h : Turn targets g g') {n : Node} (hn : g.size ≤ n) :
    g'.cell n = .blank ∨ g'.isParameter n = true ∧ ∃ v, g'.cell n = .parameter v := by
  cases h with
  | push op ha c hc =>
    rw [isParameter, op_push, cell_push]
    split
    · exact hc
    · exact Or.inl (Graph.cell_of_size_le g hn)
  | assign | evaluate | sum | draw | use => exact Or.inl (Graph.cell_of_size_le _ hn)

/-- A vertex that was not there before starts with a gradient of the right shape. -/
theorem Edit.shape_of_size_le (h : Edit targets g g') {n : Node} (hn : g.size ≤ n) :
    (g'.grad n).shape = (g'.value n).shape := by
  have hcell : g'.cell n = .blank ∨ ∃ v, g'.cell n = .parameter v := by
    cases h with
    | turn h => exact (h.cell_of_size_le hn).imp_right And.right
    | note => exact Or.inl (cell_of_size_le _ hn)
  rw [Graph.grad, Graph.value]
  rcases hcell with hcell | ⟨v, hcell⟩ <;> rw [hcell] <;> rfl

/-- A gradient that has the shape of the value keeps it. -/
theorem Edit.shape_grad (h : Edit targets g g') {n : Node}
    (hfit : n < g.size → (g.grad n).shape = (g.value n).shape) :
    (g'.grad n).shape = (g'.value n).shape := by
  by_cases hn : n < g.size
  · have hfit := hfit hn
    unfold Graph.grad Graph.value at hfit ⊢
    rcases h.cell_cases hn with hc | ⟨-, -, v, hs, hc⟩ | ⟨-, -, v, mask, -, hc⟩
    · rw [hc.value]
      exact hc.grad.elim (fun h => h.trans hfit) fun h => h
    · rw [hc]
      exact hfit.trans hs.symm
    · rw [hc]
      rfl
  · exact h.shape_of_size_le (not_lt.1 hn)

theorem Edit.gradsFit (h : Edit targets g g') (hg : g.GradsFit) : g'.GradsFit := fun n hp =>
  h.shape_grad fun hn => hg n (by rwa [isParameter, h.extends.op n hn] at hp)

theorem Edits.gradsFit (h : Edits targets g g') (hg : g.GradsFit) : g'.GradsFit :=
  Step.keeps_of_moves (fun _ _ he => he.gradsFit) h hg

end Graph

end DiffGraph
