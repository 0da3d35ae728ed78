/-
  What a vertex means.

  `Graph.denote` is the value of the expression below a vertex, computed by
  recursion from the current values of the parameters, without regard to what is
  stored.

  * `Fresh`: the values that are stored below a root are what their vertices
    mean.  Every move that writes to no parameter below the root keeps it so
    (`Edits.fresh`);
  * `answer_valueOf`: then an evaluation answers what the root means, value or
    failure.

  A dropout of rate zero drops nothing, whatever is drawn.
-/
import DiffGraph.Proofs.Evaluation

namespace DiffGraph

variable {K E : Type} [Scalar K]

/-- No sample is negative: a rate that a sample is below is positive. -/
def Noise.Nonneg (noise : Noise K) : Prop :=
  ∀ i rate, Scalar.lt (noise.uniform i) rate = true → Scalar.lt 0 rate = true

/-- The operation is no dropout of positive rate. -/
def Op.Keeps : Op K → Prop
  | .dropout rate _ => Scalar.lt 0 rate = false
  | _ => True

/-- An operation that keeps all entries has the same mask for all samples. -/
theorem Op.freshMask_of_keeps [Arith E] [Laned K E] {op : Op K} (h : op.Keeps)
    {noise noise' : Noise K} (hn : noise.Nonneg) (hn' : noise'.Nonneg) (first : Nat)
    (val : Node → Matrix E) :
    op.freshMask (fun i => noise.uniform (first + i)) val = op.freshMask noise'.uniform val := by
  cases op with
  | dropout rate l =>
    have hlt : ∀ (noise : Noise K), noise.Nonneg → ∀ i,
        Scalar.lt (noise.uniform i) rate = false := by
      intro noise hn i
      by_contra hi
      have hpos := hn i rate (by simpa using hi)
      rw [show Scalar.lt 0 rate = false from h] at hpos
      cases hpos
    simp only [freshMask, drawMask, hlt noise hn, hlt noise' hn']
  | _ => rfl

namespace Graph

variable [Arith E] [Laned K E]

/-- No vertex below a root drops entries. -/
def Keeps (g : Graph K E) (root : Node) : Prop := ∀ n, g.dag.Below root n → (g.op n).Keeps

/-- How the value of a vertex is computed from what its operands mean. -/
def rule (g : Graph K E) (n : Node) (val : Node → Matrix E) : Except Failure (Matrix E) := do
  let mask ← (g.op n).freshMask g.noise.uniform val
  (g.op n).value (g.value n) mask val

/-- What a vertex means: the value of the expression below it. -/
def denote (g : Graph K E) (root : Node) : Except Failure (Matrix E) := g.dag.recurse g.rule root

theorem local_rule (g : Graph K E) : g.dag.Local g.rule := by
  intro n v w h
  have hvw : ∀ c ∈ (g.op n).operands, v c = w c := h
  unfold rule
  rw [Op.freshMask_congr hvw]
  cases (g.op n).freshMask g.noise.uniform w with
  | error e => rfl
  | ok mask => exact Op.value_congr hvw

section
variable {g g' : Graph K E} {root n : Node}

theorem denote_of_ok (h : ∀ c ∈ g.dag.operands n, g.denote c = .ok (g.value c)) :
    g.denote n = g.rule n g.value :=
  Dag.recurse_of_ok g.local_rule h

/-- A parameter means its value. -/
theorem denote_parameter (h : g.isParameter n = true) : g.denote n = .ok (g.value n) := by
  rw [denote_of_ok (by simp [operands_eq_nil h])]
  unfold rule
  rw [op_eq_parameter h]
  rfl

/-- A graph with the operations and the parameters of another one below a root. -/
structure Copies (g g' : Graph K E) (root : Node) : Prop where
  size : root < g.size
  size' : root < g'.size
  op : ∀ n ≤ root, g'.op n = g.op n
  value : ∀ n, g.dag.Below root n → g.isParameter n = true → g'.value n = g.value n
  keeps : g.Keeps root
  nonneg : g.noise.Nonneg
  nonneg' : g'.noise.Nonneg

omit [Arith E] [Laned K E] in
theorem Copies.operands (h : g.Copies g' root) : ∀ m ≤ root, g'.dag.operands m = g.dag.operands m :=
  fun m hm => congrArg Op.operands (h.op m hm)

omit [Arith E] [Laned K E] in
theorem Copies.below_iff (h : g.Copies g' root) : g'.dag.Below root n ↔ g.dag.Below root n :=
  Dag.below_congr h.operands

/-- **Graphs with the same operations and parameters mean the same.** -/
theorem Copies.denote (h : g.Copies g' root) (hn : g.dag.Below root n) :
    g'.denote n = g.denote n := by
  refine Dag.recurse_congr g.local_rule n fun m hm => ?_
  have hrm := hn.trans hm
  refine ⟨h.operands m hrm.le, fun val => ?_⟩
  have hmask : (g'.op m).freshMask g'.noise.uniform val =
      (g.op m).freshMask g.noise.uniform val := by
    rw [h.op m hrm.le]
    simpa using Op.freshMask_of_keeps (h.keeps m hrm) h.nonneg' h.nonneg 0 val
  unfold rule
  rw [hmask, h.op m hrm.le]
  cases hp : g.isParameter m with
  | true => rw [h.value m hrm hp]
  | false =>
    cases (g.op m).freshMask g.noise.uniform val with
    | error e => rfl
    | ok mask => exact Op.value_own hp _ _ _ _

/-- Moves that write to no parameter below a root leave a copy. -/
theorem Edits.copies {targets : List Node} (h : Edits targets g g') (hroot : root < g.size)
    (ht : ∀ n ∈ targets, ¬ g.dag.Below root n) (hk : g.Keeps root) (hn : g.noise.Nonneg) :
    g.Copies g' root where
  size := hroot
  size' := hroot.trans_le h.extends.size
  op n hnr := h.extends.op n (hnr.trans_lt hroot)
  value n hb hp := h.value_parameter (hb.le.trans_lt hroot) hp fun hmem => ht n hmem hb
  keeps := hk
  nonneg := hn
  nonneg' := h.extends.noise ▸ hn

omit [Arith E] [Laned K E] in
theorem Copies.keeps' (h : g.Copies g' root) : g'.Keeps root := fun n hn => by
  have hb := h.below_iff.1 hn
  rw [h.op n hb.le]
  exact h.keeps n hb

end

/-! ## Stored values -/

/-- The values that are stored below a root are what their vertices mean. -/
def Fresh (g : Graph K E) (root : Node) : Prop :=
  ∀ n, g.dag.Below root n → g.hasValue n = true → g.denote n = .ok (g.value n)

section
variable {g g' : Graph K E} {root n : Node} {targets : List Node}

/-- What is computed for a vertex follows its rule, whatever is drawn. -/
theorem compute_fst (hk : (g.op n).Keeps) (hn : g.noise.Nonneg) :
    (g.compute n).map Prod.fst = g.rule n g.value := by
  unfold compute rule
  rw [Op.freshMask_of_keeps hk hn hn]
  cases (g.op n).freshMask g.noise.uniform g.value with
  | error e => rfl
  | ok mask =>
    simp only [bind, Except.bind]
    cases (g.op n).value (g.value n) mask g.value <;> rfl

/-- A vertex whose operands have fresh values is evaluated to what it means. -/
theorem Fresh.compute (h : g.Fresh root) (hk : g.Keeps root) (hn : g.noise.Nonneg)
    (hb : g.dag.Below root n) (ho : ∀ c ∈ g.dag.operands n, g.hasValue c = true) :
    (g.compute n).map Prod.fst = g.denote n := by
  rw [compute_fst (hk n hb) hn, denote_of_ok fun c hc => h c (hb.operand hc) (ho c hc)]

theorem Edit.fresh (h : Edit targets g g') (hroot : root < g.size)
    (ht : ∀ n ∈ targets, ¬ g.dag.Below root n) (hk : g.Keeps root) (hn : g.noise.Nonneg)
    (hf : g.Fresh root) : g'.Fresh root := by
  have hc := Edits.copies (.single h) hroot ht hk hn
  intro n hb' hv
  have hb := hc.below_iff.1 hb'
  rw [hc.denote hb]
  rcases h.cell_cases (hb.le.trans_lt hroot) with hcell | ⟨hm, -⟩ | ⟨-, ho, v, mask, hcomp, hcell⟩
  · -- the cell is as before, or only lost its value
    have hv' : g.hasValue n = true := by
      rw [hasValue, isParameter, hc.op n hb.le, Bool.or_eq_true] at hv
      exact Bool.or_eq_true_iff.2 (hv.imp_left hcell.hasValue)
    rw [value, hcell.value]
    exact hf n hb hv'
  · exact absurd hb (ht n hm)
  · rw [← hf.compute hk hn hb ho, hcomp, value, hcell]
    rfl

/-- **Stored values stay fresh** under all moves that write to no parameter below
the root. -/
theorem Edits.fresh (h : Edits targets g g') (hroot : root < g.size)
    (ht : ∀ n ∈ targets, ¬ g.dag.Below root n) (hk : g.Keeps root) (hn : g.noise.Nonneg)
    (hf : g.Fresh root) : g'.Fresh root := by
  induction h with
  | refl => exact hf
  | tail hb he ih =>
    have hc := Edits.copies hb hroot ht hk hn
    exact he.fresh hc.size' (fun n hnt hnb => ht n hnt (hc.below_iff.1 hnb)) hc.keeps' hc.nonneg' ih

/-- The values of parameters are fresh. -/
theorem Unevaluated.fresh (h : g.Unevaluated root) : g.Fresh root := fun _ hb hv =>
  denote_parameter (h.isParameter hb hv)

/-- A value is read after an evaluation. -/
theorem answer_valueOf_eq (g : Graph K E) (root : Node) :
    (valueOf root).answer g =
      ((evaluate root).answer g).map fun _ => ((evaluate root).final g).value root := by
  unfold valueOf Step.answer Step.final
  rw [EStateM.run_bind]
  cases (evaluate root).run g <;> rfl

section
variable {pre : List Node}

/-- The values that are there when an evaluation stops are what their vertices mean. -/
theorem Evaluated.denote_of_ok (h : Evaluated g g' pre) (he : Edits [] g g') (hf : g.Fresh root)
    (hroot : root < g.size) (hk : g.Keeps root) (hn : g.noise.Nonneg) (hb : g.dag.Below root n)
    (hv : g.hasValue n = true ∨ n ∈ pre) : g.denote n = .ok (g'.value n) := by
  have hc := Edits.copies he hroot (by simp) hk hn
  rw [← hc.denote hb]
  exact he.fresh hroot (by simp) hk hn hf n (hc.below_iff.2 hb) (h.hasValue hv)

/-- The vertex at which an evaluation fails means nothing, for the same reason. -/
theorem Evaluated.denote_of_error (h : Evaluated g g' pre) (he : Edits [] g g')
    (hf : g.Fresh root) (hroot : root < g.size) (hk : g.Keeps root) (hn : g.noise.Nonneg)
    {post : List Node} (hl : g.missing root = pre ++ n :: post) {e : Failure}
    (hcomp : g'.compute n = .error e) : g.denote n = .error e := by
  have hc := Edits.copies he hroot (by simp) hk hn
  have hf' := he.fresh hroot (by simp) hk hn hf
  have hb : g.dag.Below root n := below_of_mem_missing hroot (by simp [hl])
  have ho : ∀ c ∈ g'.dag.operands n, g'.hasValue c = true := fun c hcn =>
    h.hasValue (hasValue_or_mem_of_missing_eq hl (h.dag ▸ hcn))
  rw [← hc.denote hb, ← hf'.compute hc.keeps' hc.nonneg' (hc.below_iff.2 hb) ho, hcomp]
  rfl

end

/-- **An evaluation answers what the root means.** -/
theorem answer_valueOf (hf : g.Fresh root) (hroot : root < g.size) (hk : g.Keeps root)
    (hn : g.noise.Nonneg) : (valueOf root).answer g = g.denote root := by
  rw [answer_valueOf_eq]
  rcases evaluate_cases g root with ⟨g', hr, hs, ht⟩ | ⟨pre, n, post, e, g', hl, hs, ht, hcomp, hr⟩
  · have hself : g.dag.Below root root := .refl _ _
    rw [Step.answer_of_run_ok hr, Step.final_of_run_ok hr,
      hs.denote_of_ok ht.edits hf hroot hk hn hself (hasValue_or_mem_missing hroot)]
    rfl
  · have hfirst : firstFailure g.denote (g.missing root) = firstFailure g.denote [root] :=
      Dag.firstFailure_traverse hroot Dag.firstFailure_operands fun n hb hv =>
        ⟨_, hf n hb (by simpa using hv)⟩
    have hpre : firstFailure g.denote pre = .ok () := firstFailure_eq_ok_iff.2 fun m hm => by
      have hb : g.dag.Below root m := below_of_mem_missing hroot (by simp [hl, hm])
      exact ⟨_, hs.denote_of_ok ht.edits hf hroot hk hn hb (Or.inr hm)⟩
    -- the first vertex that fails gives its failure to the root
    rw [hl, firstFailure_append_of_ok hpre, firstFailure,
      hs.denote_of_error ht.edits hf hroot hk hn hl hcomp, firstFailure] at hfirst
    rw [Step.answer_of_run_error hr]
    cases hroot : g.denote root with
    | ok v => rw [hroot] at hfirst; cases hfirst
    | error e' => rw [hroot] at hfirst; cases hfirst; rfl

end

end Graph

end DiffGraph
