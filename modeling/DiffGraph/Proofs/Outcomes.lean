/-
  How an evaluation ends.

  Whether an evaluation succeeds, where it stops otherwise, and for which cause, is
  settled by the operations below its root and by the shapes of the parameters.

  * `Op.refusal`: why an operation has no value, from the shapes of its operands;
  * `Graph.exists_ends`: an evaluation stops at the first missing vertex that refuses
    its operands (`Graph.obstacle`), if there is one;
  * `Graph.Fits`: a value that is there has the shape of its vertex, and what stands
    below it can be evaluated again.  Every move keeps this (`Edits.fits`);
  * `Graph.ends_by_shapes`: graphs that are the same up to names and entries are
    evaluated to the same end, and a root that was evaluated once can always be evaluated
    again.
-/
import DiffGraph.Proofs.Mirror

namespace DiffGraph

open Relation

variable {K E : Type}

namespace Op

/-! ## The cause of a failure -/

/-- The cause `e`, unless a condition holds. -/
def check (p : Prop) [Decidable p] (e : Failure) : Option Failure := if p then none else some e

/-- Why an operation whose operands have the shapes `s` has no value, if it has none. -/
def refusal [Scalar K] (s : Node → Shape) : Op K → Option Failure
  | parameter | neg _ | func .. | sum _ | flatten _ => none
  | add l r => check (s l = s r) (.shapeMismatch (s l) (s r) "add")
  | dot l r => check (s l = s r) (.shapeMismatch (s l) (s r) "dot")
  | max l r => check (s l = s r) (.shapeMismatch (s l) (s r) "max")
  | mul l r => check ((s l).2 = (s r).1) (.shapeMismatch ((s l).2, (s r).2) (s r) "matmul")
  | div _ r => check (s r = (1, 1)) (.divisorNotScalar (s r))
  | slice rect l =>
    check (rect.Admitted (s l)) (.rectOutside rect (s l)) <|>
      check (rect.Inside (s l)) .outOfRange
  | convolution size input kernel bias =>
    check (size ≠ 0 ∧ s kernel = (size, size))
        (.shapeMismatch (size, size) (s kernel) "convolution kernel") <|>
      check (size ≤ (s input).1 ∧ size ≤ (s input).2)
        (.shapeMismatch (size, size) (s input) "convolution input") <|>
      check (s bias = (1, 1)) (.shapeMismatch (1, 1) (s bias) "convolution bias")
  | maxPool size l =>
    check (size ≠ 0) .emptyWindow <|>
      check ((s l).area = 0 ∨ (s l).1 ≤ Matrix.windowCount (s l).1 size * size ∧
        (s l).2 ≤ Matrix.windowCount (s l).2 size * size) .outOfRange
  | dropout rate _ => check (rateOk rate = true) (.rateOutside (Scalar.text rate))
  | logSoftmax l => check ((s l).area ≠ 0) (.shapeMismatch (1, 1) (s l) "log_softmax")

section
variable {p : Prop} [Decidable p] {e e' : Failure}

theorem check_eq_none : check p e = none ↔ p := by
  unfold check
  split <;> simp_all

theorem check_eq_some : check p e = some e' ↔ ¬ p ∧ e = e' := by
  unfold check
  split <;> simp_all

/-- The first of two causes. -/
theorem check_orElse_eq_some {o : Option Failure} :
    (check p e <|> o) = some e' ↔ (¬ p ∧ e = e') ∨ (p ∧ o = some e') := by
  unfold check
  split <;> simp_all

end

section
variable [Scalar K]

theorem refusal_congr {op : Op K} {s t : Node → Shape} (h : ∀ c ∈ op.operands, s c = t c) :
    op.refusal s = op.refusal t := by
  cases op with
  | parameter | neg | func | sum | flatten | dropout => rfl
  | add l r | dot l r | max l r | mul l r | div l r =>
    simp only [refusal, h l (by simp [operands]), h r (by simp [operands])]
  | slice rect l | maxPool size l | logSoftmax l =>
    simp only [refusal, h l (by simp [operands])]
  | convolution size input kernel bias =>
    simp only [refusal, h input (by simp [operands]), h kernel (by simp [operands]),
      h bias (by simp [operands])]

theorem refusal_rename (f : Node → Node) (op : Op K) (s : Node → Shape) :
    (op.rename f).refusal s = op.refusal fun c => s (f c) := by
  cases op <;> rfl

/-- **There is a cause unless the operation can be evaluated.** -/
theorem refusal_eq_none {op : Op K} {s : Node → Shape} : op.refusal s = none ↔ op.Evaluable s := by
  unfold Evaluable
  cases op with
  | parameter | neg | func | sum | flatten => simp [refusal, Sound, Accepts]
  | add | dot | max | mul | div | logSoftmax => simp [refusal, Sound, Accepts, check_eq_none]
  | slice | maxPool => simp [refusal, Sound, Accepts, check_eq_none]
  | convolution => simp [refusal, Sound, Accepts, check_eq_none, and_assoc]
  | dropout => simp [refusal, Sound, Accepts, check_eq_none, shape]

variable [Arith E] [Laned K E] {op : Op K} {e : Failure} {val : Node → Matrix E}

/-- **An operation with a cause fails for this cause**, whatever its operands hold. -/
theorem error_of_refusal (h : op.refusal (fun c => (val c).shape) = some e) (draw : Nat → K)
    (own : Matrix E) :
    (do
      let mask ← op.freshMask draw val
      let v ← op.value own mask val
      return (v, mask)) = (.error e : Except Failure (Matrix E × Matrix E)) := by
  have hfails : ∀ mask : Matrix E, op.freshMask draw val = .ok mask →
      op.value own mask val = .error e → (do
        let mask ← op.freshMask draw val
        let v ← op.value own mask val
        return (v, mask)) = (.error e : Except Failure (Matrix E × Matrix E)) := by
    intro mask hm hv
    rw [hm, ok_bind, hv]
    rfl
  cases op with
  | parameter | neg | func | sum | flatten => cases h
  | add l r | dot l r | max l r =>
    obtain ⟨hne, rfl⟩ := check_eq_some.1 h
    exact hfails .empty rfl (dif_neg fun heq => hne (Prod.ext heq.1 heq.2))
  | mul l r =>
    obtain ⟨hne, rfl⟩ := check_eq_some.1 h
    exact hfails .empty rfl (if_neg hne)
  | div l r =>
    obtain ⟨hne, rfl⟩ := check_eq_some.1 h
    exact hfails .empty rfl (if_neg fun hs => hne (Matrix.isScalar_iff.1 hs))
  | slice rect l =>
    refine hfails .empty rfl ?_
    have hcheck : (val l).checkRect rect = .error e := by
      rw [Matrix.checkRect]
      rcases check_orElse_eq_some.1 h with ⟨hne, rfl⟩ | ⟨hadmitted, hinside⟩
      · exact if_pos hne
      · obtain ⟨hne, rfl⟩ := check_eq_some.1 hinside
        rw [if_neg (not_not_intro hadmitted), if_pos hne]
    rw [value, Matrix.block, hcheck]
    rfl
  | convolution size input kernel bias =>
    refine hfails .empty rfl ?_
    rw [value, Matrix.convolve]
    rcases check_orElse_eq_some.1 h with ⟨hne, rfl⟩ | ⟨hkernel, h⟩
    · exact if_pos (by rwa [not_and_or, not_not] at hne)
    rw [if_neg (by rwa [not_or, not_not])]
    rcases check_orElse_eq_some.1 h with ⟨hne, rfl⟩ | ⟨hinput, h⟩
    · exact if_pos (by rwa [not_and_or, Nat.not_le, Nat.not_le] at hne)
    obtain ⟨hbias, rfl⟩ := check_eq_some.1 h
    rw [if_neg (by rwa [not_or, Nat.not_lt, Nat.not_lt])]
    exact if_pos fun hs => hbias (Matrix.isScalar_iff.1 hs)
  | maxPool size l =>
    refine hfails .empty rfl ?_
    rw [value, Matrix.maxPool]
    rcases check_orElse_eq_some.1 h with ⟨hzero, rfl⟩ | ⟨hsize, h⟩
    · exact if_pos (not_not.1 hzero)
    obtain ⟨hne, rfl⟩ := check_eq_some.1 h
    dsimp only
    rw [if_neg hsize, if_pos fun htiled => hne (Matrix.tiled_iff.1 htiled)]
  | dropout rate l =>
    obtain ⟨hne, rfl⟩ := check_eq_some.1 h
    have hm : (Op.dropout rate l).freshMask draw val = .error (.rateOutside (Scalar.text rate)) :=
      if_neg hne
    rw [hm]
    rfl
  | logSoftmax l =>
    obtain ⟨hempty, rfl⟩ := check_eq_some.1 h
    refine hfails .empty rfl ?_
    have hdata : (val l).data = #[] := by
      rw [← Array.isEmpty_iff]
      exact (val l).isEmpty_iff.2 (not_not.1 hempty)
    rw [value, Matrix.logSoftmax, Matrix.largest?, hdata]

end

end Op

namespace Graph

variable [Scalar K] {g g' s s' t : Graph K E} {root root' n : Node} {f : Node → Node}
  {targets : List Node}

/-! ## Values that fit -/

/-- A value that is there has the shape of its vertex, and what stands below it can be
evaluated. -/
def Fits (g : Graph K E) (n : Node) : Prop :=
  g.hasValue n = true → (g.value n).shape = g.shapes n ∧ g.Evaluable n

theorem fits_parameter (hp : g.isParameter n = true) : g.Fits n := by
  refine fun _ => ⟨(shapes_parameter hp).symm, fun m hm => ?_⟩
  rcases ReflTransGen.cases_head hm with rfl | ⟨c, hc, -⟩
  · exact evaluable_parameter hp
  · rw [Dag.Descends, operands_eq_nil hp] at hc
    cases hc.2

/-- A vertex can be evaluated if its operands can, and if it accepts them. -/
theorem evaluable_of_operands (h : (g.op n).Evaluable g.shapes)
    (ho : ∀ c ∈ g.dag.operands n, g.Evaluable c) : g.Evaluable n := by
  intro m hm
  rcases ReflTransGen.cases_head hm with rfl | ⟨c, hc, hm⟩
  · exact h
  · exact ho c hc.2 m hm

omit [Scalar K] in
theorem Unevaluated.hasValue_eq (h : g.Unevaluated root) (hn : g.dag.Below root n) :
    g.hasValue n = g.isParameter n := by
  cases hp : g.isParameter n with
  | true => exact hasValue_of_isParameter hp
  | false => exact h n hn hp

theorem Unevaluated.fits (h : g.Unevaluated root) (hn : g.dag.Below root n) : g.Fits n := by
  intro hv
  rw [h.hasValue_eq hn] at hv
  exact fits_parameter hv (hasValue_of_isParameter hv)

variable [Arith E] [Laned K E]

/-- **A move keeps the values that fit.** -/
theorem Edit.fits (he : Edit targets g g') (hn : n < g.size) (h : g.Fits n)
    (ho : ∀ c ∈ g.dag.operands n, g.Fits c) : g'.Fits n := by
  have hp : g'.isParameter n = g.isParameter n := congrArg Op.isParameter (he.extends.op n hn)
  have hshapes : g'.shapes n = g.shapes n := Edits.shapes (.single he) n hn
  intro hv'
  rcases he.cell_cases hn with hc | ⟨-, hpn, -⟩ | ⟨-, hvalues, v, mask, hcomp, hc⟩
  · have hv : g.hasValue n = true := by
      rw [hasValue, Bool.or_eq_true, hp] at hv'
      rw [hasValue, Bool.or_eq_true]
      exact hv'.imp_left hc.hasValue
    obtain ⟨hshape, hevaluable⟩ := h hv
    refine ⟨?_, hevaluable.of_edits (.single he) hn⟩
    rw [hshapes, Graph.value, hc.value]
    exact hshape
  · exact fits_parameter (hp.trans hpn) hv'
  · obtain ⟨hmask, hvalue⟩ := compute_eq_ok hcomp
    have hoperands : ∀ c ∈ (g.op n).operands, (g.value c).shape = g.shapes c := fun c hc =>
      (ho c hc (hvalues c hc)).1
    have hevaluable : g.Evaluable n := by
      refine evaluable_of_operands ?_ fun c hc => (ho c hc (hvalues c hc)).2
      rw [← Op.evaluable_congr hoperands]
      exact Op.evaluable_of_value hmask hvalue
    refine ⟨?_, hevaluable.of_edits (.single he) hn⟩
    rw [hshapes, Graph.value, hc, shapes_eq, ← Op.shape_congr _ hoperands]
    exact (Op.shape_of_value hvalue).2

/-- Moves keep the values below a root that fit. -/
theorem Edits.fits (h : Edits targets g g') (hroot : root < g.size)
    (hf : ∀ n, g.dag.Below root n → g.Fits n) : ∀ n, g.dag.Below root n → g'.Fits n := by
  induction h with
  | refl => exact hf
  | @tail s s' hs he ih =>
    intro n hn
    have hx : g.Extends s := Edits.extends hs
    have hlt : n < g.size := hn.le.trans_lt hroot
    refine he.fits (hlt.trans_le hx.size) (ih n hn) fun c hc => ih c (hn.operand ?_)
    rwa [Dag.operands, show s.dag.op n = g.dag.op n from hx.op n hlt] at hc

/-- A vertex that was not there before has no value that does not fit. -/
theorem Edit.fits_of_size_le (he : Edit targets g g') (hn : g.size ≤ n) : g'.Fits n := by
  have hcell : g'.cell n = .blank ∨ g'.isParameter n = true := by
    cases he with
    | turn ht => exact (ht.cell_of_size_le hn).imp_right And.left
    | note => exact .inl (cell_of_size_le _ hn)
  cases hp : g'.isParameter n with
  | true => exact fits_parameter hp
  | false =>
    intro hv
    rw [hasValue, hp, hcell.resolve_right (by simp [hp])] at hv
    cases hv

/-- Moves keep a graph all of whose values fit. -/
theorem Edits.fits_all (h : Edits targets g g') (hf : ∀ n, g.Fits n) : ∀ n, g'.Fits n :=
  Step.keeps_of_moves (I := fun s : Graph K E => ∀ n, s.Fits n)
    (fun s _ he hs n => (lt_or_ge n s.size).elim (fun hn => he.fits hn (hs n) fun c _ => hs c)
      he.fits_of_size_le) h hf

/-- **All values of a graph that calls have left fit.** -/
theorem fits_of_reachable (h : Reachable g) : ∀ n, g.Fits n := by
  induction h with
  | empty tag noise => exact fun n => fits_parameter (isParameter_of_size_le _ (Nat.zero_le n))
  | call _ c ih => exact Edits.fits_all (c.leads _) ih

/-! ## The end of an evaluation -/

theorem Evaluated.hasValue_iff {done : List Node} (h : Evaluated g g' done) :
    g'.hasValue n = true ↔ g.hasValue n = true ∨ n ∈ done := by
  refine ⟨fun hv => ?_, h.hasValue⟩
  by_cases hn : n ∈ done
  · exact .inr hn
  · rw [Graph.hasValue, h.old n hn, Graph.isParameter, h.op] at hv
    exact .inl hv

theorem refusal_of_compute {e : Failure} (h : g.compute n = .error e) :
    (g.op n).refusal (fun c => (g.value c).shape) = some e := by
  cases hr : (g.op n).refusal (fun c => (g.value c).shape) with
  | none =>
    obtain ⟨x, hx⟩ := exists_compute (Op.refusal_eq_none.1 hr)
    rw [hx] at h
    cases h
  | some e' =>
    have herror : g.compute n = .error e' :=
      Op.error_of_refusal hr (fun i => g.noise.uniform (g.drawn + i)) (g.value n)
    rw [herror] at h
    cases h
    rfl

/-- **A root whose operations accept their operands can be evaluated**, whatever stands
there already. -/
theorem Evaluable.run_evaluate_of_fits (he : g.Evaluable root) (hroot : root < g.size)
    (hf : ∀ n, g.dag.Below root n → g.Fits n) :
    ∃ g', (evaluate root).run g = .ok () g' ∧ Evaluated g g' (g.missing root) ∧ Turns [] g g' := by
  rcases evaluate_cases g root with hok | ⟨pre, n, post, e, g', hl, hev, ht, hcomp, -⟩
  · exact hok
  · have hn : g.dag.Below root n := below_of_mem_missing hroot (by simp [hl])
    have hvalues : ∀ c ∈ (g'.op n).operands, (g'.value c).shape = g'.shapes c := fun c hc => by
      rw [hev.op] at hc
      exact (ht.edits.fits hroot hf c (hn.operand hc)
        (hev.hasValue (hasValue_or_mem_of_missing_eq hl hc))).1
    have hrefusal := refusal_of_compute hcomp
    rw [Op.refusal_congr hvalues, Op.refusal_eq_none.2] at hrefusal
    · cases hrefusal
    · exact he.of_edits ht.edits hroot n (hev.dag ▸ hn)

/-- The first vertex that an evaluation has to compute and that refuses its operands, and
the cause. -/
def obstacle (g : Graph K E) (root : Node) : Option (Node × Failure) :=
  (g.missing root).findSome? fun n => ((g.op n).refusal g.shapes).map (n, ·)

/-- What an evaluation computes. -/
def computed (g : Graph K E) (root : Node) : List Node :=
  (g.missing root).takeWhile fun n => ((g.op n).refusal g.shapes).isNone

/-- The ways in which an evaluation ends: all vertices have values, or there is a vertex
that fails when those before it have been computed. -/
inductive Ends (g : Graph K E) (root : Node) : Option (Node × Failure) → Graph K E → Prop where
  | evaluated {s : Graph K E} (hv : ∀ n, g.dag.Below root n → s.hasValue n = true)
    (hr : (evaluate root).run g = .ok () s) : Ends g root none s
  | stopped {s : Graph K E} {pre post : List Node} {n : Node} {e : Failure}
    (hl : g.missing root = pre ++ n :: post) (hv : ∀ m ∈ pre, s.hasValue m = true)
    (hn : s.hasValue n = false) (hc : s.compute n = .error e)
    (hr : (evaluate root).run g = .error e s) : Ends g root (some (n, e)) s

/-- **The end of an evaluation** of a root below which nothing has a value. -/
theorem Unevaluated.exists_ends (hu : g.Unevaluated root) (hroot : root < g.size) :
    ∃ s, g.Ends root (g.obstacle root) s ∧ Evaluated g s (g.computed root) ∧
      ∀ n, g.dag.Below root n → s.hasValue n = true → (s.value n).shape = g.shapes n := by
  have hlt : ∀ m, g.dag.Below root m → m < g.size := fun m hm => hm.le.trans_lt hroot
  -- a value that is there at the end has the shape of its vertex, which did not refuse
  have hend : ∀ s, Turns [] g s → ∀ m, g.dag.Below root m → s.hasValue m = true →
      (s.value m).shape = g.shapes m ∧ (g.op m).refusal g.shapes = none := by
    intro s ht m hm hv
    have hshapes : ∀ c, g.dag.Below root c → s.shapes c = g.shapes c := fun c hc =>
      Edits.shapes ht.edits c (hlt c hc)
    obtain ⟨hshape, hevaluable⟩ := ht.edits.fits hroot (fun _ => hu.fits) m hm hv
    refine ⟨hshape.trans (hshapes m hm), ?_⟩
    have hop : s.op m = g.op m := ht.edits.extends.op m (hlt m hm)
    have haccepts : (g.op m).Evaluable s.shapes := hop ▸ hevaluable m (.refl _ _)
    exact Op.refusal_eq_none.2
      ((Op.evaluable_congr fun c hc => hshapes c (hm.operand hc)).1 haccepts)
  rcases evaluate_cases g root with ⟨s, hr, hev, ht⟩ | ⟨pre, n, post, e, s, hl, hev, ht, hc, hr⟩
  · have hnone : ∀ m ∈ g.missing root, (g.op m).refusal g.shapes = none := fun m hm =>
      (hend s ht m (below_of_mem_missing hroot hm) (hev.hasValue (.inr hm))).2
    have hobstacle : g.obstacle root = none := List.findSome?_eq_none_iff.2 fun m hm => by
      rw [hnone m hm]
      rfl
    have hcomputed : g.computed root = g.missing root := List.takeWhile_eq_self_iff.2 fun m hm => by
      rw [hnone m hm]
      rfl
    rw [hobstacle, hcomputed]
    refine ⟨s, .evaluated (fun m hm => ?_) hr, hev, fun m hm hv => (hend s ht m hm hv).1⟩
    exact hev.hasValue (hu.consistent.hasValue_or_mem hroot hm)
  · have hmem : n ∈ g.missing root := by simp [hl]
    have hbelow : g.dag.Below root n := below_of_mem_missing hroot hmem
    have hnone : ∀ m ∈ pre, (g.op m).refusal g.shapes = none := fun m hm =>
      (hend s ht m (below_of_mem_missing hroot (hl ▸ List.mem_append_left _ hm))
        (hev.hasValue (.inr hm))).2
    have hrefusal : (g.op n).refusal g.shapes = some e := by
      rw [← refusal_of_compute hc, hev.op]
      refine Op.refusal_congr fun c hcn => ((hend s ht c (hbelow.operand hcn) ?_).1).symm
      exact hev.hasValue (hasValue_or_mem_of_missing_eq hl hcn)
    have hobstacle : g.obstacle root = some (n, e) := by
      rw [obstacle, hl, List.findSome?_append, List.findSome?_eq_none_iff.2 fun m hm => by
        rw [hnone m hm]; rfl]
      simp [hrefusal]
    have hcomputed : g.computed root = pre := by
      rw [Graph.computed, hl, List.takeWhile_append_of_pos fun m hm => by rw [hnone m hm]; rfl,
        List.takeWhile_cons_of_neg (by simp [hrefusal]), List.append_nil]
    rw [hobstacle, hcomputed]
    have hnodup : (g.missing root).Nodup := Dag.nodup_traverse root
    have hn : n ∉ pre := by
      rw [hl, List.nodup_append] at hnodup
      exact fun hn => hnodup.2.2 n hn n List.mem_cons_self rfl
    have hvn : s.hasValue n = g.hasValue n := by
      rw [Graph.hasValue, hev.old n hn, Graph.isParameter, hev.op]
      rfl
    exact ⟨s, .stopped hl (fun m hm => hev.hasValue (.inr hm))
      (hvn.trans (hasValue_of_mem_missing hmem)) hc hr, hev, fun m hm hv => (hend s ht m hm hv).1⟩

/-! ## The same end in two places -/

section
variable (hr : g.dag.Renamed g'.dag root root' f)
  (hs : ∀ n, g.dag.Below root n → g.isParameter n = true →
    (g'.value (f n)).shape = (g.value n).shape)
include hr hs

omit [Arith E] [Laned K E] in
/-- Vertices that stand for each other refuse their operands for the same cause. -/
theorem refusal_of_renamed (hn : g.dag.Below root n) :
    (g'.op (f n)).refusal g'.shapes = (g.op n).refusal g.shapes := by
  have hop : g'.op (f n) = (g.op n).rename f := hr.op n hn
  rw [hop, Op.refusal_rename]
  exact Op.refusal_congr fun c hc => shapes_of_renamed hr hs (hn.operand hc)

variable (hroot : root < g.size) (hroot' : root' < g'.size) (hu : g.Unevaluated root)
  (hu' : g'.Unevaluated root')
include hroot hroot' hu hu'

omit [Scalar K] [Arith E] [Laned K E] hs in
theorem missing_of_renamed : g'.missing root' = (g.missing root).map f := by
  refine hr.traverse hroot hroot' fun n hn => ?_
  rw [hu'.hasValue_eq (hr.below hn), hu.hasValue_eq hn, isParameter_of_renamed hr hn]

omit [Arith E] [Laned K E] in
theorem obstacle_of_renamed :
    g'.obstacle root' = (g.obstacle root).map fun p => (f p.1, p.2) := by
  have hrefusal : ∀ n ∈ g.missing root, (g'.op (f n)).refusal g'.shapes =
      (g.op n).refusal g.shapes := fun n hn =>
    refusal_of_renamed hr hs (below_of_mem_missing hroot hn)
  rw [obstacle, obstacle, missing_of_renamed hr hroot hroot' hu hu', List.findSome?_map]
  generalize g.missing root = l at hrefusal
  induction l with
  | nil => rfl
  | cons n l ih =>
    have hrest := ih fun m hm => hrefusal m (List.mem_cons_of_mem _ hm)
    rw [List.findSome?_cons, List.findSome?_cons, hrest, Function.comp_apply,
      hrefusal n List.mem_cons_self]
    cases (g.op n).refusal g.shapes <;> rfl

omit [Arith E] [Laned K E] in
theorem computed_of_renamed : g'.computed root' = (g.computed root).map f := by
  have hrefusal : ∀ n ∈ g.missing root, (g'.op (f n)).refusal g'.shapes =
      (g.op n).refusal g.shapes := fun n hn =>
    refusal_of_renamed hr hs (below_of_mem_missing hroot hn)
  rw [computed, computed, missing_of_renamed hr hroot hroot' hu hu', List.takeWhile_map]
  generalize g.missing root = l at hrefusal
  induction l with
  | nil => rfl
  | cons n l ih =>
    have hrest := ih fun m hm => hrefusal m (List.mem_cons_of_mem _ hm)
    rw [List.takeWhile_cons, List.takeWhile_cons, Function.comp_apply,
      hrefusal n List.mem_cons_self]
    split
    · rw [List.map_cons, List.map_cons, hrest]
    · rfl

/-- **Two evaluations end alike**, and what they leave has the same shapes. -/
theorem exists_ends_of_renamed :
    ∃ stop s s', g.Ends root stop s ∧ g'.Ends root' (stop.map fun p => (f p.1, p.2)) s' ∧
      ∀ n, g.dag.Below root n → s'.hasValue (f n) = s.hasValue n ∧
        (s.hasValue n = true → (s'.value (f n)).shape = (s.value n).shape) := by
  obtain ⟨s, hends, hev, hshape⟩ := hu.exists_ends hroot
  obtain ⟨s', hends', hev', hshape'⟩ := hu'.exists_ends hroot'
  rw [obstacle_of_renamed hr hs hroot hroot' hu hu'] at hends'
  rw [computed_of_renamed hr hs hroot hroot' hu hu'] at hev'
  refine ⟨_, s, s', hends, hends', fun n hn => ?_⟩
  have hbelow : ∀ m ∈ g.computed root, g.dag.Below root m := fun m hm =>
    below_of_mem_missing hroot ((List.takeWhile_prefix _).subset hm)
  have hmem : f n ∈ (g.computed root).map f ↔ n ∈ g.computed root := hr.mem_map_iff hbelow hn
  have hvalue : s'.hasValue (f n) = s.hasValue n := by
    rw [Bool.eq_iff_iff, hev'.hasValue_iff, hev.hasValue_iff, hmem, hu'.hasValue_eq (hr.below hn),
      hu.hasValue_eq hn, isParameter_of_renamed hr hn]
  refine ⟨hvalue, fun hv => ?_⟩
  rw [hshape' (f n) (hr.below hn) (hvalue.trans hv), hshape n hn hv]
  exact shapes_of_renamed hr hs hn

end

/-! ## Evaluating again -/

omit [Arith E] [Laned K E] in
/-- What can be evaluated has no obstacle. -/
theorem Evaluable.obstacle_eq_none (h : g.Evaluable root) (hroot : root < g.size) :
    g.obstacle root = none := by
  refine List.findSome?_eq_none_iff.2 fun n hn => ?_
  rw [Op.refusal_eq_none.2 (h n (below_of_mem_missing hroot hn))]
  rfl

/-- **A root that was evaluated can be evaluated again**, whatever calls were made in the
meantime. -/
theorem exists_evaluate_again (hg : Reachable g) (hroot : root < g.size)
    (hr : (evaluate root).run g = .ok () t) (cs : List (Call K E)) :
    ∃ s, (evaluate root).run ((reset (g.order root)).final (Call.runs cs t)) = .ok () s ∧
      ∀ n, g.dag.Below root n → s.hasValue n = true ∧
        (t.hasValue n = true → (s.value n).shape = (t.value n).shape) := by
  obtain ⟨hev, ht⟩ := evaluated_of_run_ok hr
  have hfits : ∀ n, t.Fits n := by
    have hcall : (Call.evaluate root).run.final g = t := Step.final_of_run_ok hr
    exact fits_of_reachable (hcall ▸ hg.call (.evaluate root))
  have hevaluable : t.Evaluable root :=
    (hfits root (hev.hasValue (hasValue_or_mem_missing hroot))).2
  have hroot' : root < t.size := hroot.trans_le ht.edits.extends.size
  -- the calls and the reset are moves, which change no shape
  obtain ⟨u, hu, hc⟩ := reset_run (Call.runs cs t) (g.order root)
  have hfinal : (reset (g.order root)).final (Call.runs cs t) = u := Step.final_of_run_ok hu
  have hreset : Edits [] (Call.runs cs t) u := hfinal ▸ leads_reset (g.order root)
  have he : Edits _ t u := (Call.runs_edits cs t).append hreset
  have hrootc : root < (Call.runs cs t).size :=
    hroot'.trans_le (Call.runs_edits cs t).extends.size
  have horder : g.order root = (Call.runs cs t).order root :=
    (((Call.runs_edits cs t).extends.order hroot').trans (ht.edits.extends.order hroot)).symm
  have hunevaluated : u.Unevaluated root := by
    rw [horder] at hc
    exact hc.unevaluated hrootc
  have hrootu : root < u.size := hroot'.trans_le he.extends.size
  obtain ⟨s, hends, -, hshape⟩ := hunevaluated.exists_ends hrootu
  rw [(hevaluable.of_edits he hroot').obstacle_eq_none hrootu] at hends
  cases hends with
  | evaluated hv hrun =>
    refine ⟨s, hfinal ▸ hrun, fun n hn => ?_⟩
    have hnt : t.dag.Below root n := (ht.edits.extends.below_iff hroot).2 hn
    have hnu : u.dag.Below root n := (he.extends.below_iff hroot').2 hnt
    refine ⟨hv n hnu, fun hvt => ?_⟩
    rw [hshape n hnu (hv n hnu), (hfits n hvt).1]
    exact Edits.shapes he n (hnt.le.trans_lt hroot')

/-- **Evaluations end by shapes only.**

* Let the same operations stand below `root` in `g` and below `root'` in `g'`, up to the
  names `f`, over parameters of the same shapes, and let nothing else have a value.
  Then both evaluations succeed, or both stop at vertices that stand for each other,
  for the same cause; and all values that are there in the end have the same shapes.
* Once a root has been evaluated, it can be reset and evaluated again after any calls, and
  all vertices below it have values of the same shapes as before. -/
theorem ends_by_shapes :
    (∀ (g g' : Graph K E) (root root' : Node) (f : Node → Node),
      g.dag.Renamed g'.dag root root' f → root < g.size → root' < g'.size →
      (∀ n, g.dag.Below root n → g.isParameter n = true →
        (g'.value (f n)).shape = (g.value n).shape) →
      g.Unevaluated root → g'.Unevaluated root' →
      ∃ stop s s', g.Ends root stop s ∧ g'.Ends root' (stop.map fun p => (f p.1, p.2)) s' ∧
        ∀ n, g.dag.Below root n → s'.hasValue (f n) = s.hasValue n ∧
          (s.hasValue n = true → (s'.value (f n)).shape = (s.value n).shape)) ∧
    ∀ (g t : Graph K E) (root : Node), Reachable g → root < g.size →
      (evaluate root).run g = .ok () t → ∀ cs : List (Call K E),
      ∃ s, (evaluate root).run ((reset (g.order root)).final (Call.runs cs t)) = .ok () s ∧
        ∀ n, g.dag.Below root n → s.hasValue n = true ∧
          (t.hasValue n = true → (s.value n).shape = (t.value n).shape) :=
  ⟨fun _ _ _ _ _ hr hroot hroot' hs hu hu' => exists_ends_of_renamed hr hs hroot hroot' hu hu',
    fun _ _ _ hg hroot hr cs => exists_evaluate_again hg hroot hr cs⟩

/-- A row times a column, to which the row is added in vain, and the same over other
entries, made from the column on.  The product is evaluated again after the row was
written to. -/
theorem ends_by_shapes_product :
    let g : Graph Float32 Float32 := Call.runs [.parameter (.filled 1 2 3),
      .parameter (.filled 2 1 5), .record (.mul 0 1), .record (.add 0 2)]
      (.empty 0 ⟨fun _ => 0, fun _ => 0⟩)
    let g' : Graph Float32 Float32 := Call.runs [.parameter (.filled 2 1 0),
      .parameter (.filled 1 2 (-1)), .record (.mul 1 0), .record (.add 1 2)]
      (.empty 0 ⟨fun _ => 0, fun _ => 0⟩)
    (∃ stop s s', g.Ends 3 stop s ∧
      g'.Ends 3 (stop.map fun p => ([1, 0, 2, 3].getD p.1 0, p.2)) s') ∧
    ∃ t s, (evaluate 2).run g = .ok () t ∧
      (evaluate 2).run ((reset (g.order 2)).final (Call.runs [.constant 0 7] t)) = .ok () s ∧
      (s.value 2).shape = (t.value 2).shape := by
  intro g g'
  have hop : ∀ n, g.dag.op n = #[.parameter, .parameter, .mul 0 1, .add 0 2].getD n .parameter :=
    fun _ => rfl
  have hop' : ∀ n, g'.dag.op n =
      #[.parameter, .parameter, .mul 1 0, .add 1 2].getD n .parameter := fun _ => rfl
  have hinj : ∀ n ≤ 3, ∀ m ≤ 3, [1, 0, 2, 3].getD n 0 = [1, 0, 2, 3].getD m 0 → n = m := by
    decide
  have hr : g.dag.Renamed g'.dag 3 3 fun n => [1, 0, 2, 3].getD n 0 :=
    { map_root := rfl
      injective := fun n hn m hm => hinj n (Dag.Below.le hn) m (Dag.Below.le hm)
      op := by
        intro n hn
        have hle : n ≤ 3 := hn.le
        rw [hop, hop']
        interval_cases n <;> rfl }
  have hshapes : ∀ n ≤ 3, g.isParameter n = true →
      (g'.value ([1, 0, 2, 3].getD n 0)).shape = (g.value n).shape := by decide +kernel
  have hu : ∀ n ≤ 3, g.isParameter n = false → g.hasValue n = false := by decide +kernel
  have hu' : ∀ n ≤ 3, g'.isParameter n = false → g'.hasValue n = false := by decide +kernel
  obtain ⟨hends, hagain⟩ := ends_by_shapes (K := Float32) (E := Float32)
  obtain ⟨stop, s₁, s₁', h₁, h₁', -⟩ := hends g g' 3 3 _ hr (by decide) (by decide)
    (fun n hn => hshapes n hn.le) (fun n hn => hu n hn.le) fun n hn => hu' n hn.le
  have hmissing : g.missing 2 = [2] := by
    have hsize : g.dag.size = 4 := by decide +kernel
    have hops : g.dag.operands 2 = [0, 1] := by decide +kernel
    have hv : ∀ n < 4, g.hasValue n = (n != 2 && n != 3) := by decide +kernel
    simp [missing, Dag.traverse, Dag.visit, hsize, hops, hv]
  have hanswer : (evaluate 2).answer g = .ok () := by
    rw [Step.answer, run_evaluate_of_missing hmissing]
    decide +kernel
  have hg : Reachable g := (Reachable.empty 0 _).runs _
  obtain ⟨s, hs, hvalues⟩ := hagain g _ 2 hg (by decide) (Step.run_of_answer_ok hanswer)
    [.constant 0 7]
  have hv : ((evaluate 2).final g).hasValue 2 = true :=
    (evaluated_of_run_ok (Step.run_of_answer_ok hanswer)).1.hasValue
      (hasValue_or_mem_missing (by decide))
  exact ⟨⟨stop, s₁, s₁', h₁, h₁'⟩, _, s, Step.run_of_answer_ok hanswer, hs,
    (hvalues 2 (.refl _ _)).2 hv⟩

end Graph

end DiffGraph
