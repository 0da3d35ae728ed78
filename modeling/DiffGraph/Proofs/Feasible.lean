/-
  When an evaluation succeeds.

  Whether an operation has a value is settled by its fixed data and by the shapes of its
  operands (`Op.Evaluable`); no entry, no sample and nothing that happened before plays a
  part.

  * `Op.exists_value`: operands of accepted shapes give a value;
  * `Graph.Evaluable`: every operation below a root accepts the shapes of its operands.
    No move changes this (`Evaluable.of_edits`);
  * `Shaped.run_evaluate`, `Unevaluated.evaluable`: such a root can be evaluated, and no
    other one can be, unless a value was left there.
-/
import DiffGraph.Proofs.StoredShapes

namespace DiffGraph

variable {K E : Type}

namespace Op

section
variable [Scalar K]

/-- An evaluation takes the fixed data of the operation. -/
def Sound : Op K → Prop
  | dropout rate _ => rateOk rate = true
  | convolution size .. => size ≠ 0
  | _ => True

/-- The operation has a value if its operands have the shapes `s`. -/
def Evaluable (s : Node → Shape) (op : Op K) : Prop :=
  op.Sound ∧ op.Accepts (op.shape (0, 0) s) s

theorem evaluable_congr {op : Op K} {s t : Node → Shape} (h : ∀ c ∈ op.operands, s c = t c) :
    op.Evaluable s ↔ op.Evaluable t := by
  rw [Evaluable, Evaluable, shape_congr _ h, accepts_congr h]

omit [Scalar K] in
/-- The mask of a dropout has the shape of its value. -/
theorem accepts_own {op : Op K} {mask : Shape} {s : Node → Shape} (h : op.Accepts mask s) :
    op.Accepts (op.shape (0, 0) s) s := by
  cases op with
  | dropout rate l => rfl
  | _ => exact h

end

variable [Scalar K] [Arith E] [Laned K E] {op : Op K} {own mask v : Matrix E}
  {val : Node → Matrix E}

omit [Laned K E] in
theorem sound_of_value (h : op.value own mask val = .ok v)
    (hr : ∀ rate l, op = .dropout rate l → rateOk rate = true) : op.Sound := by
  cases op with
  | dropout rate l => exact hr rate l rfl
  | convolution size input kernel bias =>
    rintro rfl
    simp only [value, Matrix.convolve, true_or, if_true] at h
    cases h
  | _ => trivial

omit [Laned K E] in
/-- **Operands of accepted shapes give a value.** -/
theorem exists_value (hs : op.Sound) (h : op.Accepts mask.shape fun c => (val c).shape)
    (own : Matrix E) : ∃ v, op.value own mask val = .ok v := by
  cases op with
  | parameter | neg l | func f l | sum l | flatten members => exact ⟨_, rfl⟩
  | add l r | dot l r | max l r | dropout rate l => exact ⟨_, Matrix.zipWith_eq h⟩
  | mul l r => exact ⟨_, Matrix.mul_eq h⟩
  | div l r => exact ⟨_, if_pos (Matrix.isScalar_iff.2 h)⟩
  | slice rect l =>
    have hcheck : (val l).checkRect rect = .ok () := by
      rw [Matrix.checkRect, if_neg (not_not_intro h.1), if_neg (not_not_intro h.2)]
    rw [value, Matrix.block, hcheck]
    exact ⟨_, rfl⟩
  | convolution size input kernel bias =>
    obtain ⟨hkernel, hrows, hcols, hbias⟩ := h
    have hk : ¬ (size = 0 ∨ (val kernel).shape ≠ (size, size)) := by
      rintro (hz | hn)
      · exact hs hz
      · exact hn hkernel
    have hi : ¬ ((val input).rows < size ∨ (val input).cols < size) := by
      rintro (hr | hc)
      · exact absurd hrows (Nat.not_le.2 hr)
      · exact absurd hcols (Nat.not_le.2 hc)
    rw [value, Matrix.convolve, if_neg hk, if_neg hi,
      if_neg (not_not_intro (Matrix.isScalar_iff.2 hbias))]
    exact ⟨_, rfl⟩
  | maxPool size l =>
    obtain ⟨hsize, htiled⟩ := h
    rw [value, Matrix.maxPool]
    dsimp only
    rw [if_neg hsize, if_neg (not_not_intro (Matrix.tiled_iff.2 htiled))]
    exact ⟨_, rfl⟩
  | logSoftmax l =>
    obtain ⟨e, hlargest⟩ : ∃ e, (val l).largest? = some e := by
      unfold Matrix.largest?
      cases hdata : (val l).data.toList with
      | nil =>
        have hempty : (val l).isEmpty = true := by
          rw [Matrix.isEmpty, Array.isEmpty_iff, ← Array.toList_eq_nil_iff]
          exact hdata
        exact absurd ((val l).isEmpty_iff.1 hempty) h
      | cons e es => exact ⟨_, rfl⟩
    rw [value, Matrix.logSoftmax, hlargest]
    exact ⟨_, rfl⟩

omit [Arith E] in
/-- A mask that is drawn fits. -/
theorem accepts_freshMask {draw : Nat → K} (h : op.Evaluable fun c => (val c).shape)
    (hm : op.freshMask draw val = .ok mask) : op.Accepts mask.shape fun c => (val c).shape := by
  cases op with
  | dropout rate l =>
    simp only [freshMask] at hm
    split at hm
    · cases hm
      rfl
    · cases hm
  | _ => exact h.2

omit [Arith E] in
theorem exists_freshMask (hs : op.Sound) (draw : Nat → K) (val : Node → Matrix E) :
    ∃ mask : Matrix E, op.freshMask draw val = .ok mask := by
  cases op with
  | dropout rate l => exact ⟨_, if_pos hs⟩
  | _ => exact ⟨_, rfl⟩

/-- An operation that got a mask and a value is evaluable. -/
theorem evaluable_of_value {draw : Nat → K} (hm : op.freshMask draw val = .ok mask)
    (hv : op.value own mask val = .ok v) : op.Evaluable fun c => (val c).shape := by
  refine ⟨sound_of_value hv ?_, accepts_own (shape_of_value hv).1⟩
  rintro rate l rfl
  by_contra hr
  rw [freshMask, if_neg hr] at hm
  cases hm

end Op

namespace Graph

variable [Scalar K] {g g' : Graph K E} {root n : Node}

/-- Every operation below a root accepts the shapes of its operands. -/
def Evaluable (g : Graph K E) (root : Node) : Prop :=
  ∀ n, g.dag.Below root n → (g.op n).Evaluable g.shapes

theorem evaluable_parameter (h : g.isParameter n = true) : (g.op n).Evaluable g.shapes := by
  rw [op_eq_parameter h]
  exact ⟨trivial, trivial⟩

variable [Arith E] [Laned K E] {ever : Node → Prop}

/-- No move changes what an operation accepts. -/
theorem Edits.evaluable_iff {targets : List Node} (he : Edits targets g g') (hn : n < g.size) :
    (g'.op n).Evaluable g'.shapes ↔ (g.op n).Evaluable g.shapes := by
  rw [he.extends.op n hn]
  exact Op.evaluable_congr fun c hc => Edits.shapes he c ((g.dag.operands_lt_self hc).trans hn)

/-- **No move changes whether a root can be evaluated.** -/
theorem Evaluable.of_edits {targets : List Node} (h : g.Evaluable root)
    (he : Edits targets g g') (hroot : root < g.size) : g'.Evaluable root := by
  intro n hn
  have hb : g.dag.Below root n := (he.extends.below_iff hroot).1 hn
  exact (Edits.evaluable_iff he (hb.le.trans_lt hroot)).2 (h n hb)

/-- What can be evaluated later could be evaluated before. -/
theorem Evaluable.of_later {targets : List Node} (he : Edits targets g g') (hroot : root < g.size)
    (h : g'.Evaluable root) : g.Evaluable root := by
  intro n hn
  have hn' := h n ((he.extends.below_iff hroot).2 hn)
  exact (Edits.evaluable_iff he (hn.le.trans_lt hroot)).1 hn'

/-- A vertex that accepts the values of its operands gets a value. -/
theorem exists_compute (he : (g.op n).Evaluable fun c => (g.value c).shape) :
    ∃ x, g.compute n = .ok x := by
  obtain ⟨mask, hm⟩ := Op.exists_freshMask he.1 (fun i => g.noise.uniform (g.drawn + i)) g.value
  obtain ⟨v, hv⟩ := Op.exists_value he.1 (Op.accepts_freshMask he hm) (g.value n)
  refine ⟨(v, mask), ?_⟩
  rw [compute, hm, ok_bind, hv]
  rfl

/-- A vertex whose operands have values gets a value. -/
theorem Shaped.exists_compute (h : Shaped (Had ever g) g) (he : (g.op n).Evaluable g.shapes)
    (ho : ∀ c ∈ g.dag.operands n, c < g.size ∧ g.hasValue c = true) :
    ∃ x, g.compute n = .ok x := by
  have hshapes : ∀ c ∈ (g.op n).operands, (g.value c).shape = g.shapes c := fun c hc =>
    h.value (.inr (ho c hc))
  exact Graph.exists_compute ((Op.evaluable_congr hshapes).2 he)

/-- **A root whose operations accept their operands can be evaluated.** -/
theorem Shaped.run_evaluate (h : Shaped (Had ever g) g) (hroot : root < g.size)
    (he : g.Evaluable root) :
    ∃ g', (evaluate root).run g = .ok () g' ∧ Evaluated g g' (g.missing root) ∧ Turns [] g g' := by
  rcases evaluate_cases g root with hok | ⟨pre, n, post, e, g', hl, hev, ht, hcomp, -⟩
  · exact hok
  · have hb : g.dag.Below root n := below_of_mem_missing hroot (by simp [hl])
    have hb' : g'.dag.Below root n := by rwa [hev.dag]
    have ho : ∀ c ∈ g'.dag.operands n, c < g'.size ∧ g'.hasValue c = true := by
      intro c hc
      rw [hev.dag] at hc
      refine ⟨?_, hev.hasValue (hasValue_or_mem_of_missing_eq hl hc)⟩
      rw [size, hev.dag]
      exact (hb.operand hc).le.trans_lt hroot
    obtain ⟨x, hx⟩ := (ht.shaped h).exists_compute (he.of_edits ht.edits hroot n hb') ho
    rw [hcomp] at hx
    cases hx

/-- **Only such a root can be evaluated**, if nothing but the parameters below it has a
value. -/
theorem Unevaluated.evaluable (hu : g.Unevaluated root) (h : Shaped (Had ever g) g)
    (hroot : root < g.size) (hr : (evaluate root).run g = .ok () g') : g.Evaluable root := by
  obtain ⟨hev, ht⟩ := evaluated_of_run_ok hr
  intro n hb
  cases hp : g.isParameter n with
  | true => exact evaluable_parameter hp
  | false =>
    obtain ⟨first, v, mask, hmask, hv, -⟩ := hev.new n (hu.mem_missing hroot hb hp)
    rw [Op.evaluable_congr (t := fun c => (g'.value c).shape)]
    · exact Op.evaluable_of_value hmask hv
    · intro c hc
      have hcb : g.dag.Below root c := hb.operand hc
      have hlt : c < g.size := hcb.le.trans_lt hroot
      have hlt' : c < g'.size := by rwa [size, hev.dag]
      have hvc : g'.hasValue c = true := hev.hasValue (hu.consistent.hasValue_or_mem hroot hcb)
      rw [(ht.shaped h).value (.inr ⟨hlt', hvc⟩), Edits.shapes ht.edits c hlt]

/-- **A root can be evaluated after a reset** if and only if its operations accept their
operands. -/
theorem Shaped.evaluable_iff (h : Shaped (Had ever g) g) (hroot : root < g.size) :
    g.Evaluable root ↔ (evaluate root).answer ((reset (g.order root)).final g) = .ok () := by
  obtain ⟨g₁, hr, hc⟩ := reset_run g (g.order root)
  have hroot₁ : root < g₁.size := by rwa [size, hc.dag]
  have hshapes : g₁.shapes = g.shapes := by
    refine shapes_of_cells hc.dag fun n => ?_
    obtain ⟨m, b, -, -, hcell⟩ := hc.cell_eq n
    rw [Graph.value, hcell]
    rfl
  have hiff : g₁.Evaluable root ↔ g.Evaluable root := by
    unfold Evaluable
    rw [hc.dag, hshapes]
    simp only [hc.op]
  rw [Step.final_of_run_ok hr, ← hiff]
  constructor
  · intro he
    obtain ⟨g₂, hr₂, -, -⟩ := (h.cleared hc).run_evaluate hroot₁ he
    exact Step.answer_of_run_ok hr₂
  · intro he
    exact (hc.unevaluated hroot).evaluable (h.cleared hc) hroot₁ (Step.run_of_answer_ok he)

end Graph

end DiffGraph
