/-
  What an evaluation does.

  * `Ready`: every vertex below a root has a value, the one that its operation
    gives for the values of its operands; `Consistent` asks this only of the
    values that are there;
  * `Cleared`: what `reset` does; afterwards only the parameters have values
    (`Cleared.unevaluated`);
  * `Evaluated`: what an evaluation does (`evaluate_cases`).  It computes the
    missing vertices, in their order, each from the values its operands have at
    the end, and touches no other cell; if a vertex fails, those before it stay
    computed (`Filling` is this one vertex at a time).  It makes a consistent root
    ready (`Evaluated.ready`).
-/
import DiffGraph.Graph.Batch
import DiffGraph.Graph.Gradient
import DiffGraph.Proofs.Edits

namespace DiffGraph

variable {K E : Type}

namespace Op

section
variable [Arith E]

/-- The value of an operation depends on the values of its operands only. -/
theorem value_congr {op : Op K} {own mask : Matrix E} {v w : Node → Matrix E}
    (h : ∀ c ∈ op.operands, v c = w c) : op.value own mask v = op.value own mask w := by
  cases op with
  | parameter => rfl
  | add l r | mul l r | div l r | dot l r | max l r =>
    simp [value, h l (by simp [operands]), h r (by simp [operands])]
  | neg l | func f l | sum l | slice rect l | maxPool size l | dropout rate l | logSoftmax l =>
    simp [value, h l (by simp [operands])]
  | flatten members => simp only [value, List.map_congr_left (l := members) h]
  | convolution size input kernel bias =>
    simp [value, h input (by simp [operands]), h kernel (by simp [operands]),
      h bias (by simp [operands])]

/-- Only a parameter has a value of its own. -/
theorem value_own {op : Op K} (h : op.isParameter = false) (own own' mask : Matrix E)
    (v : Node → Matrix E) : op.value own mask v = op.value own' mask v := by
  cases op with
  | parameter => cases h
  | _ => rfl

end

theorem freshMask_congr [Scalar K] [Laned K E] {op : Op K} {draw : Nat → K} {v w : Node → Matrix E}
    (h : ∀ c ∈ op.operands, v c = w c) : op.freshMask draw v = op.freshMask draw w := by
  cases op with
  | dropout rate l => simp [freshMask, h l (by simp [operands])]
  | _ => rfl

end Op

namespace Graph

/-! ## Values that fit together -/

section
variable {g : Graph K E} {root n : Node}

theorem op_eq_parameter (h : g.isParameter n = true) : g.op n = .parameter := by
  cases hop : g.op n with
  | parameter => rfl
  | _ => simp [isParameter, hop, Op.isParameter, Op.kind] at h

theorem operands_eq_nil (h : g.isParameter n = true) : g.dag.operands n = [] := by
  rw [Dag.operands, show g.dag.op n = .parameter from op_eq_parameter h]
  rfl

theorem hasValue_of_mem_missing (h : n ∈ g.missing root) : g.hasValue n = false := by
  by_cases hroot : root < g.size
  · simpa using ((Dag.mem_traverse hroot).1 h).1
  · rw [missing, Dag.traverse_of_size_le (not_lt.1 hroot)] at h
    cases h

theorem below_of_mem_missing (hroot : root < g.size) (h : n ∈ g.missing root) :
    g.dag.Below root n :=
  ((Dag.mem_traverse hroot).1 h).2.below

theorem isParameter_of_not_hasValue (h : g.hasValue n = false) : g.isParameter n = false := by
  rw [hasValue, Bool.or_eq_false_iff] at h
  exact h.2

theorem hasValue_of_isParameter (h : g.isParameter n = true) : g.hasValue n = true := by
  rw [hasValue, h, Bool.or_true]

theorem mem_of_missing_eq {c : Node} {pre post : List Node} (h : g.missing root = pre ++ n :: post)
    (hc : c ∈ g.dag.operands n) (hv : g.hasValue c = false) : c ∈ pre :=
  Dag.operand_before h hc (by simp [hv])

/-- A vertex is missing once. -/
theorem not_mem_of_missing_eq {pre post : List Node} (h : g.missing root = pre ++ n :: post) :
    n ∉ pre := by
  have hnodup : (g.missing root).Nodup := Dag.nodup_traverse root
  rw [h, List.nodup_append] at hnodup
  exact fun hn => hnodup.2.2 n hn n List.mem_cons_self rfl

theorem hasValue_or_mem_of_missing_eq {c : Node} {pre post : List Node}
    (h : g.missing root = pre ++ n :: post) (hc : c ∈ g.dag.operands n) :
    g.hasValue c = true ∨ c ∈ pre := by
  cases hv : g.hasValue c with
  | true => exact Or.inl rfl
  | false => exact Or.inr (mem_of_missing_eq h hc hv)

/-- Nothing is missing below a vertex that has a value. -/
theorem missing_eq_nil (h : g.hasValue root = true) : g.missing root = [] := by
  by_cases hroot : root < g.size
  · rw [missing, Dag.traverse_eq hroot, Dag.search_of_not (by simp) (by simp [h])]
  · exact Dag.traverse_of_size_le (not_lt.1 hroot)

/-- A vertex that has no value is missing. -/
theorem hasValue_or_mem_missing (hroot : root < g.size) :
    g.hasValue root = true ∨ root ∈ g.missing root := by
  cases hv : g.hasValue root with
  | true => exact Or.inl rfl
  | false => exact Or.inr ((Dag.mem_traverse hroot).2 ⟨by simp [hv], .refl⟩)

theorem mem_order (hroot : root < g.size) : n ∈ g.order root ↔ g.dag.Below root n :=
  (Dag.mem_traverse hroot).trans (and_iff_right rfl)

end

/-- The places of the operands come before the place of a vertex. -/
def Ordered (g : Graph K E) (order : List Node) : Prop :=
  ∀ pre n post, order = pre ++ n :: post → ∀ c ∈ (g.op n).operands, c ∈ pre

theorem Ordered.of_append {g : Graph K E} {before after : List Node}
    (h : g.Ordered (before ++ after)) : g.Ordered before := fun pre n post hl =>
  h pre n (post ++ after) (by simp [hl])

theorem ordered_order (g : Graph K E) (root : Node) : g.Ordered (g.order root) :=
  fun _ _ _ h _ hc => Dag.operand_before h hc rfl

section
variable [Arith E]

/-- The value of a vertex is the one that its operation gives for the values of
its operands. -/
def Settled (g : Graph K E) (n : Node) : Prop :=
  (g.op n).value (g.value n) (g.cell n).mask g.value = .ok (g.value n)

/-- The values below a root that are there were computed from each other. -/
def Consistent (g : Graph K E) (root : Node) : Prop :=
  ∀ n, g.dag.Below root n → g.hasValue n = true → g.isParameter n = false →
    (∀ c ∈ g.dag.operands n, g.hasValue c = true) ∧ g.Settled n

/-- All vertices below a root have values, which were computed from each other. -/
structure Ready (g : Graph K E) (root : Node) : Prop where
  hasValue : ∀ n, g.dag.Below root n → g.hasValue n = true
  settled : ∀ n, g.dag.Below root n → g.Settled n

/-- Nothing but the parameters below a root has a value. -/
def Unevaluated (g : Graph K E) (root : Node) : Prop :=
  ∀ n, g.dag.Below root n → g.isParameter n = false → g.hasValue n = false

variable {g : Graph K E} {root n : Node}

omit [Arith E] in
theorem Unevaluated.isParameter (h : g.Unevaluated root) (hn : g.dag.Below root n)
    (hv : g.hasValue n = true) : g.isParameter n = true := by
  cases hp : g.isParameter n with
  | true => rfl
  | false => rw [h n hn hp] at hv; cases hv

theorem Unevaluated.consistent (h : g.Unevaluated root) : g.Consistent root := by
  intro n hn hv hp
  rw [h.isParameter hn hv] at hp
  cases hp

theorem settled_parameter (h : g.isParameter n = true) : g.Settled n := by
  rw [Settled, op_eq_parameter h]
  rfl

/-- What is missing below a root is all that has no value. -/
theorem Consistent.hasValue_or_mem (h : g.Consistent root) (hroot : root < g.size)
    (hn : g.dag.Below root n) : g.hasValue n = true ∨ n ∈ g.missing root := by
  induction hn with
  | refl =>
    cases hv : g.hasValue root with
    | true => exact Or.inl rfl
    | false => exact Or.inr ((Dag.mem_traverse hroot).2 ⟨by simp [hv], .refl⟩)
  | @tail b c hb hbc ih =>
    cases hv : g.hasValue c with
    | true => exact Or.inl rfl
    | false =>
      refine Or.inr ((Dag.mem_traverse hroot).2 ⟨by simp [hv], ?_⟩)
      rcases ih with hbv | hbm
      · cases hp : g.isParameter b with
        | true =>
          have hc := hbc.2
          rw [operands_eq_nil hp] at hc
          cases hc
        | false =>
          have hc := (h b hb hbv hp).1 c hbc.2
          rw [hv] at hc
          cases hc
      · obtain ⟨hd, hr⟩ := (Dag.mem_traverse hroot).1 hbm
        exact hr.tail ⟨hd, hbc.2⟩

/-- If nothing has a value, all operations below a root are missing. -/
theorem Unevaluated.mem_missing (h : g.Unevaluated root) (hroot : root < g.size)
    (hn : g.dag.Below root n) (hp : g.isParameter n = false) : n ∈ g.missing root := by
  refine (h.consistent.hasValue_or_mem hroot hn).resolve_left fun hv => ?_
  rw [h n hn hp] at hv
  cases hv

end

/-! ## Forgetting all values -/

section
variable [Arith E]

/-- A cell without its gradient and, for an operation, without its value. -/
def clearedCell (g : Graph K E) (n : Node) : Cell E :=
  if g.isParameter n then (g.cell n).clearGrad else (g.cell n).clearGrad.forget

/-- The graph after the vertices of an order were reset. -/
structure Cleared (g g' : Graph K E) (order : List Node) : Prop where
  dag : g'.dag = g.dag
  noise : g'.noise = g.noise
  cell : ∀ n < g.size, g'.cell n = if n ∈ order then g.clearedCell n else g.cell n

theorem clearGrad_clearGrad (c : Cell E) : c.clearGrad.clearGrad = c.clearGrad := by
  simp [Cell.clearGrad, Matrix.fill, Matrix.map]

/-- Resetting a vertex once more changes nothing. -/
theorem clearedCell_of_cell_eq {g g' : Graph K E} {n : Node}
    (hp : g'.isParameter n = g.isParameter n) (h : g'.cell n = g.clearedCell n) :
    g'.clearedCell n = g.clearedCell n := by
  unfold clearedCell at h ⊢
  rw [hp, h]
  split
  · exact clearGrad_clearGrad _
  · have hcc := congrArg Cell.forget (clearGrad_clearGrad (g.cell n))
    exact hcc

theorem reset_run (g : Graph K E) (order : List Node) :
    ∃ g', (reset order).run g = .ok () g' ∧ Cleared g g' order := by
  refine ⟨_, rfl, ?_⟩
  induction order generalizing g with
  | nil => exact ⟨rfl, rfl, fun n _ => by simp⟩
  | cons m order ih =>
    have hstep : (if g.isParameter m then g.update m Cell.clearGrad
        else g.update m fun c => c.clearGrad.forget) =
        g.update m fun c => if g.isParameter m then c.clearGrad else c.clearGrad.forget := by
      cases g.isParameter m <;> rfl
    obtain ⟨hdag, hnoise, hcell⟩ := ih
      (g.update m fun c => if g.isParameter m then c.clearGrad else c.clearGrad.forget)
    simp only [List.foldl_cons, hstep]
    refine ⟨hdag, hnoise, fun n hn => ?_⟩
    rw [hcell n hn]
    by_cases hnm : n = m
    · subst hnm
      have hself := cell_update_self g hn fun c =>
        if g.isParameter n then c.clearGrad else c.clearGrad.forget
      rw [if_pos List.mem_cons_self]
      split
      · exact clearedCell_of_cell_eq rfl hself
      · exact hself
    · have hne := cell_update_of_ne g (Ne.symm hnm) fun c =>
        if g.isParameter m then c.clearGrad else c.clearGrad.forget
      rw [clearedCell, hne]
      simp only [List.mem_cons, hnm, false_or]
      rfl

namespace Cleared

variable {g g' : Graph K E} {order : List Node} {root n : Node}

theorem op (h : Cleared g g' order) (n : Node) : g'.op n = g.op n := by rw [Graph.op, h.dag]; rfl

theorem value (h : Cleared g g' order) (hn : n < g.size) : g'.value n = g.value n := by
  rw [Graph.value, h.cell n hn, clearedCell]
  split
  · split <;> rfl
  · rfl

theorem grad (h : Cleared g g' order) (hn : n < g.size) (hm : n ∈ order) :
    g'.grad n = (g.grad n).fill 0 := by
  rw [Graph.grad, h.cell n hn, if_pos hm, clearedCell]
  split <;> rfl

theorem hasValue (h : Cleared g g' order) (hn : n < g.size) (hm : n ∈ order)
    (hp : g.isParameter n = false) : g'.hasValue n = false := by
  have hp' : g'.isParameter n = false := by rwa [isParameter, h.op]
  rw [Graph.hasValue, hp', h.cell n hn, if_pos hm, clearedCell, if_neg (by simp [hp])]
  rfl

/-- **After a reset of what is below a root only its parameters have values.** -/
theorem unevaluated (h : Cleared g g' (g.order root)) (hroot : root < g.size) :
    g'.Unevaluated root := by
  intro n hn hp
  rw [h.dag] at hn
  rw [isParameter, h.op] at hp
  exact h.hasValue (hn.le.trans_lt hroot) ((mem_order hroot).2 hn) hp

end Cleared

end

/-! ## Evaluating -/

section
variable [Scalar K] [Arith E] [Laned K E]

/-- The graph after the vertices `done` were evaluated: their cells hold what
their operations give for the values of this graph, all others are as before. -/
structure Evaluated (g g' : Graph K E) (done : List Node) : Prop where
  dag : g'.dag = g.dag
  noise : g'.noise = g.noise
  old : ∀ m, m ∉ done → g'.cell m = g.cell m
  new : ∀ m ∈ done, ∃ first v mask,
    (g.op m).freshMask (fun i => g.noise.uniform (first + i)) g'.value = .ok mask ∧
    (g.op m).value (g.value m) mask g'.value = .ok v ∧ g'.cell m = store v mask (g.cell m)

theorem run_evaluateOne (g : Graph K E) (n : Node) :
    (evaluateOne n).run g =
      match g.compute n with
      | .ok (v, m) => .ok () ((g.update n (store v m)).use (m.size * Laned.width E))
      | .error e => .error e g := by
  unfold evaluateOne
  simp only [EStateM.run_bind, EStateM.run_get]
  cases h : g.compute n with
  | ok x => simp
  | error e => simp

/-- A value is computed with masks that are drawn for it. -/
theorem compute_eq_ok {g : Graph K E} {n : Node} {v mask : Matrix E}
    (h : g.compute n = .ok (v, mask)) :
    (g.op n).freshMask (fun i => g.noise.uniform (g.drawn + i)) g.value = .ok mask ∧
      (g.op n).value (g.value n) mask g.value = .ok v := by
  obtain ⟨mask', hm, h⟩ := bind_eq_ok.1 h
  obtain ⟨v', hv, h⟩ := bind_eq_ok.1 h
  cases h
  exact ⟨hm, hv⟩

namespace Evaluated

variable {g g' : Graph K E} {done : List Node}

theorem refl (g : Graph K E) : Evaluated g g [] := ⟨rfl, rfl, fun _ _ => rfl, by simp⟩

theorem op (h : Evaluated g g' done) (n : Node) : g'.op n = g.op n := by rw [Graph.op, h.dag]; rfl

theorem hasValue (h : Evaluated g g' done) {m : Node} (hm : g.hasValue m = true ∨ m ∈ done) :
    g'.hasValue m = true := by
  by_cases hd : m ∈ done
  · obtain ⟨_, v, mask, -, -, hcell⟩ := h.new m hd
    simp [Graph.hasValue, hcell, store]
  · have hv := hm.resolve_right hd
    rwa [Graph.hasValue, h.old m hd, isParameter, h.op]

/-- A vertex that had a value is left alone. -/
theorem cell_of_hasValue {pre post : List Node} (h : Evaluated g g' pre) {root n : Node}
    (hl : g.missing root = pre ++ post) (hv : g.hasValue n = true) : g'.cell n = g.cell n := by
  refine h.old n fun hm => ?_
  have hvn : g.hasValue n = false := hasValue_of_mem_missing (hl ▸ List.mem_append_left post hm)
  rw [hv] at hvn
  cases hvn

/-- A parameter keeps its value. -/
theorem value_parameter {root n : Node} (h : Evaluated g g' (g.missing root))
    (hp : g.isParameter n = true) : g'.value n = g.value n :=
  congrArg Cell.value (h.cell_of_hasValue (List.append_nil _).symm (hasValue_of_isParameter hp))

/-- One more vertex is evaluated, from which none of the vertices before it is
computed. -/
theorem concat (h : Evaluated g g' done) {n : Node} (hn : n ∉ done) (hlt : n < g.size)
    (hop : ∀ m ∈ done, n ∉ g.dag.operands m) {v mask : Matrix E}
    (hc : g'.compute n = .ok (v, mask)) (samples : Nat) :
    Evaluated g ((g'.update n (store v mask)).use samples) (done ++ [n]) := by
  have hlt' : n < g'.size := by rw [Graph.size, h.dag]; exact hlt
  have hcell : ∀ m, ((g'.update n (store v mask)).use samples).cell m =
      if m = n then store v mask (g'.cell n) else g'.cell m := by
    intro m
    refine (cell_update g' n m (store v mask)).trans ?_
    simp [hlt']
  have hval : ∀ m, n ∉ g.dag.operands m → ∀ c ∈ (g.op m).operands,
      g'.value c = ((g'.update n (store v mask)).use samples).value c := by
    intro m hm c hcm
    have hcn : c ≠ n := fun hcn => hm (hcn ▸ hcm)
    rw [Graph.value, Graph.value, hcell, if_neg hcn]
  exact
    { dag := h.dag
      noise := h.noise
      old := by
        intro m hm
        have hmn : m ≠ n := fun hmn => hm (by simp [hmn])
        rw [hcell, if_neg hmn]
        exact h.old m fun hd => hm (List.mem_append_left _ hd)
      new := by
        intro m hm
        rcases List.mem_append.1 hm with hm | hm
        · obtain ⟨first, w, mask', hf, hw, hcm⟩ := h.new m hm
          have hmn : m ≠ n := fun hmn => hn (hmn ▸ hm)
          refine ⟨first, w, mask', ?_, ?_, ?_⟩
          · rwa [← Op.freshMask_congr (hval m (hop m hm))]
          · rwa [← Op.value_congr (hval m (hop m hm))]
          · rw [hcell, if_neg hmn, hcm]
        · obtain rfl := List.mem_singleton.1 hm
          have hself : m ∉ g.dag.operands m := fun hm =>
            absurd (g.dag.operands_lt_self hm) (lt_irrefl m)
          obtain ⟨hf, hw⟩ := compute_eq_ok hc
          rw [h.op, h.noise] at hf
          rw [h.op, Graph.value, h.old m hn] at hw
          refine ⟨g'.drawn, v, mask, ?_, ?_, ?_⟩
          · rwa [← Op.freshMask_congr (hval m hself)]
          · rwa [← Op.value_congr (hval m hself)]
          · rw [hcell, if_pos rfl, h.old m hn] }

section
variable {root n : Node} {pre post : List Node}

/-- When the turn of a missing vertex comes it has no value, and all its operands have
one. -/
theorem turn (h : Evaluated g g' pre) (hl : g.missing root = pre ++ n :: post) :
    g'.hasValue n = false ∧ ∀ c ∈ g'.dag.operands n, g'.hasValue c = true := by
  refine ⟨?_, fun c hc => ?_⟩
  · rw [Graph.hasValue, h.old n (not_mem_of_missing_eq hl), isParameter, h.op]
    exact hasValue_of_mem_missing (by rw [hl]; exact List.mem_append_right _ List.mem_cons_self)
  · rw [h.dag] at hc
    exact h.hasValue (hasValue_or_mem_of_missing_eq hl hc)

/-- The next of the missing vertices is evaluated. -/
theorem next (h : Evaluated g g' pre) (hl : g.missing root = pre ++ n :: post)
    {v mask : Matrix E} (hc : g'.compute n = .ok (v, mask)) (samples : Nat) :
    Evaluated g ((g'.update n (store v mask)).use samples) (pre ++ [n]) := by
  have hmem : n ∈ g.missing root := by simp [hl]
  have hv : g.hasValue n = false := hasValue_of_mem_missing hmem
  have hn : n ∉ pre := not_mem_of_missing_eq hl
  refine h.concat hn (lt_size_of_not_hasValue g hv) (fun m hm hnm => ?_) hc samples
  -- a vertex that `m` is computed from comes before `m`
  obtain ⟨before, after, rfl⟩ := List.append_of_mem hm
  have hl' : g.missing root = before ++ m :: (after ++ n :: post) := by simpa using hl
  exact hn (List.mem_append_left _ (mem_of_missing_eq hl' hnm hv))

end

end Evaluated

/-- The vertices that are computed. -/
theorem run_evaluate_of_missing {g : Graph K E} {root : Node} {ns : List Node}
    (h : g.missing root = ns) : (evaluate root).run g = (ns.forM evaluateOne).run g := by
  subst h
  rfl

/-- A root that has a value is left alone. -/
theorem run_evaluate_of_hasValue {g : Graph K E} {root : Node} (h : g.hasValue root = true) :
    (evaluate root).run g = .ok () g :=
  run_evaluate_of_missing (missing_eq_nil h)

/-- A reverse pass on what an evaluation leaves. -/
theorem run_reversePass {g g' : Graph K E} {root : Node} (h : (evaluate root).run g = .ok () g') :
    (reversePass root).run g =
      (do seed root; (g.order root).reverse.forM propagate : Step (Graph K E) Unit).run g' := by
  unfold reversePass reverseAlong
  rw [EStateM.run_bind, EStateM.run_get]
  simp only
  rw [EStateM.run_bind, h]

/-- Without an evaluation there is no reverse pass. -/
theorem run_reversePass_of_error {g g' : Graph K E} {root : Node} {e : Failure}
    (h : (evaluate root).run g = .error e g') : (reversePass root).run g = .error e g' := by
  simp only [reversePass, reverseAlong, EStateM.run_bind, EStateM.run_get, h]

/-- The vertices of a list are evaluated one after another.  When the turn of a vertex comes it
has no value, and all of its operands have one. -/
inductive Filling (g : Graph K E) : List Node → Graph K E → Prop where
  | none : Filling g [] g
  | next {done : List Node} {s : Graph K E} {n : Node} {v mask : Matrix E}
      (h : Filling g done s) (hn : s.hasValue n = false)
      (ho : ∀ c ∈ s.dag.operands n, s.hasValue c = true) (hc : s.compute n = .ok (v, mask)) :
      Filling g (done ++ [n]) ((s.update n (store v mask)).use (mask.size * Laned.width E))

theorem Filling.turns {g s : Graph K E} {done : List Node} (h : Filling g done s) :
    Turns [] g s := by
  induction h with
  | none => exact .refl
  | next _ hn ho hc ih => exact (ih.tail (.evaluate _ _ _ _ hn ho hc)).tail (.use _ _)

/-- An evaluation evaluates the missing vertices one after another, and stops at the first one
that fails. -/
theorem evaluate_filling (g : Graph K E) (root : Node) :
    (∃ g', (evaluate root).run g = .ok () g' ∧ Filling g (g.missing root) g' ∧
        Evaluated g g' (g.missing root)) ∨
      ∃ pre n post e g', g.missing root = pre ++ n :: post ∧
        (evaluate root).run g = .error e g' ∧ Filling g pre g' ∧ Evaluated g g' pre ∧
        g'.compute n = .error e := by
  have hrun : (evaluate root).run g = ((g.missing root).forM evaluateOne).run g := rfl
  have hstep : ∀ pre n post (s : Graph K E), g.missing root = pre ++ n :: post →
      (Filling g pre s ∧ Evaluated g s pre) →
      (∃ s', (evaluateOne n).run s = .ok ⟨⟩ s' ∧ Filling g (pre ++ [n]) s' ∧
        Evaluated g s' (pre ++ [n])) ∨ ∃ e, (evaluateOne n).run s = .error e s := by
    rintro pre n post s hl ⟨hf, hs⟩
    obtain ⟨hv, ho⟩ := hs.turn hl
    rw [run_evaluateOne]
    cases hc : s.compute n with
    | error e => exact Or.inr ⟨e, rfl⟩
    | ok x => exact Or.inl ⟨_, rfl, hf.next hv ho hc, hs.next hl hc _⟩
  rw [hrun]
  rcases Step.run_forM_cases (fun pre s => Filling g pre s ∧ Evaluated g s pre) hstep
      ⟨.none, .refl g⟩ with ⟨g', hr, h⟩ | ⟨pre, n, post, e, g', hl, ⟨hf, h⟩, hx, hr⟩
  · exact Or.inl ⟨g', hr, h⟩
  · refine Or.inr ⟨pre, n, post, e, g', hl, hr, hf, h, ?_⟩
    rw [run_evaluateOne] at hx
    cases hc : g'.compute n with
    | ok x => rw [hc] at hx; cases hx
    | error e' => rw [hc] at hx; cases hx; rfl

/-- **An evaluation computes the missing vertices.**  If one fails, those before
it in the order stay computed. -/
theorem evaluate_cases (g : Graph K E) (root : Node) :
    (∃ g', (evaluate root).run g = .ok () g' ∧ Evaluated g g' (g.missing root) ∧ Turns [] g g') ∨
      ∃ pre n post e g', g.missing root = pre ++ n :: post ∧ Evaluated g g' pre ∧ Turns [] g g' ∧
        g'.compute n = .error e ∧ (evaluate root).run g = .error e g' := by
  rcases evaluate_filling g root with ⟨g', hr, hf, h⟩ | ⟨pre, n, post, e, g', hl, hr, hf, h, hc⟩
  · exact Or.inl ⟨g', hr, h, hf.turns⟩
  · exact Or.inr ⟨pre, n, post, e, g', hl, h, hf.turns, hc, hr⟩

section
variable {g g' : Graph K E} {root : Node}

theorem evaluated_of_run_ok (h : (evaluate root).run g = .ok () g') :
    Evaluated g g' (g.missing root) ∧ Turns [] g g' := by
  rcases evaluate_cases g root with ⟨g₁, hr, he⟩ | ⟨_, _, _, e, g₁, -, -, -, -, hr⟩
  · rw [hr] at h
    cases h
    exact he
  · rw [hr] at h
    cases h

/-- A vertex that was evaluated has the value of its operation. -/
theorem Evaluated.settled {done : List Node} (h : Evaluated g g' done) {n : Node} (hm : n ∈ done)
    (hp : g.isParameter n = false) : g'.Settled n := by
  obtain ⟨first, v, mask, -, hv, hcell⟩ := h.new n hm
  have hval : g'.value n = v := by rw [value, hcell, store]
  unfold Settled
  rw [h.op, hval, show (g'.cell n).mask = mask by rw [hcell, store], ← hv]
  exact Op.value_own hp _ _ _ _

/-- An evaluation keeps the values below a root consistent, also if it stops half
way. -/
theorem Evaluated.consistent {pre post : List Node} (h : Evaluated g g' pre)
    (hl : g.missing root = pre ++ post) (hc : g.Consistent root) : g'.Consistent root := by
  intro n hn hv hp
  rw [h.dag] at hn ⊢
  have hp' : g.isParameter n = false := by rwa [isParameter, h.op] at hp
  by_cases hm : n ∈ pre
  · obtain ⟨pre', post', rfl⟩ := List.append_of_mem hm
    have hl' : g.missing root = pre' ++ n :: (post' ++ post) := by simpa using hl
    refine ⟨fun c hcn => h.hasValue ?_, ?_⟩
    · exact (hasValue_or_mem_of_missing_eq hl' hcn).imp_right (List.mem_append_left _)
    · exact h.settled hm hp'
  · have hvn : g.hasValue n = true := by
      rwa [Graph.hasValue, h.old n hm, isParameter, h.op] at hv
    obtain ⟨ho, hs⟩ := hc n hn hvn hp'
    refine ⟨fun c hcn => h.hasValue (Or.inl (ho c hcn)), ?_⟩
    have hval : ∀ c ∈ (g.op n).operands, g'.value c = g.value c := fun c hcn =>
      congrArg Cell.value (h.cell_of_hasValue hl (ho c hcn))
    unfold Settled at hs ⊢
    rw [h.op, Op.value_congr hval, value, h.old n hm]
    exact hs

/-- **An evaluation makes a root ready**, if the values that are there fit together. -/
theorem Evaluated.ready (h : Evaluated g g' (g.missing root)) (hroot : root < g.size)
    (hc : g.Consistent root) : g'.Ready root := by
  have hval : ∀ n, g'.dag.Below root n → g'.hasValue n = true := fun n hn =>
    h.hasValue (hc.hasValue_or_mem hroot (h.dag ▸ hn))
  refine ⟨hval, fun n hn => ?_⟩
  cases hp : g'.isParameter n with
  | true => exact settled_parameter hp
  | false =>
    have hl : g.missing root = g.missing root ++ [] := (List.append_nil _).symm
    exact (h.consistent hl hc n hn (hval n hn) hp).2

end

end

end Graph

end DiffGraph
