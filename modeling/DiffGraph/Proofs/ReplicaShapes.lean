/-
  Replicas of other shapes.

  Orders of the same kinds exchange values and sums.  The value of a parameter is refused where
  the other one has another shape.  Sums are refused only if both of them have entries: a sum
  without entries counts as one that was never started, so that there is nothing to add, or
  everything to take over.

  * `Matrix.Joins`, `Cell.gather_of_joins`: which sums can be added to each other;
  * `SumsFit`: the sum of a parameter with entries has the shape of its value.  All calls keep
    this (`Reachable.sumsFit`);
  * `answer_copyParameters`, `answer_mergeGrads_of_apart`: when an exchange succeeds;
  * `exchange_by_shapes`: what is refused, and what an exchange between isomorphic orders does.
-/
import DiffGraph.Proofs.Merging

namespace DiffGraph

variable {K E : Type}

/-! ## Sums that can be added -/

/-- One of the sums has no entries, or both have the same shape. -/
def Matrix.Joins (a b : Matrix E) : Prop :=
  a.isEmpty = true ∨ b.isEmpty = true ∨ a.shape = b.shape

namespace Cell

/-- The sum has the shape of the value, or there are no entries and it was taken over from another
cell. -/
def SumFits (c : Cell E) : Prop :=
  c.batchSum.shape = c.value.shape ∨ c.value.isEmpty = true ∧ c.batchSum.isEmpty = false

theorem SumFits.shape {c : Cell E} (h : c.SumFits) (hv : c.value.isEmpty = false) :
    c.batchSum.shape = c.value.shape :=
  h.resolve_right fun h' => by simp [hv] at h'

theorem SumFits.isEmpty {c : Cell E} (h : c.SumFits) (hv : c.value.isEmpty = false) :
    c.batchSum.isEmpty = false := by
  rw [Matrix.isEmpty_congr (h.shape hv), hv]

/-- Sums of cells with entries of different shapes cannot be added. -/
theorem SumFits.not_joins {c d : Cell E} (hc : c.SumFits) (hd : d.SumFits)
    (hcv : c.value.isEmpty = false) (hdv : d.value.isEmpty = false)
    (hne : d.value.shape ≠ c.value.shape) : ¬ c.batchSum.Joins d.batchSum := by
  rintro (h | h | h)
  · simp [hc.isEmpty hcv] at h
  · simp [hd.isEmpty hdv] at h
  · rw [hc.shape hcv, hd.shape hdv] at h
    exact hne h.symm

section
variable [Arith E] {c d : Cell E} {sum : Matrix E}

theorem gather_of_joins (h : c.batchSum.Joins sum) : ∃ d, c.gather sum = .ok d := by
  unfold gather
  split
  · exact ⟨c, rfl⟩
  · next hsum =>
    have hstart : (if c.batchSum.isEmpty then sum.fill 0 else c.batchSum).shape = sum.shape := by
      split
      · rfl
      · next hold => exact (h.resolve_left hold).resolve_left hsum
    obtain ⟨total, htotal, -⟩ := Matrix.exists_zipWith (o := "add_assign") (f := (· + ·)) hstart
    have hadd : Matrix.add _ sum = .ok total := htotal
    dsimp only
    rw [hadd]
    exact ⟨_, rfl⟩

theorem gather_of_not_joins (h : ¬ c.batchSum.Joins sum) :
    c.gather sum = .error (.shapeMismatch c.batchSum.shape sum.shape "add_assign") := by
  have hold : ¬ c.batchSum.isEmpty = true := fun hold => h (.inl hold)
  have hsum : ¬ sum.isEmpty = true := fun hsum => h (.inr (.inl hsum))
  have hne : ¬ (c.batchSum.rows = sum.rows ∧ c.batchSum.cols = sum.cols) := fun hs =>
    h (.inr (.inr (Prod.ext hs.1 hs.2)))
  simp only [gather, if_neg hold, if_neg hsum, Matrix.add, Matrix.zipWith, dif_neg hne]
  rfl

theorem joins_of_gather (h : c.gather sum = .ok d) : c.batchSum.Joins sum := by
  by_contra hj
  rw [gather_of_not_joins hj] at h
  cases h

/-- A sum keeps its shape, or takes over that of the other one. -/
theorem shape_of_gather (h : c.gather sum = .ok d) :
    d.batchSum.shape = c.batchSum.shape ∨
      c.batchSum.isEmpty = true ∧ sum.isEmpty = false ∧ d.batchSum.shape = sum.shape := by
  unfold gather at h
  split at h
  · cases h
    exact .inl rfl
  · next hsum =>
    obtain ⟨total, htotal, h⟩ := bind_eq_ok.1 h
    cases h
    have hshape := Matrix.shape_of_zipWith htotal
    split at hshape
    · next hold => exact .inr ⟨hold, by simpa using hsum, hshape⟩
    · exact .inl hshape

/-- Another sum that is added, fitting or not. -/
theorem SumFits.gather (hc : c.SumFits) (h : c.gather sum = .ok d) : d.SumFits := by
  have hvalue : d.value = c.value := by rw [eq_of_gather h]
  unfold SumFits at hc ⊢
  rw [hvalue]
  rcases shape_of_gather h with hs | ⟨hold, hsum, hs⟩
  · rwa [hs, Matrix.isEmpty_congr hs]
  · -- the old sum has no entries, so that it is no foreign one and the value has none either
    have hown : c.batchSum.shape = c.value.shape := hc.resolve_right fun hf => by
      simp [hold] at hf
    exact .inr ⟨by rw [← Matrix.isEmpty_congr hown, hold], by rw [Matrix.isEmpty_congr hs, hsum]⟩

end

end Cell

namespace Graph

/-! ## Sums of parameters -/

/-- The sums of parameters have the shapes of their values, but for parameters without entries. -/
def SumsFit (g : Graph K E) : Prop := ∀ n, g.isParameter n = true → (g.cell n).SumFits

section
variable [Arith E] {g : Graph K E}

/-- A sum of one vertex was added to that of another. -/
def Gathers (g g' : Graph K E) : Prop :=
  ∃ target source c, (g.cell target).gather (g.cell source).batchSum = .ok c ∧
    g' = g.update target fun _ => c

theorem leads_gathers (order replica : List Node) :
    (mergeGrads order replica : Step (Graph K E) Unit).Leads Gathers g := by
  refine .get_bind (.ofExcept_bind fun _ _ => .forM (fun p _ s => ?_) g)
  have hrun := run_mergeGrad p.1 p.2 s
  cases hc : (s.cell p.1).gather (s.cell p.2).batchSum with
  | error e =>
    rw [hc] at hrun
    exact .of_run_error hrun
  | ok c =>
    rw [hc] at hrun
    exact .of_run_ok hrun (.single ⟨p.1, p.2, c, hc, rfl⟩)

theorem Gathers.sumsFit {g' : Graph K E} (h : Gathers g g') (hg : g.SumsFit) : g'.SumsFit := by
  obtain ⟨target, source, c, hc, rfl⟩ := h
  intro n hp
  rw [cell_update]
  split
  · next hn => exact (hg target (hn.1 ▸ hp)).gather hc
  · exact hg n hp

end

section
variable [Scalar K] [Arith E] [Laned K E] {targets : List Node} {g g' : Graph K E}

/-- A turn adds gradients to sums, and those fit. -/
theorem Turn.sumsFit (h : Turn targets g g') (hgrads : g.GradsFit) (hg : g.SumsFit) :
    g'.SumsFit := by
  intro n hp
  by_cases hn : n < g.size
  · have hp' : g.isParameter n = true := by rwa [isParameter, h.extends.op n hn] at hp
    have hfit := hg n hp'
    unfold Cell.SumFits at hfit ⊢
    rcases h.cell_cases hn with hc | ⟨-, -, v, hs, hc⟩ | ⟨hv, -⟩
    · rw [hc.value]
      rcases hc.batchSum with hb | hb
      · rwa [hb, Matrix.isEmpty_congr hb]
      · exact .inl (hb.trans (hgrads n hp'))
    · rw [hc]
      dsimp only
      rwa [hs, Matrix.isEmpty_congr hs]
    · simp [hasValue, hp'] at hv
  · rcases h.cell_of_size_le (not_lt.1 hn) with hc | ⟨-, v, hc⟩ <;> rw [hc] <;> exact .inl rfl

end

end Graph

/-- **The sum of a parameter with entries has the shape of its value**, whatever was done
before. -/
theorem Reachable.sumsFit [Scalar K] [Arith E] [Laned K E] {g : Graph K E} (h : Reachable g) :
    g.SumsFit := by
  induction h with
  | empty tag noise => exact fun n _ => .inl rfl
  | @call g h c ih =>
    have hturns : c.Plain → (c.run.final g).SumsFit := fun hc =>
      (Step.keeps_of_moves (I := fun s : Graph K E => s.GradsFit ∧ s.SumsFit)
        (fun _ _ ht hs => ⟨(Graph.Edit.turn ht).gradsFit hs.1, ht.sumsFit hs.1 hs.2⟩)
        (c.turns hc g) ⟨h.gradsFit, ih⟩).2
    cases c with
    | reset order =>
      obtain ⟨g', hr, hc⟩ := Graph.reset_run g order
      have hfinal : (Call.reset order).run.final g = g' := Step.final_of_run_ok hr
      rw [hfinal]
      intro n hp
      obtain ⟨m, b, -, -, hcell⟩ := hc.cell_eq n
      rw [hcell]
      exact ih n (by rwa [Graph.isParameter, hc.op] at hp)
    | mergeGrads order replica =>
      exact Step.keeps_of_moves (fun _ _ hm hs => hm.sumsFit hs)
        (Graph.leads_gathers order replica) ih
    | _ => exact hturns trivial

namespace Graph

/-! ## The check -/

/-- The values of a parameter and its replica have different shapes. -/
def Differ (g : Graph K E) (p : Node × Node) : Prop :=
  g.isParameter p.1 = true ∧ (g.value p.2).shape ≠ (g.value p.1).shape

section
variable {g : Graph K E} {order replica : List Node}

/-- The kinds of two orders that pass the check are the same, position by position. -/
theorem kinds_of_checkAlike (h : g.checkAlike order replica = .ok ()) :
    order.length = replica.length ∧ ∀ p ∈ order.zip replica, g.kind p.1 = g.kind p.2 := by
  unfold checkAlike at h
  split at h
  · cases h
  · next hlength =>
    refine ⟨not_not.1 hlength, fun p hp => ?_⟩
    obtain ⟨i, hi⟩ := List.mem_iff_getElem?.1 hp
    have hmem : (p, i) ∈ (order.zip replica).zipIdx := List.mem_zipIdx_iff_getElem?.2 hi
    split at h
    · cases h
    · next hnone =>
      rw [unlike?, Option.map_eq_none_iff, List.find?_eq_none] at hnone
      simpa using hnone _ hmem

theorem isParameter_of_checkAlike (h : g.checkAlike order replica = .ok ()) {p : Node × Node}
    (hp : p ∈ order.zip replica) : g.isParameter p.2 = g.isParameter p.1 :=
  congrArg (fun k => decide (k = Kind.parameter)) ((kinds_of_checkAlike h).2 p hp).symm

/-- What the check refuses is refused without a change. -/
theorem run_of_checkAlike_error {body : Step (Graph K E) Unit} {e : Failure}
    (h : g.checkAlike order replica = .error e) :
    (do Step.ofExcept ((← get).checkAlike order replica); body : Step (Graph K E) Unit).run g =
      .error e g := by
  simp only [EStateM.run_bind, EStateM.run_get, h]
  rfl

theorem run_of_checkAlike {body : Step (Graph K E) Unit}
    (h : g.checkAlike order replica = .ok ()) :
    (do Step.ofExcept ((← get).checkAlike order replica); body : Step (Graph K E) Unit).run g =
      body.run g := by
  simp only [EStateM.run_bind, EStateM.run_get, h]
  rfl

end

/-! ## Copies -/

section
variable [Scalar K] [Arith E] [Laned K E] {g : Graph K E} {order replica : List Node}

/-- **Parameters are copied unless two of them differ in shape**, whatever the orders share. -/
theorem answer_copyParameters (h : g.checkAlike order replica = .ok ()) :
    ((∀ p ∈ order.zip replica, ¬ g.Differ p) →
      (copyParameters order replica).answer g = .ok ()) ∧
    ((∃ p ∈ order.zip replica, g.Differ p) → ∃ p ∈ order.zip replica, g.Differ p ∧
      (copyParameters order replica).answer g =
        .error (.shapeMismatch (g.value p.2).shape (g.value p.1).shape "set_value")) := by
  -- a copy changes no shape, so that each pair is judged as at the start
  let I : Graph K E → Prop := fun s => s.dag = g.dag ∧ ∀ n, (s.value n).shape = (g.value n).shape
  have hself : I g := ⟨rfl, fun _ => rfl⟩
  have hgood : ∀ p ∈ order.zip replica, ¬ g.Differ p → ∀ s, I s →
      ∃ s', (copyParameter p.1 p.2).run s = .ok ⟨⟩ s' ∧ I s' := by
    rintro ⟨source, target⟩ hp hd s ⟨hdag, hs⟩
    by_cases hcopy : source ≠ target ∧ s.isParameter source = true
    · have hps : g.isParameter source = true := by rw [← isParameter_of_dag hdag, hcopy.2]
      have hpt : s.isParameter target = true := by
        rw [isParameter_of_dag hdag, isParameter_of_checkAlike h hp, hps]
      have hshape : (s.value source).shape = (s.value target).shape := by
        rw [hs, hs]
        exact (not_not.1 fun hne => hd ⟨hps, hne⟩).symm
      have hrun : (copyParameter source target).run s =
          (setValue target (s.value source)).run s := by
        simp only [copyParameter, EStateM.run_bind, EStateM.run_get, if_pos hcopy]
      refine ⟨_, hrun.trans (run_setValue hpt hshape), hdag, fun n => ?_⟩
      rw [value, cell_update]
      split
      · next hn => rw [hn.1, ← hs target, ← hshape]
      · exact hs n
    · refine ⟨s, ?_, hdag, hs⟩
      simp only [copyParameter, EStateM.run_bind, EStateM.run_get, if_neg hcopy]
      rfl
  have hbad : ∀ p ∈ order.zip replica, g.Differ p → ∀ s, I s →
      (copyParameter p.1 p.2).run s =
        .error (.shapeMismatch (g.value p.2).shape (g.value p.1).shape "set_value") s := by
    rintro ⟨source, target⟩ hp ⟨hps, hne⟩ s ⟨hdag, hs⟩
    have hpt : s.isParameter target = true := by
      rw [isParameter_of_dag hdag, isParameter_of_checkAlike h hp, hps]
    have hnode : source ≠ target := fun heq => hne (by rw [heq])
    rw [run_copyParameter hnode (by rw [hpt, isParameter_of_dag hdag, hps]),
      isParameter_of_dag hdag, if_pos hps, Cell.overwrite, if_neg]
    · have hself : (s.cell target).value.shape = (g.value target).shape := hs target
      simp only [hself, hs]
    · show ¬ (s.value target).shape = (s.value source).shape
      rw [hs, hs]
      exact hne
  have hrun : (copyParameters order replica).run g =
      ((order.zip replica).forM fun p => copyParameter p.1 p.2).run g := run_of_checkAlike h
  refine ⟨fun hall => ?_, fun hsome => ?_⟩
  · obtain ⟨s', hr, -⟩ := Step.run_forM_ok (l := order.zip replica) (fun _ s => I s)
      (fun pre p post s hl hs => hgood p (by simp [hl]) (hall p (by simp [hl])) s hs) hself
    exact Step.answer_of_run_ok (hrun.trans hr)
  · obtain ⟨p, hp, hd, hr⟩ := Step.answer_forM_of_bad I hgood hbad hself hsome
    refine ⟨p, hp, hd, ?_⟩
    rw [Step.answer, hrun]
    exact hr

end

/-! ## Sums -/

/-- A parameter and its replica have entries, and different shapes. -/
def Clash (g : Graph K E) (p : Node × Node) : Prop :=
  g.Differ p ∧ (g.value p.1).isEmpty = false ∧ (g.value p.2).isEmpty = false

section
variable [Arith E] {g : Graph K E} {order replica : List Node}

/-- **A merge succeeds, or two sums cannot be added.**  What its rounds keep is kept. -/
theorem mergeGrads_cases (h : g.checkAlike order replica = .ok ())
    (I : List (Node × Node) → Graph K E → Prop)
    (hI : ∀ pre p post s c, order.zip replica = pre ++ p :: post → I pre s →
      (s.cell p.1).gather (s.cell p.2).batchSum = .ok c →
      I (pre ++ [p]) (s.update p.1 fun _ => c)) (hg : I [] g) :
    (∃ g', (mergeGrads order replica).run g = .ok () g' ∧ I (order.zip replica) g') ∨
      ∃ a b, (mergeGrads order replica).answer g = .error (.shapeMismatch a b "add_assign") := by
  have hrun : (mergeGrads order replica).run g =
      ((order.zip replica).forM fun p => mergeGrad p.1 p.2).run g := run_of_checkAlike h
  have hstep : ∀ pre p post s, order.zip replica = pre ++ p :: post → I pre s →
      (∃ s', (mergeGrad p.1 p.2).run s = .ok ⟨⟩ s' ∧ I (pre ++ [p]) s') ∨
        ∃ e, (mergeGrad p.1 p.2).run s = .error e s := by
    intro pre p post s hl hs
    rw [run_mergeGrad]
    cases hc : (s.cell p.1).gather (s.cell p.2).batchSum with
    | ok c => exact .inl ⟨_, rfl, hI pre p post s c hl hs hc⟩
    | error e => exact .inr ⟨e, rfl⟩
  rcases Step.run_forM_cases I hstep hg with ⟨g', hr, hg'⟩ | ⟨_, p, _, e, s, -, -, hp, hr⟩
  · exact .inl ⟨g', hrun.trans hr, hg'⟩
  · rw [run_mergeGrad] at hp
    by_cases hj : (s.cell p.1).batchSum.Joins (s.cell p.2).batchSum
    · obtain ⟨c, hc⟩ := Cell.gather_of_joins hj
      rw [hc] at hp
      cases hp
    · rw [Cell.gather_of_not_joins hj] at hp
      obtain ⟨rfl, -⟩ := EStateM.Result.error.inj hp
      exact .inr ⟨_, _, Step.answer_of_run_error (hrun.trans hr)⟩

/-- **Sums of parameters that clash are refused**, whatever the orders share. -/
theorem answer_mergeGrads_of_clash (hg : g.SumsFit)
    (h : g.checkAlike order replica = .ok ()) (hclash : ∃ p ∈ order.zip replica, g.Clash p) :
    ∃ a b, (mergeGrads order replica).answer g = .error (.shapeMismatch a b "add_assign") := by
  -- the values stay, so that the rounds so far can have passed over no pair that clashes
  let I : List (Node × Node) → Graph K E → Prop := fun pre s =>
    s.SumsFit ∧ s.dag = g.dag ∧ (∀ n, s.value n = g.value n) ∧ ∀ p ∈ pre, ¬ g.Clash p
  have hI : ∀ pre p post s c, order.zip replica = pre ++ p :: post → I pre s →
      (s.cell p.1).gather (s.cell p.2).batchSum = .ok c →
      I (pre ++ [p]) (s.update p.1 fun _ => c) := by
    rintro pre ⟨target, source⟩ post s c hl ⟨hfit, hdag, hvalue, hpre⟩ hc
    have hmem : (target, source) ∈ order.zip replica := by simp [hl]
    refine ⟨Gathers.sumsFit ⟨target, source, c, hc, rfl⟩ hfit, hdag, fun n => ?_, fun p hp => ?_⟩
    · rw [value, cell_update]
      split
      · next hn =>
        have hsame : c.value = (s.cell target).value := by rw [Cell.eq_of_gather hc]
        rw [hsame, hn.1]
        exact hvalue target
      · exact hvalue n
    · rcases List.mem_append.1 hp with hp | hp
      · exact hpre p hp
      · obtain rfl := List.mem_singleton.1 hp
        rintro ⟨⟨hpt, hne⟩, hvt, hvs⟩
        have hpt' : s.isParameter target = true := by rw [isParameter_of_dag hdag, hpt]
        have hps : s.isParameter source = true := by
          rw [isParameter_of_dag hdag, isParameter_of_checkAlike h hmem, hpt]
        rw [← hvalue] at hvt hvs
        rw [← hvalue, ← hvalue] at hne
        exact (hfit target hpt').not_joins (hfit source hps) hvt hvs hne (Cell.joins_of_gather hc)
  rcases mergeGrads_cases h I hI ⟨hg, rfl, fun _ => rfl, by simp⟩ with
    ⟨g', -, -, -, -, hnone⟩ | herror
  · obtain ⟨p, hp, hc⟩ := hclash
    exact absurd hc (hnone p hp)
  · exact herror

section
variable (h : g.checkAlike order replica = .ok ()) (hnodup : order.Nodup)
  (hapart : ∀ n ∈ replica, n ∉ order)
include h hnodup hapart

/-- **Sums that can be added are merged** from a replica that stands apart. -/
theorem run_mergeGrads_of_joins
    (hjoins : ∀ p ∈ order.zip replica, (g.cell p.1).batchSum.Joins (g.cell p.2).batchSum) :
    ∃ g', (mergeGrads order replica).run g = .ok () g' ∧
      Replaced Prod.fst (fun p => Cell.gather (g.cell p.2).batchSum) (order.zip replica) g g' := by
  have hfst : (order.zip replica).map Prod.fst = order :=
    List.map_fst_zip (kinds_of_checkAlike h).1.le
  obtain ⟨g', hr, hrep⟩ := run_replacing Prod.fst (g := g) (l := order.zip replica)
    (f := fun p => Cell.gather (g.cell p.2).batchSum) (fun p => mergeGrad p.1 p.2)
    (fun p hp s _ hold => by
      have hrun := run_mergeGrad p.1 p.2 s
      rwa [hold p.2 (by rw [hfst]; exact hapart _ (List.of_mem_zip hp).2)] at hrun)
    (by rwa [hfst]) fun p hp => Cell.gather_of_joins (hjoins p hp)
  have hrun : (mergeGrads order replica).run g =
      ((order.zip replica).forM fun p => mergeGrad p.1 p.2).run g := run_of_checkAlike h
  exact ⟨g', hrun.trans hr, hrep⟩

/-- A merge from a replica that stands apart succeeds if all sums can be added, and only then. -/
theorem answer_mergeGrads_of_apart :
    (mergeGrads order replica).answer g = .ok () ↔
      ∀ p ∈ order.zip replica, (g.cell p.1).batchSum.Joins (g.cell p.2).batchSum := by
  refine ⟨fun hok => ?_, fun hjoins => ?_⟩
  · have hfst : (order.zip replica).map Prod.fst = order :=
      List.map_fst_zip (kinds_of_checkAlike h).1.le
    -- a target comes once, so that each pair has the sums of the start when its turn comes
    let I : List (Node × Node) → Graph K E → Prop := fun pre s =>
      (∀ n, n ∉ pre.map Prod.fst → s.cell n = g.cell n) ∧
        ∀ p ∈ pre, (g.cell p.1).batchSum.Joins (g.cell p.2).batchSum
    have hI : ∀ pre p post s c, order.zip replica = pre ++ p :: post → I pre s →
        (s.cell p.1).gather (s.cell p.2).batchSum = .ok c →
        I (pre ++ [p]) (s.update p.1 fun _ => c) := by
      rintro pre ⟨target, source⟩ post s c hl ⟨hold, hpre⟩ hc
      have hmap : order = pre.map Prod.fst ++ target :: post.map Prod.fst := by
        rw [← hfst, hl, List.map_append, List.map_cons]
      have htarget : target ∉ pre.map Prod.fst := fun hm =>
        (List.nodup_append.1 (hmap ▸ hnodup)).2.2 target hm target List.mem_cons_self rfl
      have hmem : (target, source) ∈ order.zip replica := by simp [hl]
      have hsource : source ∉ pre.map Prod.fst := fun hm =>
        hapart source (List.of_mem_zip hmem).2 (hmap ▸ List.mem_append_left _ hm)
      rw [hold _ htarget, hold _ hsource] at hc
      refine ⟨fun n hn => ?_, fun p hp => ?_⟩
      · rw [List.map_append, List.mem_append, not_or] at hn
        rw [cell_update_of_ne s fun hne => hn.2 (by simp [← hne]), hold n hn.1]
      · rcases List.mem_append.1 hp with hp | hp
        · exact hpre p hp
        · exact List.mem_singleton.1 hp ▸ Cell.joins_of_gather hc
    rcases mergeGrads_cases h I hI ⟨fun _ _ => rfl, by simp⟩ with
      ⟨g', -, -, hall⟩ | ⟨a, b, herror⟩
    · exact hall
    · rw [herror] at hok
      cases hok
  · obtain ⟨g', hr, -⟩ := run_mergeGrads_of_joins h hnodup hapart hjoins
    exact Step.answer_of_run_ok hr

end

/-! ## Isomorphic orders -/

/-- The sum of a vertex was never started, or has the shape of the vertex. -/
def OwnSum (g : Graph K E) (n : Node) : Prop :=
  (g.cell n).batchSum.shape = (0, 0) ∨ (g.cell n).batchSum.shape = g.shapes n

omit [Arith E] in
/-- A sum is the vertex's own, and a parameter has started one. -/
theorem SumsFit.of_ownSum (hg : g.SumsFit) {n : Node} (hp : g.isParameter n = true)
    (hown : g.OwnSum n) : (g.cell n).batchSum.shape = (g.value n).shape := by
  rcases hg n hp with hs | ⟨-, hne⟩
  · exact hs
  · rw [OwnSum, shapes_parameter hp] at hown
    refine hown.resolve_left fun hzero => ?_
    rw [(g.cell n).batchSum.isEmpty_iff.2 (by rw [hzero]; rfl)] at hne
    cases hne

omit [Arith E] in
theorem Isomorphic.joins (h : g.Isomorphic order replica)
    (hown : ∀ n ∈ order ++ replica, g.OwnSum n) :
    ∀ p ∈ order.zip replica, (g.cell p.1).batchSum.Joins (g.cell p.2).batchSum := by
  have hempty : ∀ m : Matrix E, m.shape = (0, 0) → m.isEmpty = true := fun m hm =>
    m.isEmpty_iff.2 (by rw [hm]; rfl)
  intro p hp
  obtain ⟨h₁, h₂⟩ := List.of_mem_zip hp
  rcases hown p.1 (List.mem_append_left _ h₁) with hz | hs
  · exact .inl (hempty _ hz)
  · rcases hown p.2 (List.mem_append_right _ h₂) with hz | hs'
    · exact .inr (.inl (hempty _ hz))
    · exact .inr (.inr (hs.trans ((h.shapes p hp).symm.trans hs'.symm)))

/-- **What is merged from an isomorphic order that stands apart**: the sums of each parameter are
added, in its shape. -/
theorem sums_of_isomorphic (hg : g.SumsFit) (h : g.checkAlike order replica = .ok ())
    (hnodup : order.Nodup) (hapart : ∀ n ∈ replica, n ∉ order) (hiso : g.Isomorphic order replica)
    (hown : ∀ n ∈ order ++ replica, g.OwnSum n) :
    ∃ g', (mergeGrads order replica).run g = .ok () g' ∧
      ∀ p ∈ order.zip replica, g.isParameter p.1 = true →
        (g.cell p.1).batchSum.add (g.cell p.2).batchSum = .ok (g'.cell p.1).batchSum ∧
        (g'.cell p.1).batchSum.shape = (g.value p.1).shape := by
  obtain ⟨g', hr, hrep⟩ := run_mergeGrads_of_joins h hnodup hapart (hiso.joins hown)
  refine ⟨g', hr, fun p hp hpt => ?_⟩
  obtain ⟨h₁, h₂⟩ := List.of_mem_zip hp
  have hps : g.isParameter p.2 = true := by rw [isParameter_of_checkAlike h hp, hpt]
  have htarget := hg.of_ownSum hpt (hown p.1 (List.mem_append_left _ h₁))
  have hsource := hg.of_ownSum hps (hown p.2 (List.mem_append_right _ h₂))
  have hsame : (g.cell p.1).batchSum.shape = (g.cell p.2).batchSum.shape := by
    rw [htarget, hsource, ← shapes_parameter hpt, ← shapes_parameter hps, hiso.shapes p hp]
  have hadd : (g.cell p.1).batchSum.add (g.cell p.2).batchSum = .ok (g'.cell p.1).batchSum := by
    by_cases hlt : p.1 < g.size
    · exact Cell.add_of_gather hsame (hrep.new p hp hlt)
    · have hblank : ∀ s : Graph K E, s.dag = g.dag → s.cell p.1 = .blank := fun s hs =>
        cell_of_size_le s ((size_of_dag hs).trans_le (not_lt.1 hlt))
      rw [hblank g' hrep.beside.dag, ← hblank g rfl]
      refine Matrix.add_of_isEmpty hsame ?_
      rw [← Matrix.isEmpty_congr hsame, hblank g rfl]
      rfl
  exact ⟨hadd, (Matrix.shape_of_zipWith hadd).trans htarget⟩

end

/-- Sums that were merged between isomorphic orders only are the vertices' own. -/
theorem ownSum_of_fair [Scalar K] [Arith E] [Laned K E] {tag : Nat} {noise : Noise K}
    {cs : List (Call K E)} (hcs : Call.FairRun cs (.empty tag noise)) (n : Node) :
    (Call.runs cs (.empty tag noise)).OwnSum n :=
  ((Call.runs_shaped cs hcs (shaped_empty tag noise)).within n).batchSum

/-- **What replicas of other shapes exchange**, in any state, for orders of any length.

* What the check refuses is refused without a change.
* Values are copied, unless those of two parameters differ in shape: then this is reported.
* Sums of two parameters that have entries are refused if the shapes differ.  From a replica that
  stands apart all sums are merged, unless two of them have entries and different shapes.
* Isomorphic orders that stand apart merge their sums, if those are the vertices' own, and each
  parameter gets the sum of both, in its shape.  After calls that merged sums between isomorphic
  orders only, all sums are the vertices' own. -/
theorem exchange_by_shapes [Scalar K] [Arith E] [Laned K E] {g : Graph K E} (hg : Reachable g)
    (order replica : List Node) :
    (∀ x ∈ [copyParameters order replica, mergeGrads order replica], ∀ e, x.answer g = .error e →
      (∀ a b o, e ≠ .shapeMismatch a b o) → x.final g = g) ∧
    (g.checkAlike order replica = .ok () →
      ((copyParameters order replica).answer g = .ok () ↔
        ∀ p ∈ order.zip replica, ¬ g.Differ p) ∧
      ((∃ p ∈ order.zip replica, g.Differ p) → ∃ a b,
        (copyParameters order replica).answer g = .error (.shapeMismatch a b "set_value")) ∧
      ((∃ p ∈ order.zip replica, g.Clash p) → ∃ a b,
        (mergeGrads order replica).answer g = .error (.shapeMismatch a b "add_assign")) ∧
      (order.Nodup → (∀ n ∈ replica, n ∉ order) →
        ((mergeGrads order replica).answer g = .ok () ↔
          ∀ p ∈ order.zip replica, (g.cell p.1).batchSum.Joins (g.cell p.2).batchSum) ∧
        (g.Isomorphic order replica → (∀ n ∈ order ++ replica, g.OwnSum n) →
          ∃ g', (mergeGrads order replica).run g = .ok () g' ∧
            ∀ p ∈ order.zip replica, g.isParameter p.1 = true →
              (g.cell p.1).batchSum.add (g.cell p.2).batchSum = .ok (g'.cell p.1).batchSum ∧
              (g'.cell p.1).batchSum.shape = (g.value p.1).shape))) ∧
    ∀ tag noise (cs : List (Call K E)), Call.FairRun cs (.empty tag noise) →
      ∀ n, (Call.runs cs (.empty tag noise)).OwnSum n := by
  have hcopied : g.checkAlike order replica = .ok () →
      ((copyParameters order replica).answer g = .ok () ↔
        ∀ p ∈ order.zip replica, ¬ g.Differ p) := by
    intro h
    refine ⟨fun hok p hp hd => ?_, (answer_copyParameters h).1⟩
    obtain ⟨_, _, _, herror⟩ := (answer_copyParameters h).2 ⟨p, hp, hd⟩
    rw [herror] at hok
    cases hok
  have hrefused : g.checkAlike order replica = .ok () →
      (∃ p ∈ order.zip replica, g.Differ p) → ∃ a b,
        (copyParameters order replica).answer g = .error (.shapeMismatch a b "set_value") := by
    intro h hd
    obtain ⟨p, -, -, herror⟩ := (answer_copyParameters h).2 hd
    exact ⟨_, _, herror⟩
  have hmismatch : g.checkAlike order replica = .ok () →
      ∀ x ∈ [copyParameters order replica, mergeGrads order replica], ∀ e, x.answer g = .error e →
        ∃ a b o, e = .shapeMismatch a b o := by
    intro h x hx e he
    rcases List.mem_pair.1 hx with rfl | rfl
    · by_cases hd : ∃ p ∈ order.zip replica, g.Differ p
      · obtain ⟨a, b, herror⟩ := hrefused h hd
        exact ⟨a, b, _, Except.error.inj (he.symm.trans herror)⟩
      · have hok := (hcopied h).2 fun p hp hdp => hd ⟨p, hp, hdp⟩
        rw [hok] at he
        cases he
    · rcases mergeGrads_cases h (fun _ _ => True) (fun _ _ _ _ _ _ _ _ => trivial) trivial with
        ⟨g', hr, -⟩ | ⟨a, b, herror⟩
      · rw [Step.answer_of_run_ok hr] at he
        cases he
      · exact ⟨a, b, _, Except.error.inj (he.symm.trans herror)⟩
  refine ⟨fun x hx e he hne => ?_, fun h => ⟨hcopied h, hrefused h,
    answer_mergeGrads_of_clash hg.sumsFit h, fun hnodup hapart =>
      ⟨answer_mergeGrads_of_apart h hnodup hapart,
        sums_of_isomorphic hg.sumsFit h hnodup hapart⟩⟩, fun tag noise cs => ownSum_of_fair⟩
  cases h : g.checkAlike order replica with
  | ok =>
    obtain ⟨a, b, o, rfl⟩ := hmismatch h x hx e he
    exact absurd rfl (hne a b o)
  | error e' =>
    have hrun : x.run g = .error e' g := by
      rcases List.mem_pair.1 hx with rfl | rfl
      · exact run_of_checkAlike_error h
      · exact run_of_checkAlike_error h
    exact Step.final_of_run_error hrun

/-- A row exchanges nothing with a column, and everything with another row. -/
theorem exchange_by_shapes_row :
    let g : Graph Float32 Float32 := Call.runs [.parameter (.filled 1 2 3),
      .parameter (.filled 2 1 5), .parameter (.filled 1 2 7)] (.empty 0 ⟨fun _ => 0, fun _ => 0⟩)
    (∃ a b, (copyParameters [0] [1]).answer g = .error (.shapeMismatch a b "set_value")) ∧
    (∃ a b, (mergeGrads [0] [1]).answer g = .error (.shapeMismatch a b "add_assign")) ∧
    (copyParameters [0] [2]).answer g = .ok () ∧
    ∃ g', (mergeGrads [0] [2]).run g = .ok () g' ∧ (g'.cell 0).batchSum.shape = (1, 2) := by
  intro g
  have hg : Reachable g := (Reachable.empty 0 _).runs _
  have hfair : Call.FairRun [.parameter (.filled 1 2 3), .parameter (.filled 2 1 5),
      .parameter (.filled 1 2 7)] (.empty 0 ⟨fun _ => 0, fun _ => 0⟩ : Graph Float32 Float32) :=
    ⟨trivial, trivial, trivial, trivial⟩
  have hparameter : ∀ n < 3, g.isParameter n = true := by decide +kernel
  have hshape : (g.value 1).shape ≠ (g.value 0).shape ∧ (g.value 2).shape = (g.value 0).shape ∧
      (g.value 0).isEmpty = false ∧ (g.value 1).isEmpty = false := by decide +kernel
  obtain ⟨-, hother, hfit⟩ := exchange_by_shapes hg [0] [1]
  obtain ⟨-, hdiffer, hclash, -⟩ := hother (by decide +kernel)
  obtain ⟨-, hsame, -⟩ := exchange_by_shapes hg [0] [2]
  obtain ⟨hcopy, -, -, hmerge⟩ := hsame (by decide +kernel)
  have hd : g.Differ (0, 1) := ⟨hparameter 0 (by decide), hshape.1⟩
  have hiso : g.Isomorphic [0] [2] := by
    refine ⟨fun _ => 2, rfl, List.forall_mem_singleton.2 ⟨?_, ?_, fun _ => hshape.2.1⟩⟩
    · rw [op_eq_parameter (hparameter 2 (by decide)), op_eq_parameter (hparameter 0 (by decide))]
      rfl
    · simp [op_eq_parameter (hparameter 0 (by decide)), Op.operands]
  obtain ⟨g', hr, hsums⟩ := (hmerge (by decide) (by decide)).2 hiso fun n _ => hfit _ _ _ hfair n
  refine ⟨hdiffer ⟨(0, 1), by simp, hd⟩, hclash ⟨(0, 1), by simp, hd, hshape.2.2⟩,
    hcopy.2 (by simpa [Differ] using fun _ => hshape.2.1), g', hr, ?_⟩
  exact (hsums (0, 2) (by simp) (hparameter 0 (by decide))).2

/-- A parameter without entries takes over the sum of another one, and its shape. -/
example :
    let g : Graph Float32 Float32 := Call.runs [.parameter .empty, .parameter (.scalar 1)]
      (.empty 0 ⟨fun _ => 0, fun _ => 0⟩)
    (mergeGrads [0] [1]).answer g = .ok () ∧
      (((mergeGrads [0] [1]).final g).cell 0).batchSum.shape = (1, 1) := by
  decide +kernel

end Graph

end DiffGraph
