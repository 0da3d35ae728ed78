/-
  Evaluations that stop half way.

  What is missing below a root is what a search finds that does not look below
  vertices with values.  After a part of it was evaluated, a second search finds
  the rest, in the same order.

  * `Dag.traverse_filter`: a search that skips some vertices, and with each of them
    what is below it, lists the others as before;
  * `Evaluated.missing`: what is missing after a part was evaluated;
  * `evaluate_fills`: what an evaluation does to each cell, and what it does when
    it is called again after a failure.
-/
import DiffGraph.Proofs.Exact
import DiffGraph.Proofs.History

namespace DiffGraph

open Relation

/-! ## Searches that skip vertices -/

namespace Dag

variable {K : Type} {d : Dag K} {descend skip : Node → Bool}

/-- With each vertex that is skipped, what the search would list below it is skipped. -/
def Closed (d : Dag K) (descend skip : Node → Bool) : Prop :=
  ∀ m, skip m = true → descend m = true → ∀ c ∈ d.operands m, descend c = true → skip c = true

theorem Closed.of_reaches (h : d.Closed descend skip) {n m : Node} (hr : d.Reaches descend n m)
    (hn : skip n = true) (hm : descend m = true) : skip m = true := by
  induction hr with
  | refl => exact hn
  | tail _ hbc ih => exact h _ (ih hbc.1) hbc.1 _ hbc.2 hm

/-- The search `t` is where `s` would be without the vertices that are skipped.  It has not
entered what `s` has entered below them. -/
structure Trails (descend skip : Node → Bool) (s t : Search) : Prop where
  left : t.left = s.left.filter fun n => ! skip n
  entered : t.entered ⊆ s.entered
  passed : ∀ m ∈ s.entered, m ∈ t.entered ∨ (descend m && ! skip m) = false

namespace Trails

variable {s t : Search} {n : Node}

/-- The search that skips vertices enters one of them. -/
theorem enter_skipped (h : Trails descend skip s t) (hn : n ∈ s.entered) :
    Trails descend skip s ⟨n :: t.entered, t.left⟩ where
  left := h.left
  entered _ hm := (List.mem_cons.1 hm).elim (fun hmn => hmn ▸ hn) fun hm => h.entered hm
  passed _ hm := (h.passed _ hm).imp_left (List.mem_cons_of_mem n)

/-- Both searches enter a vertex. -/
theorem enter (h : Trails descend skip s t) :
    Trails descend skip ⟨n :: s.entered, s.left⟩ ⟨n :: t.entered, t.left⟩ where
  left := h.left
  entered := List.cons_subset_cons n h.entered
  passed m hm := by
    rcases List.mem_cons.1 hm with rfl | hm
    · exact Or.inl List.mem_cons_self
    · exact (h.passed m hm).imp_left (List.mem_cons_of_mem n)

/-- Both searches leave a vertex that is not skipped. -/
theorem leave (h : Trails descend skip s t) (hn : skip n = false) :
    Trails descend skip ⟨s.entered, s.left ++ [n]⟩ ⟨t.entered, t.left ++ [n]⟩ where
  left := by simp [h.left, hn]
  entered := h.entered
  passed := h.passed

/-- The other search looks below vertices that are all skipped. -/
theorem of_adds (h : Trails descend skip s t) {u : Search} {new roots : List Node}
    (ha : d.Adds descend roots s u new) (hskip : ∀ m ∈ new, skip m = true) :
    Trails descend skip u t where
  left := by
    have hnew : new.filter (fun n => ! skip n) = [] :=
      List.filter_eq_nil_iff.2 fun m hm => by simp [hskip m hm]
    rw [ha.left, List.filter_append, hnew, List.append_nil, h.left]
  entered := List.Subset.trans h.entered ha.kept
  passed m hm := by
    rcases ha.entered m hm with hm | hm | hm
    · exact h.passed m hm
    · exact Or.inr (by simp [hskip m hm])
    · exact Or.inr (by simp [hm])

theorem searchAll {ns : List Node}
    (hns : ∀ n ∈ ns, ∀ s t, Trails descend skip s t →
      Trails descend skip (d.search descend n s) (d.search (fun m => descend m && ! skip m) n t))
    (h : Trails descend skip s t) :
    Trails descend skip (d.searchAll descend ns s)
      (d.searchAll (fun m => descend m && ! skip m) ns t) := by
  induction ns generalizing s t with
  | nil => exact h
  | cons n ns ih =>
    exact ih (fun m hm => hns m (List.mem_cons_of_mem n hm)) (hns n List.mem_cons_self s t h)

end Trails

/-- A search keeps behind another one from which it skips vertices. -/
theorem search_trails (hclosed : d.Closed descend skip) (n : Node) :
    ∀ s t, Trails descend skip s t →
      Trails descend skip (d.search descend n s)
        (d.search (fun m => descend m && ! skip m) n t) := by
  induction n using Nat.strong_induction_on with
  | _ n ih =>
    intro s t h
    by_cases hs : n ∈ s.entered
    · rw [search_of_mem hs]
      by_cases ht : n ∈ t.entered
      · rwa [search_of_mem ht]
      · rw [search_of_not ht ((h.passed n hs).resolve_left ht)]
        exact h.enter_skipped hs
    · have ht : n ∉ t.entered := fun ht => hs (h.entered ht)
      cases hd : descend n with
      | false =>
        rw [search_of_not hs hd, search_of_not ht (by simp [hd])]
        exact h.enter
      | true =>
        cases hn : skip n with
        | false =>
          rw [search_of_descend hs hd, search_of_descend ht (by simp [hd, hn])]
          exact (h.enter.searchAll fun c hc => ih c (d.operands_lt_self hc)).leave hn
        | true =>
          -- only the first search looks below `n`, where everything is skipped
          rw [search_of_not ht (by simp [hn])]
          obtain ⟨new, hnew⟩ := search_adds d descend n s
          refine Trails.enter_skipped (h.of_adds hnew fun m hm => ?_) (hnew.covered (by simp))
          obtain ⟨hdm, r, hr, hrm⟩ := hnew.reached m hm
          obtain rfl := List.mem_singleton.1 hr
          exact hclosed.of_reaches hrm hn hdm

/-- **A search that skips vertices lists the others in the same order.** -/
theorem traverse_filter {root : Node} (hroot : root < d.size) (h : d.Closed descend skip) :
    d.traverse (fun m => descend m && ! skip m) root =
      (d.traverse descend root).filter fun m => ! skip m := by
  rw [traverse_eq hroot, traverse_eq hroot]
  exact (search_trails h root ⟨[], []⟩ ⟨[], []⟩ ⟨rfl, List.Subset.refl _, by simp⟩).left

end Dag

/-! ## One vertex after another -/

namespace Graph

variable {K E : Type} [Scalar K] [Arith E] [Laned K E] {g g' : Graph K E} {root n : Node}
  {pre post : List Node}

/-- What an evaluation of the vertices `done` leaves.  They have the values that their operations
give for the values of their operands, and gradients and sums of zeros; their marks, and all other
vertices, are as before. -/
structure Supplied (g g' : Graph K E) (done : List Node) : Prop where
  dag : g'.dag = g.dag
  kept : ∀ m, m ∉ done → g'.cell m = g.cell m
  hasValue : ∀ m ∈ done, (g'.cell m).hasValue = true
  settled : ∀ m ∈ done, g'.Settled m
  grad : ∀ m ∈ done, g'.grad m = .zeros (g'.value m).rows (g'.value m).cols
  batchSum : ∀ m ∈ done, (g'.cell m).batchSum = .zeros (g'.value m).rows (g'.value m).cols
  marks : ∀ m ∈ done, (g'.cell m).tracked = (g.cell m).tracked ∧
    (g'.cell m).isInput = (g.cell m).isInput

namespace Evaluated

theorem supplied (h : Evaluated g g' pre) (hl : g.missing root = pre ++ post) :
    Supplied g g' pre := by
  have hcell : ∀ m ∈ pre, ∃ v mask, g'.cell m = store v mask (g.cell m) ∧ g'.value m = v := by
    intro m hm
    obtain ⟨_, v, mask, -, -, hcell⟩ := h.new m hm
    exact ⟨v, mask, hcell, by rw [Graph.value, hcell, store]⟩
  refine
    { dag := h.dag, kept := h.old, hasValue := ?_, settled := ?_, grad := ?_, batchSum := ?_,
      marks := ?_ }
  · intro m hm
    obtain ⟨v, mask, hcell, -⟩ := hcell m hm
    rw [hcell, store]
  · intro m hm
    have hmem : m ∈ g.missing root := hl ▸ List.mem_append_left post hm
    exact h.settled hm (isParameter_of_not_hasValue (hasValue_of_mem_missing hmem))
  · intro m hm
    obtain ⟨v, mask, hcell, hv⟩ := hcell m hm
    rw [Graph.grad, hcell, hv, store]
  · intro m hm
    obtain ⟨v, mask, hcell, hv⟩ := hcell m hm
    rw [hcell, hv, store]
  · intro m hm
    obtain ⟨v, mask, hcell, -⟩ := hcell m hm
    exact ⟨by rw [hcell, store], by rw [hcell, store]⟩

/-- What has no value after a part of the missing vertices was evaluated. -/
theorem not_hasValue (h : Evaluated g g' pre) (m : Node) :
    (! g'.hasValue m) = (! g.hasValue m && ! decide (m ∈ pre)) := by
  by_cases hm : m ∈ pre
  · simp [h.hasValue (Or.inr hm), hm]
  · simp [Graph.hasValue, h.old m hm, isParameter, h.op, hm]

/-- **After a part of the missing vertices was evaluated the rest is missing**, in the same
order. -/
theorem missing (h : Evaluated g g' pre) (hl : g.missing root = pre ++ post)
    (hroot : root < g.size) : g'.missing root = post := by
  have hclosed : g.dag.Closed (fun m => ! g.hasValue m) fun m => decide (m ∈ pre) := by
    intro m hm _ c hc hv
    obtain ⟨before, after, rfl⟩ := List.append_of_mem (of_decide_eq_true hm)
    have hl' : g.missing root = before ++ m :: (after ++ post) := by simpa using hl
    exact decide_eq_true (List.mem_append_left _ (mem_of_missing_eq hl' hc (by simpa using hv)))
  have hnodup : (g.missing root).Nodup := Dag.nodup_traverse root
  rw [hl, List.nodup_append] at hnodup
  calc g'.missing root
      = g.dag.traverse (fun m => ! g.hasValue m && ! decide (m ∈ pre)) root := by
        rw [Graph.missing, h.dag, funext h.not_hasValue]
    _ = (g.missing root).filter fun m => ! decide (m ∈ pre) := Dag.traverse_filter hroot hclosed
    _ = post := by
        rw [hl, List.filter_append, List.filter_eq_nil_iff.2 fun m hm => by simp [hm],
          List.filter_eq_self.2 fun m hm => ?_, List.nil_append]
        simpa using fun hpre => hnodup.2.2 m hpre m hm rfl

end Evaluated

/-- An evaluation whose first vertex fails changes nothing. -/
theorem run_evaluate_of_compute_error {e : Failure} (h : g.missing root = n :: post)
    (hc : g.compute n = .error e) : (evaluate root).run g = .error e g := by
  rw [run_evaluate_of_missing h, List.forM_eq_forM, List.forM_cons, EStateM.run_bind,
    run_evaluateOne, hc]

/-- **An evaluation computes each missing vertex once and touches nothing else.**  The missing
vertices are those without a value that are reached from the root through such vertices; each is
listed once, and after its operands.  They are evaluated in this order, when their operands have
values.  If one of them fails, those before it stay evaluated, it and the later ones are as before,
and another evaluation fails at once for the same reason and changes nothing. -/
theorem evaluate_fills (g : Graph K E) {root : Node} (hroot : root < g.size) :
    (∀ n, n ∈ g.missing root ↔ g.hasValue n = false ∧
        g.dag.Reaches (fun m => ! g.hasValue m) root n) ∧
      (g.missing root).Nodup ∧
      (∀ pre n post, g.missing root = pre ++ n :: post →
        ∀ c ∈ g.dag.operands n, g.hasValue c = true ∨ c ∈ pre) ∧
      ((∃ g', (evaluate root).run g = .ok () g' ∧ Filling g (g.missing root) g' ∧
          Supplied g g' (g.missing root)) ∨
        ∃ pre n post e g', g.missing root = pre ++ n :: post ∧
          (evaluate root).run g = .error e g' ∧ Filling g pre g' ∧ Supplied g g' pre ∧
          (g'.hasValue n = false ∧ ∀ c ∈ g'.dag.operands n, g'.hasValue c = true) ∧
          g'.compute n = .error e ∧ (∀ m ∈ n :: post, g'.cell m = g.cell m) ∧
          (evaluate root).run g' = .error e g') := by
  have hmem : ∀ n, n ∈ g.missing root ↔ g.hasValue n = false ∧
      g.dag.Reaches (fun m => ! g.hasValue m) root n := fun n =>
    (Dag.mem_traverse hroot).trans (and_congr_left fun _ => by simp)
  refine ⟨hmem, Dag.nodup_traverse root, fun _ _ _ hl _ hc => hasValue_or_mem_of_missing_eq hl hc,
    ?_⟩
  rcases evaluate_filling g root with ⟨g', hr, hf, h⟩ | ⟨pre, n, post, e, g', hl, hr, hf, h, hc⟩
  · exact Or.inl ⟨g', hr, hf, h.supplied (List.append_nil _).symm⟩
  · refine Or.inr ⟨pre, n, post, e, g', hl, hr, hf, h.supplied hl, h.turn hl, hc, fun m hm => ?_,
      run_evaluate_of_compute_error (h.missing hl hroot) hc⟩
    have hnodup : (g.missing root).Nodup := Dag.nodup_traverse root
    rw [hl, List.nodup_append] at hnodup
    exact h.old m fun hpre => hnodup.2.2 m hpre m hm rfl

/-- The square of a number, and its sum with a column. -/
def mismatched : Graph ℚ ℚ :=
  Call.runs
    [.parameter (.scalar 2), .parameter (.zeros 2 1), .record (.mul 0 0), .record (.add 2 1)]
    (.empty 0 ⟨fun _ => 0, fun _ => 0⟩)

theorem missing_mismatched : mismatched.missing 3 = [2, 3] := by
  have hsize : mismatched.dag.size = 4 := by decide +kernel
  have hops : mismatched.dag.operands 3 = [2, 1] ∧ mismatched.dag.operands 2 = [0, 0] := by
    decide +kernel
  have hv : mismatched.hasValue 3 = false ∧ mismatched.hasValue 2 = false ∧
      mismatched.hasValue 1 = true ∧ mismatched.hasValue 0 = true := by decide +kernel
  simp [missing, Dag.traverse, Dag.visit, hsize, hops, hv]

/-- The square stays evaluated, and the sum fails each time. -/
theorem evaluate_fills_mismatched :
    3 < mismatched.size ∧ ∃ g' e, (evaluate 3).run mismatched = .error e g' ∧
      (g'.value 2).toScalar = .ok 4 ∧ g'.hasValue 3 = false ∧
      (evaluate 3).run g' = .error e g' := by
  have hsize : 3 < mismatched.size := by decide +kernel
  obtain ⟨-, -, -, hfills⟩ := evaluate_fills mismatched hsize
  have hrun := run_evaluate_of_missing missing_mismatched
  have hfails : ([2, 3].forM evaluateOne : Step (Graph ℚ ℚ) Unit).answer mismatched =
      .error (.shapeMismatch (1, 1) (2, 1) "add") := by decide +kernel
  have hleft : ((([2, 3].forM evaluateOne : Step (Graph ℚ ℚ) Unit).final mismatched).value
        2).toScalar = .ok 4 ∧
      (([2, 3].forM evaluateOne : Step (Graph ℚ ℚ) Unit).final mismatched).hasValue 3 = false := by
    decide +kernel
  rcases hfills with ⟨g', hr, -⟩ | ⟨_, _, _, e, g', -, hr, -, -, -, -, -, hagain⟩
  · rw [Step.answer_of_run_ok (hrun ▸ hr)] at hfails
    cases hfails
  · rw [Step.final_of_run_error (hrun ▸ hr)] at hleft
    exact ⟨hsize, g', e, hr, hleft.1, hleft.2, hagain⟩

end Graph

end DiffGraph
