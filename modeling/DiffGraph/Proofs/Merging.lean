/-
  What replicas exchange.

  The replica of an order stands under other names and apart from it.  Its parameters
  are overwritten by those of the order, and its sums are added to those of the order.

  * `Cell.overwrite`, `Cell.gather`: what this does to one cell;
  * `run_copyParameters`, `run_mergeGrads`: what it does along the orders.  Both are loops
    that replace one cell after another (`Replaced`), and read cells that stay as they are;
  * `Copied`, `Gathered`: what it does below a root and its replica.
-/
import DiffGraph.Proofs.Learning
import DiffGraph.Proofs.Renaming
import DiffGraph.Proofs.Sums

namespace DiffGraph

variable {K E : Type}

namespace Cell

/-- Another value, which has to have the shape of the old one. -/
def overwrite (v : Matrix E) (c : Cell E) : Except Failure (Cell E) :=
  if c.value.shape = v.shape then .ok { c with value := v }
  else .error (.shapeMismatch c.value.shape v.shape "set_value")

theorem eq_of_overwrite {v : Matrix E} {c d : Cell E} (h : c.overwrite v = .ok d) :
    d = { c with value := v } := by
  unfold overwrite at h
  split at h
  · exact (Except.ok.inj h).symm
  · cases h

section
variable [Arith E]

/-- Another sum is added.  A sum that was never started counts as zero. -/
def gather (sum : Matrix E) (c : Cell E) : Except Failure (Cell E) :=
  if sum.isEmpty then .ok c
  else do
    let start := if c.batchSum.isEmpty then sum.fill 0 else c.batchSum
    return { c with batchSum := ← start.add sum }

variable {c c' d : Cell E} {sum : Matrix E} {s : Shape}

/-- Only the sum changes. -/
theorem eq_of_gather (h : c.gather sum = .ok d) : d = { c with batchSum := d.batchSum } := by
  unfold gather at h
  split at h
  · cases h
    rfl
  · obtain ⟨total, -, h⟩ := bind_eq_ok.1 h
    cases h
    rfl

/-- To a sum of the same shape the other one is added. -/
theorem add_of_gather (hs : c.batchSum.shape = sum.shape) (h : c.gather sum = .ok d) :
    c.batchSum.add sum = .ok d.batchSum := by
  unfold gather at h
  split at h
  · next hempty =>
    cases h
    exact Matrix.add_of_isEmpty hs hempty
  · next hempty =>
    have hstart : ¬ c.batchSum.isEmpty = true := by rwa [Matrix.isEmpty_congr hs]
    rw [if_neg hstart] at h
    obtain ⟨total, htotal, h⟩ := bind_eq_ok.1 h
    cases h
    exact htotal

/-- Sums of one shape, or none, can be added. -/
theorem exists_gather (hc : c.Within s) (hc' : c'.Within s) :
    ∃ d, c.gather c'.batchSum = .ok d := by
  unfold gather
  split
  · exact ⟨c, rfl⟩
  · next hempty =>
    have hs' : c'.batchSum.shape = s := hc'.batchSum.resolve_left fun hzero =>
      hempty (c'.batchSum.isEmpty_iff.2 (by rw [hzero]; rfl))
    have hstart : (if c.batchSum.isEmpty then c'.batchSum.fill 0 else c.batchSum).shape = s := by
      split
      · exact hs'
      · next hfull =>
        exact hc.batchSum.resolve_left fun hzero =>
          hfull (c.batchSum.isEmpty_iff.2 (by rw [hzero]; rfl))
    obtain ⟨total, htotal, -⟩ := Matrix.exists_zipWith (o := "add_assign") (f := (· + ·))
      (hstart.trans hs'.symm)
    have hadd : Matrix.add _ c'.batchSum = .ok total := htotal
    dsimp only
    rw [hadd]
    exact ⟨_, rfl⟩

end

end Cell

namespace Graph

/-! ## Single cells -/

theorem run_mergeGrad [Arith E] (target source : Node) (g : Graph K E) :
    (mergeGrad target source).run g =
      match (g.cell target).gather (g.cell source).batchSum with
      | .ok c => .ok () (g.update target fun _ => c)
      | .error e => .error e g := by
  unfold Cell.gather
  cases hempty : (g.cell source).batchSum.isEmpty with
  | true =>
    rw [if_pos rfl]
    simp only [mergeGrad, EStateM.run_bind, EStateM.run_get, hempty, update_cell]
    rfl
  | false =>
    rw [if_neg (by simp)]
    simp only [mergeGrad, EStateM.run_bind, EStateM.run_get, hempty]
    generalize (if (g.cell target).batchSum.isEmpty = true then (g.cell source).batchSum.fill 0
      else (g.cell target).batchSum) = start
    cases htotal : start.add (g.cell source).batchSum with
    | error e => rfl
    | ok total =>
      have hself : (g.update target fun c => { c with batchSum := total }) =
          g.update target fun _ => { g.cell target with batchSum := total } := update_congr g rfl
      show EStateM.Result.ok () _ = EStateM.Result.ok () _
      rw [hself]

theorem run_copyParameter {g : Graph K E} {source target : Node} (hne : source ≠ target)
    (hp : g.isParameter target = g.isParameter source) :
    (copyParameter source target).run g =
      match (if g.isParameter source then (g.cell target).overwrite (g.value source)
        else .ok (g.cell target)) with
      | .ok c => .ok () (g.update target fun _ => c)
      | .error e => .error e g := by
  cases hps : g.isParameter source with
  | false =>
    rw [if_neg (by simp)]
    simp [copyParameter, hps, update_cell]
  | true =>
    rw [if_pos rfl, Cell.overwrite]
    rw [hps] at hp
    have hcopy : (copyParameter source target).run g =
        (setValue target (g.value source)).run g := by
      simp [copyParameter, hps, hne]
    rw [hcopy]
    by_cases hs : (g.value target).shape = (g.value source).shape
    · have hself : (g.update target fun c => { c with value := g.value source }) =
          g.update target fun _ => { g.cell target with value := g.value source } :=
        update_congr g rfl
      rw [if_pos (show (g.cell target).value.shape = _ from hs), setValue,
        run_alter hp (if_pos hs), hself]
    · rw [if_neg (show ¬ (g.cell target).value.shape = _ from hs)]
      simp only [setValue, alter, EStateM.run_bind, EStateM.run_get, hp, if_neg hs]
      rfl

/-! ## Along the orders -/

section
variable {g : Graph K E} (order : List Node) (f : Node → Node)

/-- Something is done with the pairs of an order and its replica. -/
theorem run_pairs {body : Node → Node → Step (Graph K E) Unit}
    (halike : g.checkAlike order (order.map f) = .ok ()) :
    (do Step.ofExcept ((← get).checkAlike order (order.map f))
        (order.zip (order.map f)).forM fun p => body p.1 p.2 : Step (Graph K E) Unit).run g =
      (order.forM fun n => body n (f n)).run g := by
  simp only [EStateM.run_bind, EStateM.run_get, halike]
  rw [← List.map_prod_left_eq_zip, List.forM_eq_forM, List.forM_map]
  rfl

/-- **Parameters are copied** to a replica that stands apart and has the same shapes. -/
theorem run_copyParameters (halike : g.checkAlike order (order.map f) = .ok ())
    (hnodup : (order.map f).Nodup) (hapart : ∀ n ∈ order, n ∉ order.map f)
    (hp : ∀ n ∈ order, g.isParameter (f n) = g.isParameter n)
    (hs : ∀ n ∈ order, g.isParameter n = true → (g.value (f n)).shape = (g.value n).shape) :
    ∃ g', (copyParameters order (order.map f)).run g = .ok () g' ∧
      Replaced f (fun n c => if g.isParameter n then c.overwrite (g.value n) else .ok c) order
        g g' := by
  obtain ⟨g', hr, hrep⟩ := run_replacing f (g := g) (l := order)
    (f := fun n c => if g.isParameter n then c.overwrite (g.value n) else .ok c)
    (fun n => copyParameter n (f n)) (fun n hn s hb hold => by
      have hsource : s.value n = g.value n := congrArg Cell.value (hold n (hapart n hn))
      have hne : n ≠ f n := fun h => hapart n hn (h ▸ List.mem_map_of_mem hn)
      have hparameter : s.isParameter (f n) = s.isParameter n := by
        rw [isParameter_of_dag hb.dag, isParameter_of_dag hb.dag]
        exact hp n hn
      have hrun := run_copyParameter hne hparameter
      rw [hsource, isParameter_of_dag hb.dag] at hrun
      exact hrun) hnodup fun n hn => by
      split
      · next hpn => exact ⟨_, if_pos (hs n hn hpn)⟩
      · exact ⟨_, rfl⟩
  exact ⟨g', (run_pairs order f halike).trans hr, hrep⟩

/-- **Sums are merged** from a replica that stands apart, if all of them fit. -/
theorem run_mergeGrads [Arith E] (halike : g.checkAlike order (order.map f) = .ok ())
    (hnodup : order.Nodup) (hapart : ∀ n ∈ order, f n ∉ order)
    (hok : ∀ n ∈ order, ∃ c, (g.cell n).gather (g.cell (f n)).batchSum = .ok c) :
    ∃ g', (mergeGrads order (order.map f)).run g = .ok () g' ∧
      Replaced (fun n => n) (fun n => Cell.gather (g.cell (f n)).batchSum) order g g' := by
  obtain ⟨g', hr, hrep⟩ := run_replacing (fun n => n) (g := g) (l := order)
    (f := fun n => Cell.gather (g.cell (f n)).batchSum)
    (fun n => mergeGrad n (f n)) (fun n hn s hb hold => by
      have hrun := run_mergeGrad n (f n) s
      rw [hold (f n) (by rw [List.map_id']; exact hapart n hn)] at hrun
      exact hrun)
    (by rwa [List.map_id']) hok
  exact ⟨g', (run_pairs order f halike).trans hr, hrep⟩

end

/-! ## Below a root and its replica -/

section
variable {g : Graph K E} {root root' : Node} {f : Node → Node}

/-- The parameters below a root were copied to its replica. -/
structure Copied (g g' : Graph K E) (root root' : Node) (f : Node → Node) : Prop where
  beside : g.Beside g'
  old : ∀ n, ¬ g.dag.Below root' n → g'.cell n = g.cell n
  new : ∀ n, g.dag.Below root n → g.isParameter n = true →
    g'.cell (f n) = { g.cell (f n) with value := g.value n }

/-- The sums below a replica were added to those below its root. -/
structure Gathered [Arith E] (g g' : Graph K E) (root : Node) (f : Node → Node) : Prop where
  beside : g.Beside g'
  old : ∀ n, ¬ g.dag.Below root n → g'.cell n = g.cell n
  new : ∀ n, g.dag.Below root n →
    (g.cell n).gather (g.cell (f n)).batchSum = .ok (g'.cell n)

variable (hr : g.dag.Renamed g.dag root root' f) (hroot : root < g.size) (hroot' : root' < g.size)
  (hapart : ∀ n, g.dag.Below root n → ¬ g.dag.Below root' n)
include hr hroot hroot' hapart

/-- **A replica gets the parameters** of a root that it stands apart from. -/
theorem run_copyParameters_of_renamed
    (hs : ∀ n, g.dag.Below root n → g.isParameter n = true →
      (g.value (f n)).shape = (g.value n).shape) :
    ∃ g', (copyParameters (g.order root) (g.order root')).run g = .ok () g' ∧
      Copied g g' root root' f := by
  have horder := order_of_renamed hr hroot hroot'
  have hbelow : ∀ n ∈ g.order root, g.dag.Below root n := fun n => (mem_order hroot).1
  obtain ⟨g', hrun, hrep⟩ := run_copyParameters (g.order root) f
    (checkAlike_map fun n hn => kind_of_renamed hr (hbelow n hn))
    (horder ▸ Dag.nodup_traverse root')
    (fun n hn hm => hapart n (hbelow n hn) ((mem_order hroot').1 (horder ▸ hm)))
    (fun n hn => isParameter_of_renamed hr (hbelow n hn))
    fun n hn => hs n (hbelow n hn)
  rw [← horder] at hrun
  refine ⟨g', hrun, hrep.beside, fun n hn => hrep.old n fun hm => ?_, fun n hb hp => ?_⟩
  · exact hn ((mem_order hroot').1 (horder ▸ hm))
  · have hnew := hrep.new n ((mem_order hroot).2 hb) ((hr.below hb).le.trans_lt hroot')
    rw [if_pos hp] at hnew
    exact Cell.eq_of_overwrite hnew

/-- **The sums of a replica are merged** into those of the root. -/
theorem run_mergeGrads_of_renamed [Arith E]
    (hok : ∀ n, g.dag.Below root n → ∃ c, (g.cell n).gather (g.cell (f n)).batchSum = .ok c) :
    ∃ g', (mergeGrads (g.order root) (g.order root')).run g = .ok () g' ∧
      Gathered g g' root f := by
  have horder := order_of_renamed hr hroot hroot'
  have hbelow : ∀ n ∈ g.order root, g.dag.Below root n := fun n => (mem_order hroot).1
  obtain ⟨g', hrun, hrep⟩ := run_mergeGrads (g.order root) f
    (checkAlike_map fun n hn => kind_of_renamed hr (hbelow n hn)) (Dag.nodup_traverse root)
    (fun n hn hm => hapart _ (hbelow _ hm) (hr.below (hbelow n hn)))
    fun n hn => hok n (hbelow n hn)
  rw [← horder] at hrun
  refine ⟨g', hrun, hrep.beside, fun n hn => hrep.old n fun hm => ?_, fun n hb => ?_⟩
  · rw [List.map_id'] at hm
    exact hn (hbelow n hm)
  · exact hrep.new n ((mem_order hroot).2 hb) (hb.le.trans_lt hroot)

end

end Graph

end DiffGraph
