/-
  What a gradient check leaves.

  A check has several exits, and the entries it moves are set back at each of them.

  * `Restored`: vertices may have been added, but the parameters that were there before have
    their values (`Ending.restored`);
  * `checkGradients_restores`: a check leaves every input with its value.  Once its loss has
    been through a reverse pass, a check cannot fail any more: an evaluation fails because of
    shapes, and these stay;
  * `checkGradients_fresh`: unless there is a verdict, every value that is read after the
    check is the one its vertex means.  After a verdict this holds for what has no operation
    in common with the loss.  The operations of the loss still have their values for an entry
    that is lowered, until they are reset.
-/
import DiffGraph.Proofs.Trials

namespace DiffGraph.FiniteDifference

open DiffGraph.Graph

variable {α : Type} {g s t u : G} {root m n : Node} {build : List Node → Step G Node}
  {inputs : List Node} {ε : Float32}

/-- What is found at an end. -/
def found : EStateM.Result GradFailure G α → Except GradFailure α
  | .ok a _ => .ok a
  | .error e _ => .error e

/-- The state at an end. -/
def left : EStateM.Result GradFailure G α → G
  | .ok _ s => s
  | .error _ s => s

/-- What a check finds. -/
def Check.answer (x : Check α) (g : G) : Except GradFailure α := found (x.run g)

/-- The state that a check leaves, whatever it finds. -/
def Check.final (x : Check α) (g : G) : G := left (x.run g)

/-- Vertices may have been added, but the parameters have their values. -/
structure Restored (g u : G) : Prop where
  extended : g.Extends u
  value : ∀ n < g.size, g.isParameter n = true → u.value n = g.value n

theorem Restored.refl (g : G) : Restored g g :=
  ⟨⟨le_rfl, fun _ _ => rfl, rfl⟩, fun _ _ _ => rfl⟩

/-- What is written only to vertices that were added leaves the others as they were. -/
theorem Restored.of_edits {targets : List Node} (ht : ∀ n ∈ targets, g.size ≤ n)
    (he : Edits targets g s) : Restored g s :=
  ⟨he.extends, fun n hn hp => he.value_parameter hn hp fun hm => absurd (ht n hm) (not_le.2 hn)⟩

theorem Restored.isParameter (h : Restored g u) (hn : n < g.size) :
    u.isParameter n = g.isParameter n := by
  rw [Graph.isParameter, h.extended.op n hn]
  rfl

/-- After the trials the parameters have their values. -/
theorem Restored.trying (h : Restored g t) (hu : Trying t root t.value u) : Restored g u where
  extended := h.extended.trans ⟨hu.size.ge, fun n _ => op_of_dag hu.dag n, hu.noise⟩
  value n hn hp :=
    (hu.value n (hn.trans_le h.extended.size) ((h.isParameter hn).trans hp)).trans (h.value n hn hp)

/-- What a vertex means does not change when the parameters have their values again. -/
theorem Restored.copies (h : Restored g u) (hm : m < g.size) (hk : g.Keeps m)
    (hnoise : g.noise.Nonneg) : g.Copies u m where
  size := hm
  size' := hm.trans_le h.extended.size
  op n hn := h.extended.op n (hn.trans_lt hm)
  value n hn hp := h.value n (hn.le.trans_lt hm) hp
  keeps := hk
  nonneg := hnoise
  nonneg' := h.extended.noise ▸ hnoise

section
variable {r : EStateM.Result GradFailure G Unit}

/-- The reverse pass writes to nothing that was there before the loss was built. -/
theorem exists_edits_swept (hbuild : Builds (build inputs))
    (hb : (built build inputs).run g = .ok root s) :
    ∃ targets, (∀ n ∈ targets, g.size ≤ n) ∧ Edits targets g ((swept root).final s) := by
  obtain ⟨targets, ht, he⟩ := edits_of_built hbuild hb
  exact ⟨targets, ht, he.trans (Edits.mono (List.nil_subset _) (leads_swept root s))⟩

/-- **Before the trials nothing is written to**, and after them the parameters have their
values again. -/
theorem Ending.exists_source (h : Ending build inputs ε g r) (hbuild : Builds (build inputs)) :
    ∃ t targets, (∀ n ∈ targets, g.size ≤ n) ∧ Edits targets g t ∧
      (left r = t ∨ ∃ root s, (built build inputs).run g = .ok root s ∧ root < s.size ∧
        s.Extends t ∧ Trying t root t.value (left r) ∧
        ((left r).Unevaluated root ∨
          (∃ verdict u, r = .error verdict u ∧ IsVerdict verdict) ∧
            ∃ n ∈ inputs, Lowered root ε n (left r))) := by
  cases h with
  | refused => exact ⟨g, [], by simp, .refl, .inl rfl⟩
  | unbuilt hp hb =>
    have hbuilt : Builds (built build inputs) := hbuild.bind fun e => .record (.sum e)
    obtain ⟨targets, ht, hl⟩ := hbuilt g
    exact ⟨_, targets, ht, hl.moves_of_error hb, .inl rfl⟩
  | @unswept root cause s t hp hb hs =>
    obtain ⟨targets, ht, he⟩ := exists_edits_swept hbuild hb
    rw [Step.final_of_run_error hs] at he
    exact ⟨t, targets, ht, he, .inl rfl⟩
  | @judged root s t u verdict hp hb hs hv hu hl =>
    obtain ⟨targets, ht, he⟩ := exists_edits_swept hbuild hb
    have hst : Edits [] s t := Step.final_of_run_ok hs ▸ leads_swept root s
    rw [Step.final_of_run_ok hs] at he
    exact ⟨t, targets, ht, he, .inr ⟨root, s, hb, (op_of_built hb).1, hst.extends, hu,
      .inr ⟨⟨verdict, u, rfl, hv⟩, hl⟩⟩⟩
  | @confirmed root s t u hp hb hs hu hv =>
    obtain ⟨targets, ht, he⟩ := exists_edits_swept hbuild hb
    have hst : Edits [] s t := Step.final_of_run_ok hs ▸ leads_swept root s
    rw [Step.final_of_run_ok hs] at he
    exact ⟨t, targets, ht, he,
      .inr ⟨root, s, hb, (op_of_built hb).1, hst.extends, hu, .inl hv⟩⟩

/-- **At every end the parameters have their values.** -/
theorem Ending.restored (h : Ending build inputs ε g r) (hbuild : Builds (build inputs)) :
    Restored g (left r) := by
  obtain ⟨t, targets, ht, he, rfl | ⟨root, s, -, -, -, hu, -⟩⟩ := h.exists_source hbuild
  · exact .of_edits ht he
  · exact (Restored.of_edits ht he).trying hu

end

/-- **A verdict comes after a trial**, and what is below the loss is as in this trial. -/
theorem Ending.exists_lowered {r : EStateM.Result GradFailure G Unit}
    (h : Ending build inputs ε g r) {verdict : GradFailure} (hr : found r = .error verdict)
    (hv : IsVerdict verdict) :
    ∃ root, (built build inputs).answer g = .ok root ∧ ∃ n ∈ inputs, Lowered root ε n (left r) := by
  cases h with
  | judged _ hb _ _ _ hl => exact ⟨_, Step.answer_of_run_ok hb, hl⟩
  | refused | unbuilt | unswept => cases hr; cases hv
  | confirmed => cases hr

/-! ## Values after a check -/

/-- What is not below the loss, or is a parameter, has a value that its vertex means. -/
theorem Trying.fresh (h : Trying t root t.value u) (hc : t.Copies u m) (hf : t.Fresh m)
    (hp : ∀ n, t.dag.Below m n → t.dag.Below root n → u.hasValue n = true →
      t.isParameter n = true) : u.Fresh m := by
  intro n hn hv
  have hb : t.dag.Below m n := hc.below_iff.1 hn
  have hlt : n < t.size := hb.le.trans_lt hc.size
  by_cases hroot : t.dag.Below root n
  · exact denote_parameter ((isParameter_of_dag h.dag n).trans (hp n hb hroot hv))
  · have hcell : u.cell n = t.cell n := h.cell n hlt hroot
    have hvt : t.hasValue n = true := by
      rwa [Graph.hasValue, hcell, isParameter_of_dag h.dag] at hv
    rw [hc.denote hb, hf n hb hvt, Graph.value, Graph.value, hcell]

/-- A vertex that was not there before is not below one that was. -/
theorem not_below_of_size_le {targets : List Node} (ht : ∀ n ∈ targets, g.size ≤ n)
    (hm : m < g.size) : ∀ n ∈ targets, ¬ g.dag.Below m n := fun n hn hb =>
  absurd (ht n hn) (not_le.2 (hb.le.trans_lt hm))

/-- **No value is stale at the end**, unless there is a verdict and an operation that is below
the loss, too. -/
theorem Ending.fresh {r : EStateM.Result GradFailure G Unit} (h : Ending build inputs ε g r)
    (hbuild : Builds (build inputs)) (hm : m < g.size) (hk : g.Keeps m) (hnoise : g.noise.Nonneg)
    (hf : g.Fresh m)
    (hp : (∃ verdict u, r = .error verdict u ∧ IsVerdict verdict) → ∀ root s,
      (built build inputs).run g = .ok root s → ∀ n, g.dag.Below m n → s.dag.Below root n →
        g.isParameter n = true) : (left r).Fresh m := by
  obtain ⟨t, targets, ht, he, hsource⟩ := h.exists_source hbuild
  have hft : t.Fresh m := he.fresh hm (not_below_of_size_le ht hm) hk hnoise hf
  rcases hsource with hleft | ⟨root, s, hb, hroot, hst, hu, hend⟩
  · rwa [hleft]
  have hgt : Restored g t := .of_edits ht he
  have hc : g.Copies t m := hgt.copies hm hk hnoise
  have htt : Restored t t := .refl t
  refine hu.fresh ((htt.trying hu).copies hc.size' hc.keeps' hc.nonneg') hft
    fun n hbm hbr hv => ?_
  rcases hend with hun | ⟨hverdict, -⟩
  · rw [← isParameter_of_dag hu.dag]
    exact hun.isParameter (hu.dag.symm ▸ hbr) hv
  · have hbg : g.dag.Below m n := hc.below_iff.1 hbm
    rw [hgt.isParameter (hbg.le.trans_lt hm)]
    exact hp hverdict root s hb n hbg ((hst.below_iff hroot).1 hbr)

/-! ## Main statements -/

/-- **A check leaves all parameters with their values**, whatever it finds, for all comparisons,
moves and tolerances and also if an input is given several times.  It never fails to evaluate its
loss, and once the loss has been through a reverse pass, it succeeds or comes to a verdict. -/
theorem checkGradients_restores (close : Float → Float → Float → Bool)
    (build : List Node → Step G Node) (inputs : List Node)
    (hbuild : Builds (build inputs)) (hinputs : ∀ n ∈ inputs, n < g.size) (ε : Float32)
    (tolerance : Float) :
    let check := checkGradients close build inputs ε tolerance
    (∀ n ∈ inputs, (valueOf n).answer (check.final g) = (valueOf n).answer g) ∧
    (∀ n < g.size, g.isParameter n = true → (check.final g).value n = g.value n) ∧
    (∀ cause, check.answer g ≠ .error (.forward cause)) ∧
    (∀ cause, check.answer g = .error (.graph cause) →
      (built build inputs).answer g = .error cause) ∧
    ∀ root s, (∀ n ∈ inputs, g.isParameter n = true) → (built build inputs).run g = .ok root s →
      (swept root).answer s = .ok () →
      check.answer g = .ok () ∨ ∃ verdict, check.answer g = .error verdict ∧ IsVerdict verdict := by
  intro check
  have h : Ending build inputs ε g (check.run g) :=
    ending_checkGradients hbuild hinputs ε tolerance
  have hrestored := h.restored hbuild
  unfold Check.final Check.answer
  generalize check.run g = r at h hrestored ⊢
  refine ⟨fun n hn => ?_, hrestored.value, fun cause hc => ?_, fun cause hc => ?_,
    fun root s hp hb hs => ?_⟩
  · -- an input that is no parameter was refused, and then nothing was touched
    cases hpn : g.isParameter n with
    | true =>
      have hread : ∀ s : G, s.isParameter n = true → (valueOf n).answer s = .ok (s.value n) :=
        fun s hp => by
          have hr : (evaluate n).run s = .ok () s :=
            run_evaluate_of_hasValue (hasValue_of_isParameter hp)
          rw [answer_valueOf_eq, Step.answer_of_run_ok hr, Step.final_of_run_ok hr]
          rfl
      have hlt := hinputs n hn
      rw [hread g hpn, hread _ ((hrestored.isParameter hlt).trans hpn), hrestored.value n hlt hpn]
    | false =>
      cases h with
      | refused => rfl
      | unbuilt hp | unswept hp | judged hp | confirmed hp =>
        rw [hp n hn] at hpn
        cases hpn
  · cases h with
    | judged _ _ _ hv => cases hc; cases hv
    | _ => cases hc
  · cases h with
    | unbuilt _ hb => cases hc; exact Step.answer_of_run_error hb
    | judged _ _ _ hv => cases hc; cases hv
    | _ => cases hc
  · cases h with
    | refused hn hpn =>
      rw [hp _ (List.mem_of_getElem? hn)] at hpn
      cases hpn
    | unbuilt _ hb' => rw [hb] at hb'; cases hb'
    | unswept _ hb' hs' =>
      rw [hb] at hb'
      cases hb'
      rw [Step.answer_of_run_error hs'] at hs
      cases hs
    | judged _ _ _ hv => exact .inr ⟨_, rfl, hv⟩
    | confirmed => exact .inl rfl

/-- A parameter that is given twice, with a move and a tolerance that are no numbers. -/
theorem checkGradients_restores_twice :
    let g : G := Call.runs [.parameter (.scalar 0.5), .record (.func .relu 0)]
      (.empty 0 ⟨fun _ => 0, fun _ => 0⟩)
    let check :=
      checkGradients agree (fun ns => record (.add (ns.headD 0) 1)) [0, 0] (0 / 0) (0 / 0)
    (check.final g).value 0 = .scalar 0.5 ∧ ∀ cause, check.answer g ≠ .error (.forward cause) := by
  intro g check
  obtain ⟨-, hvalue, hforward, -⟩ := checkGradients_restores (g := g) agree
    (fun ns => record (.add (ns.headD 0) 1)) [0, 0] (.record _) (by decide) (0 / 0) (0 / 0)
  exact ⟨hvalue 0 (by decide) rfl, hforward⟩

/-- **What is read after a check is what the vertices mean**, if no value was stale before,
unless there is a verdict.

After a verdict this holds for the vertices that have no operation in common with the loss,
and for all vertices that are reset.  The operations below the loss still have the values for
an entry of an input that is lowered by `ε`. -/
theorem checkGradients_fresh (close : Float → Float → Float → Bool)
    (build : List Node → Step G Node) (inputs : List Node)
    (hbuild : Builds (build inputs)) (hinputs : ∀ n ∈ inputs, n < g.size) (ε : Float32)
    (tolerance : Float) (hm : m < g.size) (hk : g.Keeps m) (hnoise : g.noise.Nonneg)
    (hf : g.Fresh m) :
    let check := checkGradients close build inputs ε tolerance
    let u := check.final g
    u.denote m = g.denote m ∧
    ((∀ verdict, check.answer g = .error verdict → ¬ IsVerdict verdict) →
      (valueOf m).answer u = u.denote m) ∧
    (∀ root s, (built build inputs).run g = .ok root s →
      (∀ n, g.dag.Below m n → s.dag.Below root n → g.isParameter n = true) →
      (valueOf m).answer u = u.denote m) ∧
    (valueOf m).answer ((reset (u.order m)).final u) = u.denote m ∧
    ∀ verdict, check.answer g = .error verdict → IsVerdict verdict →
      ∃ root, (built build inputs).answer g = .ok root ∧ ∃ n ∈ inputs, Lowered root ε n u := by
  intro check u
  have h : Ending build inputs ε g (check.run g) :=
    ending_checkGradients hbuild hinputs ε tolerance
  have hc : g.Copies u m := (h.restored hbuild).copies hm hk hnoise
  have hread : u.Fresh m → (valueOf m).answer u = u.denote m := fun hfu =>
    answer_valueOf hfu hc.size' hc.keeps' hc.nonneg'
  refine ⟨hc.denote (.refl _ _), fun hno => hread ?_, fun root s hb hp => hread ?_, ?_,
    fun verdict hv hverdict => h.exists_lowered hv hverdict⟩
  · refine h.fresh hbuild hm hk hnoise hf ?_
    rintro ⟨verdict, v, hr, hv⟩
    exact absurd hv (hno verdict (congrArg found hr))
  · refine h.fresh hbuild hm hk hnoise hf fun _ root' s' hb' => ?_
    rw [hb] at hb'
    cases hb'
    exact hp
  · obtain ⟨v, hr, hcleared⟩ := reset_run u (u.order m)
    have he : Edits [] u v := by
      have hl : (reset (u.order m) : Step G Unit).Leads (Edit []) u := leads_reset _
      rwa [Step.Leads, Step.final_of_run_ok hr] at hl
    have hcv : u.Copies v m := Edits.copies he hc.size' (by simp) hc.keeps' hc.nonneg'
    rw [Step.final_of_run_ok hr, ← hcv.denote (.refl _ _)]
    exact answer_valueOf (hcleared.unevaluated hc.size').fresh hcv.size' hcv.keeps' hcv.nonneg'

/-- A number and its positive part. -/
def ramp : G :=
  Call.runs [.parameter (.scalar 0.5), .record (.func .relu 0)] (.empty 0 ⟨fun _ => 0, fun _ => 0⟩)

/-- The positive part is also held by the caller, who has read it. -/
theorem checkGradients_fresh_ramp :
    let g := (evaluate 1).final ramp
    let check := checkGradients agree (fun _ => pure 1) [0] 1 0
    let u := check.final g
    u.denote 1 = .ok (.scalar 0.5) ∧
      ((∀ verdict, check.answer g = .error verdict → ¬ IsVerdict verdict) →
        (valueOf 1).answer u = .ok (.scalar 0.5)) ∧
      (valueOf 1).answer ((reset (u.order 1)).final u) = .ok (.scalar 0.5) := by
  intro g check u
  have hbelow : ∀ n, ramp.dag.Below 1 n → n = 0 ∨ n = 1 := fun n hn =>
    Nat.le_one_iff_eq_zero_or_eq_one.1 hn.le
  have hnoise : ramp.noise.Nonneg := fun _ _ h => h
  have hkeeps : ramp.Keeps 1 := fun n hn => by
    rcases hbelow n hn with rfl | rfl <;> trivial
  have hun : ramp.Unevaluated 1 := fun n hn hp => by
    rcases hbelow n hn with rfl | rfl
    · cases hp
    · rfl
  have hsize : 1 < ramp.size := by decide
  have he : Edits [] ramp g := leads_evaluate 1
  have hc : ramp.Copies g 1 := he.copies hsize (by simp) hkeeps hnoise
  have hfresh : g.Fresh 1 := he.fresh hsize (by simp) hkeeps hnoise hun.fresh
  have hdenote : g.denote 1 = .ok (.scalar 0.5) := by
    have hoperands : ∀ c ∈ ramp.dag.operands 1, ramp.denote c = .ok (ramp.value c) :=
      List.forall_mem_singleton.2 (denote_parameter rfl)
    have hrelu : Unary.relu.apply (0.5 : Float32) = 0.5 := by decide +kernel
    calc g.denote 1 = ramp.rule 1 ramp.value := by
          rw [hc.denote (.refl _ _), denote_of_ok hoperands]
      _ = .ok ((Matrix.scalar 0.5).map Unary.relu.apply) := rfl
      _ = _ := by rw [Matrix.map_scalar, hrelu]
  obtain ⟨hu, hread, -, hreset, -⟩ := checkGradients_fresh (g := g) agree (fun _ => pure 1) [0]
    (.of_turns fun _ => .pure _ _) (List.forall_mem_singleton.2 (Nat.zero_lt_of_lt hc.size')) 1 0
    hc.size' hc.keeps' hc.nonneg' hfresh
  have hdenote' : u.denote 1 = .ok (.scalar 0.5) := hu.trans hdenote
  exact ⟨hdenote', fun h => (hread h).trans hdenote', hreset.trans hdenote'⟩

end DiffGraph.FiniteDifference
