/-
  Verdicts after earlier passes.

  What a graph stores depends on everything that was done to it.  A check resets what is below
  its loss, and nothing else.

  * `Graph.Agree`: graphs that may differ in everything that is stored but the values of the
    parameters, and `Graph.Blind`: a computation that does not tell them apart;
  * `swept_of_rebuilt`: the reverse pass of a check leaves below the loss the gradients that it
    leaves on a graph that is built again;
  * `left_of_swept`: what is not below the loss is left alone by this pass;
  * `Concur`: two runs of a check that come to one result (`Peers.concur_trials`);
  * `checkGradients_concur`: two checks come to one result, if the inputs that are not below the
    loss have the same gradients before.  These are not reset, and a check takes what an earlier
    pass has left there for the derivative of its loss.
-/
import DiffGraph.Proofs.Memo
import DiffGraph.Proofs.Restoration

namespace DiffGraph

variable {K E α β : Type}

/-! ## Graphs that differ in what is stored -/

namespace Graph

/-- The same operations over the same parameters.  Gradients, sums, values of operations and
numbers of samples may be others. -/
structure Agree (g g' : Graph K E) : Prop where
  dag : g'.dag = g.dag
  noise : g'.noise = g.noise
  value : ∀ n, g.isParameter n = true → g'.value n = g.value n

section
variable {g g' : Graph K E}

theorem Agree.symm (h : g.Agree g') : g'.Agree g where
  dag := h.dag.symm
  noise := h.noise.symm
  value n hp := (h.value n ((isParameter_of_dag h.dag n).symm.trans hp)).symm

theorem Agree.trans {g'' : Graph K E} (h : g.Agree g') (h' : g'.Agree g'') : g.Agree g'' where
  dag := h'.dag.trans h.dag
  noise := h'.noise.trans h.noise
  value n hp := (h'.value n ((isParameter_of_dag h.dag n).trans hp)).trans (h.value n hp)

/-- **Whatever is done to a graph** without adding vertices and writing to parameters, it agrees
with what it was. -/
theorem Edits.agree [Scalar K] [Arith E] [Laned K E] (h : Edits [] g g') (hdag : g'.dag = g.dag) :
    g.Agree g' where
  dag := hdag
  noise := h.extends.noise
  value n hp := by
    by_cases hn : n < g.size
    · exact h.value_parameter hn hp (by simp)
    · have hle : g.size ≤ n := not_lt.1 hn
      rw [Graph.value, Graph.value, cell_of_size_le g hle,
        cell_of_size_le g' ((size_of_dag hdag).trans_le hle)]

/-- Both get one vertex more. -/
theorem Agree.push (h : g.Agree g') {op : Op K} (ha : g.dag.Admits op) (ha' : g'.dag.Admits op)
    (c : Cell E) : (g.push op ha c).Agree (g'.push op ha' c) := by
  refine ⟨?_, h.noise, fun n hp => ?_⟩
  · obtain ⟨hdag, -, -⟩ := h
    unfold Graph.push
    dsimp only
    congr 1
  · rw [isParameter, op_push] at hp
    rw [Graph.value, Graph.value, cell_push, cell_push, size_of_dag h.dag]
    split
    · rfl
    · next hn =>
      rw [if_neg hn] at hp
      exact h.value n hp

/-- A graph that is built again is the same for both. -/
theorem Agree.rebuilt [Zero E] (h : g.Agree g') {s : Graph K E} {noise : Noise K} {k : Nat}
    (hs : Rebuilt g s noise k) : Rebuilt g' s noise k where
  size := hs.size
  noise := hs.noise
  op m hm := (hs.op m hm).trans (op_of_dag h.dag m).symm
  cell m hm := by
    rw [hs.cell m hm, isParameter_of_dag h.dag]
    split
    · next hp => rw [h.value m hp]
    · rfl

end

/-- The computation does not look at what is stored: on graphs that agree it gives one answer,
and it leaves graphs that agree. -/
def Blind (x : Step (Graph K E) α) : Prop :=
  ∀ g g', g.Agree g' → Alike Eq Agree (x.run g) (x.run g')

namespace Blind

theorem pure (a : α) : Blind (Pure.pure a : Step (Graph K E) α) := fun _ _ h => .ok rfl h

theorem bind {x : Step (Graph K E) α} {f : α → Step (Graph K E) β} (hx : Blind x)
    (hf : ∀ a, Blind (f a)) : Blind (x >>= f) := by
  intro g g' h
  refine (hx g g' h).bind ?_
  rintro a _ s s' rfl hs
  exact hf a s s' hs

/-- How it ends on two graphs that agree. -/
theorem run_cases {x : Step (Graph K E) α} (hx : Blind x) {g g' : Graph K E} (h : g.Agree g') :
    (∃ a s s', x.run g = .ok a s ∧ x.run g' = .ok a s' ∧ s.Agree s') ∨
      ∃ e s s', x.run g = .error e s ∧ x.run g' = .error e s' := by
  have hrun := hx g g' h
  generalize x.run g = r at hrun ⊢
  generalize x.run g' = r' at hrun ⊢
  cases hrun with
  | @ok a _ s s' ha hs => exact .inl ⟨a, s, s', rfl, ha ▸ rfl, hs⟩
  | @error e s s' _ => exact .inr ⟨e, s, s', rfl, rfl⟩

theorem parameter [Zero E] (v : Matrix E) : Blind (parameter v : Step (Graph K E) Node) :=
  fun _ _ h => .ok (size_of_dag h.dag).symm (h.push _ _ _)

theorem record (op : Op K) : Blind (record op : Step (Graph K E) Node) := by
  intro g g' h
  have hadmits : g'.dag.Admits op ↔ g.dag.Admits op := by rw [h.dag]
  simp only [Graph.record, EStateM.run_bind, EStateM.run_get, hadmits]
  split
  · next ha => exact .ok (size_of_dag h.dag).symm (h.push ha (hadmits.2 ha) .blank)
  · exact .error h

end Blind

end Graph

namespace FiniteDifference

open DiffGraph.Graph

variable {g g' s s' t t' : G} {root n : Node} {build : List Node → Step G Node}
  {close : Float → Float → Float → Bool} {inputs : List Node} {ε : Float32} {tolerance : Float}

/-! ## The reverse pass of a check -/

/-- It is a reverse pass after a reset. -/
theorem run_swept_eq {s₁ : G} (hr : (reset (s.order root)).run s = .ok () s₁)
    (hc : Cleared s s₁ (s.order root)) : (swept root).run s = (reversePass root).run s₁ := by
  rw [run_swept hr, reversePass, EStateM.run_bind, EStateM.run_get, ← order_of_dag hc.dag]

/-- A loss that means nothing fails for the reason for which it means nothing. -/
theorem answer_reversePass_of_error {e : Failure} (hu : s.Unevaluated root) (hroot : root < s.size)
    (hk : s.Keeps root) (hn : s.noise.Nonneg) (h : s.denote root = .error e) :
    (reversePass root).answer s = .error e := by
  have ha : (valueOf root).answer s = .error e := (answer_valueOf hu.fresh hroot hk hn).trans h
  rw [answer_valueOf_eq] at ha
  cases hev : (evaluate root).run s with
  | ok _ s' =>
    rw [Step.answer_of_run_ok hev] at ha
    cases ha
  | error e' s' =>
    rw [Step.answer_of_run_error hev] at ha
    cases ha
    exact Step.answer_of_run_error (run_reversePass_of_error hev)

/-- **The reverse pass of a check ends as it does on a graph that is built again**, and leaves
the same gradients below the loss. -/
theorem swept_of_rebuilt {new : G} {noise : Noise Float32} (hfit : s.GradsFit)
    (hnew : Rebuilt s new noise s.size) (hroot : root < s.size) (hk : s.Keeps root)
    (hn : s.noise.Nonneg) (hn' : noise.Nonneg) :
    (swept root).answer s = (reversePass root).answer new ∧
      ((swept root).answer s = .ok () → ∀ n, s.dag.Below root n →
        ((swept root).final s).grad n = ((reversePass root).final new).grad n) := by
  obtain ⟨s₁, hr, hc⟩ := reset_run s (s.order root)
  have hrun := run_swept_eq hr hc
  have hanswer : (swept root).answer s = (reversePass root).answer s₁ := by
    rw [Step.answer, Step.answer, hrun]
  have hfinal : (swept root).final s = (reversePass root).final s₁ := by
    rw [Step.final, Step.final, hrun]
  rw [hanswer, hfinal]
  cases hv : s.denote root with
  | ok v =>
    have h := reversePass_of_cleared hfit hc hnew hroot hk hn hn' hv
    exact ⟨h.answer, fun _ n hb => (h.final.grad n hb).symm⟩
  | error e =>
    have hcs := hc.copies hroot hk hn
    have hcn := hnew.copies hroot hk hn hn'
    have h₁ := answer_reversePass_of_error (hc.unevaluated hroot) hcs.size' hcs.keeps' hcs.nonneg'
      ((hcs.denote (.refl _ _)).trans hv)
    have h₂ := answer_reversePass_of_error (hnew.unevaluated hroot) hcn.size' hcn.keeps'
      hcn.nonneg' ((hcn.denote (.refl _ _)).trans hv)
    refine ⟨h₁.trans h₂.symm, fun hok => ?_⟩
    rw [h₁] at hok
    cases hok

/-- **What is not below the loss is left alone** by the reverse pass of a check. -/
theorem left_of_swept (hroot : root < s.size) (h : (swept root).run s = .ok () t) :
    s.Agree t ∧ ∀ n < s.size, ¬ s.dag.Below root n → t.cell n = s.cell n := by
  have he : Edits [] s t := Step.final_of_run_ok h ▸ leads_swept root s
  obtain ⟨s₁, hr₁, hc⟩ := reset_run s (s.order root)
  have hroot₁ : root < s₁.size := hroot.trans_eq (size_of_dag hc.dag).symm
  rw [run_swept_eq hr₁ hc] at h
  cases hr₂ : (evaluate root).run s₁ with
  | error e s₂ =>
    rw [run_reversePass_of_error hr₂] at h
    cases h
  | ok _ s₂ =>
    obtain ⟨hev, -⟩ := evaluated_of_run_ok hr₂
    have hroot₂ : root < s₂.size := hroot₁.trans_eq (size_of_dag hev.dag).symm
    rw [run_reversePass hr₂, ← order_of_dag hev.dag] at h
    have hsw := regraded_of_sweep hroot₂ h
    rw [order_of_dag hev.dag, order_of_dag hc.dag] at hsw
    have hdag : t.dag = s.dag := by rw [hsw.beside.dag, hev.dag, hc.dag]
    refine ⟨he.agree hdag, fun n hn hb => ?_⟩
    have hmem : n ∉ s.order root := fun hm => hb ((mem_order hroot).1 hm)
    have hmiss : n ∉ s₁.missing root := fun hm => hb (hc.dag ▸ below_of_mem_missing hroot₁ hm)
    rw [hsw.old n hmem, hev.old n hmiss, hc.cell n hn, if_neg hmem]

/-! ## Two runs of a check -/

/-- Two runs come to one result.  If they get through, they leave states that satisfy `R`. -/
def Concur (R : G → G → Prop) (x : Check α) (s t : G) : Prop :=
  (∃ a s' t', x.run s = .ok a s' ∧ x.run t = .ok a t' ∧ R s' t') ∨
    ∃ e s' t', x.run s = .error e s' ∧ x.run t = .error e t'

namespace Concur

variable {R : G → G → Prop}

theorem answer {x : Check α} (h : Concur R x s t) : x.answer t = x.answer s := by
  unfold Check.answer
  rcases h with ⟨a, s', t', hs, ht, -⟩ | ⟨e, s', t', hs, ht⟩ <;> rw [hs, ht] <;> rfl

theorem pure (a : α) (h : R s t) : Concur R (Pure.pure a : Check α) s t :=
  .inl ⟨a, s, t, rfl, rfl, h⟩

theorem throw (e : GradFailure) : Concur R (MonadExcept.throw e : Check α) s t :=
  .inr ⟨e, s, t, rfl, rfl⟩

theorem throw_bind (e : GradFailure) (f : α → Check β) :
    Concur R (MonadExcept.throw e >>= f) s t := .inr ⟨e, s, t, rfl, rfl⟩

/-- What comes after computations that succeed with one answer. -/
theorem of_run_ok {x : Check α} {f : α → Check β} {a : α} (hs : x.run s = .ok a s')
    (ht : x.run t = .ok a t') (h : Concur R (f a) s' t') : Concur R (x >>= f) s t := by
  have hbs : (x >>= f).run s = (f a).run s' := by rw [EStateM.run_bind, hs]
  have hbt : (x >>= f).run t = (f a).run t' := by rw [EStateM.run_bind, ht]
  rwa [Concur, hbs, hbt]

theorem bind {S : G → G → Prop} {x : Check α} {f : α → Check β} (hx : Concur R x s t)
    (hf : ∀ a s' t', R s' t' → Concur S (f a) s' t') : Concur S (x >>= f) s t := by
  rcases hx with ⟨a, s', t', hs, ht, hr⟩ | ⟨e, s', t', hs, ht⟩
  · exact .of_run_ok hs ht (hf a s' t' hr)
  · exact .inr ⟨e, s', t', by rw [EStateM.run_bind, hs], by rw [EStateM.run_bind, ht]⟩

/-- A loop that is run twice. -/
theorem forM {f : α → Check PUnit} {l : List α} (hf : ∀ x ∈ l, ∀ s t, R s t → Concur R (f x) s t)
    (h : R s t) : Concur R (l.forM f) s t := by
  induction l generalizing s t with
  | nil => exact .pure _ h
  | cons x l ih =>
    rw [List.forM_eq_forM, List.forM_cons]
    exact (hf x List.mem_cons_self s t h).bind fun _ _ _ h' =>
      ih (fun y hy => hf y (List.mem_cons_of_mem _ hy)) h'

end Concur

/-- Two checks between the same trials: the parameters hold the same values. -/
structure Peers (g g' : G) (root : Node) (w w' : Node → Matrix Float32) (s t : G) : Prop where
  left : Trying g root w s
  right : Trying g' root w' t
  value : ∀ n < g.size, g.isParameter n = true → w' n = w n

section
variable {w w' : Node → Matrix Float32} (ha : g.Agree g') (hk : g.Keeps root)
  (hn : g.noise.Nonneg)
include ha

/-- One entry is set in both. -/
theorem Peers.run_setEntry (h : Peers g g' root w w' s t) (hlt : n < g.size)
    (hp : g.isParameter n = true) {r c : Nat} (hr : r < (w n).shape.1) (hc : c < (w n).shape.2)
    (x : Float32) :
    ∃ s' t', (report .graph (setEntry n r c x)).run s = .ok () s' ∧
      (report .graph (setEntry n r c x)).run t = .ok () t' ∧
      Peers g g' root (moved w n r c x) (moved w' n r c x) s' t' := by
  have hw : w' n = w n := h.value n hlt hp
  obtain ⟨s', hrs, hs, -⟩ := h.left.run_setEntry hlt hp hr hc x
  obtain ⟨t', hrt, ht, -⟩ := h.right.run_setEntry (hlt.trans_eq (size_of_dag ha.dag).symm)
    ((isParameter_of_dag ha.dag n).trans hp) (hw ▸ hr) (hw ▸ hc) x
  refine ⟨s', t', hrs, hrt, hs, ht, fun m hm hpm => ?_⟩
  rw [moved, moved, hw, Function.update_apply, Function.update_apply, h.value m hm hpm]

include hk hn

/-- **Both read the same loss.** -/
theorem Peers.run_loss (h : Peers g g' root w w' s t) :
    ∃ x s' t', (loss root (g.order root)).run s = .ok x s' ∧
      (loss root (g.order root)).run t = .ok x t' ∧ Peers g g' root w w' s' t' := by
  have hn' : g'.noise.Nonneg := ha.noise ▸ hn
  obtain ⟨x, s', hrs, hs, -, hx⟩ := h.left.run_loss
  obtain ⟨y, t', hrt, ht, -, hy⟩ := h.right.run_loss
  have hc : s.Copies t root := h.left.copies h.right ha.dag h.value hk hn hn'
  have hxy : (.ok (.scalar x) : Except Failure (Matrix Float32)) = .ok (.scalar y) :=
    calc .ok (.scalar x) = s.denote root := (hx hk hn).symm
      _ = t.denote root := (hc.denote (.refl _ _)).symm
      _ = .ok (.scalar y) := hy (hk.of_dag ha.dag) hn'
  have hxy : x = y := by
    have hentry := congrArg (fun m => m.entry 0 0) (Except.ok.inj hxy)
    simpa only [Matrix.entry_scalar] using hentry
  rw [order_of_dag ha.dag, ← hxy] at hrt
  exact ⟨x.toFloat, s', t', hrs, hrt, hs, ht, h.value⟩

/-- **One entry is tried in both.** -/
theorem Peers.concur_entry (h : Peers g g' root w w' s t) (hlt : n < g.size)
    (hp : g.isParameter n = true) {k : Nat} (hkn : k < (w n).size) (i : Nat)
    (analytical : Float) :
    Concur (Peers g g' root w w')
      (entry close root (g.order root) ε tolerance i n (w n) analytical k) s t := by
  obtain ⟨hr, hc⟩ := Matrix.div_mod_lt hkn
  unfold entry
  dsimp only
  generalize k / (w n).cols = r at hr
  generalize k % (w n).cols = c at hc
  have hr' : ∀ x, r < (moved w n r c x n).shape.1 := fun x => by rwa [shape_moved]
  have hc' : ∀ x, c < (moved w n r c x n).shape.2 := fun x => by rwa [shape_moved]
  -- the entry goes up, down and back to where it was, and each loss is the same in both
  obtain ⟨s₁, t₁, hs₁, ht₁, h₁⟩ := h.run_setEntry ha hlt hp hr hc ((w n).entry r c + ε)
  obtain ⟨above, s₂, t₂, hs₂, ht₂, h₂⟩ := h₁.run_loss ha hk hn
  obtain ⟨s₃, t₃, hs₃, ht₃, h₃⟩ :=
    h₂.run_setEntry ha hlt hp (hr' _) (hc' _) ((w n).entry r c - ε)
  obtain ⟨below, s₄, t₄, hs₄, ht₄, h₄⟩ := h₃.run_loss ha hk hn
  rw [moved_moved, moved_moved] at h₄
  obtain ⟨s₅, t₅, hs₅, ht₅, h₅⟩ := h₄.run_setEntry ha hlt hp (hr' _) (hc' _) ((w n).entry r c)
  have hback : (w n).entry r c = (w' n).entry r c := by rw [h.value n hlt hp]
  rw [moved_moved, moved_moved, moved_entry, hback, moved_entry] at h₅
  refine .of_run_ok hs₁ ht₁ (.of_run_ok hs₂ ht₂ (.of_run_ok hs₃ ht₃ (.of_run_ok hs₄ ht₄
    (.of_run_ok hs₅ ht₅ ?_))))
  split
  · exact .throw_bind _ _
  split
  · exact .throw_bind _ _
  split
  · exact .throw _
  · exact .pure _ h₅

/-- All entries of a parameter are tried in both. -/
theorem Peers.concur_input (h : Peers g g' root w w' s t) (hlt : n < g.size)
    (hp : g.isParameter n = true) (i : Nat) (gradient : Matrix Float32) :
    Concur (Peers g g' root w w')
      (input close root (g.order root) ε tolerance i n gradient) s t := by
  have hs := h.left.run_valueOf hlt hp
  have ht := h.right.run_valueOf (hlt.trans_eq (size_of_dag ha.dag).symm)
    ((isParameter_of_dag ha.dag n).trans hp)
  rw [h.value n hlt hp] at ht
  exact .of_run_ok hs ht (.forM (fun k hkn _ _ h' =>
    h'.concur_entry ha hk hn hlt hp (List.mem_range.1 hkn) i _) h)

/-- **Two checks with the same gradients come to one result.** -/
theorem Peers.concur_trials (h : Peers g g' root w w' s t)
    (hinputs : ∀ n ∈ inputs, n < g.size ∧ g.isParameter n = true)
    (gradient : Node → Matrix Float32) :
    Concur (Peers g g' root w w')
      (trials close root (g.order root) ε tolerance inputs gradient) s t := by
  refine Concur.bind (.forM (fun x hx s t h' => ?_) h) fun _ s t h' => ?_
  · obtain ⟨⟨n, i⟩, hmem, rfl⟩ := List.mem_map.1 hx
    have hin : n ∈ inputs := List.mem_of_getElem? (List.mk_mem_zipIdx_iff_getElem?.1 hmem)
    exact h'.concur_input ha hk hn (hinputs n hin).1 (hinputs n hin).2 i _
  · obtain ⟨s', hrs, hs, -⟩ := h'.left.run_reset
    obtain ⟨t', hrt, ht, -⟩ := h'.right.run_reset
    rw [order_of_dag ha.dag] at hrt
    exact .inl ⟨(), s', t', run_report_ok hrs, run_report_ok hrt, hs, ht, h'.value⟩

end

/-! ## Main statement -/

/-- Whether the loss can be built does not depend on what is stored. -/
theorem blind_built (h : Blind (build inputs)) : Blind (built build inputs) :=
  h.bind fun e => .record (.sum e)

/-- The same inputs are refused. -/
theorem find?_of_agree (h : g.Agree g') :
    (inputs.zipIdx.find? fun p => !g'.isParameter p.1) =
      inputs.zipIdx.find? fun p => !g.isParameter p.1 := by
  simp only [isParameter_of_dag h.dag]

/-- Trials look at the gradients of the inputs only. -/
theorem trials_congr {order : List Node} {grad grad' : Node → Matrix Float32}
    (h : ∀ n ∈ inputs, grad' n = grad n) :
    trials close root order ε tolerance inputs grad' =
      trials close root order ε tolerance inputs grad := by
  unfold trials
  refine congrArg (· >>= _) (congrArg (List.forM · _) (List.map_congr_left fun p hp => ?_))
  have hmem : p.1 ∈ inputs := List.mem_of_getElem? (List.mk_mem_zipIdx_iff_getElem?.1 hp)
  dsimp only
  rw [h p.1 hmem]

/-- The loss that two checks build goes through the same reverse pass in both. -/
theorem swept_of_agree (ha : s.Agree s') (hfit : s.GradsFit) (hfit' : s'.GradsFit)
    (hroot : root < s.size) (hk : s.Keeps root) (hn : s.noise.Nonneg) :
    (swept root).answer s' = (swept root).answer s ∧
      ((swept root).answer s = .ok () → ∀ n, s.dag.Below root n →
        ((swept root).final s').grad n = ((swept root).final s).grad n) := by
  -- both are compared with one graph that is built again
  obtain ⟨new, -, hnew⟩ := run_rebuild s 0 s.noise
  have hnew' : Rebuilt s' new s.noise s'.size := by
    rw [size_of_dag ha.dag]
    exact ha.rebuilt hnew
  obtain ⟨hanswer, hgrad⟩ := swept_of_rebuilt hfit hnew hroot hk hn hn
  obtain ⟨hanswer', hgrad'⟩ := swept_of_rebuilt hfit' hnew'
    (hroot.trans_eq (size_of_dag ha.dag).symm) (hk.of_dag ha.dag) (ha.noise ▸ hn) hn
  refine ⟨hanswer'.trans hanswer.symm, fun hok n hb => ?_⟩
  rw [hgrad' (hanswer'.trans (hanswer.symm.trans hok)) n (ha.dag.symm ▸ hb), hgrad hok n hb]

/-- Trials after two reverse passes that leave the same gradients for the inputs. -/
theorem answer_trials_of_agree {expression : Node} (ha : s.Agree s') (hroot : root < s.size)
    (hop : s.op root = .sum expression) (hk : s.Keeps root) (hn : s.noise.Nonneg)
    (hs : (swept root).run s = .ok () t) (hs' : (swept root).run s' = .ok () t')
    (hinputs : ∀ n ∈ inputs, n < s.size ∧ s.isParameter n = true)
    (hgrad : ∀ n ∈ inputs, t'.grad n = t.grad n) :
    (trials close root (s'.order root) ε tolerance inputs t'.grad).answer t' =
      (trials close root (s.order root) ε tolerance inputs t.grad).answer t := by
  have hroot' : root < s'.size := hroot.trans_eq (size_of_dag ha.dag).symm
  obtain ⟨hl, -⟩ := left_of_swept hroot hs
  have hat : t.Agree t' := hl.symm.trans (ha.trans (left_of_swept hroot' hs').1)
  have hpeers : Peers t t' root t.value t'.value t t' :=
    { left := .start (readable_of_swept hroot hop hs)
      right := .start (readable_of_swept hroot' ((op_of_dag ha.dag root).trans hop) hs')
      value := fun n _ hp => hat.value n hp }
  have hparam : ∀ n ∈ inputs, n < t.size ∧ t.isParameter n = true := fun n hin =>
    ⟨(hinputs n hin).1.trans_eq (size_of_dag hl.dag).symm,
      (isParameter_of_dag hl.dag n).trans (hinputs n hin).2⟩
  rw [trials_congr hgrad, order_of_dag ha.dag, ← order_of_dag hl.dag]
  exact (hpeers.concur_trials hat (hk.of_dag hl.dag) (hl.noise ▸ hn) hparam t.grad).answer

/-- **Two checks of one loss come to one result**, if the inputs that are not below the loss
have the same gradients before. -/
theorem answer_comparison_of_agree {expression : Node} (ha : s.Agree s') (hfit : s.GradsFit)
    (hfit' : s'.GradsFit) (hroot : root < s.size) (hop : s.op root = .sum expression)
    (hk : s.Keeps root) (hn : s.noise.Nonneg)
    (hinputs : ∀ n ∈ inputs, n < s.size ∧ s.isParameter n = true)
    (hleft : ∀ n ∈ inputs, ¬ s.dag.Below root n → s'.grad n = s.grad n) :
    (comparison close root ε tolerance inputs).answer s' =
      (comparison close root ε tolerance inputs).answer s := by
  have hroot' : root < s'.size := hroot.trans_eq (size_of_dag ha.dag).symm
  obtain ⟨hanswer, hgrad⟩ := swept_of_agree ha hfit hfit' hroot hk hn
  unfold Check.answer
  cases hs : (swept root).answer s with
  | error e =>
    rw [run_comparison_of_error (Step.run_of_answer_error hs),
      run_comparison_of_error (Step.run_of_answer_error (hanswer.trans hs))]
    rfl
  | ok _ =>
    have hrun := Step.run_of_answer_ok hs
    have hrun' := Step.run_of_answer_ok (hanswer.trans hs)
    rw [run_comparison hrun, run_comparison hrun']
    refine answer_trials_of_agree ha hroot hop hk hn hrun hrun' hinputs fun n hin => ?_
    by_cases hb : s.dag.Below root n
    · exact hgrad hs n hb
    · have hlt := (hinputs n hin).1
      have hcell := (left_of_swept hroot hrun).2 n hlt hb
      have hcell' := (left_of_swept hroot' hrun').2 n
        (hlt.trans_eq (size_of_dag ha.dag).symm) (ha.dag ▸ hb)
      rw [Graph.grad, Graph.grad, hcell, hcell']
      exact hleft n hin hb

/-- **Two checks come to one result**, and every gradient that a check compares is that of its
own reverse pass, if the input is below the loss.

The gradients of the other inputs are not reset.  What an earlier pass has left there is taken
for a derivative of the loss, which is zero. -/
theorem checkGradients_concur (close : Float → Float → Float → Bool)
    (build : List Node → Step G Node) (inputs : List Node)
    (hbuild : Builds (build inputs)) (hblind : Blind (build inputs))
    (hinputs : ∀ n ∈ inputs, n < g.size) (hg : Reachable g) (hg' : Reachable g')
    (ha : g.Agree g') (hn : g.noise.Nonneg)
    (hk : ∀ root s, (built build inputs).run g = .ok root s → s.Keeps root)
    (ε : Float32) (tolerance : Float) :
    let check := checkGradients close build inputs ε tolerance
    ((∀ root s s', (built build inputs).run g = .ok root s →
        (built build inputs).run g' = .ok root s' →
        ∀ n ∈ inputs, ¬ s.dag.Below root n → s'.grad n = s.grad n) →
      check.answer g' = check.answer g) ∧
    ∀ root s, (∀ n ∈ inputs, g.isParameter n = true) → (built build inputs).run g = .ok root s →
      (swept root).answer s = .ok () →
      let t := (swept root).final s
      check.answer g = (trials close root (s.order root) ε tolerance inputs t.grad).answer t ∧
      (∀ n, s.dag.Below root n → ∀ tag (noise : Noise Float32), noise.Nonneg →
        ∃ new, s.rebuild.run (.empty tag noise) = .ok () new ∧
          (reversePass root).answer new = .ok () ∧
          t.grad n = ((reversePass root).final new).grad n) ∧
      ∀ n < s.size, ¬ s.dag.Below root n → t.grad n = s.grad n := by
  intro check
  refine ⟨fun hleft => ?_, fun root s hp hb hs => ?_⟩
  · cases hfind : inputs.zipIdx.find? fun p => !g.isParameter p.1 with
    | some p =>
      have hfind' := (find?_of_agree ha).trans hfind
      simp only [check, Check.answer, run_checkGradients_of_find?_eq_some hfind,
        run_checkGradients_of_find?_eq_some hfind']
      rfl
    | none =>
      have hp := find?_eq_none_iff.1 hfind
      have hfind' := (find?_of_agree ha).trans hfind
      simp only [check, Check.answer, run_checkGradients hfind, run_checkGradients hfind']
      rcases (blind_built hblind).run_cases ha with
        ⟨root, s, s', hb, hb', hss⟩ | ⟨e, s, s', hb, hb'⟩
      · obtain ⟨hroot, expression, hop⟩ := op_of_built hb
        obtain ⟨targets, -, he⟩ := edits_of_built hbuild hb
        obtain ⟨targets', -, he'⟩ := edits_of_built hbuild hb'
        rw [hb, hb']
        exact answer_comparison_of_agree hss (he.gradsFit hg.gradsFit) (he'.gradsFit hg'.gradsFit)
          hroot hop (hk root s hb) (he.extends.noise ▸ hn)
          (parameters_of_extends he.extends hinputs hp) (hleft root s s' hb hb')
      · rw [hb, hb']
        rfl
  · obtain ⟨hroot, -⟩ := op_of_built hb
    obtain ⟨targets, -, he⟩ := edits_of_built hbuild hb
    have hfind := find?_eq_none_iff.2 hp
    have hrun := Step.run_of_answer_ok hs
    refine ⟨?_, fun n hbn tag noise hn' => ?_, fun n hlt hbn => ?_⟩
    · simp only [check, Check.answer, run_checkGradients hfind, hb, run_comparison hrun]
    · obtain ⟨new, hr, hnew⟩ := run_rebuild s tag noise
      obtain ⟨hanswer, hgrad⟩ := swept_of_rebuilt (he.gradsFit hg.gradsFit) hnew hroot
        (hk root s hb) (he.extends.noise ▸ hn) hn'
      exact ⟨new, hr, hanswer.symm.trans hs, hgrad hs n hbn⟩
    · exact congrArg Cell.grad ((left_of_swept hroot hrun).2 n hlt hbn)

/-- Two numbers. -/
def pair : G :=
  Call.runs [.parameter (.scalar 1), .parameter (.scalar 2)] (.empty 0 ⟨fun _ => 0, fun _ => 0⟩)

/-- The second of them has been through a reverse pass of its own. -/
def passedPair : G := pair.update 1 fun c => { c with grad := .scalar 1 }

theorem run_reversePass_pair : (reversePass 1).run pair = .ok () passedPair := by
  have horder : pair.order 1 = [1] := by
    have hsize : pair.dag.size = 2 := by decide +kernel
    have hops : pair.dag.operands 1 = [] := by decide +kernel
    simp [Graph.order, Dag.traverse, Dag.visit, hsize, hops]
  have hones : (pair.cell 1).value.fill (1 : Float32) = .scalar 1 := by
    have hvalue : (pair.cell 1).value = .scalar 2 := rfl
    rw [hvalue, Matrix.fill, Matrix.map_scalar]
  have hseed : (seed 1).run pair = .ok () passedPair :=
    congrArg (EStateM.Result.ok ())
      (update_congr pair (congrArg (fun m => { pair.cell 1 with grad := m }) hones))
  have hparameter : (propagate 1).run passedPair = .ok () passedPair := rfl
  rw [run_reversePass (run_evaluate_of_hasValue rfl), horder, EStateM.run_bind, hseed]
  exact hparameter

/-- A loss that looks at the first of them only. -/
def firstLoss : G := (built (fun _ => pure 0) [0, 1]).final passedPair

theorem order_firstLoss : firstLoss.order 2 = [0, 2] := by
  have hsize : firstLoss.dag.size = 3 := by decide +kernel
  have hops : firstLoss.dag.operands 2 = [0] ∧ firstLoss.dag.operands 0 = [] := by decide +kernel
  simp [Graph.order, Dag.traverse, Dag.visit, hsize, hops]

theorem below_firstLoss (n : Node) : firstLoss.dag.Below 2 n ↔ n = 0 ∨ n = 2 := by
  have hroot : 2 < firstLoss.size := by decide +kernel
  rw [← mem_order hroot, order_firstLoss]
  simp

theorem answer_swept_firstLoss : (swept 2).answer firstLoss = .ok () := by
  let s : G := (reset [0, 2]).final firstLoss
  have hrun : (reset (firstLoss.order 2)).run firstLoss = .ok () s := by
    rw [order_firstLoss]
    rfl
  have hmissing : s.missing 2 = [2] := by
    have hsize : s.dag.size = 3 := by decide +kernel
    have hops : s.dag.operands 2 = [0] := by decide +kernel
    have hvalues : s.hasValue 2 = false ∧ s.hasValue 0 = true := by decide +kernel
    simp [missing, Dag.traverse, Dag.visit, hsize, hops, hvalues]
  rw [Step.answer, run_swept hrun, order_firstLoss, reverseAlong, EStateM.run_bind,
    run_evaluate_of_missing hmissing]
  decide +kernel

/-- A check of the first number comes to one result, with the reverse pass before and without
it.  A check of both compares the second with a derivative of one, which the pass has left. -/
theorem checkGradients_concur_pair :
    let check inputs := checkGradients agree (fun _ => pure 0) inputs 1 0
    let t := (swept 2).final firstLoss
    (reversePass 1).run pair = .ok () passedPair ∧
      (check [0]).answer pair = (check [0]).answer passedPair ∧
      (check [0, 1]).answer passedPair =
        (trials agree 2 (firstLoss.order 2) 1 0 [0, 1] t.grad).answer t ∧
      ¬ firstLoss.dag.Below 2 1 ∧ t.grad 1 = .scalar 1 := by
  intro check t
  have hpair : Reachable pair := (Reachable.empty 0 _).runs _
  have hpassed : Reachable passedPair :=
    Step.final_of_run_ok run_reversePass_pair ▸ hpair.call (.reversePass 1)
  have ha : pair.Agree passedPair :=
    Edits.agree (.single (.turn (.sum pair 1 _ ⟨rfl, rfl, rfl, .inl rfl, .inl rfl, .inl rfl⟩))) rfl
  have hbuilt : ∀ inputs, (built (fun _ => pure 0) inputs).run passedPair = .ok 2 firstLoss :=
    fun _ => rfl
  have hkeeps : ∀ inputs root s, (built (fun _ => pure 0) inputs).run passedPair = .ok root s →
      s.Keeps root := by
    intro inputs root s h n hb
    rw [hbuilt] at h
    cases h
    rcases (below_firstLoss n).1 hb with rfl | rfl <;> trivial
  obtain ⟨hsame, -⟩ := checkGradients_concur agree (fun _ => pure 0) [0]
    (.of_turns fun _ => .pure _ _) (.pure 0) (by decide) hpassed hpair ha.symm (fun _ _ h => h)
    (hkeeps _) 1 0
  obtain ⟨-, hcompared⟩ := checkGradients_concur agree (fun _ => pure 0) [0, 1]
    (.of_turns fun _ => .pure _ _) (.pure 0) (by decide) hpassed hpair ha.symm (fun _ _ h => h)
    (hkeeps _) 1 0
  obtain ⟨hanswer, -, hleft⟩ := hcompared 2 firstLoss (by decide) (hbuilt _) answer_swept_firstLoss
  have hapart : ¬ firstLoss.dag.Below 2 1 := by simp [below_firstLoss]
  refine ⟨run_reversePass_pair, hsame fun root s' _ hb _ n hn hnb => ?_, hanswer, hapart,
    hleft 1 (by decide +kernel) hapart⟩
  rw [hbuilt] at hb
  cases hb
  exact absurd ((below_firstLoss n).2 (.inl (List.mem_singleton.1 hn))) hnb

end FiniteDifference

end DiffGraph
