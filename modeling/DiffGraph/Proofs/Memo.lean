/-
  Stored values are not noticed.

  What is stored in a graph depends on everything that was done to it.  After a
  reset of a root none of it is noticed any more.

  * `Graph.rebuild`: builds a graph with the same operations and the same
    parameters from nothing;
  * `Computed`: what an evaluation leaves below a root of which nothing but the
    parameters had a value;
  * `Same`: graphs that a reverse pass cannot tell apart, and does not change
    differently (`Same.propagate`);
  * `answer_valueOf_of_cleared`: a value is the meaning of its root, whatever was
    done before and after the reset;
  * `reversePass_of_cleared`: gradients are those of a new graph.
-/
import DiffGraph.Proofs.Denotation
import DiffGraph.Proofs.Entries
import DiffGraph.Proofs.History

namespace DiffGraph

variable {K E : Type}

namespace Graph

/-! ## Building a graph again -/

section
variable [Zero E]

/-- Builds one vertex again. -/
def rebuildOne (g : Graph K E) (n : Node) : Step (Graph K E) Unit :=
  if g.isParameter n then discard (parameter (g.value n)) else discard (record (g.op n))

/-- Builds all vertices again, over parameters with the current values. -/
def rebuild (g : Graph K E) : Step (Graph K E) Unit := (List.range g.size).forM g.rebuildOne

/-- The first `k` vertices of `g` as they are built. -/
structure Rebuilt (g s : Graph K E) (noise : Noise K) (k : Nat) : Prop where
  size : s.size = k
  noise : s.noise = noise
  op : ∀ m < k, s.op m = g.op m
  cell : ∀ m < k, s.cell m = if g.isParameter m then .parameter (g.value m) else .blank

theorem Rebuilt.step {g s : Graph K E} {noise : Noise K} {n : Node} (h : Rebuilt g s noise n) :
    ∃ s', (g.rebuildOne n).run s = .ok () s' ∧ Rebuilt g s' noise (n + 1) := by
  have hpush : ∀ (op : Op K) (ha : s.dag.Admits op) (c : Cell E), op = g.op n →
      c = (if g.isParameter n then .parameter (g.value n) else .blank) →
      Rebuilt g (s.push op ha c) noise (n + 1) := by
    rintro op ha c rfl rfl
    exact
      { size := by rw [size_push, h.size]
        noise := h.noise
        op := by
          intro m hm
          rw [op_push, h.size]
          split
          · next hmn => rw [hmn]
          · next hmn => exact h.op m (Nat.lt_of_le_of_ne (Nat.lt_succ_iff.1 hm) hmn)
        cell := by
          intro m hm
          rw [cell_push, h.size]
          split
          · next hmn => rw [hmn]
          · next hmn => exact h.cell m (Nat.lt_of_le_of_ne (Nat.lt_succ_iff.1 hm) hmn) }
  unfold rebuildOne
  cases hp : g.isParameter n with
  | true =>
    refine ⟨_, rfl, hpush _ _ _ (op_eq_parameter hp).symm (by rw [hp]; rfl)⟩
  | false =>
    have ha : s.dag.Admits (g.op n) := fun c hc => by
      have hcn : c < n := g.dag.operands_lt_self hc
      exact hcn.trans_eq h.size.symm
    have hrun : (record (g.op n)).run s = .ok s.size (s.push (g.op n) ha .blank) := by
      simp only [record, EStateM.run_bind, EStateM.run_get, dif_pos ha]
      rfl
    refine ⟨s.push (g.op n) ha .blank, ?_, hpush _ _ _ rfl (by rw [hp]; rfl)⟩
    rw [if_neg (by simp)]
    exact Step.run_discard hrun

theorem run_rebuild (g : Graph K E) (tag : Nat) (noise : Noise K) :
    ∃ s, g.rebuild.run (.empty tag noise) = .ok () s ∧ Rebuilt g s noise g.size := by
  have hempty : Rebuilt g (.empty tag noise) noise 0 :=
    ⟨rfl, rfl, fun m hm => absurd hm (Nat.not_lt_zero m), fun m hm => absurd hm (Nat.not_lt_zero m)⟩
  obtain ⟨s, hr, hs⟩ := Step.run_forM_ok (l := List.range g.size) (f := g.rebuildOne)
    (fun pre s => Rebuilt g s noise pre.length) (fun pre n post s hl hs => by
      have hn : n = pre.length := by
        have hlen : pre.length < g.size := by
          have := congrArg List.length hl
          simp at this
          omega
        have hget := congrArg (fun l : List Nat => l[pre.length]?) hl
        simpa [List.getElem?_range hlen] using hget.symm
      rw [List.length_append, List.length_singleton, hn]
      exact hs.step) hempty
  exact ⟨s, hr, by simpa using hs⟩

end

/-! ## Evaluating everything -/

variable [Scalar K] [Arith E] [Laned K E]

/-- What an evaluation of `root` leaves in `g'` if nothing but the parameters of
`g` had a value. -/
structure Computed (g g' : Graph K E) (root : Node) : Prop where
  dag : g'.dag = g.dag
  value : ∀ n, g.dag.Below root n → g.denote n = .ok (g'.value n)
  parameter : ∀ n, g.isParameter n = true → g'.cell n = g.cell n
  mask : ∀ n, g.dag.Below root n → g.isParameter n = false →
    (g.op n).freshMask g.noise.uniform g'.value = .ok (g'.cell n).mask
  grad : ∀ n, g.dag.Below root n → g.isParameter n = false →
    g'.grad n = .zeros (g'.value n).rows (g'.value n).cols

section
variable {g g' : Graph K E} {root : Node}

/-- An evaluation succeeds if its root means something. -/
theorem run_evaluate_of_denote (hf : g.Fresh root) (hroot : root < g.size) (hk : g.Keeps root)
    (hn : g.noise.Nonneg) {v : Matrix E} (h : g.denote root = .ok v) :
    ∃ g', (evaluate root).run g = .ok () g' ∧ Evaluated g g' (g.missing root) ∧ Edits [] g g' := by
  rcases evaluate_cases g root with ⟨g', hr, h, ht⟩ | ⟨_, _, _, e, g', -, -, -, -, hr⟩
  · exact ⟨g', hr, h, ht.edits⟩
  · have ha := answer_valueOf hf hroot hk hn
    rw [h, answer_valueOf_eq, Step.answer_of_run_error hr] at ha
    cases ha

theorem Unevaluated.computed (hu : g.Unevaluated root) (hroot : root < g.size) (hk : g.Keeps root)
    (hn : g.noise.Nonneg) (h : Evaluated g g' (g.missing root)) (he : Edits [] g g') :
    Computed g g' root where
  dag := h.dag
  value n hb := h.denote_of_ok he hu.fresh hroot hk hn hb (hu.consistent.hasValue_or_mem hroot hb)
  parameter n hp := h.cell_of_hasValue (List.append_nil _).symm (hasValue_of_isParameter hp)
  mask := by
    intro n hb hp
    obtain ⟨first, v, mask, hm, -, hcell⟩ := h.new n (hu.mem_missing hroot hb hp)
    rw [← Op.freshMask_of_keeps (hk n hb) hn hn first, hm, hcell]
    rfl
  grad := by
    intro n hb hp
    obtain ⟨first, v, mask, -, -, hcell⟩ := h.new n (hu.mem_missing hroot hb hp)
    rw [Graph.grad, Graph.value, hcell]
    rfl

end

/-! ## Reverse passes over graphs that look the same -/

/-- Below a root, two graphs have the operations of `d` and the same values,
masks and gradients. -/
structure Same (d : Dag K) (root : Node) (s t : Graph K E) : Prop where
  size : root < d.size
  size' : root < t.size
  dag : s.dag = d
  op : ∀ n ≤ root, t.op n = d.op n
  value : ∀ n, d.Below root n → t.value n = s.value n
  mask : ∀ n, d.Below root n → (d.op n).isParameter = false → (t.cell n).mask = (s.cell n).mask
  grad : ∀ n, d.Below root n → t.grad n = s.grad n

namespace Same

variable {d : Dag K} {root n : Node} {s t : Graph K E}

section
omit [Scalar K] [Arith E] [Laned K E]

/-- The same gradient for a vertex on both sides. -/
theorem update (h : Same d root s t) (hn : d.Below root n) (grad : Matrix E) :
    Same d root (s.update n fun c => { c with grad := grad })
      (t.update n fun c => { c with grad := grad }) := by
  have hs : n < s.size := hn.le.trans_lt (h.size.trans_eq (congrArg Dag.size h.dag.symm))
  have ht : n < t.size := hn.le.trans_lt h.size'
  have hcells : ∀ m, (s.update n fun c => { c with grad := grad }).cell m =
        (if m = n then { s.cell n with grad := grad } else s.cell m) ∧
      (t.update n fun c => { c with grad := grad }).cell m =
        (if m = n then { t.cell n with grad := grad } else t.cell m) := by
    intro m
    rw [cell_update, cell_update]
    simp [hs, ht]
  exact
    { size := h.size
      size' := h.size'
      dag := h.dag
      op := h.op
      value := by
        intro m hm
        rw [Graph.value, Graph.value, (hcells m).1, (hcells m).2]
        split
        · exact h.value n hn
        · exact h.value m hm
      mask := by
        intro m hm hp
        rw [(hcells m).1, (hcells m).2]
        split
        · next hmn => exact h.mask n hn (hmn ▸ hp)
        · exact h.mask m hm hp
      grad := by
        intro m hm
        rw [Graph.grad, Graph.grad, (hcells m).1, (hcells m).2]
        split
        · rfl
        · exact h.grad m hm }

end

section
omit [Scalar K] [Laned K E]

theorem receive (h : Same d root s t) (hn : d.Below root n) (p : Push E) :
    Alike (fun _ _ => True) (Same d root) ((receive n p).run s) ((receive n p).run t) := by
  have hrun : ∀ g : Graph K E, (Graph.receive n p).run g =
      (Step.ofExcept (p.apply (g.grad n)) >>= fun grad =>
        (set (g.update n fun c => { c with grad := grad }) : Step (Graph K E) Unit)).run g :=
    fun _ => rfl
  rw [hrun, hrun, h.grad n hn]
  exact .ofExcept_bind h fun grad _ => .ok trivial (h.update hn grad)

/-- What a vertex adds to the gradients of its operands is the same. -/
theorem pushes (h : Same d root s t) (hn : d.Below root n) : t.pushes n = s.pushes n := by
  have hop : s.op n = d.op n := by rw [Graph.op, h.dag]
  have hval : ∀ c ∈ (d.op n).operands, t.value c = s.value c := fun c hc =>
    h.value c (hn.operand hc)
  have hown : (t.cell n).value = (s.cell n).value := h.value n hn
  have hgrad : (t.cell n).grad = (s.cell n).grad := h.grad n hn
  unfold Graph.pushes
  simp only [h.op n hn.le, hop, hown, hgrad, Op.pushes_congr hval]
  cases hp : (d.op n).isParameter with
  | true => rw [← hop] at hp ⊢; rw [op_eq_parameter hp]; rfl
  | false => rw [h.mask n hn hp]

theorem propagate (h : Same d root s t) (hn : d.Below root n) :
    Alike (fun _ _ => True) (Same d root) ((propagate n).run s) ((propagate n).run t) := by
  have hrun : ∀ g : Graph K E, (Graph.propagate n).run g =
      (Step.ofExcept (g.pushes n) >>= fun ps => ps.forM fun x => Graph.receive x.1 x.2).run g :=
    fun _ => rfl
  rw [hrun, hrun, h.pushes hn]
  refine .ofExcept_bind h fun ps hps => .forM (fun x hx s' t' h' => h'.receive ?_ x.2) h
  have hmem : x.1 ∈ (s.op n).operands := by
    rw [← Op.map_fst_pushes hps]
    exact List.mem_map_of_mem hx
  rw [Graph.op, h.dag] at hmem
  exact hn.operand hmem

/-- The part of a reverse pass after the evaluation. -/
theorem seed_forM (h : Same d root s t) {order : List Node}
    (ho : ∀ n ∈ order, d.Below root n) :
    Alike (fun _ _ => True) (Same d root)
      ((do seed root; order.reverse.forM Graph.propagate : Step (Graph K E) Unit).run s)
      ((do seed root; order.reverse.forM Graph.propagate : Step (Graph K E) Unit).run t) := by
  have hroot := Dag.Below.refl d root
  have hseed : Alike (fun _ _ => True) (Same d root) ((seed root).run s) ((seed root).run t) := by
    have hrun : ∀ g : Graph K E, g.value root = s.value root → (seed root).run g =
        .ok () (g.update root fun c => { c with grad := (s.value root).fill 1 }) := by
      intro g hg
      rw [← hg]
      exact congrArg (EStateM.Result.ok ()) (update_congr g rfl)
    rw [hrun s rfl, hrun t (h.value root hroot)]
    exact .ok trivial (h.update hroot _)
  exact hseed.bind fun _ _ s' t' _ h' =>
    .forM (fun n hn s t h => h.propagate (ho n (List.mem_reverse.1 hn))) h'

end

end Same

/-! ## After a reset -/

section
variable {g g' s s' : Graph K E} {root n : Node} {noise : Noise K}

omit [Laned K E] in
/-- After a reset a graph is a copy of what it was. -/
theorem Cleared.copies (h : Cleared g g' (g.order root)) (hroot : root < g.size)
    (hk : g.Keeps root) (hn : g.noise.Nonneg) : g.Copies g' root where
  size := hroot
  size' := hroot.trans_eq (congrArg Dag.size h.dag.symm)
  op _ _ := h.op _
  value _ hb _ := h.value (hb.le.trans_lt hroot)
  keeps := hk
  nonneg := hn
  nonneg' := h.noise ▸ hn

omit [Laned K E] in
/-- A graph that was built again is a copy. -/
theorem Rebuilt.copies (h : Rebuilt g s noise g.size) (hroot : root < g.size)
    (hk : g.Keeps root) (hn : g.noise.Nonneg) (hn' : noise.Nonneg) : g.Copies s root where
  size := hroot
  size' := hroot.trans_eq h.size.symm
  op n hnr := h.op n (hnr.trans_lt hroot)
  value n hb hp := by
    rw [value, h.cell n (hb.le.trans_lt hroot), if_pos hp]
    rfl
  keeps := hk
  nonneg := hn
  nonneg' := h.noise ▸ hn'

omit [Scalar K] [Laned K E] in
theorem Rebuilt.unevaluated (h : Rebuilt g s noise g.size) (hroot : root < g.size) :
    s.Unevaluated root := by
  intro n hb hp
  have hlt : n < g.size := hb.le.trans_lt hroot
  have hp' : g.isParameter n = false := by rwa [isParameter, h.op n hlt] at hp
  rw [hasValue, hp, h.cell n hlt, hp']
  rfl

/-- **After a reset a value is what its root means**, whatever was done before, and
whatever is done then without writing to a parameter below the root. -/
theorem answer_valueOf_of_cleared (h : Cleared g g' (g.order root)) (hroot : root < g.size)
    (hk : g.Keeps root) (hn : g.noise.Nonneg) {cs : List (Call K E)}
    (hcs : Call.Spares cs g root) :
    (valueOf root).answer (Call.runs cs g') = (Call.runs cs g').denote root ∧
      (Call.runs cs g').denote root = g.denote root := by
  have hc := h.copies hroot hk hn
  have he := Call.runs_edits cs g'
  have ht : ∀ n ∈ cs.flatMap Call.targets, ¬ g'.dag.Below root n := by
    intro n hmem hb
    obtain ⟨c, hcm, hnc⟩ := List.mem_flatMap.1 hmem
    exact hcs c hcm n hnc (h.dag ▸ hb)
  have hf := he.fresh hc.size' ht hc.keeps' hc.nonneg' (h.unevaluated hroot).fresh
  have hc' := Edits.copies he hc.size' ht hc.keeps' hc.nonneg'
  refine ⟨answer_valueOf hf hc'.size' hc'.keeps' hc'.nonneg', ?_⟩
  rw [hc'.denote (Dag.Below.refl _ _), hc.denote (Dag.Below.refl _ _)]

/-- What evaluations of two copies leave below their root is the same. -/
theorem Computed.same (hg : Computed g g' root) (hs : Computed s s' root) (hc : g.Copies s root)
    (hgrad : ∀ n, g.dag.Below root n → g.isParameter n = true → s.grad n = g.grad n) :
    Same g.dag root g' s' := by
  have hval : ∀ n, g.dag.Below root n → s'.value n = g'.value n := by
    intro n hb
    have h := hs.value n (hc.below_iff.2 hb)
    rw [hc.denote hb, hg.value n hb] at h
    exact (Except.ok.inj h).symm
  have hp : ∀ n ≤ root, s.isParameter n = g.isParameter n := fun n hn =>
    congrArg Op.isParameter (hc.op n hn)
  exact
    { size := hc.size
      size' := hc.size'.trans_eq (congrArg Dag.size hs.dag.symm)
      dag := hg.dag
      op := by
        intro n hn
        rw [Graph.op, hs.dag]
        exact hc.op n hn
      value := hval
      mask := by
        intro n hb hpn
        have hm := hs.mask n (hc.below_iff.2 hb) ((hp n hb.le).trans hpn)
        have hval' : ∀ c ∈ (g.op n).operands, s'.value c = g'.value c := fun c hcn =>
          hval c (hb.operand hcn)
        rw [hc.op n hb.le, Op.freshMask_congr hval'] at hm
        have hkeep := Op.freshMask_of_keeps (hc.keeps n hb) hc.nonneg' hc.nonneg 0 g'.value
        simp only [Nat.zero_add] at hkeep
        rw [hkeep, hg.mask n hb hpn] at hm
        exact (Except.ok.inj hm).symm
      grad := by
        intro n hb
        cases hpn : g.isParameter n with
        | true =>
          have hcell := hs.parameter n ((hp n hb.le).trans hpn)
          have hcell' := hg.parameter n hpn
          rw [Graph.grad, Graph.grad, hcell, hcell']
          exact hgrad n hb hpn
        | false =>
          rw [hs.grad n (hc.below_iff.2 hb) ((hp n hb.le).trans hpn), hg.grad n hb hpn,
            hval n hb] }

/-- **After a reset a reverse pass does what it does on a new graph**, if its root
can be evaluated. -/
theorem reversePass_of_cleared (hfit : g.GradsFit) (h : Cleared g g' (g.order root))
    (hs : Rebuilt g s noise g.size) (hroot : root < g.size) (hk : g.Keeps root)
    (hn : g.noise.Nonneg) (hn' : noise.Nonneg) {v : Matrix E} (hv : g.denote root = .ok v) :
    Alike (fun _ _ => True) (Same g.dag root) ((reversePass root).run g')
      ((reversePass root).run s) := by
  have hc := h.copies hroot hk hn
  have hcs := hs.copies hroot hk hn hn'
  have hb := Dag.Below.refl g.dag root
  have hc' : g'.Copies s root :=
    { size := hc.size'
      size' := hcs.size'
      op := fun n hnr => (hcs.op n hnr).trans (hc.op n hnr).symm
      value := fun n hnb hp => by
        have hnb' := hc.below_iff.1 hnb
        rw [isParameter, h.op] at hp
        exact (hcs.value n hnb' hp).trans (hc.value n hnb' hp).symm
      keeps := hc.keeps'
      nonneg := hc.nonneg'
      nonneg' := hcs.nonneg' }
  have hu := h.unevaluated hroot
  have hus := hs.unevaluated hroot
  obtain ⟨g₁, hr, he, hed⟩ := run_evaluate_of_denote hu.fresh hc.size' hc.keeps' hc.nonneg'
    ((hc.denote hb).trans hv)
  obtain ⟨s₁, hrs, hes, heds⟩ := run_evaluate_of_denote hus.fresh hcs.size' hcs.keeps' hcs.nonneg'
    ((hcs.denote hb).trans hv)
  have hsame : Same g'.dag root g₁ s₁ := by
    refine (hu.computed hc.size' hc.keeps' hc.nonneg' he hed).same
      (hus.computed hcs.size' hcs.keeps' hcs.nonneg' hes heds) hc' fun n hnb hp => ?_
    have hnb' := hc.below_iff.1 hnb
    have hlt : n < g.size := hnb'.le.trans_lt hroot
    have hp' : g.isParameter n = true := by rwa [isParameter, h.op] at hp
    have hsh := hfit n hp'
    rw [h.grad hlt ((mem_order hroot).2 hnb'), Matrix.fill_zero_eq_zeros, Graph.grad,
      hs.cell n hlt, if_pos hp']
    exact congrArg₂ Matrix.zeros (congrArg Prod.fst hsh).symm (congrArg Prod.snd hsh).symm
  have horder : s.order root = g'.order root :=
    Dag.traverse_congr hc'.size hc'.size' fun m hm => ⟨hc'.operands m hm, rfl⟩
  rw [run_reversePass hr, run_reversePass hrs, horder, ← h.dag]
  exact hsame.seed_forM fun n hn => (mem_order hc.size').1 hn

end

end Graph

/-! ## Any history -/

section
variable [Scalar K] [Arith E] [Laned K E]

/-- **Stored values are not noticed after a reset.**  Let `g` be left by any calls,
and let no sample be negative and no vertex below `root` drop entries.  After a
reset of `root`

* its value is what it means, also after any further calls that write to no
  parameter below it;
* if it can be evaluated, a reverse pass ends as it does on a graph that is built
  again over equal parameters, and leaves the same gradients. -/
theorem Reachable.forgets {g : Graph K E} (hg : Reachable g) {root : Node} (hroot : root < g.size)
    (hk : g.Keeps root) (hn : g.noise.Nonneg) :
    let g₁ := (Graph.reset (g.order root)).final g
    (∀ cs, Call.Spares cs g root →
      let g₂ := Call.runs cs g₁
      (Graph.valueOf root).answer g₂ = g₂.denote root ∧ g₂.denote root = g.denote root) ∧
    ((Graph.evaluate root).answer g₁ = .ok () → ∀ tag (noise : Noise K), noise.Nonneg →
      ∃ new, g.rebuild.run (.empty tag noise) = .ok () new ∧
        (Graph.reversePass root).answer g₁ = (Graph.reversePass root).answer new ∧
        ∀ n ∈ g.order root, ((Graph.reversePass root).final g₁).grad n =
          ((Graph.reversePass root).final new).grad n) := by
  obtain ⟨g₁, hr, h⟩ := Graph.reset_run g (g.order root)
  simp only [Step.final_of_run_ok hr]
  refine ⟨fun cs hcs => Graph.answer_valueOf_of_cleared h hroot hk hn hcs,
    fun hev tag noise hn' => ?_⟩
  obtain ⟨new, hrn, hs⟩ := Graph.run_rebuild g tag noise
  have hcs : Call.Spares [] g root := by
    intro c hc
    cases hc
  have hv := Graph.answer_valueOf_of_cleared h hroot hk hn hcs
  have hden : g.denote root = .ok (((Graph.evaluate root).final g₁).value root) := by
    rw [← hv.2, ← hv.1, Graph.answer_valueOf_eq]
    exact congrArg (Except.map _) hev
  have hsame := Graph.reversePass_of_cleared hg.gradsFit h hs hroot hk hn hn' hden
  refine ⟨new, hrn, hsame.answer, fun n hnm => ?_⟩
  exact (hsame.final.grad n ((Graph.mem_order hroot).1 hnm)).symm

end

/-- The square of a number that was evaluated and then replaced.  After a reset it
is computed again, and a failing call changes nothing; the reverse pass is that of
a new graph. -/
theorem Reachable.forgets_square :
    let g₀ : Graph Float32 Float32 := Call.runs [.parameter (.scalar 2), .record (.func .square 0)]
      (.empty 0 ⟨fun _ => 0, fun _ => 0⟩)
    let g := Call.runs [.evaluate 1, .assign 0 3] g₀
    let g₁ := (Graph.reset (g.order 1)).final g
    (Graph.valueOf 1).answer (Call.runs [.record (.neg 7), .evaluate 1] g₁) =
        .ok (.scalar (3 * 3)) ∧
      ∃ new, g.rebuild.run (.empty 1 ⟨fun _ => 0, fun _ => 0⟩) = .ok () new ∧
        (Graph.reversePass 1).answer g₁ = (Graph.reversePass 1).answer new := by
  intro g₀ g g₁
  have hext : g₀.Extends g := (Call.runs_edits _ g₀).extends
  have hsize : g₀.size = 2 := rfl
  have hop : ∀ n < 2, g.op n = g₀.op n := fun n hn => hext.op n (hsize ▸ hn)
  have hg : Reachable g := ((Reachable.empty 0 _).runs _).runs _
  have hroot : 1 < g.size := (by decide : 1 < 2).trans_le (hsize ▸ hext.size)
  have hk : g.Keeps 1 := by
    intro n hb
    rw [hop n (Nat.lt_succ_of_le hb.le)]
    rcases Nat.le_one_iff_eq_zero_or_eq_one.1 hb.le with rfl | rfl <;> trivial
  have hn : g.noise.Nonneg := by
    rw [hext.noise]
    exact fun _ _ h => h
  have hvalue : g.value 0 = .scalar 3 := by
    have he : Graph.Edits [] g₀ ((Graph.evaluate 1).final g₀) := Graph.leads_evaluate 1
    have hg : g = (Graph.assign 0 3).final ((Graph.evaluate 1).final g₀) := rfl
    rw [hg, Graph.value_assign]
    · exact (by decide : 0 < 2).trans_le he.extends.size
    · exact congrArg Op.isParameter (he.extends.op 0 (by decide))
    · rw [he.value_parameter (by decide) rfl (by simp)]
      rfl
  have hden : g.denote 1 = .ok (.scalar (3 * 3)) := by
    have hop₁ : g.op 1 = .func .square 0 := hop 1 (by decide)
    have hop₀ : g.isParameter 0 = true := congrArg Op.isParameter (hop 0 (by decide))
    have hoperands : ∀ c ∈ g.dag.operands 1, g.denote c = .ok (g.value c) := by
      intro c hc
      have hc' : c ∈ (Op.func Unary.square 0 : Op Float32).operands := hop₁ ▸ hc
      rw [List.mem_singleton.1 hc']
      exact Graph.denote_parameter hop₀
    have hmap : (Matrix.scalar (3 : Float32)).map (Unary.apply .square) = .scalar (3 * 3) := by
      simp [Matrix.map, Matrix.scalar, Unary.apply]
    rw [Graph.denote_of_ok hoperands, Graph.rule, hop₁, ← hmap, ← hvalue]
    rfl
  have h := hg.forgets hroot hk hn
  have hvalue := h.1 [.record (.neg 7), .evaluate 1] (by simp [Call.Spares, Call.targets])
  have hnow := h.1 [] (by simp [Call.Spares])
  have hok : (Graph.evaluate 1).answer g₁ = .ok () := by
    have hv := hnow.1.trans (hnow.2.trans hden)
    cases hev : (Graph.evaluate 1).answer g₁ with
    | ok => rfl
    | error e =>
      have hv' := Graph.answer_valueOf_eq g₁ 1
      rw [hev] at hv'
      cases hv'.symm.trans hv
  refine ⟨hvalue.1.trans (hvalue.2.trans hden), ?_⟩
  obtain ⟨new, hnew, ha, -⟩ := h.2 hok 1 ⟨fun _ => 0, fun _ => 0⟩ fun _ _ h => h
  exact ⟨new, hnew, ha⟩

end DiffGraph
