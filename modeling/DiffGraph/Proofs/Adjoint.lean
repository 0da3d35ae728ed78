/-
  A reverse pass computes the transpose of the tangents.

  * `Graph.tangent`: the tangent of a vertex, computed forward from directions for
    the parameters;
  * `Regraded`: a graph with the values and masks of another one, in the middle of a
    reverse pass;
  * `carried`: the gradients of some vertices, paired with tangents.  A vertex that
    passes its gradient on carries it over to its operands (`Regraded.propagate`), so
    the pass moves what is carried from the root to the parameters
    (`Regraded.sweep`).

  After a reset, the gradients of the parameters paired with any directions give the
  sum of the tangent of the root.
-/
import Mathlib
import DiffGraph.Proofs.Evaluation
import DiffGraph.Proofs.History
import DiffGraph.Proofs.Recursion
import DiffGraph.Proofs.Tangent

namespace DiffGraph

variable {K E : Type}

/-- The tangent depends on the tangents of the operands only. -/
theorem Op.tangent_congr [Arith E] {op : Op K} {own mask : Matrix E} {val t u : Node → Matrix E}
    (h : ∀ c ∈ op.operands, t c = u c) : op.tangent own mask val t = op.tangent own mask val u := by
  cases op with
  | parameter => rfl
  | add l r | mul l r | div l r | dot l r | max l r =>
    simp only [tangent, h l (by simp [operands]), h r (by simp [operands])]
  | neg l | func f l | sum l | slice rect l | dropout rate l =>
    simp only [tangent, h l (by simp [operands])]
  | flatten members => simp only [tangent, List.map_congr_left (l := members) h]
  | convolution | maxPool | logSoftmax => rfl

namespace Graph

section
variable [Arith E]

/-- The tangent of a vertex from those of its operands. -/
def tangentRule (g : Graph K E) (dir : Node → Matrix E) (n : Node) (tan : Node → Matrix E) :
    Except Failure (Matrix E) :=
  (g.op n).tangent (dir n) (g.cell n).mask g.value tan

/-- The tangent of a vertex when every parameter `p` moves in the direction `dir p`. -/
def tangent (g : Graph K E) (dir : Node → Matrix E) (root : Node) : Except Failure (Matrix E) :=
  g.dag.recurse (g.tangentRule dir) root

theorem local_tangentRule (g : Graph K E) (dir : Node → Matrix E) :
    g.dag.Local (g.tangentRule dir) :=
  fun _ _ _ h => Op.tangent_congr h

/-- Tangents of the vertices of an order. -/
structure Tangents (g : Graph K E) (dir : Node → Matrix E) (order : List Node)
    (tan : Node → Matrix E) : Prop where
  shape : ∀ n ∈ order, (tan n).shape = (g.value n).shape
  rule : ∀ n ∈ order, g.tangentRule dir n tan = .ok (tan n)

/-- A graph with the values and masks of another one, and gradients of its own. -/
structure Regraded (g s : Graph K E) (order : List Node) : Prop where
  dag : s.dag = g.dag
  value : ∀ n, s.value n = g.value n
  mask : ∀ n, (s.cell n).mask = (g.cell n).mask
  shape : ∀ n ∈ order, (s.grad n).shape = (g.value n).shape

/-- Tangents do not depend on gradients. -/
theorem Regraded.tangent {g s : Graph K E} {order : List Node} (h : Regraded g s order)
    (dir : Node → Matrix E) (n : Node) : s.tangent dir n = g.tangent dir n := by
  have hrule : s.tangentRule dir = g.tangentRule dir := by
    funext n tan
    rw [tangentRule, tangentRule, h.mask, op, op, h.dag, funext h.value]
  rw [Graph.tangent, Graph.tangent, hrule, h.dag]

end

section
variable [Exact E] {g s s' : Graph K E} {order ns : List Node} {root n c : Node}

/-- **Tangents can be computed** where values were. -/
theorem tangent_of_ready (hr : g.Ready root)
    (hk : ∀ n, g.dag.Below root n → g.kind n ∈ Kind.tangible) {dir : Node → Matrix E}
    (hdir : ∀ p, g.dag.Below root p → g.isParameter p = true →
      (dir p).shape = (g.value p).shape) :
    ∀ n, g.dag.Below root n → ∃ t, g.tangent dir n = .ok t ∧ t.shape = (g.value n).shape := by
  intro n
  induction n using Nat.strong_induction_on with
  | _ n ih =>
    intro hn
    let tan c := (g.tangent dir c).toOption.getD default
    have htan : ∀ c ∈ g.dag.operands n,
        g.tangent dir c = .ok (tan c) ∧ (tan c).shape = (g.value c).shape := by
      intro c hc
      obtain ⟨t, ht, hs⟩ := ih c (g.dag.operands_lt_self hc) (hn.operand hc)
      have hval : tan c = t := by simp [tan, ht, Except.toOption]
      exact ⟨ht.trans (congrArg _ hval.symm), (congrArg _ hval).trans hs⟩
    have hrec : g.tangent dir n = g.tangentRule dir n tan :=
      Dag.recurse_of_ok (g.local_tangentRule dir) fun c hc => (htan c hc).1
    rw [hrec]
    cases hp : g.isParameter n with
    | true =>
      refine ⟨dir n, ?_, hdir n hn hp⟩
      rw [tangentRule, op_eq_parameter hp]
      rfl
    | false =>
      obtain ⟨ps, -, h⟩ := Op.transposes (hk n hn) hp (hr.settled n hn) rfl
      obtain ⟨t, ht, hs, -⟩ := h.pairing (dir n) tan fun c hc => (htan c hc).2
      exact ⟨t, ht, hs⟩

/-- The tangents below a root, as a function of the vertex. -/
theorem exists_tangents (hroot : root < g.size) (hr : g.Ready root)
    (hk : ∀ n, g.dag.Below root n → g.kind n ∈ Kind.tangible) {dir : Node → Matrix E}
    (hdir : ∀ p, g.dag.Below root p → g.isParameter p = true →
      (dir p).shape = (g.value p).shape) :
    ∃ tan, Tangents g dir (g.order root) tan ∧
      ∀ n ∈ g.order root, g.tangent dir n = .ok (tan n) := by
  let tan n := (g.tangent dir n).toOption.getD default
  have htan : ∀ n, g.dag.Below root n →
      g.tangent dir n = .ok (tan n) ∧ (tan n).shape = (g.value n).shape := by
    intro n hn
    obtain ⟨t, ht, hs⟩ := tangent_of_ready hr hk hdir n hn
    have hval : tan n = t := by simp [tan, ht, Except.toOption]
    exact ⟨ht.trans (congrArg _ hval.symm), (congrArg _ hval).trans hs⟩
  refine ⟨tan, ⟨fun n hn => (htan n ((mem_order hroot).1 hn)).2, fun n hn => ?_⟩, fun n hn =>
    (htan n ((mem_order hroot).1 hn)).1⟩
  have hn' := (mem_order hroot).1 hn
  have hrec : g.tangent dir n = g.tangentRule dir n tan :=
    Dag.recurse_of_ok (g.local_tangentRule dir) fun c hc => (htan c (hn'.operand hc)).1
  exact hrec.symm.trans (htan n hn').1

/-! ## What is carried -/

/-- The gradients of some vertices, paired with tangents. -/
def carried (s : Graph K E) (tan : Node → Matrix E) (ns : List Node) : E :=
  (ns.map fun n => Matrix.pairing (s.grad n) (tan n)).sum

theorem carried_congr {tan : Node → Matrix E} (h : ∀ n ∈ ns, s'.grad n = s.grad n) :
    s'.carried tan ns = s.carried tan ns := by
  unfold carried
  rw [List.map_congr_left fun n hn => by rw [h n hn]]

theorem carried_append (tan : Node → Matrix E) (ns ms : List Node) :
    s.carried tan (ns ++ ms) = s.carried tan ns + s.carried tan ms := by
  rw [carried, List.map_append, List.sum_append]
  rfl

/-- A change of one gradient. -/
theorem carried_add {tan : Node → Matrix E} {e : E} (hne : ∀ m, m ≠ c → s'.grad m = s.grad m)
    (hc : Matrix.pairing (s'.grad c) (tan c) = Matrix.pairing (s.grad c) (tan c) + e)
    (hnodup : ns.Nodup) (hmem : c ∈ ns) : s'.carried tan ns = s.carried tan ns + e := by
  obtain ⟨pre, post, rfl⟩ := List.append_of_mem hmem
  rw [List.nodup_append, List.nodup_cons] at hnodup
  obtain ⟨-, ⟨hpost, -⟩, hpre⟩ := hnodup
  have hpre' : ∀ m ∈ pre, s'.grad m = s.grad m := fun m hm => hne m (hpre m hm c (by simp))
  have hpost' : ∀ m ∈ post, s'.grad m = s.grad m := fun m hm =>
    hne m fun h => hpost (h ▸ hm)
  have hcons : ∀ s : Graph K E, s.carried tan (c :: post) =
      Matrix.pairing (s.grad c) (tan c) + s.carried tan post := fun s => by
    rw [carried, List.map_cons, List.sum_cons]
    rfl
  rw [carried_append, carried_append, hcons, hcons, carried_congr hpre', carried_congr hpost', hc]
  ring

omit [Exact E] in
/-- One gradient is replaced. -/
theorem Regraded.update (h : Regraded g s order) (hlt : c < g.size) {f : Cell E → Cell E}
    {m : Matrix E} (hf : f (s.cell c) = { s.cell c with grad := m })
    (hm : m.shape = (g.value c).shape) :
    Regraded g (s.update c f) order ∧ (s.update c f).grad c = m ∧
      ∀ n, n ≠ c → (s.update c f).grad n = s.grad n := by
  have hself : (s.update c f).cell c = { s.cell c with grad := m } :=
    (cell_update_self s (by rwa [Graph.size, h.dag]) f).trans hf
  have hne : ∀ n, n ≠ c → (s.update c f).cell n = s.cell n := fun n hn =>
    cell_update_of_ne s (Ne.symm hn) f
  have hgrad : (s.update c f).grad c = m := by rw [Graph.grad, hself]
  have hgrad' : ∀ n, n ≠ c → (s.update c f).grad n = s.grad n := fun n hn => by
    rw [Graph.grad, hne n hn]
    rfl
  refine ⟨?_, hgrad, hgrad'⟩
  exact
    { dag := h.dag
      value := by
        intro n
        rw [← h.value n, Graph.value]
        by_cases hn : n = c
        · rw [hn, hself]
          rfl
        · rw [hne n hn]
          rfl
      mask := by
        intro n
        rw [← h.mask n]
        by_cases hn : n = c
        · rw [hn, hself]
        · rw [hne n hn]
      shape := by
        intro n hn
        by_cases hnc : n = c
        · rw [hnc, hgrad]
          exact hm
        · rw [hgrad' n hnc]
          exact h.shape n hn }

omit [Exact E] in
/-- Something is added to one gradient. -/
theorem Regraded.run_receive [Arith E] (h : Regraded g s order) (hlt : c < g.size) {p : Push E}
    {m : Matrix E} (hp : p.apply (s.grad c) = .ok m) (hm : m.shape = (g.value c).shape) :
    ∃ s', (Graph.receive c p).run s = .ok () s' ∧ Regraded g s' order ∧ s'.grad c = m ∧
      ∀ n, n ≠ c → s'.grad n = s.grad n := by
  obtain ⟨h', hgrad, hne⟩ := h.update hlt (f := fun cell => { cell with grad := m }) rfl hm
  refine ⟨_, ?_, h', hgrad, hne⟩
  simp only [Graph.receive, EStateM.run_bind, EStateM.run_get, hp]
  rfl

omit [Exact E] in
/-- What a vertex contributes depends on its own gradient only. -/
theorem Regraded.pushes [Arith E] (h : Regraded g s order) (n : Node) :
    s.pushes n = (g.op n).pushes (g.value n) (g.cell n).mask (s.grad n) g.value := by
  have hvalue : (s.cell n).value = g.value n := h.value n
  simp only [Graph.pushes, op, h.dag, h.mask, hvalue, funext h.value]
  rfl

/-- **One contribution.** -/
theorem Regraded.receive (h : Regraded g s order) (hmem : c ∈ order) (hlt : c < g.size)
    {p : Push E} (hp : p.Fits (g.value c).shape) :
    ∃ s', (Graph.receive c p).run s = .ok () s' ∧ Regraded g s' order ∧
      (∀ m, m ≠ c → s'.grad m = s.grad m) ∧
      ∀ x, Matrix.pairing (s'.grad c) x =
        Matrix.pairing (s.grad c) x + Matrix.pairing (p.terms (g.value c).shape) x := by
  have hs := h.shape c hmem
  obtain ⟨m, hm, hms, hpair, -⟩ := Matrix.exists_add (hs.trans (Push.shape_terms hp).symm)
  have happly : p.apply (s.grad c) = .ok m := by
    rw [Push.apply_eq_add (hs.symm ▸ hp), hs, hm]
  obtain ⟨s', hr, h', hgrad, hne⟩ := h.run_receive hlt happly (hms.trans hs)
  refine ⟨s', hr, h', hne, fun x => ?_⟩
  rw [hgrad]
  exact hpair x

/-- The contributions of a vertex. -/
theorem Regraded.receives (hlt : ∀ c ∈ order, c < g.size) (ps : List (Node × Push E))
    (hps : ∀ t ∈ ps, t.1 ∈ order ∧ t.2.Fits (g.value t.1).shape) (h : Regraded g s order) :
    ∃ s', (ps.forM fun t => Graph.receive t.1 t.2).run s = .ok () s' ∧ Regraded g s' order ∧
      (∀ m, m ∉ ps.map Prod.fst → s'.grad m = s.grad m) ∧
      ∀ tan (ns : List Node), ns.Nodup → (∀ t ∈ ps, t.1 ∈ ns) →
        s'.carried tan ns = s.carried tan ns + Push.paired g.value tan ps := by
  induction ps generalizing s with
  | nil =>
    refine ⟨s, rfl, h, fun _ _ => rfl, fun tan ns _ _ => ?_⟩
    simp [Push.paired]
  | cons t ps ih =>
    obtain ⟨hmem, hfits⟩ := hps t List.mem_cons_self
    obtain ⟨s₁, hr, h₁, hne, hpair⟩ := h.receive hmem (hlt _ hmem) hfits
    obtain ⟨s', hr', h', hne', hcarried⟩ := ih (fun u hu => hps u (List.mem_cons_of_mem _ hu)) h₁
    refine ⟨s', Step.run_forM_cons_ok hr hr', h', fun m hm => ?_,
      fun tan ns hnodup hns => ?_⟩
    · rw [List.map_cons, List.mem_cons, not_or] at hm
      rw [hne' m hm.2, hne m hm.1]
    · rw [hcarried tan ns hnodup fun u hu => hns u (List.mem_cons_of_mem _ hu),
        carried_add hne (hpair (tan t.1)) hnodup (hns t List.mem_cons_self), Push.paired,
        Push.paired, List.map_cons, List.sum_cons, add_assoc]

/-- **A vertex carries its gradient over to its operands.** -/
theorem Regraded.propagate (h : Regraded g s order) (hlt : ∀ c ∈ order, c < g.size)
    (hn : n ∈ order) (hs : g.Settled n) (hk : g.kind n ∈ Kind.tangible)
    (hops : ∀ c ∈ g.dag.operands n, c ∈ order) :
    ∃ s', (Graph.propagate n).run s = .ok () s' ∧ Regraded g s' order ∧
      (∀ m, m ∉ g.dag.operands n → s'.grad m = s.grad m) ∧
      ∀ dir tan (ns : List Node), Tangents g dir order tan → ns.Nodup →
        (∀ c ∈ g.dag.operands n, c ∈ ns) → g.isParameter n = false →
        s'.carried tan ns = s.carried tan ns + Matrix.pairing (s.grad n) (tan n) := by
  have hpushes := h.pushes n
  cases hp : g.isParameter n with
  | true =>
    rw [op_eq_parameter hp] at hpushes
    refine ⟨s, ?_, h, fun _ _ => rfl, fun _ _ _ _ _ _ hf => by cases hf⟩
    simp only [Graph.propagate, EStateM.run_bind, EStateM.run_get, hpushes]
    rfl
  | false =>
    obtain ⟨ps, hps, htr⟩ := Op.transposes hk hp hs (h.shape n hn)
    have hfst : ps.map Prod.fst = g.dag.operands n := Op.map_fst_pushes hps
    have hmem : ∀ t ∈ ps, t.1 ∈ g.dag.operands n := fun t ht => hfst ▸ List.mem_map_of_mem ht
    obtain ⟨s', hr, h', hne, hcarried⟩ :=
      h.receives hlt ps fun t ht => ⟨hops _ (hmem t ht), htr.fits t ht⟩
    refine ⟨s', ?_, h', hfst ▸ hne, fun dir tan ns ht hnodup hns _ => ?_⟩
    · simp only [Graph.propagate, EStateM.run_bind, EStateM.run_get, hpushes, hps]
      exact hr
    · obtain ⟨t, htan, -, hpair⟩ := htr.pairing (dir n) tan fun c hc => ht.shape c (hops c hc)
      have heq : t = tan n := Except.ok.inj (htan.symm.trans (ht.rule n hn))
      rw [hcarried tan ns hnodup fun t ht => hns _ (hmem t ht), ← hpair, heq]

/-- **A reverse pass carries the gradients over to the parameters.** -/
theorem Regraded.sweep (hlt : ∀ c ∈ order, c < g.size) (hs : ∀ n ∈ order, g.Settled n)
    (hk : ∀ n ∈ order, g.kind n ∈ Kind.tangible) (ns : List Node) (hns : ∀ n ∈ ns, n ∈ order)
    (hordered : g.Ordered ns) (hnodup : ns.Nodup) (h : Regraded g s order) :
    ∃ s', (ns.reverse.forM Graph.propagate).run s = .ok () s' ∧ Regraded g s' order ∧
      (∀ m, m ∉ ns → s'.grad m = s.grad m) ∧
      ∀ dir tan, Tangents g dir order tan →
        s'.carried tan (ns.filter g.isParameter) = s.carried tan ns := by
  induction ns using List.reverseRecOn generalizing s with
  | nil => exact ⟨s, rfl, h, fun _ _ => rfl, fun _ _ _ => rfl⟩
  | append_singleton ns n ih =>
    have hops : ∀ c ∈ g.dag.operands n, c ∈ ns := hordered ns n [] rfl
    have hn : n ∈ order := hns n (by simp)
    have hns' : ∀ m ∈ ns, m ∈ order := fun m hm => hns m (List.mem_append_left _ hm)
    rw [List.nodup_append] at hnodup
    have hnot : n ∉ ns := fun hm => hnodup.2.2 n hm n (by simp) rfl
    obtain ⟨s₁, hr₁, h₁, hne₁, hcarried₁⟩ :=
      h.propagate hlt hn (hs n hn) (hk n hn) fun c hc => hns' c (hops c hc)
    obtain ⟨s', hr', h', hne', hcarried'⟩ := ih hns' hordered.of_append hnodup.1 h₁
    refine ⟨s', ?_, h', fun m hm => ?_, fun dir tan ht => ?_⟩
    · rw [List.reverse_append, List.reverse_singleton, List.singleton_append]
      exact Step.run_forM_cons_ok hr₁ hr'
    · rw [List.mem_append, not_or] at hm
      rw [hne' m hm.1, hne₁ m fun hc => hm.1 (hops m hc)]
    · have hsingle : ∀ s : Graph K E, s.carried tan [n] = Matrix.pairing (s.grad n) (tan n) :=
        fun s => by simp [carried]
      rw [List.filter_append, carried_append, carried_append, hcarried' dir tan ht, hsingle]
      cases hp : g.isParameter n with
      | true =>
        -- a parameter keeps what it has received
        have hnil : g.dag.operands n = [] := operands_eq_nil hp
        have hsame : ∀ m, s₁.grad m = s.grad m := fun m => hne₁ m (by simp [hnil])
        rw [carried_congr fun m _ => hsame m]
        simp [hp, hsingle, hne' n hnot, hsame]
      | false =>
        rw [hcarried₁ dir tan ns ht hnodup.1 hops hp]
        simp [hp, carried]

end

/-! ## Reverse passes -/

section
variable [Scalar K] [Arith E] [Laned K E] {g g₁ g₂ : Graph K E} {root : Node}

/-- A parameter keeps its value in a reset and an evaluation. -/
theorem Evaluated.value_parameter_of_cleared {order : List Node}
    (h : Evaluated g₁ g₂ (g₁.missing root)) (hc : Cleared g g₁ order) {n : Node} (hlt : n < g.size)
    (hp : g.isParameter n = true) : g₂.value n = g.value n := by
  have hp₁ : g₁.isParameter n = true := by rwa [isParameter, hc.op]
  exact (h.value_parameter hp₁).trans (hc.value hlt)

/-- After a reset and an evaluation all gradients are zero. -/
theorem Evaluated.grad_eq_zeros (h : Evaluated g₁ g₂ (g₁.missing root))
    (hc : Cleared g g₁ (g.order root)) (hfit : g.GradsFit) (hroot : root < g.size) {n : Node}
    (hn : g.dag.Below root n) : g₂.grad n = .zeros (g₂.value n).rows (g₂.value n).cols := by
  by_cases hm : n ∈ g₁.missing root
  · obtain ⟨_, v, mask, -, -, hcell⟩ := h.new n hm
    rw [Graph.grad, Graph.value, hcell]
    rfl
  · have hlt : n < g.size := hn.le.trans_lt hroot
    have hroot₁ : root < g₁.size := by rwa [Graph.size, hc.dag]
    have hu := hc.unevaluated hroot
    have hv := (hu.consistent.hasValue_or_mem hroot₁ (hc.dag ▸ hn)).resolve_right hm
    have hp : g.isParameter n = true := by
      have hp := hu.isParameter (hc.dag ▸ hn) hv
      rwa [isParameter, hc.op] at hp
    obtain ⟨hrows, hcols⟩ := Prod.mk.inj (hfit n hp)
    have hgrad : g₂.grad n = (g.grad n).fill 0 := by
      rw [Graph.grad, h.old n hm]
      exact hc.grad hlt ((mem_order hroot).2 hn)
    rw [hgrad, h.value_parameter_of_cleared hc hlt hp, Matrix.fill_zero_eq_zeros, hrows, hcols]

end

section
variable [Exact E] {g : Graph K E} {root : Node}

/-- The seed is carried by the root alone, and is the sum of its tangent. -/
theorem exists_seed (hroot : root < g.size)
    (hzero : ∀ n ∈ g.order root, g.grad n = .zeros (g.value n).rows (g.value n).cols) :
    ∃ s, (Graph.seed root).run g = .ok () s ∧ Regraded g s (g.order root) ∧
      ∀ dir tan, Tangents g dir (g.order root) tan →
        s.carried tan (g.order root) = (tan root).sum := by
  have hmem : root ∈ g.order root := (mem_order hroot).2 (.refl _ _)
  have hself : Regraded g g (g.order root) :=
    ⟨rfl, fun _ => rfl, fun _ => rfl, fun n hn => by rw [hzero n hn]; rfl⟩
  obtain ⟨h, hgrad, hne⟩ := hself.update hroot
    (f := fun c => { c with grad := c.value.fill 1 }) (m := (g.value root).fill 1) rfl rfl
  refine ⟨g.update root fun c => { c with grad := c.value.fill 1 }, rfl, h, fun dir tan ht => ?_⟩
  have hnodup : (g.order root).Nodup := Dag.nodup_traverse root
  have hstart : g.carried tan (g.order root) = 0 := by
    refine List.sum_eq_zero fun e he => ?_
    obtain ⟨n, hn, rfl⟩ := List.mem_map.1 he
    rw [hzero n hn, Matrix.pairing_zeros]
  have hadd : Matrix.pairing ((g.value root).fill 1) (tan root) =
      Matrix.pairing (g.grad root) (tan root) + (tan root).sum := by
    rw [hzero root hmem, Matrix.pairing_zeros, zero_add]
    exact Matrix.pairing_fill_one (ht.shape root hmem).symm
  rw [carried_add hne (by rw [hgrad]; exact hadd) hnodup hmem, hstart, zero_add]

/-- **A reverse pass that starts from no gradients** gives those that pair with the
directions of the parameters as the tangent of the root. -/
theorem Ready.reverse (hr : g.Ready root) (hroot : root < g.size)
    (hk : ∀ n, g.dag.Below root n → g.kind n ∈ Kind.tangible)
    (hzero : ∀ n ∈ g.order root, g.grad n = .zeros (g.value n).rows (g.value n).cols) :
    ∃ s, (do seed root; (g.order root).reverse.forM propagate : Step (Graph K E) Unit).run g =
        .ok () s ∧ Regraded g s (g.order root) ∧
      ∀ dir : Node → Matrix E,
        (∀ p, g.dag.Below root p → g.isParameter p = true → (dir p).shape = (g.value p).shape) →
        ∃ t, g.tangent dir root = .ok t ∧
          (((g.order root).filter g.isParameter).map fun p =>
            Matrix.pairing (s.grad p) (dir p)).sum = t.sum := by
  have hbelow : ∀ n ∈ g.order root, g.dag.Below root n := fun n => (mem_order hroot).1
  obtain ⟨s₁, hseed, h₁, hstart⟩ := exists_seed hroot hzero
  obtain ⟨s, hsweep, h, -, hend⟩ := h₁.sweep (fun n hn => (hbelow n hn).le.trans_lt hroot)
    (fun n hn => hr.settled n (hbelow n hn)) (fun n hn => hk n (hbelow n hn)) (g.order root)
    (fun _ h => h) (ordered_order g root) (Dag.nodup_traverse root)
  refine ⟨s, ?_, h, fun dir hdir => ?_⟩
  · rw [EStateM.run_bind, hseed]
    exact hsweep
  · obtain ⟨tan, htan, hroot_tan⟩ := exists_tangents hroot hr hk hdir
    refine ⟨tan root, hroot_tan root ((mem_order hroot).2 (.refl _ _)), ?_⟩
    rw [← hstart dir tan htan, ← hend dir tan htan, carried]
    refine congrArg List.sum (List.map_congr_left fun p hp => ?_)
    obtain ⟨hmem, hp⟩ := List.mem_filter.1 hp
    -- a parameter moves in its own direction
    have hrule := htan.rule p hmem
    rw [tangentRule, op_eq_parameter hp] at hrule
    rw [Except.ok.inj hrule]

end

end Graph

section
variable [Scalar K] [Exact E] [Laned K E]

/-- **A reverse pass computes the transpose of the tangents.**  Let `g` be left by any
calls, and let the vertices below `root` have tangents.  If after a reset the root
can be evaluated, then a reset and a reverse pass succeed.  Whatever directions
the parameters move in, the root has a tangent `t`, and the gradients of all
parameters paired with their directions add up to the sum of `t`. -/
theorem Reachable.adjoint {g : Graph K E} (hg : Reachable g) {root : Node} (hroot : root < g.size)
    (hk : ∀ n, g.dag.Below root n → g.kind n ∈ Kind.tangible)
    (hev : (Graph.evaluate root).answer ((Graph.reset (g.order root)).final g) = .ok ()) :
    ∃ g', (do Graph.reset (g.order root); Graph.reversePass root : Step (Graph K E) Unit).run g =
        .ok () g' ∧
      (∀ n ∈ g.order root, (g'.grad n).shape = (g'.value n).shape) ∧
      ∀ dir : Node → Matrix E,
        (∀ p ∈ g.order root, g.isParameter p = true → (dir p).shape = (g.value p).shape) →
        ∃ t, g'.tangent dir root = .ok t ∧
          (((g.order root).filter g.isParameter).map fun p =>
            Matrix.pairing (g'.grad p) (dir p)).sum = t.sum := by
  obtain ⟨g₁, hr₁, hc⟩ := Graph.reset_run g (g.order root)
  rw [Step.final_of_run_ok hr₁] at hev
  have hroot₁ : root < g₁.size := by rwa [Graph.size, hc.dag]
  rcases Graph.evaluate_cases g₁ root with
    ⟨g₂, hr₂, he, -⟩ | ⟨_, _, _, e, g₂, -, -, -, -, hr₂⟩
  swap
  · rw [Step.answer_of_run_error hr₂] at hev
    cases hev
  have hready := he.ready hroot₁ (hc.unevaluated hroot).consistent
  have hdag : g₂.dag = g.dag := he.dag.trans hc.dag
  have hop : ∀ n, g₂.op n = g.op n := fun n => (he.op n).trans (hc.op n)
  have hroot₂ : root < g₂.size := by rwa [Graph.size, hdag]
  have horder : g₂.order root = g.order root := by rw [Graph.order, Graph.order, hdag]
  have hparameter : g₂.isParameter = g.isParameter := funext fun n => congrArg _ (hop n)
  have hk₂ : ∀ n, g₂.dag.Below root n → g₂.kind n ∈ Kind.tangible := fun n hn => by
    rw [Graph.kind, hop]
    exact hk n (hdag ▸ hn)
  obtain ⟨g', hrun, h, hpaired⟩ := hready.reverse hroot₂ hk₂ fun n hn =>
    he.grad_eq_zeros hc hg.gradsFit hroot (hdag ▸ (Graph.mem_order hroot₂).1 hn)
  rw [horder] at hrun h hpaired
  refine ⟨g', ?_, fun n hn => ?_, fun dir hdir => ?_⟩
  · have horder₁ : g₁.order root = g.order root := by rw [Graph.order, Graph.order, hc.dag]
    rw [EStateM.run_bind, hr₁]
    refine (Graph.run_reversePass hr₂).trans ?_
    rwa [horder₁]
  · rw [h.value]
    exact h.shape n hn
  · have hdir₂ : ∀ p, g₂.dag.Below root p → g₂.isParameter p = true →
        (dir p).shape = (g₂.value p).shape := by
      intro p hb hp
      rw [hparameter] at hp
      rw [he.value_parameter_of_cleared hc (hb.le.trans_lt hroot) hp]
      exact hdir p ((Graph.mem_order hroot).2 (hdag ▸ hb)) hp
    obtain ⟨t, ht, hsum⟩ := hpaired dir hdir₂
    rw [hparameter] at hsum
    exact ⟨t, (h.tangent dir root).trans ht, hsum⟩

end

/-- The square of three, and three added to it. -/
def Graph.shared : Graph ℚ ℚ :=
  Call.runs [.parameter (.scalar 3), .record (.mul 0 0), .record (.add 1 0)]
    (.empty 0 ⟨fun _ => 0, fun _ => 0⟩)

theorem Graph.order_shared : shared.order 2 = [0, 1, 2] := by
  have hsize : shared.dag.size = 3 := by decide +kernel
  have hops : shared.dag.operands 2 = [1, 0] ∧ shared.dag.operands 1 = [0, 0] ∧
      shared.dag.operands 0 = [] := by decide +kernel
  simp [order, Dag.traverse, Dag.visit, hsize, hops]

theorem Graph.evaluate_shared :
    (evaluate 2).answer ((reset (shared.order 2)).final shared) = .ok () := by
  rw [order_shared]
  have hsize : ((reset [0, 1, 2]).final shared).dag.size = 3 := by decide +kernel
  have hops : ((reset [0, 1, 2]).final shared).dag.operands 2 = [1, 0] ∧
      ((reset [0, 1, 2]).final shared).dag.operands 1 = [0, 0] := by decide +kernel
  have hv : ((reset [0, 1, 2]).final shared).hasValue 2 = false ∧
      ((reset [0, 1, 2]).final shared).hasValue 1 = false ∧
      ((reset [0, 1, 2]).final shared).hasValue 0 = true := by decide +kernel
  have hmissing : ((reset [0, 1, 2]).final shared).missing 2 = [1, 2] := by
    simp [missing, Dag.traverse, Dag.visit, hsize, hops, hv]
  rw [Step.answer, evaluate, EStateM.run_bind, EStateM.run_get]
  simp only [hmissing]
  decide +kernel

theorem Reachable.adjoint_shared :
    ∃ g', (do Graph.reset (Graph.shared.order 2); Graph.reversePass 2 : Step (Graph ℚ ℚ) Unit).run
        Graph.shared = .ok () g' ∧
      ∃ t, g'.tangent (fun _ => .scalar 1) 2 = .ok t ∧
        Matrix.pairing (g'.grad 0) (.scalar 1) = t.sum := by
  have hg : Reachable Graph.shared := (Reachable.empty 0 _).runs _
  have hroot : 2 < Graph.shared.size := by decide +kernel
  have hk : ∀ n ≤ 2, Graph.shared.kind n ∈ Kind.tangible := by decide +kernel
  obtain ⟨g', hr, -, h⟩ := hg.adjoint hroot (fun n hn => hk n hn.le) Graph.evaluate_shared
  refine ⟨g', hr, ?_⟩
  have hparameters : (Graph.shared.order 2).filter Graph.shared.isParameter = [0] := by
    rw [Graph.order_shared]
    decide +kernel
  obtain ⟨t, ht, hsum⟩ := h (fun _ => .scalar 1) fun p hp hpp => by
    have hp' : p ∈ [0] := hparameters ▸ List.mem_filter.2 ⟨hp, hpp⟩
    rw [List.mem_singleton.1 hp']
    rfl
  rw [hparameters] at hsum
  exact ⟨t, ht, by simpa using hsum⟩

end DiffGraph
