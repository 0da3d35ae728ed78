/-
  The same pass in two places.

  A graph that stands in two places under different names, over parameters of the same
  values, is evaluated alike in both.

  * `Mirrors`: below two roots stand the same values, masks and gradients, up to names.
    A reverse pass keeps this (`Mirrors.sweep`);
  * `Evaluated.mirrors`: an evaluation after a reset leads to it;
  * `Learnable.grad_of_renamed`: the gradients of an example are the same in both places,
    whatever was done before.
-/
import DiffGraph.Proofs.Denotation
import DiffGraph.Proofs.Kernels
import DiffGraph.Proofs.Learning
import DiffGraph.Proofs.Renaming

namespace DiffGraph

variable {K E : Type}

namespace Op

section
variable [Arith E]

theorem value_rename (f : Node → Node) (op : Op K) (own mask : Matrix E) (val : Node → Matrix E) :
    (op.rename f).value own mask val = op.value own mask fun c => val (f c) := by
  cases op with
  | flatten members => rw [rename, value, value, List.map_map]; rfl
  | _ => rfl

omit [Arith E] in
theorem stretches_rename (f : Node → Node) (val : Node → Matrix E) (terms : Matrix E) (start : Nat)
    (members : List Node) :
    stretches val terms start (members.map f) =
      (stretches (fun c => val (f c)) terms start members).map fun p => (f p.1, p.2) := by
  induction members generalizing start with
  | nil => rfl
  | cons l ls ih => rw [List.map_cons, stretches, stretches, List.map_cons, ih]

/-- A renamed operation adds the same to the renamed operands. -/
theorem pushes_rename (f : Node → Node) (op : Op K) (own mask grad : Matrix E)
    (val : Node → Matrix E) :
    (op.rename f).pushes own mask grad val =
      (op.pushes own mask grad fun c => val (f c)).map (List.map fun p => (f p.1, p.2)) := by
  cases op with
  | flatten members =>
    rw [rename, pushes, pushes, stretches_rename]
    rfl
  | parameter | add l r | neg l | slice rect l => rfl
  | mul l r | div l r | dot l r | func u l | max l r | sum l | convolution size input kernel bias
  | maxPool size l | dropout rate l | logSoftmax l =>
    simp only [rename, pushes, map_bind]
    rfl

end

theorem freshMask_rename [Scalar K] [Laned K E] (f : Node → Node) (op : Op K) (draw : Nat → K)
    (val : Node → Matrix E) :
    (op.rename f).freshMask draw val = op.freshMask draw fun c => val (f c) := by
  cases op <;> rfl

theorem keeps_rename [Scalar K] (f : Node → Node) (op : Op K) : (op.rename f).Keeps ↔ op.Keeps := by
  cases op <;> rfl

theorem sound_rename [Scalar K] (f : Node → Node) (op : Op K) : (op.rename f).Sound ↔ op.Sound := by
  cases op <;> rfl

theorem accepts_rename (f : Node → Node) (op : Op K) (mask : Shape) (s : Node → Shape) :
    (op.rename f).Accepts mask s ↔ op.Accepts mask fun c => s (f c) := by
  cases op <;> rfl

theorem evaluable_rename [Scalar K] (f : Node → Node) (op : Op K) (s : Node → Shape) :
    (op.rename f).Evaluable s ↔ op.Evaluable fun c => s (f c) := by
  rw [Evaluable, Evaluable, sound_rename, accepts_rename, shape_rename]

end Op

namespace Graph

section
variable {s t : Graph K E} {root root' n : Node} {f : Node → Node}

/-- Vertices that stand for each other have the same shape, if the parameters have. -/
theorem shapes_of_renamed (hr : s.dag.Renamed t.dag root root' f)
    (hs : ∀ n, s.dag.Below root n → s.isParameter n = true →
      (t.value (f n)).shape = (s.value n).shape) :
    s.dag.Below root n → t.shapes (f n) = s.shapes n := by
  induction n using Nat.strong_induction_on with
  | _ n ih =>
    intro hb
    have hop : t.op (f n) = (s.op n).rename f := hr.op n hb
    have hoperands : ∀ c ∈ (s.op n).operands, t.shapes (f c) = s.shapes c := fun c hc =>
      ih c (s.dag.operands_lt_self hc) (hb.operand hc)
    rw [shapes_eq, shapes_eq, hop, Op.shape_rename, Op.shape_congr _ hoperands]
    cases hp : s.isParameter n with
    | true => rw [hs n hb hp]
    | false => exact Op.shape_own hp _ _ _

/-- A root can be evaluated under other names. -/
theorem Evaluable.of_renamed [Scalar K] (h : s.Evaluable root)
    (hr : s.dag.Renamed t.dag root root' f)
    (hs : ∀ n, s.dag.Below root n → s.isParameter n = true →
      (t.value (f n)).shape = (s.value n).shape) : t.Evaluable root' := by
  intro m hm
  obtain ⟨n, hb, rfl⟩ := hr.exists_of_below hm
  have hop : t.op (f n) = (s.op n).rename f := hr.op n hb
  rw [hop, Op.evaluable_rename, Op.evaluable_congr (t := s.shapes)]
  · exact h n hb
  · exact fun c hc => shapes_of_renamed hr hs (hb.operand hc)

/-- A root that drops no entries does not under other names. -/
theorem Keeps.of_renamed [Scalar K] (h : s.Keeps root) (hr : s.dag.Renamed t.dag root root' f) :
    t.Keeps root' := by
  intro m hm
  obtain ⟨n, hb, rfl⟩ := hr.exists_of_below hm
  have hop : t.op (f n) = (s.op n).rename f := hr.op n hb
  rw [hop, Op.keeps_rename]
  exact h n hb

end

/-- Below `root` in `s` stand the operations of `d`, and below `root'` in `t` the same ones
under the names `f`, with the same values, masks and gradients. -/
structure Mirrors (d : Dag K) (root root' : Node) (f : Node → Node) (s t : Graph K E) : Prop where
  dag : s.dag = d
  renamed : d.Renamed t.dag root root' f
  lt : root < d.size
  lt' : root' < t.size
  value : ∀ n, d.Below root n → t.value (f n) = s.value n
  mask : ∀ n, d.Below root n → (d.op n).isParameter = false →
    (t.cell (f n)).mask = (s.cell n).mask
  grad : ∀ n, d.Below root n → t.grad (f n) = s.grad n

namespace Mirrors

variable {d : Dag K} {root root' n : Node} {f : Node → Node} {s t : Graph K E}

theorem op (h : Mirrors d root root' f s t) (hn : d.Below root n) :
    t.op (f n) = (d.op n).rename f := h.renamed.op n hn

/-- The same gradient for a vertex in both places. -/
theorem update (h : Mirrors d root root' f s t) (hn : d.Below root n) (grad : Matrix E) :
    Mirrors d root root' f (s.update n fun c => { c with grad := grad })
      (t.update (f n) fun c => { c with grad := grad }) := by
  have hs : n < s.size := hn.le.trans_lt (h.lt.trans_eq (congrArg Dag.size h.dag.symm))
  have ht : f n < t.size := (h.renamed.below hn).le.trans_lt h.lt'
  have hcells : ∀ m, d.Below root m →
      (s.update n fun c => { c with grad := grad }).cell m =
        (if m = n then { s.cell n with grad := grad } else s.cell m) ∧
      (t.update (f n) fun c => { c with grad := grad }).cell (f m) =
        (if m = n then { t.cell (f n) with grad := grad } else t.cell (f m)) := by
    intro m hm
    have hiff : f m = f n ↔ m = n := h.renamed.injective.eq_iff hm hn
    rw [cell_update, cell_update]
    simp [hs, ht, hiff]
  exact
    { dag := h.dag
      renamed := h.renamed
      lt := h.lt
      lt' := h.lt'
      value := by
        intro m hm
        rw [Graph.value, Graph.value, (hcells m hm).1, (hcells m hm).2]
        split
        · exact h.value n hn
        · exact h.value m hm
      mask := by
        intro m hm hp
        rw [(hcells m hm).1, (hcells m hm).2]
        split
        · next hmn => exact h.mask n hn (hmn ▸ hp)
        · exact h.mask m hm hp
      grad := by
        intro m hm
        rw [Graph.grad, Graph.grad, (hcells m hm).1, (hcells m hm).2]
        split
        · rfl
        · exact h.grad m hm }

section
variable [Arith E]

theorem receive (h : Mirrors d root root' f s t) (hn : d.Below root n) (p : Push E) :
    Alike (fun _ _ => True) (Mirrors d root root' f) ((receive n p).run s)
      ((receive (f n) p).run t) := by
  have hrun : ∀ (g : Graph K E) (m : Node), (Graph.receive m p).run g =
      (Step.ofExcept (p.apply (g.grad m)) >>= fun grad =>
        (set (g.update m fun c => { c with grad := grad }) : Step (Graph K E) Unit)).run g :=
    fun _ _ => rfl
  rw [hrun, hrun, h.grad n hn]
  exact .ofExcept_bind h fun grad _ => .ok trivial (h.update hn grad)

/-- What a vertex adds to the gradients of its operands is the same in both places. -/
theorem pushes (h : Mirrors d root root' f s t) (hn : d.Below root n) :
    t.pushes (f n) = (s.pushes n).map (List.map fun p => (f p.1, p.2)) := by
  have hop : s.op n = d.op n := by rw [Graph.op, h.dag]
  have hval : ∀ c ∈ (d.op n).operands, t.value (f c) = s.value c := fun c hc =>
    h.value c (hn.operand hc)
  have hown : (t.cell (f n)).value = (s.cell n).value := h.value n hn
  have hgrad : (t.cell (f n)).grad = (s.cell n).grad := h.grad n hn
  unfold Graph.pushes
  simp only [h.op hn, hop, Op.pushes_rename, hown, hgrad, Op.pushes_congr hval]
  cases hp : (d.op n).isParameter with
  | true => rw [← hop] at hp ⊢; rw [op_eq_parameter hp]; rfl
  | false => rw [h.mask n hn hp]

theorem propagate (h : Mirrors d root root' f s t) (hn : d.Below root n) :
    Alike (fun _ _ => True) (Mirrors d root root' f) ((propagate n).run s)
      ((propagate (f n)).run t) := by
  have hrun : ∀ (g : Graph K E) (m : Node), (Graph.propagate m).run g =
      (Step.ofExcept (g.pushes m) >>= fun ps => ps.forM fun x => Graph.receive x.1 x.2).run g :=
    fun _ _ => rfl
  rw [hrun, hrun]
  refine .ofExcept_map_bind (h.pushes hn) h fun ps hps =>
    .forM_map (fun x hx s' t' h' => h'.receive ?_ x.2) h
  have hmem : x.1 ∈ (s.op n).operands := by
    rw [← Op.map_fst_pushes hps]
    exact List.mem_map_of_mem hx
  rw [Graph.op, h.dag] at hmem
  exact hn.operand hmem

theorem seed (h : Mirrors d root root' f s t) :
    Alike (fun _ _ => True) (Mirrors d root root' f) ((seed root).run s) ((seed root').run t) := by
  have hroot : d.Below root root := Dag.Below.refl d root
  have hrun : ∀ (g : Graph K E) (m : Node), g.value m = s.value root → (Graph.seed m).run g =
      .ok () (g.update m fun c => { c with grad := (s.value root).fill 1 }) := by
    intro g m hg
    rw [← hg]
    exact congrArg (EStateM.Result.ok ()) (update_congr g rfl)
  have hvalue : t.value root' = s.value root := by
    rw [← h.renamed.map_root]
    exact h.value root hroot
  have hupdate := h.update hroot ((s.value root).fill 1)
  rw [h.renamed.map_root] at hupdate
  rw [hrun s root rfl, hrun t root' hvalue]
  exact .ok trivial hupdate

/-- **A reverse pass is the same in both places**, from the evaluation on. -/
theorem sweep (h : Mirrors d root root' f s t) {order : List Node}
    (ho : ∀ n ∈ order, d.Below root n) :
    Alike (fun _ _ => True) (Mirrors d root root' f)
      ((do Graph.seed root; order.reverse.forM Graph.propagate : Step (Graph K E) Unit).run s)
      ((do Graph.seed root'; (order.map f).reverse.forM Graph.propagate :
        Step (Graph K E) Unit).run t) := by
  refine h.seed.bind fun _ _ s' t' _ h' => ?_
  rw [← List.map_reverse]
  exact .forM_map (fun n hn s t h => h.propagate (ho n (List.mem_reverse.1 hn))) h'

end

end Mirrors

/-! ## Evaluations -/

section
variable [Scalar K] [Arith E] [Laned K E] {g g' s s' t t' : Graph K E} {root root' : Node}
  {f : Node → Node} {x y : Example E}

/-- A vertex is evaluated to the same in both places, if its operands have the same
values. -/
theorem Evaluated.new_of_renamed {done done' : List Node} {n n' : Node} (hs : Evaluated s s' done)
    (ht : Evaluated t t' done') (hn : n ∈ done) (hn' : n' ∈ done')
    (hop : t.op n' = (s.op n).rename f) (hp : s.isParameter n = false) (hk : (s.op n).Keeps)
    (hns : s.noise.Nonneg) (hnt : t.noise.Nonneg)
    (hval : ∀ c ∈ (s.op n).operands, t'.value (f c) = s'.value c) :
    t'.value n' = s'.value n ∧ t'.grad n' = s'.grad n ∧
      (t'.cell n').mask = (s'.cell n).mask := by
  obtain ⟨first, v, mask, hmask, hv, hcell⟩ := hs.new n hn
  obtain ⟨first', v', mask', hmask', hv', hcell'⟩ := ht.new n' hn'
  have hdraw : mask' = mask := by
    rw [hop, Op.freshMask_rename, Op.freshMask_congr hval,
      Op.freshMask_of_keeps hk hnt hns] at hmask'
    rw [Op.freshMask_of_keeps hk hns hns] at hmask
    exact Except.ok.inj (hmask'.symm.trans hmask)
  have heq : v' = v := by
    rw [hop, Op.value_rename, Op.value_congr hval, hdraw, Op.value_own hp _ (s.value n)] at hv'
    exact Except.ok.inj (hv'.symm.trans hv)
  rw [Graph.value, Graph.value, Graph.grad, Graph.grad, hcell, hcell', hdraw, heq]
  exact ⟨rfl, rfl, rfl⟩

/-- **What evaluations after a reset leave is the same in both places**, if the parameters
are the same. -/
theorem Evaluated.mirrors (hs : Evaluated s s' (s.missing root)) (hus : s.Unevaluated root)
    (hroot : root < s.size) (ht : Evaluated t t' (t.missing root')) (hut : t.Unevaluated root')
    (hroot' : root' < t.size) (hr : s.dag.Renamed t.dag root root' f) (hk : s.Keeps root)
    (hns : s.noise.Nonneg) (hnt : t.noise.Nonneg)
    (hvalue : ∀ n, s.dag.Below root n → s.isParameter n = true → t.value (f n) = s.value n)
    (hgrad : ∀ n, s.dag.Below root n → s.isParameter n = true → t.grad (f n) = s.grad n) :
    Mirrors s.dag root root' f s' t' := by
  have hall : ∀ n, s.dag.Below root n → t'.value (f n) = s'.value n ∧
      t'.grad (f n) = s'.grad n ∧
      (s.isParameter n = false → (t'.cell (f n)).mask = (s'.cell n).mask) := by
    intro n
    induction n using Nat.strong_induction_on with
    | _ n ih =>
      intro hb
      have hpf : t.isParameter (f n) = s.isParameter n := isParameter_of_renamed hr hb
      cases hp : s.isParameter n with
      | true =>
        have hcs := hs.cell_of_hasValue (List.append_nil _).symm (hasValue_of_isParameter hp)
        have hct := ht.cell_of_hasValue (List.append_nil _).symm
          (hasValue_of_isParameter (hpf.trans hp))
        refine ⟨?_, ?_, fun h => by cases h⟩
        · rw [Graph.value, Graph.value, hcs, hct]
          exact hvalue n hb hp
        · rw [Graph.grad, Graph.grad, hcs, hct]
          exact hgrad n hb hp
      | false =>
        obtain ⟨hv, hg, hm⟩ := hs.new_of_renamed ht (hus.mem_missing hroot hb hp)
          (hut.mem_missing hroot' (hr.below hb) (hpf.trans hp)) (hr.op n hb) hp (hk n hb) hns hnt
          fun c hc => (ih c (s.dag.operands_lt_self hc) (hb.operand hc)).1
        exact ⟨hv, hg, fun _ => hm⟩
  exact
    { dag := hs.dag
      renamed := by rw [ht.dag]; exact hr
      lt := hroot
      lt' := hroot'.trans_eq (size_of_dag ht.dag).symm
      value := fun n hb => (hall n hb).1
      mask := fun n hb => (hall n hb).2.2
      grad := fun n hb => (hall n hb).2.1 }

omit [Arith E] [Laned K E] in
/-- A parameter stores everything in the shape of its value. -/
theorem Learnable.full (h : g.Learnable root) {n : Node} (hn : n < g.size)
    (hp : g.isParameter n = true) : (g.cell n).Full (g.value n).shape := by
  obtain ⟨ever, hs⟩ := h.shaped
  have hfull := (hs.vertex n (.inr ⟨hn, hasValue_of_isParameter hp⟩)).full
  rwa [shapes_parameter hp] at hfull

namespace Passed

variable {g₁ g₂ g₃ : Graph K E} {n : Node}

theorem dag_cleared (h : Passed g g₁ g₂ g₃ g' root x) : g₂.dag = g.dag :=
  h.cleared.dag.trans h.fed.beside.dag

theorem noise_cleared (h : Passed g g₁ g₂ g₃ g' root x) : g₂.noise = g.noise :=
  h.cleared.noise.trans h.fed.beside.noise

theorem value_cleared (h : Passed g g₁ g₂ g₃ g' root x) (hn : n < g.size) :
    g₂.value n = x.written n (g.value n) := by
  rw [h.cleared.value (hn.trans_eq (size_of_dag h.fed.beside.dag).symm), h.fed.value hn]

/-- The gradients that a pass starts from are zero. -/
theorem grad_cleared (h : Passed g g₁ g₂ g₃ g' root x) (hroot : root < g.size)
    (hn : g.dag.Below root n) : g₂.grad n = .zeros (g.grad n).rows (g.grad n).cols := by
  have hlt : n < g.size := hn.le.trans_lt hroot
  rw [h.cleared.grad (hlt.trans_eq (size_of_dag h.fed.beside.dag).symm) ((mem_order hroot).2 hn),
    Matrix.fill_zero_eq_zeros, Graph.grad, h.fed.cell n hlt]
  rfl

theorem unevaluated (h : Passed g g₁ g₂ g₃ g' root x) (hroot : root < g.size) :
    g₂.Unevaluated root := by
  have hc := h.cleared
  rw [← order_of_dag h.fed.beside.dag root] at hc
  exact hc.unevaluated (hroot.trans_eq (size_of_dag h.fed.beside.dag).symm)

end Passed

/-- **The gradients of an example are the same in both places**, whatever was done before,
if the parameters have the same values once the example is written. -/
theorem Learnable.grad_of_renamed (hs : s.Learnable root) (ht : t.Learnable root')
    (hx : x.Fits s) (hy : y.Fits t) (hr : s.dag.Renamed t.dag root root' f) (hk : s.Keeps root)
    (hns : s.noise.Nonneg) (hnt : t.noise.Nonneg)
    (hvalue : ∀ n, s.dag.Below root n → s.isParameter n = true →
      y.written (f n) (t.value (f n)) = x.written n (s.value n))
    {n : Node} (hn : s.dag.Below root n) :
    ((pass root' (t.order root') y).final t).grad (f n) =
      ((pass root (s.order root) x).final s).grad n := by
  obtain ⟨s₁, s₂, s₃, s', hrs, hps, -⟩ := hs.run_pass hx
  obtain ⟨t₁, t₂, t₃, t', hrt, hpt, -⟩ := ht.run_pass hy
  rw [Step.final_of_run_ok hrs, Step.final_of_run_ok hrt]
  have hroot₂ : root < s₂.size := hs.lt.trans_eq (size_of_dag hps.dag_cleared).symm
  have hroot₂' : root' < t₂.size := ht.lt.trans_eq (size_of_dag hpt.dag_cleared).symm
  -- the gradients that the passes start from have the shapes of the values
  have hshape : ∀ n, s.dag.Below root n → s.isParameter n = true →
      (t.grad (f n)).shape = (s.grad n).shape := by
    intro n hb hp
    have hlt : n < s.size := hb.le.trans_lt hs.lt
    have hlt' : f n < t.size := (hr.below hb).le.trans_lt ht.lt
    have hv := congrArg Matrix.shape (hvalue n hb hp)
    rw [hy.shape_written, hx.shape_written] at hv
    have hp' : t.isParameter (f n) = true := (isParameter_of_renamed hr hb).trans hp
    exact (ht.full hlt' hp').grad.trans (hv.trans (hs.full hlt hp).grad.symm)
  have hmirrors : Mirrors s₂.dag root root' f s₃ t₃ := by
    refine hps.evaluated.mirrors (hps.unevaluated hs.lt) hroot₂ hpt.evaluated
      (hpt.unevaluated ht.lt) hroot₂' ?_ ?_ ?_ ?_ ?_ ?_
    · rw [hps.dag_cleared, hpt.dag_cleared]
      exact hr
    · intro m hb
      rw [hps.dag_cleared] at hb
      rw [op_of_dag hps.dag_cleared]
      exact hk m hb
    · rw [hps.noise_cleared]
      exact hns
    · rw [hpt.noise_cleared]
      exact hnt
    · intro m hb hp
      rw [hps.dag_cleared] at hb
      rw [isParameter_of_dag hps.dag_cleared] at hp
      rw [hps.value_cleared (hb.le.trans_lt hs.lt),
        hpt.value_cleared ((hr.below hb).le.trans_lt ht.lt)]
      exact hvalue m hb hp
    · intro m hb hp
      rw [hps.dag_cleared] at hb
      rw [isParameter_of_dag hps.dag_cleared] at hp
      obtain ⟨hrows, hcols⟩ := Prod.mk.inj (hshape m hb hp)
      rw [hps.grad_cleared hs.lt hb, hpt.grad_cleared ht.lt (hr.below hb), hrows, hcols]
  have hbelow : ∀ m ∈ s.order root, s₂.dag.Below root m := by
    intro m hm
    rw [hps.dag_cleared]
    exact (mem_order hs.lt).1 hm
  have hsweep := (hmirrors.sweep hbelow).final
  rw [← order_of_renamed hr hs.lt ht.lt, Step.final_of_run_ok hps.swept,
    Step.final_of_run_ok hpt.swept] at hsweep
  exact hsweep.grad n (hps.dag_cleared.symm ▸ hn)

end

end Graph

end DiffGraph
