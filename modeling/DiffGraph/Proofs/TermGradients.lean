/-
  Gradients of expressions.

  * `Term.tangent`: how the value of a term changes, to first order, when its leaves do;
  * `Graph.Shadow`: a graph with the images of the cells of another one.  Reverse passes keep
    to the image (`Shadow.sweep`), so elements that are made of exact lanes are treated lane
    by lane;
  * `Graph.Prepared`: a root whose values were computed anew (`exists_prepared`);
  * `Spells.tangent`: the tangent of a vertex that was built for a term is that of the term.

  So a reverse pass gives each leaf the derivative of the term (`Spells.run_backward`), however
  often the leaf occurs.
-/
import DiffGraph.Proofs.Adjoint
import DiffGraph.Proofs.BlockTerms
import DiffGraph.Proofs.LaneGraphs

namespace DiffGraph

open Finset Relation

variable {K E F : Type}

namespace Term

/-- How the value changes, to first order, when the vertices change by `dx`. -/
def tangent [Exact F] (x dx : Node → F) : Term → F
  | leaf n => dx n
  | neg t => -t.tangent x dx
  | func f t => f.derivative (t.value x) * t.tangent x dx
  | add l r => l.tangent x dx + r.tangent x dx
  | mul l r => l.tangent x dx * r.value x + l.value x * r.tangent x dx
  | max l r => Arith.ltMask (r.value x) (l.value x) * l.tangent x dx +
      (1 - Arith.ltMask (r.value x) (l.value x)) * r.tangent x dx

theorem tangent_sub [Exact F] (x dx : Node → F) (l r : Term) :
    (l.sub r).tangent x dx = l.tangent x dx - r.tangent x dx :=
  (sub_eq_add_neg _ _).symm

theorem tangent_chain [Exact F] (x dx : Node → F) (t : Term) (ts : List Term) :
    (t.chain ts).tangent x dx = ((t :: ts).map (tangent x dx)).sum := by
  induction ts generalizing t with
  | nil => simp [chain]
  | cons u us ih =>
    have hstep : (t.chain (u :: us)) = (t.add u).chain us := rfl
    rw [hstep, ih]
    simp [tangent, add_assoc]

theorem value_congr [Arith E] {x y : Node → E} {t : Term} (h : ∀ n ∈ t.leaves, x n = y n) :
    t.value x = t.value y := by
  induction t with
  | leaf n => exact h n (List.mem_singleton_self n)
  | neg t ih | func f t ih => rw [value, value, ih h]
  | add l r ihl ihr | mul l r ihl ihr | max l r ihl ihr =>
    obtain ⟨hl, hr⟩ := List.forall_mem_append.1 h
    rw [value, value, ihl hl, ihr hr]

theorem tangent_congr [Exact F] {x y dx : Node → F} {t : Term} (h : ∀ n ∈ t.leaves, x n = y n) :
    t.tangent x dx = t.tangent y dx := by
  induction t with
  | leaf n => rfl
  | neg t ih => rw [tangent, tangent, ih h]
  | func f t ih => rw [tangent, tangent, ih h, value_congr (t := t) h]
  | add l r ihl ihr =>
    obtain ⟨hl, hr⟩ := List.forall_mem_append.1 h
    rw [tangent, tangent, ihl hl, ihr hr]
  | mul l r ihl ihr | max l r ihl ihr =>
    obtain ⟨hl, hr⟩ := List.forall_mem_append.1 h
    rw [tangent, tangent, ihl hl, ihr hr, value_congr hl, value_congr hr]

/-- The value over images is the image of the value. -/
theorem value_map [Arith E] [Arith F] {φ : E → F} (h : Preserves φ) (x : Node → E) (t : Term) :
    φ (t.value x) = t.value (φ ∘ x) := by
  induction t with
  | leaf n => rfl
  | neg t ih => rw [value, value, h.neg, ih]
  | func f t ih => rw [value, value, h.apply, ih]
  | add l r ihl ihr => rw [value, value, h.add, ihl, ihr]
  | mul l r ihl ihr => rw [value, value, h.add, h.zero, h.mul, ihl, ihr]
  | max l r ihl ihr => rw [value, value, h.max, ihl, ihr]

end Term

namespace Graph

/-! ## Images of graphs -/

/-- The second graph has the operations of the first and the images of its cells. -/
structure Shadow (φ : E → F) (s : Graph K E) (t : Graph K F) : Prop where
  dag : t.dag = s.dag
  cell : ∀ n, t.cell n = (s.cell n).map φ

theorem exists_shadow (φ : E → F) (s : Graph K E) : ∃ t : Graph K F, Shadow φ s t := by
  refine ⟨⟨s.tag, s.dag, s.cells.map (Cell.map φ), by simp [s.size_cells], s.noise, s.drawn,
    s.drawnNormal⟩, rfl, fun n => ?_⟩
  rw [cell, cell, Array.getD_eq_getD_getElem?, Array.getD_eq_getD_getElem?, Array.getElem?_map]
  cases s.cells[n]? with
  | none => exact (Cell.map_blank φ).symm
  | some c => rfl

namespace Shadow

variable {φ : E → F} {s : Graph K E} {t : Graph K F} {n root : Node}

theorem op (h : Shadow φ s t) (n : Node) : t.op n = s.op n := by rw [Graph.op, h.dag]; rfl

theorem value (h : Shadow φ s t) : t.value = fun n => (s.value n).map φ := by
  funext n
  rw [Graph.value, h.cell]; rfl

theorem grad (h : Shadow φ s t) (n : Node) : t.grad n = (s.grad n).map φ := by
  rw [Graph.grad, h.cell]; rfl

theorem hasValue (h : Shadow φ s t) (n : Node) : t.hasValue n = s.hasValue n := by
  rw [Graph.hasValue, h.cell, isParameter, h.op]; rfl

/-- The cells of one vertex are replaced by a cell and its image. -/
theorem update (h : Shadow φ s t) {f : Cell E → Cell E} {f' : Cell F → Cell F}
    (hf : f' ((s.cell n).map φ) = (f (s.cell n)).map φ) :
    Shadow φ (s.update n f) (t.update n f') where
  dag := h.dag
  cell m := by
    rw [cell_update, cell_update, Graph.size, h.dag, h.cell, h.cell, hf, apply_ite (Cell.map φ)]
    rfl

variable [Arith E] [Arith F] (hφ : Preserves φ)
include hφ

theorem ready (h : Shadow φ s t) (hr : s.Ready root) : t.Ready root where
  hasValue n hn := by
    rw [h.hasValue]
    exact hr.hasValue n (h.dag ▸ hn)
  settled n hn := by
    have hs : s.Settled n := hr.settled n (h.dag ▸ hn)
    unfold Settled at hs ⊢
    rw [h.op, h.cell, h.value]
    refine (Op.value_map hφ _ _ _ _).trans ?_
    rw [hs]
    rfl

/-- **A reverse pass of a graph is one of its image.** -/
theorem sweep (h : Shadow φ s t) (root : Node) (ns : List Node) :
    Alike (fun _ _ => True) (Shadow φ)
      ((do seed root; ns.forM propagate : Step (Graph K E) Unit).run s)
      ((do seed root; ns.forM propagate : Step (Graph K F) Unit).run t) := by
  have hones : ∀ c : Cell E, (c.map φ).value.fill (1 : F) = (c.value.fill (1 : E)).map φ :=
    fun c => hφ.one ▸ Matrix.fill_map c.value 1
  have hseed : Shadow φ (s.update root fun c => { c with grad := c.value.fill 1 })
      (t.update root fun c => { c with grad := c.value.fill 1 }) := by
    refine h.update ?_
    rw [hones]
    rfl
  have hreceive : ∀ (p : Node × Push E) (s : Graph K E) (t : Graph K F), Shadow φ s t →
      Alike (fun _ _ => True) (Shadow φ) ((receive p.1 p.2).run s)
        ((receive p.1 (p.2.map φ)).run t) := by
    intro p s t hst
    refine Alike.ofExcept_map_bind (u := Matrix.map φ) ?_ hst fun grad _ => .ok trivial ?_
    · rw [hst.grad, Push.apply_map hφ]
    · exact hst.update rfl
  have hpropagate : ∀ n (s : Graph K E) (t : Graph K F), Shadow φ s t →
      Alike (fun _ _ => True) (Shadow φ) ((propagate n).run s) ((propagate n).run t) := by
    intro n s t hst
    refine Alike.ofExcept_map_bind (u := List.map fun p => (p.1, p.2.map φ)) ?_ hst fun ps _ =>
      Alike.forM_map (u := fun p : Node × Push E => (p.1, p.2.map φ)) (fun p _ => hreceive p) hst
    unfold Graph.pushes
    rw [hst.op, hst.cell, hst.value]
    exact Op.pushes_map hφ _ _ _ _ _
  exact Alike.forM (fun n _ => hpropagate n) hseed

end Shadow

/-! ## Passes from a root -/

section
variable [Scalar K] [Arith E] [Laned K E] {g g₁ : Graph K E} {root : Node}

/-- Forgets what was computed below a root, and passes gradients back from it. -/
def backward (root : Node) : Step (Graph K E) Unit := do
  reset ((← get).order root)
  reversePass root

/-- The values below a root were computed anew, and there are no gradients yet. -/
structure Prepared (g g₁ : Graph K E) (root : Node) : Prop where
  edits : Edits [] g g₁
  dag : g₁.dag = g.dag
  ready : g₁.Ready root
  grad : ∀ n, g.dag.Below root n → g₁.grad n = .zeros (g₁.value n).rows (g₁.value n).cols
  parameter : ∀ n < g.size, g.isParameter n = true → g₁.value n = g.value n

/-- **A root that can be evaluated is prepared**, and gradients are then passed back. -/
theorem exists_prepared (hf : ∀ n, g.Fits n) (hfit : g.GradsFit) (hroot : root < g.size)
    (he : g.Evaluable root) :
    ∃ g₁, Prepared g g₁ root ∧ (backward root).run g =
      (do seed root; (g.order root).reverse.forM propagate : Step (Graph K E) Unit).run g₁ := by
  obtain ⟨s, hr, hc⟩ := reset_run g (g.order root)
  have hedits : Edits [] g s := by
    have hleads : ReflTransGen (Edit []) g ((reset (g.order root)).final g) := leads_reset _
    rwa [Step.final_of_run_ok hr] at hleads
  have hroots : root < s.size := by rwa [size_of_dag hc.dag]
  obtain ⟨g₁, hr₁, hev, ht⟩ := (he.of_edits hedits hroot).run_evaluate_of_fits hroots
    fun n _ => hedits.fits_all hf n
  refine ⟨g₁, ⟨hedits.trans ht.edits, hev.dag.trans hc.dag,
    hev.ready hroots (hc.unevaluated hroot).consistent,
    fun n hn => hev.grad_eq_zeros hc hfit hroot hn,
    fun n hn hp => hev.value_parameter_of_cleared hc hn hp⟩, ?_⟩
  rw [backward, EStateM.run_bind, EStateM.run_get]
  simp only [EStateM.run_bind, hr]
  rw [run_reversePass hr₁, order_of_dag hc.dag]
  rfl

end

/-! ## Tangents of what was built -/

section
variable [Exact F] {g : Graph K F} {dir : Node → Matrix F} {n l r : Node}

/-- The tangents that are there, as a function of the vertex. -/
def tangents (g : Graph K F) (dir : Node → Matrix F) (n : Node) : Matrix F :=
  (g.tangent dir n).toOption.getD default

theorem tangents_of_ok {v : Matrix F} (h : g.tangent dir n = .ok v) : g.tangents dir n = v := by
  rw [tangents, h]
  rfl

/-- The tangent of a vertex from those of its operands. -/
theorem tangent_of_operands {op : Op K} (hop : g.op n = op)
    (h : ∀ c ∈ op.operands, ∃ v, g.tangent dir c = .ok v) :
    g.tangent dir n = op.tangent (dir n) (g.cell n).mask g.value (g.tangents dir) := by
  subst hop
  refine Dag.recurse_of_ok (g.local_tangentRule dir) fun c hc => ?_
  obtain ⟨v, hv⟩ := h c hc
  exact hv.trans (congrArg _ (tangents_of_ok hv).symm)

end

variable [Scalar K] [Arith E] [Exact F] {φ : E → F} {g : Graph K E} {s : Graph K F}
  {dir : Node → Matrix F} {dx : Node → F} {t : Term} {n root : Node}

/-- **The tangent of what was built** is that of the term. -/
theorem Spells.tangent (hφ : Preserves φ) (hs : Shadow φ g s) (h : g.Spells t n)
    (hl : ∀ m ∈ t.leaves, g.Readable m) (hf : ∀ m, g.Fits m) (hv : g.hasValue n = true)
    (hd : ∀ m ∈ t.leaves, g.isParameter m = true ∧ dir m = .scalar (dx m)) :
    s.tangent dir n = .ok (.scalar (t.tangent (φ ∘ g.number) dx)) := by
  have hvalue : ∀ {t n}, g.Spells t n → (∀ m ∈ t.leaves, g.Readable m) → g.hasValue n = true →
      s.value n = .scalar (t.value (φ ∘ g.number)) := by
    intro t n h hl hv
    simp only [hs.value]
    rw [(h.holds hl hf hv).2.value, Matrix.map_scalar, Term.value_map hφ]
  induction h with
  | leaf hn =>
    obtain ⟨hp, hdir⟩ := hd _ (List.mem_singleton_self _)
    rw [tangent_of_operands ((hs.op _).trans (op_eq_parameter hp)) (by simp [Op.operands])]
    exact congrArg Except.ok hdir
  | neg h hop hb ih | func h hop hb ih =>
    obtain ⟨ho, -⟩ := hb.holds hop rfl hv
    have hvl := List.forall_mem_singleton.1 ho
    have htl := ih hl hvl hd
    rw [tangent_of_operands ((hs.op _).trans hop) (by simpa [Op.operands] using ⟨_, htl⟩)]
    simp [Op.tangent, tangents_of_ok htl, hvalue h hl hvl, Term.tangent]
  | add hl' hr' hop hb ihl ihr | mul hl' hr' hop hb ihl ihr | max hl' hr' hop hb ihl ihr =>
    obtain ⟨ho, -⟩ := hb.holds hop rfl hv
    obtain ⟨hll, hlr⟩ := List.forall_mem_append.1 hl
    obtain ⟨hdl, hdr⟩ := List.forall_mem_append.1 hd
    obtain ⟨hvl, hvr⟩ := List.forall_mem_cons.1 ho
    have hvr := List.forall_mem_singleton.1 hvr
    have htl := ihl hll hvl hdl
    have htr := ihr hlr hvr hdr
    rw [tangent_of_operands ((hs.op _).trans hop)
      (by simpa [Op.operands] using ⟨⟨_, htl⟩, _, htr⟩)]
    simp [Op.tangent, tangents_of_ok htl, tangents_of_ok htr, hvalue hl' hll hvl,
      hvalue hr' hlr hvr, Term.tangent]

omit [Scalar K] in
/-- The leaves stand below what was built. -/
theorem Spells.leaves_below (h : g.Spells t n) : ∀ m ∈ t.leaves, g.dag.Below n m := by
  have hside : ∀ {n l op}, g.op n = op → l ∈ op.operands → ∀ m, g.dag.Below l m →
      g.dag.Below n m := fun hop hl m hm =>
    ((Dag.Below.refl g.dag _).operand (hop ▸ hl : _ ∈ (g.op _).operands)).trans hm
  induction h with
  | leaf => exact List.forall_mem_singleton.2 (.refl _ _)
  | neg _ hop _ ih | func _ hop _ ih =>
    exact fun m hm => hside hop (by simp [Op.operands]) m (ih m hm)
  | add _ _ hop _ ihl ihr | mul _ _ hop _ ihl ihr | max _ _ hop _ ihl ihr =>
    refine List.forall_mem_append.2 ⟨fun m hm => ?_, fun m hm => ?_⟩
    · exact hside hop (by simp [Op.operands]) m (ihl m hm)
    · exact hside hop (by simp [Op.operands]) m (ihr m hm)

omit [Scalar K] in
/-- What stands below was built for a term, too. -/
theorem Spells.of_below (h : g.Spells t n) (hp : ∀ m ∈ t.leaves, g.isParameter m = true) {m : Node}
    (hm : g.dag.Below n m) : ∃ u, g.Spells u m ∧ ∀ p ∈ u.leaves, g.isParameter p = true := by
  induction hm with
  | refl => exact ⟨t, h, hp⟩
  | @tail b c _ hbc ih =>
    obtain ⟨u, hu, hpu⟩ := ih
    have hc : c ∈ (g.op b).operands := hbc.2
    cases hu with
    | leaf =>
      rw [op_eq_parameter (hpu b (List.mem_singleton_self b))] at hc
      cases hc
    | neg h hop | func h hop =>
      rw [hop] at hc
      obtain rfl := List.mem_singleton.1 hc
      exact ⟨_, h, hpu⟩
    | add hl hr hop | mul hl hr hop | max hl hr hop =>
      rw [hop] at hc
      obtain ⟨hpl, hpr⟩ := List.forall_mem_append.1 hpu
      rcases List.mem_pair.1 hc with rfl | rfl
      · exact ⟨_, hl, hpl⟩
      · exact ⟨_, hr, hpr⟩

omit [Scalar K] in
/-- What stands below has tangents if the leaves are parameters. -/
theorem Spells.kind_of_below (h : g.Spells t n) (hp : ∀ m ∈ t.leaves, g.isParameter m = true)
    {m : Node} (hm : g.dag.Below n m) : g.kind m ∈ Kind.tangible := by
  obtain ⟨u, hu, hpu⟩ := h.of_below hp hm
  cases hu with
  | leaf =>
    rw [Graph.kind, op_eq_parameter (hpu m (List.mem_singleton_self m))]
    simp [Op.kind, Kind.tangible]
  | neg _ hop | func _ hop | add _ _ hop | mul _ _ hop | max _ _ hop =>
    simp [Graph.kind, hop, Op.kind, Kind.tangible]

/-- What was computed anew is what it was built for. -/
theorem Spells.of_prepared {g₁ : Graph K E} [Laned K E] (h : g.Spells t n)
    (hp : Prepared g g₁ n) : g₁.Spells t n := by
  refine h.imp (size_of_dag hp.dag).ge fun m hm _ => ⟨op_of_dag hp.dag m, fun _ _ _ => ?_⟩
  rw [← hp.dag] at hm
  exact ⟨fun c hc => hp.ready.hasValue c (hm.operand hc), hp.ready.settled m hm⟩

/-- The directions in which a single leaf moves. -/
def alone (val : Node → Matrix F) (p n : Node) : Matrix F :=
  if n = p then .scalar 1 else .zeros (val n).rows (val n).cols

section
variable {val : Node → Matrix F} {p : Node} {x : F}

theorem alone_eq (h : val n = .scalar x) :
    alone val p n = .scalar ((Pi.single p 1 : Node → F) n) := by
  by_cases hn : n = p
  · simp [alone, hn]
  · simp only [alone, if_neg hn, h, Pi.single_eq_of_ne hn]
    exact Matrix.zeros_one_one

theorem shape_alone (h : val p = .scalar x) (n : Node) :
    (alone val p n).shape = (val n).shape := by
  by_cases hn : n = p
  · rw [hn, h]
    simp [alone]
  · simp only [alone, if_neg hn]
    rfl

omit [Scalar K] [Arith E] in
/-- A single leaf that moves picks its gradient. -/
theorem sum_pairing_alone {g : Graph K F} {ns : List Node} (hns : ns.Nodup) (hp : p ∈ ns)
    (hx : g.grad p = .scalar x) :
    (ns.map fun n => Matrix.pairing (g.grad n) (alone val p n)).sum = x := by
  rw [List.sum_map_eq_nsmul_single p _ fun n hn _ => ?_, List.count_eq_one_of_mem hns hp, one_smul,
    alone, if_pos rfl, hx]
  · simp [Matrix.pairing, Matrix.scalar, Matrix.entry]
  · rw [alone, if_neg hn, Matrix.pairing, Matrix.zeros, Matrix.filled]
    refine Finset.sum_eq_zero fun r _ => Finset.sum_eq_zero fun c _ => ?_
    simp [Matrix.entry, Array.getD]

end

/-- A reverse pass from a root that is prepared, together with one of an exact image. -/
theorem Prepared.exists_reverse [Laned K E] {g₁ : Graph K E} (hφ : Preserves φ)
    (hp : Prepared g g₁ root) (hs : Shadow φ g₁ s) (hroot : root < g.size)
    (hk : ∀ n, g₁.dag.Below root n → g₁.kind n ∈ Kind.tangible) :
    ∃ g' s', (do seed root; (g.order root).reverse.forM propagate : Step (Graph K E) Unit).run g₁ =
        .ok () g' ∧ Shadow φ g' s' ∧ Regraded s s' (s.order root) ∧
      ∀ dir : Node → Matrix F,
        (∀ p, s.dag.Below root p → s.isParameter p = true → (dir p).shape = (s.value p).shape) →
        ∃ t, s.tangent dir root = .ok t ∧
          (((s.order root).filter s.isParameter).map fun p =>
            Matrix.pairing (s'.grad p) (dir p)).sum = t.sum := by
  have hdag : s.dag = g.dag := hs.dag.trans hp.dag
  have hlt : root < s.size := by rwa [size, hdag]
  have hkind : ∀ n, s.dag.Below root n → s.kind n ∈ Kind.tangible := fun n hn => by
    rw [kind, hs.op]
    exact hk n (hs.dag ▸ hn)
  have hzero : ∀ n ∈ s.order root, s.grad n = .zeros (s.value n).rows (s.value n).cols := by
    intro n hn
    rw [mem_order hlt, hdag] at hn
    simp only [hs.grad, hs.value, hp.grad n hn, Matrix.rows_map, Matrix.cols_map]
    exact (Cell.zeros_map hφ _ _).symm
  obtain ⟨s', hrun, hs', hpair⟩ := (hs.ready hφ hp.ready).reverse hlt hkind hzero
  have halike := hs.sweep hφ root (s.order root).reverse
  rw [hrun, show s.order root = g.order root by rw [order, order, hdag]] at halike
  generalize hresult : (do seed root; (g.order root).reverse.forM propagate :
    Step (Graph K E) Unit).run g₁ = result at halike
  cases halike with
  | @ok _ _ g' _ _ hg' => exact ⟨g', s', rfl, hg', hs', hpair⟩

/-- **Gradients of what was built for a term** over parameters that are numbers.  Resetting what is
below and a reverse pass succeed.  Every leaf receives the derivative of the term for it, in every
image of the elements that is exact. -/
theorem Spells.run_backward [Laned K E] (hφ : Preserves φ) (h : g.Spells t root)
    (hl : ∀ m ∈ t.leaves, g.isParameter m = true ∧ g.Readable m) (hf : ∀ n, g.Fits n)
    (hfit : g.GradsFit) :
    ∃ g', (backward root).run g = .ok () g' ∧ ∀ p ∈ t.leaves, ∃ d, g'.grad p = .scalar d ∧
      φ d = t.tangent (φ ∘ g.number) (Pi.single p 1) := by
  have hroot : g.Readable root := h.readable fun m hm => (hl m hm).2
  obtain ⟨g₁, hp, hrun⟩ := exists_prepared hf hfit hroot.lt hroot.evaluable
  have h₁ : g₁.Spells t root := h.of_prepared hp
  have hf₁ : ∀ n, g₁.Fits n := hp.edits.fits_all hf
  have hl₁ : ∀ m ∈ t.leaves, g₁.isParameter m = true ∧ g₁.Readable m := fun m hm =>
    ⟨by rw [isParameter_of_dag hp.dag]; exact (hl m hm).1, (hl m hm).2.of_edits hp.edits⟩
  have hnumber : ∀ m ∈ t.leaves, g₁.number m = g.number m := fun m hm => by
    rw [number, number, hp.parameter m (hl m hm).2.lt (hl m hm).1]
  obtain ⟨s, hs⟩ := exists_shadow φ g₁
  obtain ⟨g', s', hrun', hg', hs', hpair⟩ := hp.exists_reverse hφ hs hroot.lt fun n hn =>
    h₁.kind_of_below (fun m hm => (hl₁ m hm).1) hn
  refine ⟨g', hrun.trans hrun', fun p hpt => ?_⟩
  have hvalue : ∀ m ∈ t.leaves, s.value m = .scalar (φ (g₁.number m)) := fun m hm => by
    simp only [hs.value]
    rw [(hl₁ m hm).2.value_eq (hf₁ m) (hasValue_of_isParameter (hl₁ m hm).1), Matrix.map_scalar]
  have hlt : root < s.size := by rw [size, hs.dag, hp.dag]; exact hroot.lt
  have hmem : p ∈ s.order root := (mem_order hlt).2 (hs.dag ▸ h₁.leaves_below p hpt)
  have hpar : s.isParameter p = true := by
    rw [isParameter, hs.op]
    exact (hl₁ p hpt).1
  obtain ⟨d, hd⟩ : ∃ d, g'.grad p = .scalar d := by
    have hshape := hs'.shape p hmem
    rw [hvalue p hpt, hg'.grad] at hshape
    exact ⟨_, Matrix.eq_scalar_of_shape hshape⟩
  refine ⟨d, hd, ?_⟩
  obtain ⟨v, hv, hsum⟩ := hpair (alone s.value p) fun m _ _ => shape_alone (hvalue p hpt) m
  have hdir : ∀ m ∈ t.leaves,
      alone s.value p m = .scalar ((Pi.single p 1 : Node → F) m) := fun m hm =>
    alone_eq (hvalue m hm)
  have htangent := h₁.tangent hφ hs (fun m hm => (hl₁ m hm).2) hf₁
    (hp.ready.hasValue root (.refl _ _)) fun m hm => ⟨(hl₁ m hm).1, hdir m hm⟩
  have hsingle : (((s.order root).filter s.isParameter).map fun n =>
      Matrix.pairing (s'.grad n) (alone s.value p n)).sum = φ d :=
    sum_pairing_alone ((Dag.nodup_traverse root).filter _) (List.mem_filter.2 ⟨hmem, hpar⟩)
      (by rw [hg'.grad, hd, Matrix.map_scalar])
  rw [hsingle, Except.ok.inj (hv.symm.trans htangent), Matrix.sum_scalar, zero_add] at hsum
  rw [hsum]
  exact Term.tangent_congr fun m hm => congrArg φ (hnumber m hm)

end Graph

/-! ## Sums with weights -/

theorem Matrix.sum_data_ofFn {M α : Type} [AddCommMonoid M] {rows cols : Nat} (f : Nat → Nat → α)
    (h : α → M) : ((ofFn rows cols f).data.toList.map h).sum =
      ∑ r ∈ range rows, ∑ c ∈ range cols, h (f r c) := by
  have hmap : (ofFn rows cols f).data.toList.map h =
      (ofFn rows cols fun r c => h (f r c)).data.toList := by
    rw [← map_ofFn, map, Array.toList_map]
  have hsum := sum_eq (ofFn rows cols fun r c => h (f r c))
  rw [sum, ← List.sum_eq_foldl] at hsum
  rw [hmap, hsum]
  exact sum_congr rfl fun r hr => sum_congr rfl fun c hc =>
    entry_ofFn (mem_range.1 hr) (mem_range.1 hc)

namespace Block

open DiffGraph.Graph

section
variable [Exact F] {b : Block} {r : Nat}

/-- A single cell among directions picks its entry. -/
theorem pairing_single (hb : b.nodes.Nodup) {d : Matrix F} (hd : d.shape = b.shape) {c : Nat}
    (hr : r < b.rows) (hc : c < b.cols) :
    Matrix.pairing d (b.map (Pi.single (b.node r c) 1)) = d.entry r c := by
  obtain ⟨hrows, hcols⟩ := Prod.mk.inj hd
  rw [Matrix.pairing, hrows, hcols, sum_eq_single_of_mem r (mem_range.2 hr) fun r' hr' hne => ?_,
    sum_eq_single_of_mem c (mem_range.2 hc) fun c' hc' hne => ?_, entry_map _ hr hc,
    Pi.single_eq_same, mul_one]
  · rw [entry_map _ hr (mem_range.1 hc'), Pi.single_eq_of_ne, mul_zero]
    exact fun h => hne (node_inj hb hr (mem_range.1 hc') hr hc h).2
  · refine sum_eq_zero fun c' hc' => ?_
    rw [entry_map _ (mem_range.1 hr') (mem_range.1 hc'), Pi.single_eq_of_ne, mul_zero]
    exact fun h => hne (node_inj hb (mem_range.1 hr') (mem_range.1 hc') hr hc h).1

/-- A cell of another block picks nothing. -/
theorem pairing_single_of_not_mem {p : Node} (hp : p ∉ b.nodes) {d : Matrix F}
    (hd : d.shape = b.shape) : Matrix.pairing d (b.map (Pi.single p 1)) = 0 := by
  obtain ⟨hrows, hcols⟩ := Prod.mk.inj hd
  rw [Matrix.pairing, hrows, hcols]
  refine sum_eq_zero fun r hr => sum_eq_zero fun c hc => ?_
  rw [entry_map _ (mem_range.1 hr) (mem_range.1 hc), Pi.single_eq_of_ne, mul_zero]
  exact fun h => hp (h ▸ node_mem (mem_range.1 hr) (mem_range.1 hc))

end

variable [Scalar K] [Arith E] [Laned K E] [Exact F] {φ : E → F} {s : Graph K E} {b : Block}
  {T : Nat → Nat → Term} {v : Matrix E}

/-- **Gradients of a sum with weights.**  The sum can be built, and passes gradients back.  Every
leaf of the cells receives the derivatives of the cells, each with its weight. -/
theorem Spelled.exists_backward (hφ : Preserves φ) (hb : Spelled s (.ofFn v.rows v.cols T) b)
    (hl : ∀ r < v.rows, ∀ c < v.cols, ∀ m ∈ (T r c).leaves,
      s.isParameter m = true ∧ s.Readable m)
    (hf : ∀ n, s.Fits n) (hfit : s.GradsFit) (hrows : v.rows ≠ 0) (hcols : v.cols ≠ 0) :
    ∃ l s₁ s₂, (b.weighted v).run s = .ok l s₁ ∧ (backward l).run s₁ = .ok () s₂ ∧
      ∀ r < v.rows, ∀ c < v.cols, ∀ p ∈ (T r c).leaves, ∃ d, s₂.grad p = .scalar d ∧
        φ d = ∑ i ∈ range v.rows, ∑ j ∈ range v.cols,
          (T i j).tangent (φ ∘ s.number) (Pi.single p 1) * φ (v.entry i j) := by
  obtain ⟨l, s₁, hr, ht, w, t, ts, -, hfresh, hw, hts, hspells⟩ :=
    hb.yields_weighted (v := v) rfl hrows hcols
  obtain ⟨hws, hw⟩ := Matrix.related_iff.1 hw
  obtain ⟨hwrows, hwcols⟩ := Prod.mk.inj hws
  have hleaves : ∀ m, m ∈ (t.chain ts).leaves ↔
      ∃ r < v.rows, ∃ c < v.cols, m ∈ (T r c).leaves ∨ m = w.node r c := by
    intro m
    rw [Term.leaves_chain, ← List.flatMap_cons, ← hts, List.mem_flatMap]
    simp only [Matrix.mem_ofFn_iff]
    constructor
    · rintro ⟨_, ⟨r, hr, c, hc, rfl⟩, hm⟩
      exact ⟨r, hr, c, hc, by simpa [Term.leaves] using hm⟩
    · rintro ⟨r, hr, c, hc, hm⟩
      exact ⟨_, ⟨r, hr, c, hc, rfl⟩, by simpa [Term.leaves] using hm⟩
  have hold : ∀ r < v.rows, ∀ c < v.cols, ∀ m ∈ (T r c).leaves,
      (s₁.isParameter m = true ∧ s₁.Readable m) ∧ s₁.number m = s.number m := by
    intro r hr c hc m hm
    obtain ⟨hp, hread⟩ := hl r hr c hc m hm
    exact hread.kept_parameter hp ht
  have hall : ∀ m ∈ (t.chain ts).leaves, s₁.isParameter m = true ∧ s₁.Readable m := by
    intro m hm
    obtain ⟨r, hr, c, hc, hm | rfl⟩ := (hleaves m).1 hm
    · exact (hold r hr c hc m hm).1
    · obtain ⟨hp, hholds⟩ := hw r hr c hc
      have hp : s₁.isParameter (w.node r c) = true := hp
      have hval : s₁.value (w.node r c) = .scalar (v.entry r c) := hholds.value
      exact ⟨hp, readable_parameter hp (by rw [hval]; rfl)⟩
  obtain ⟨s₂, hr₂, hgrad⟩ :=
    hspells.run_backward hφ hall (ht.edits.fits_all hf) (ht.edits.gradsFit hfit)
  refine ⟨l, s₁, s₂, hr, hr₂, fun r hr c hc p hp => ?_⟩
  obtain ⟨d, hd, hφd⟩ := hgrad p ((hleaves p).2 ⟨r, hr, c, hc, .inl hp⟩)
  refine ⟨d, hd, hφd.trans ?_⟩
  rw [Term.tangent_chain, ← hts, Matrix.sum_data_ofFn]
  refine sum_congr rfl fun i hi => sum_congr rfl fun j hj => ?_
  rw [mem_range] at hi hj
  -- the weights are constant
  have hpw : w.node i j ≠ p := fun h => by
    have hmem : w.node i j ∈ w.nodes := node_mem (hi.trans_eq hwrows.symm) (hj.trans_eq hwcols.symm)
    exact absurd (hfresh _ hmem) (not_le.2 (h ▸ (hl r hr c hc p hp).2.lt))
  have hweight : s₁.number (w.node i j) = v.entry i j := (hw i hi j hj).2.number
  rw [Term.tangent, Term.tangent, Term.value, Pi.single_eq_of_ne hpw, mul_zero, add_zero,
    Function.comp_apply, hweight]
  refine congrArg (· * _) (Term.tangent_congr fun m hm => ?_)
  exact congrArg φ (hold i hi j hj m hm).2

end Block

end DiffGraph
