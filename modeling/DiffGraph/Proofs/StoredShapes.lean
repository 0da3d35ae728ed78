/-
  Shapes of what is stored.

  * `Graph.shapes`: the shape of a vertex, from the operations below it and the
    values of the parameters.  No call changes it (`Edits.shapes`);
  * `Shaped`: a vertex that had a value once stores values, gradients and sums of
    its shape.  Turns keep this (`Turns.shaped`), and so do the calls that are no
    turns (`Call.shaped`);
  * `Shaped.run_reversePass`, `Shaped.run_collect`, `Shaped.run_step`: from a root
    that was evaluated, a reverse pass, the collection of gradients and the steps of
    an optimizer succeed.
-/
import DiffGraph.Proofs.History
import DiffGraph.Proofs.Shapes

namespace DiffGraph

open Relation

variable {K E : Type}

namespace Graph

/-- The shape of the value of a vertex, evaluated or not. -/
def shapes (g : Graph K E) (n : Node) : Shape :=
  (g.op n).shape (g.value n).shape fun c => if c < n then g.shapes c else (0, 0)
termination_by n
decreasing_by assumption

section
variable {g g' : Graph K E} {n : Node}

theorem shapes_eq (g : Graph K E) (n : Node) :
    g.shapes n = (g.op n).shape (g.value n).shape g.shapes := by
  rw [shapes]
  exact Op.shape_congr _ fun c hc => if_pos (g.dag.operands_lt_self hc)

theorem shapes_parameter (h : g.isParameter n = true) : g.shapes n = (g.value n).shape := by
  rw [shapes_eq, op_eq_parameter h]
  rfl

/-- Shapes depend on the operations and on the shapes of the parameters. -/
theorem shapes_congr (hop : ∀ m < g.size, g'.op m = g.op m)
    (hvalue : ∀ m < g.size, g.isParameter m = true → (g'.value m).shape = (g.value m).shape) :
    ∀ n < g.size, g'.shapes n = g.shapes n := by
  intro n
  induction n using Nat.strong_induction_on with
  | _ n ih =>
    intro hn
    have hoperands : ∀ c ∈ (g.op n).operands, g'.shapes c = g.shapes c := fun c hc =>
      have hlt := g.dag.operands_lt_self hc
      ih c hlt (hlt.trans hn)
    rw [shapes_eq, shapes_eq, hop n hn, Op.shape_congr _ hoperands]
    cases hp : g.isParameter n with
    | true => rw [hvalue n hn hp]
    | false => exact Op.shape_own hp _ _ _

theorem shapes_of_cells (hdag : g'.dag = g.dag)
    (hvalue : ∀ n, (g'.value n).shape = (g.value n).shape) : g'.shapes = g.shapes := by
  have hop : ∀ n, g'.op n = g.op n := fun n => by rw [op, hdag]; rfl
  funext n
  by_cases hn : n < g.size
  · exact shapes_congr (fun m _ => hop m) (fun m _ _ => hvalue m) n hn
  · have hp : g.isParameter n = true := isParameter_of_size_le g (not_lt.1 hn)
    have hp' : g'.isParameter n = true := by rwa [isParameter, hop]
    rw [shapes_parameter hp, shapes_parameter hp', hvalue]

theorem shapes_update {f : Cell E → Cell E}
    (hf : (f (g.cell n)).value.shape = (g.value n).shape) : (g.update n f).shapes = g.shapes := by
  refine shapes_of_cells rfl fun m => ?_
  rw [value, cell_update]
  split
  · next hm => rw [hm.1, hf]
  · rfl

end

section
variable [Scalar K] [Arith E] [Laned K E] {targets : List Node} {g g' : Graph K E}

/-- **No move changes a shape.** -/
theorem Edits.shapes (h : Edits targets g g') : ∀ n < g.size, g'.shapes n = g.shapes n := by
  have hmove : ∀ {s s' : Graph K E}, Edit targets s s' →
      ∀ n < s.size, s'.shapes n = s.shapes n := by
    intro s s' hm
    refine shapes_congr hm.extends.op fun m hlt hp => ?_
    rcases hm.cell_cases hlt with hc | ⟨-, -, v, hs, hc⟩ | ⟨hv, -⟩
    · rw [value, hc.value]
      rfl
    · rw [value, hc]
      exact hs
    · rw [hasValue_of_isParameter hp] at hv
      cases hv
  induction h with
  | refl => exact fun _ _ => rfl
  | tail hb hm ih =>
    exact fun n hn => (hmove hm n (hn.trans_le (Edits.extends hb).size)).trans (ih n hn)

end

end Graph

/-! ## What is stored -/

/-- The value of a cell, its gradient and its sums. -/
def Cell.stored (c : Cell E) : List (Matrix E) := [c.value, c.grad, c.batchSum, c.lastSum]

/-- All that is stored has the shape `s`. -/
structure Cell.Full (c : Cell E) (s : Shape) : Prop where
  value : c.value.shape = s
  grad : c.grad.shape = s
  batchSum : c.batchSum.shape = s
  lastSum : c.lastSum.shape = s

/-- Nothing is stored, or something of the shape `s`. -/
structure Cell.Within (c : Cell E) (s : Shape) : Prop where
  value : c.value.shape = (0, 0) ∨ c.value.shape = s
  grad : c.grad.shape = (0, 0) ∨ c.grad.shape = s
  batchSum : c.batchSum.shape = (0, 0) ∨ c.batchSum.shape = s

namespace Cell

variable {c c' : Cell E} {s : Shape}

theorem Full.shape (h : c.Full s) : ∀ m ∈ c.stored, m.shape = s := by
  simpa [stored] using ⟨h.value, h.grad, h.batchSum, h.lastSum⟩

theorem Full.within (h : c.Full s) : c.Within s := ⟨.inr h.value, .inr h.grad, .inr h.batchSum⟩

theorem full_parameter [Zero E] (v : Matrix E) : (parameter v).Full v.shape := ⟨rfl, rfl, rfl, rfl⟩

theorem Summed.full (hc : c.Summed c') (h : c.Full s) : c'.Full s where
  value := by rw [hc.value, h.value]
  grad := hc.grad.elim (·.trans h.grad) (·.trans h.value)
  batchSum := hc.batchSum.elim (·.trans h.batchSum) (·.trans h.grad)
  lastSum := hc.lastSum.elim (·.trans h.lastSum) (·.trans h.batchSum)

theorem Summed.within (hc : c.Summed c') (h : c.Within s) : c'.Within s where
  value := by rw [hc.value]; exact h.value
  grad := hc.grad.elim (fun hg => hg ▸ h.grad) fun hg => hg ▸ h.value
  batchSum := hc.batchSum.elim (fun hb => hb ▸ h.batchSum) fun hb => hb ▸ h.grad

end Cell

namespace Graph

/-- A vertex stores everything in its shape, and its operands are vertices of `had`
with shapes that its operation accepts. -/
structure ShapedAt (had : Node → Prop) (g : Graph K E) (n : Node) : Prop where
  full : (g.cell n).Full (g.shapes n)
  accepts : (g.op n).Accepts (g.cell n).mask.shape g.shapes
  operands : ∀ c ∈ (g.op n).operands, had c

/-- Every vertex stores nothing or something of its shape.  The vertices `had`, all
of which had a value once, store everything. -/
structure Shaped (had : Node → Prop) (g : Graph K E) : Prop where
  lt : ∀ n, had n → n < g.size
  within : ∀ n, (g.cell n).Within (g.shapes n)
  vertex : ∀ n, had n → g.ShapedAt had n

/-- A vertex had a value before, or has one now. -/
def Had (ever : Node → Prop) (g : Graph K E) (n : Node) : Prop :=
  ever n ∨ n < g.size ∧ g.hasValue n = true

section
variable {had : Node → Prop} {g g' : Graph K E} {n : Node}

theorem Shaped.value (h : Shaped had g) (hn : had n) : (g.value n).shape = g.shapes n :=
  (h.vertex n hn).full.value

theorem Shaped.grad (h : Shaped had g) (hn : had n) : (g.grad n).shape = g.shapes n :=
  (h.vertex n hn).full.grad

/-- What is below a vertex that had a value had one too. -/
theorem Shaped.below (h : Shaped had g) {root : Node} (hroot : had root)
    (hn : g.dag.Below root n) : had n := by
  induction hn with
  | refl => exact hroot
  | @tail b c _ hbc ih => exact (h.vertex b ih).operands c hbc.2

/-- What is stored for a parameter tells its shape. -/
theorem full_of_isParameter [Zero E] (hp : g.isParameter n = true)
    (h : g.cell n = .blank ∨ ∃ v, g.cell n = .parameter v) : (g.cell n).Full (g.shapes n) := by
  rw [shapes_parameter hp, Graph.value]
  rcases h with h | ⟨v, h⟩ <;> rw [h]
  · exact ⟨rfl, rfl, rfl, rfl⟩
  · exact Cell.full_parameter v

theorem shaped_empty (tag : Nat) (noise : Noise K) :
    let g : Graph K E := .empty tag noise
    Shaped (Had (fun _ => False) g) g := by
  intro g
  have hnone : ∀ n, ¬ Had (fun _ => False) g n := fun n hn =>
    Nat.not_lt_zero n (hn.elim False.elim And.left)
  exact
    { lt := fun n hn => (hnone n hn).elim
      within := fun n => ⟨.inl rfl, .inl rfl, .inl rfl⟩
      vertex := fun n hn => (hnone n hn).elim }

/-- Other cells, if each of them stores what has the shapes of before. -/
theorem Shaped.of_cells (h : Shaped had g) (hdag : g'.dag = g.dag)
    (hvalue : ∀ n, (g'.value n).shape = (g.value n).shape)
    (hmask : ∀ n, (g'.cell n).mask = (g.cell n).mask)
    (hwithin : ∀ n, (g.cell n).Within (g.shapes n) → (g'.cell n).Within (g.shapes n))
    (hfull : ∀ n, had n → (g.cell n).Full (g.shapes n) → (g'.cell n).Full (g.shapes n)) :
    Shaped had g' := by
  have hop : ∀ n, g'.op n = g.op n := fun n => by rw [op, hdag]; rfl
  have hshapes : g'.shapes = g.shapes := shapes_of_cells hdag hvalue
  exact
    { lt := fun n hn => by rw [Graph.size, hdag]; exact h.lt n hn
      within := fun n => hshapes ▸ hwithin n (h.within n)
      vertex := fun n hn =>
        { full := hshapes ▸ hfull n hn (h.vertex n hn).full
          accepts := by
            rw [hop, hmask, hshapes]
            exact (h.vertex n hn).accepts
          operands := by
            rw [hop]
            exact (h.vertex n hn).operands } }

/-- Another cell of a vertex, if it stores what has the shapes of before. -/
theorem Shaped.update (h : Shaped had g) {f : Cell E → Cell E}
    (hvalue : (f (g.cell n)).value.shape = (g.value n).shape)
    (hmask : (f (g.cell n)).mask = (g.cell n).mask)
    (hwithin : (g.cell n).Within (g.shapes n) → (f (g.cell n)).Within (g.shapes n))
    (hfull : had n → (g.cell n).Full (g.shapes n) → (f (g.cell n)).Full (g.shapes n)) :
    Shaped had (g.update n f) := by
  have hcell : ∀ {P : Node → Cell E → Prop}, P n (f (g.cell n)) → (∀ m, P m (g.cell m)) →
      ∀ m, P m ((g.update n f).cell m) := by
    intro P hn hm m
    rw [cell_update]
    split
    · next hmn => exact hmn.1 ▸ hn
    · exact hm m
  refine h.of_cells rfl ?_ ?_ ?_ ?_
  · exact hcell (P := fun m c => c.value.shape = (g.value m).shape) hvalue fun _ => rfl
  · exact hcell (P := fun m c => c.mask = (g.cell m).mask) hmask fun _ => rfl
  · exact hcell (P := fun m c => (g.cell m).Within (g.shapes m) → c.Within (g.shapes m)) hwithin
      fun _ hc => hc
  · exact hcell
      (P := fun m c => had m → (g.cell m).Full (g.shapes m) → c.Full (g.shapes m)) hfull
      fun _ _ hc => hc

theorem Shaped.update_grad (h : Shaped had g) {m : Matrix E} (hm : m.shape = (g.grad n).shape) :
    Shaped had (g.update n fun c => { c with grad := m }) :=
  h.update rfl rfl (fun hw => ⟨hw.value, hm ▸ hw.grad, hw.batchSum⟩)
    fun _ hf => ⟨hf.value, hm.trans hf.grad, hf.batchSum, hf.lastSum⟩

theorem Shaped.update_batchSum (h : Shaped had g) {m : Matrix E} (hm : m.shape = g.shapes n) :
    Shaped had (g.update n fun c => { c with batchSum := m }) :=
  h.update rfl rfl (fun hw => ⟨hw.value, hw.grad, .inr hm⟩)
    fun _ hf => ⟨hf.value, hf.grad, hm, hf.lastSum⟩

theorem Shaped.update_value (h : Shaped had g) {v : Matrix E} (hv : v.shape = (g.value n).shape) :
    Shaped had (g.update n fun c => { c with value := v }) :=
  h.update hv rfl (fun hw => ⟨hv ▸ hw.value, hw.grad, hw.batchSum⟩)
    fun _ hf => ⟨hv.trans hf.value, hf.grad, hf.batchSum, hf.lastSum⟩

end

/-! ## Turns -/

section
variable [Scalar K] [Arith E] [Laned K E] {targets : List Node} {ever : Node → Prop}
  {g g' : Graph K E} {n : Node}

/-- A turn forgets no value. -/
theorem Turn.had (h : Turn targets g g') (hn : Had ever g n) : Had ever g' n := by
  refine hn.imp_right fun ⟨hlt, hv⟩ => ⟨hlt.trans_le h.extends.size, ?_⟩
  have hp : g'.isParameter n = g.isParameter n := by rw [isParameter, h.extends.op n hlt]; rfl
  rw [Graph.hasValue] at hv
  rw [Graph.hasValue, hp]
  rcases h.cell_cases hlt with hc | ⟨-, -, v, -, hc⟩ | ⟨-, -, v, mask, -, hc⟩
  · rwa [hc.hasValue]
  · rwa [hc]
  · rw [hc]
    rfl

/-- A vertex that a turn adds stores nothing, or everything in its shape. -/
theorem Turn.shaped_new (h : Turn targets g g') (hlt : ∀ m, ever m → m < g.size)
    (hn : g.size ≤ n) :
    (g'.cell n).Within (g'.shapes n) ∧ (Had ever g' n → g'.ShapedAt (Had ever g') n) := by
  cases hp : g'.isParameter n with
  | true =>
    have hcell : g'.cell n = .blank ∨ ∃ v, g'.cell n = .parameter v :=
      (h.cell_of_size_le hn).imp_right And.right
    have hfull := full_of_isParameter hp hcell
    refine ⟨hfull.within, fun _ => ⟨hfull, ?_, ?_⟩⟩
    · rw [op_eq_parameter hp]
      trivial
    · simp [op_eq_parameter hp, Op.operands]
  | false =>
    have hcell : g'.cell n = .blank := (h.cell_of_size_le hn).resolve_right fun hc => by
      rw [hp] at hc
      cases hc.1
    rw [hcell]
    refine ⟨⟨.inl rfl, .inl rfl, .inl rfl⟩, fun hhad => ?_⟩
    rcases hhad with he | ⟨-, hv⟩
    · exact absurd (hlt n he) (not_lt.2 hn)
    · rw [Graph.hasValue, hcell, hp] at hv
      cases hv

/-- A vertex that was there before stores what it stored, or is evaluated. -/
theorem Turn.shaped_old (h : Turn targets g g') (hg : Shaped (Had ever g) g) (hn : n < g.size) :
    (g'.cell n).Within (g'.shapes n) ∧ (Had ever g' n → g'.ShapedAt (Had ever g') n) := by
  have hop : g'.op n = g.op n := h.extends.op n hn
  have hshape : ∀ m < g.size, g'.shapes m = g.shapes m := Edits.shapes (.single (.turn h))
  have hoperand : ∀ c ∈ (g.op n).operands, c < g.size := fun c hc =>
    (g.dag.operands_lt_self hc).trans hn
  -- all but the cell is as before
  have hat : ∀ mask : Shape, (g'.cell n).mask.shape = mask → (g.op n).Accepts mask g.shapes →
      (g'.cell n).Full (g.shapes n) → (∀ c ∈ (g.op n).operands, Had ever g c) →
      g'.ShapedAt (Had ever g') n := by
    intro mask hmask hacc hfull hops
    refine ⟨hshape n hn ▸ hfull, ?_, ?_⟩
    · rw [hop, hmask, Op.accepts_congr fun c hc => hshape c (hoperand c hc)]
      exact hacc
    · rw [hop]
      exact fun c hc => h.had (hops c hc)
  rw [hshape n hn]
  rcases h.cell_cases hn with hc | ⟨-, hp, v, hs, hc⟩ | ⟨hv, ho, v, mask, hcomp, hc⟩
  · refine ⟨hc.within (hg.within n), fun hhad => ?_⟩
    have hhad' : Had ever g n := hhad.imp_right fun ⟨_, hv⟩ => by
      rw [Graph.hasValue, hc.hasValue, isParameter, hop] at hv
      exact ⟨hn, hv⟩
    obtain ⟨hfull, hacc, hops⟩ := hg.vertex n hhad'
    exact hat _ (by rw [hc.mask]) hacc (hc.full hfull) hops
  · have hhad : Had ever g n := .inr ⟨hn, hasValue_of_isParameter hp⟩
    obtain ⟨hfull, hacc, hops⟩ := hg.vertex n hhad
    have hfull' : (g'.cell n).Full (g.shapes n) := by
      rw [hc]
      exact ⟨hs.trans hfull.value, hfull.grad, hfull.batchSum, hfull.lastSum⟩
    exact ⟨hfull'.within, fun _ => hat _ (by rw [hc]) hacc hfull' hops⟩
  · have hhad : ∀ c ∈ (g.op n).operands, Had ever g c := fun c hcn =>
      .inr ⟨hoperand c hcn, ho c hcn⟩
    have hshapes : ∀ c ∈ (g.op n).operands, (g.value c).shape = g.shapes c := fun c hcn =>
      hg.value (hhad c hcn)
    obtain ⟨hacc, hvs⟩ := Op.shape_of_value (compute_eq_ok hcomp).2
    rw [Op.accepts_congr hshapes] at hacc
    rw [Op.shape_congr _ hshapes, ← shapes_eq] at hvs
    have hfull : (g'.cell n).Full (g.shapes n) := by
      rw [hc, ← hvs]
      refine ⟨rfl, rfl, rfl, ?_⟩
      dsimp only [store]
      split
      · assumption
      · rfl
    exact ⟨hfull.within, fun _ => hat _ (by rw [hc, store]) hacc hfull hhad⟩

/-- **A turn keeps the shapes** of what is stored. -/
theorem Turn.shaped (h : Turn targets g g') (hg : Shaped (Had ever g) g) :
    Shaped (Had ever g') g' := by
  have hlt : ∀ n, ever n → n < g.size := fun n hn => hg.lt n (.inl hn)
  have hall : ∀ n, (g'.cell n).Within (g'.shapes n) ∧
      (Had ever g' n → g'.ShapedAt (Had ever g') n) := fun n =>
    (lt_or_ge n g.size).elim (h.shaped_old hg) (h.shaped_new hlt)
  exact
    { lt := fun n hn => hn.elim (fun he => (hlt n he).trans_le h.extends.size) And.left
      within := fun n => (hall n).1
      vertex := fun n => (hall n).2 }

theorem Turns.had (h : Turns targets g g') (hn : Had ever g n) : Had ever g' n :=
  Step.keeps_of_moves (I := fun s => Had ever s n) (fun _ _ ht => ht.had) h hn

theorem Turns.shaped (h : Turns targets g g') (hg : Shaped (Had ever g) g) :
    Shaped (Had ever g') g' :=
  Step.keeps_of_moves (I := fun s => Shaped (Had ever s) s) (fun _ _ ht => ht.shaped) h hg

end

/-! ## Reverse passes -/

section
variable [Arith E] {had : Node → Prop} {g : Graph K E} {n : Node}

/-- A contribution that fits is added to the gradient of a vertex. -/
theorem Shaped.run_receive (h : Shaped had g) (hn : had n) {p : Push E}
    (hp : p.Fits (g.shapes n)) :
    ∃ g', (receive n p).run g = .ok () g' ∧ Shaped had g' ∧ g'.shapes = g.shapes := by
  rw [← h.grad hn] at hp
  obtain ⟨m, hm⟩ := Push.exists_apply hp
  refine ⟨g.update n fun c => { c with grad := m }, ?_, h.update_grad (Push.shape_apply hm),
    shapes_update rfl⟩
  simp only [receive, EStateM.run_bind, EStateM.run_get, hm]
  rfl

/-- **A vertex that had a value passes its gradient on.** -/
theorem Shaped.run_propagate (h : Shaped had g) (hn : had n) :
    ∃ g', (propagate n).run g = .ok () g' ∧ Shaped had g' := by
  obtain ⟨hfull, hacc, hops⟩ := h.vertex n hn
  have hshapes : ∀ c ∈ (g.op n).operands, (g.value c).shape = g.shapes c := fun c hc =>
    h.value (hops c hc)
  have hown : (g.value n).shape = (g.op n).shape (g.value n).shape fun c => (g.value c).shape := by
    rw [Op.shape_congr _ hshapes, ← shapes_eq, h.value hn]
  rw [← Op.accepts_congr hshapes] at hacc
  obtain ⟨ps, hps, hfits⟩ := Op.exists_pushes hacc hown (hfull.grad.trans hfull.value.symm)
  have hmem : ∀ t ∈ ps, t.1 ∈ (g.op n).operands := fun t ht =>
    Op.map_fst_pushes hps ▸ List.mem_map_of_mem ht
  -- what is added to the gradients changes no shape
  obtain ⟨g', hr, hg', -⟩ := Step.run_forM_ok (s := g) (l := ps)
    (f := fun t : Node × Push E => receive t.1 t.2)
    (fun _ s => Shaped had s ∧ s.shapes = g.shapes) (fun pre t post s hl hs => by
      have ht : t ∈ ps := by simp [hl]
      have hhad := hops t.1 (hmem t ht)
      have hfit : t.2.Fits (s.shapes t.1) := by
        rw [hs.2, ← h.value hhad]
        exact hfits t ht
      obtain ⟨s', hr, hs', hsame⟩ := hs.1.run_receive hhad hfit
      exact ⟨s', hr, hs', hsame.trans hs.2⟩) ⟨h, rfl⟩
  refine ⟨g', ?_, hg'⟩
  have hpushes : g.pushes n = .ok ps := hps
  simp only [propagate, EStateM.run_bind, EStateM.run_get, hpushes]
  exact hr

theorem Shaped.run_sweep (h : Shaped had g) {order : List Node} (ho : ∀ n ∈ order, had n) :
    ∃ g', (order.forM propagate).run g = .ok () g' ∧ Shaped had g' :=
  Step.run_forM_ok (fun _ s => Shaped had s)
    (fun _ n _ s hl hs => hs.run_propagate (ho n (by simp [hl]))) h

end

section
variable [Scalar K] [Arith E] [Laned K E] {ever : Node → Prop} {g g' : Graph K E} {root : Node}

/-- An evaluation that succeeds leaves values below its root. -/
theorem Shaped.had_order (h : Shaped (Had ever g) g) (hr : (evaluate root).run g = .ok () g') :
    ∀ n ∈ g.order root, Had ever g' n := by
  obtain ⟨he, ht⟩ := evaluated_of_run_ok hr
  intro n hn
  by_cases hroot : root < g.size
  · have hsize : root < g'.size := by rwa [Graph.size, he.dag]
    have hhad : Had ever g' root := .inr ⟨hsize, he.hasValue (hasValue_or_mem_missing hroot)⟩
    rw [mem_order hroot, ← he.dag] at hn
    exact (ht.shaped h).below hhad hn
  · rw [order, Dag.traverse_of_size_le (not_lt.1 hroot)] at hn
    cases hn

/-- **A reverse pass succeeds if the evaluation of its root does**, and what is below
the root has values after it. -/
theorem Shaped.run_reversePass (h : Shaped (Had ever g) g)
    (hr : (evaluate root).run g = .ok () g') :
    ∃ g'', (reversePass root).run g = .ok () g'' ∧ ∀ n ∈ g.order root, Had ever g'' n := by
  have hg' : Shaped (Had ever g') g' := (evaluated_of_run_ok hr).2.shaped h
  let s := g'.update root fun c => { c with grad := c.value.fill 1 }
  have hseed : Turn [] g' s := .sum g' root _ ⟨rfl, rfl, rfl, .inr rfl, .inl rfl, .inl rfl⟩
  have hhad : ∀ n ∈ g.order root, Had ever s n := fun n hn => hseed.had (h.had_order hr n hn)
  have hrev : ∀ n ∈ (g.order root).reverse, Had ever s n := fun n hn =>
    hhad n (List.mem_reverse.1 hn)
  obtain ⟨g'', hsweep, -⟩ := (hseed.shaped hg').run_sweep hrev
  have hturns : ((g.order root).reverse.forM propagate).Leads (Turn []) s :=
    .forM (fun n _ _ => turns_propagate n) s
  exact ⟨g'', (Graph.run_reversePass hr).trans hsweep, fun n hn =>
    Turns.had (hturns.moves hsweep) (hhad n hn)⟩

/-- A parameter can be moved. -/
theorem Shaped.run_move {had : Node → Prop} (h : Shaped had g) {n : Node}
    (hn : n < g.size → had n) (config : Sgd.Config K) :
    ∃ g', (Sgd.move config n).run g = .ok () g' ∧ Shaped had g' ∧ g'.dag = g.dag := by
  cases hempty : (g.cell n).batchSum.isEmpty with
  | true =>
    refine ⟨g, ?_, h, rfl⟩
    simp only [Sgd.move, EStateM.run_bind, EStateM.run_get, hempty]
    rfl
  | false =>
    have hlt : n < g.size := by
      by_contra hge
      rw [cell_of_size_le g (not_lt.1 hge)] at hempty
      cases hempty
    have hfull := (h.vertex n (hn hlt)).full
    obtain ⟨change, hchange, hs⟩ := Matrix.exists_zipWith (o := "sgd momentum")
      (f := fun a p => (Laned.splat config.momentum : E) * a + p)
      (hfull.batchSum.trans hfull.lastSum.symm)
    obtain ⟨v, hv, hvs⟩ := Matrix.exists_zipWith (o := "sgd step")
      (f := fun v u => v - (Laned.splat (config.rate / (config.batchSize : K)) : E) * u)
      (hfull.value.trans (hs.trans hfull.batchSum).symm)
    have hnext : Sgd.next config (g.cell n) = .ok v := by
      rw [Sgd.next, hchange]
      exact hv
    refine ⟨g.update n fun c => { c with value := v }, ?_, h.update_value hvs, rfl⟩
    simp only [Sgd.move, EStateM.run_bind, EStateM.run_get, hempty, hnext]
    rfl

end

/-! ## Moves that are no turns -/

section
variable [Arith E] {had ever : Node → Prop} {g g' : Graph K E} {n : Node}

omit [Arith E] in
/-- A graph in which no other vertices have values. -/
theorem Shaped.had_of_hasValue (h : Shaped (Had ever g) g') (hdag : g'.dag = g.dag)
    (hvalue : ∀ n < g.size, g'.hasValue n = true → g.hasValue n = true) :
    Shaped (Had (Had ever g) g') g' := by
  have hsize : g'.size = g.size := congrArg Dag.size hdag
  have hhad : Had (Had ever g) g' = Had ever g := by
    funext n
    refine propext ⟨fun hn => hn.elim (fun hn => hn) fun ⟨hlt, hv⟩ => ?_, Or.inl⟩
    exact .inr ⟨hsize ▸ hlt, hvalue n (hsize ▸ hlt) hv⟩
  rwa [hhad]

/-- A reset changes gradients, and takes values away. -/
theorem Cleared.cell_eq {order : List Node} (hc : Cleared g g' order) (n : Node) :
    ∃ m b, m.shape = (g.grad n).shape ∧ (b = true → (g.cell n).hasValue = true) ∧
      g'.cell n = { g.cell n with grad := m, hasValue := b } := by
  have hsame : g'.cell n = g.cell n → ∃ m b, m.shape = (g.grad n).shape ∧
      (b = true → (g.cell n).hasValue = true) ∧
      g'.cell n = { g.cell n with grad := m, hasValue := b } := fun h =>
    ⟨g.grad n, (g.cell n).hasValue, rfl, fun hv => hv, h⟩
  by_cases hn : n < g.size
  · by_cases hm : n ∈ order
    · rw [hc.cell n hn, if_pos hm, clearedCell]
      split
      · exact ⟨(g.grad n).fill 0, (g.cell n).hasValue, rfl, fun hv => hv, rfl⟩
      · exact ⟨(g.grad n).fill 0, false, rfl, fun hv => (by cases hv), rfl⟩
    · exact hsame (by rw [hc.cell n hn, if_neg hm])
  · have hn' : g'.size ≤ n := by rw [Graph.size, hc.dag]; exact not_lt.1 hn
    exact hsame ((cell_of_size_le g' hn').trans (cell_of_size_le g (not_lt.1 hn)).symm)

/-- **A reset keeps the shapes** of what is stored. -/
theorem Shaped.cleared {order : List Node} (h : Shaped (Had ever g) g) (hc : Cleared g g' order) :
    Shaped (Had (Had ever g) g') g' := by
  refine Shaped.had_of_hasValue (h.of_cells hc.dag ?_ ?_ ?_ ?_) hc.dag ?_
  all_goals intro n
  all_goals obtain ⟨m, b, hm, hb, hcell⟩ := hc.cell_eq n
  · rw [Graph.value, hcell]
    rfl
  · rw [hcell]
  · rw [hcell]
    exact fun hw => ⟨hw.value, hm ▸ hw.grad, hw.batchSum⟩
  · rw [hcell]
    exact fun _ hf => ⟨hf.value, hm.trans hf.grad, hf.batchSum, hf.lastSum⟩
  · intro _ hv
    rw [Graph.hasValue, hcell, isParameter, hc.op, Bool.or_eq_true] at hv
    rw [Graph.hasValue, Bool.or_eq_true]
    exact hv.imp_left hb

/-- The vertices of a replica are those of an order under other names, and
parameters have the shapes of their replicas. -/
def Isomorphic (g : Graph K E) (order replica : List Node) : Prop :=
  ∃ f : Node → Node, replica = order.map f ∧ ∀ n ∈ order, g.op (f n) = (g.op n).rename f ∧
    (∀ c ∈ (g.op n).operands, c ∈ order) ∧
    (g.isParameter n = true → (g.value (f n)).shape = (g.value n).shape)

omit [Arith E] in
/-- **Vertices of isomorphic orders have the same shapes.** -/
theorem Isomorphic.shapes {order replica : List Node} (h : g.Isomorphic order replica) :
    ∀ p ∈ order.zip replica, g.shapes p.2 = g.shapes p.1 := by
  obtain ⟨f, rfl, hf⟩ := h
  have hshape : ∀ n, n ∈ order → g.shapes (f n) = g.shapes n := by
    intro n
    induction n using Nat.strong_induction_on with
    | _ n ih =>
      intro hn
      obtain ⟨hop, hclosed, hvalue⟩ := hf n hn
      have hoperands : ∀ c ∈ (g.op n).operands, g.shapes (f c) = g.shapes c := fun c hc =>
        ih c (g.dag.operands_lt_self hc) (hclosed c hc)
      rw [shapes_eq, shapes_eq, hop, Op.shape_rename, Op.shape_congr _ hoperands]
      cases hp : g.isParameter n with
      | true => rw [hvalue hp]
      | false => exact Op.shape_own hp _ _ _
  intro p hp
  rw [← List.map_prod_left_eq_zip, List.mem_map] at hp
  obtain ⟨n, hn, rfl⟩ := hp
  exact hshape n hn

omit [Arith E] in
/-- Isomorphic orders stay so. -/
theorem Isomorphic.of_edits [Scalar K] [Arith E] [Laned K E] {targets order replica : List Node}
    (h : g.Isomorphic order replica) (he : Edits targets g g')
    (hlt : ∀ n ∈ order ++ replica, n < g.size) : g'.Isomorphic order replica := by
  obtain ⟨f, rfl, hf⟩ := h
  refine ⟨f, rfl, fun n hn => ?_⟩
  have hn' : n < g.size := hlt n (List.mem_append_left _ hn)
  have hfn : f n < g.size := hlt _ (List.mem_append_right _ (List.mem_map_of_mem hn))
  obtain ⟨hop, hclosed, hvalue⟩ := hf n hn
  rw [isParameter, he.extends.op n hn', he.extends.op _ hfn]
  refine ⟨hop, hclosed, fun hp => ?_⟩
  have hkept : ∀ m < g.size, g.isParameter m = true → (g'.value m).shape = (g.value m).shape := by
    intro m hm hpm
    have hpm' : g'.isParameter m = true := by rwa [isParameter, he.extends.op m hm]
    rw [← shapes_parameter hpm, ← shapes_parameter hpm', Edits.shapes he m hm]
  have hpf : g.isParameter (f n) = true := by rw [isParameter, hop, op_eq_parameter hp]; rfl
  rw [hkept n hn' hp, hkept _ hfn hpf]
  exact hvalue hp

/-- A graph that differs in sums. -/
structure Merged (had : Node → Prop) (g g' : Graph K E) : Prop where
  shaped : Shaped had g'
  dag : g'.dag = g.dag
  shapes : g'.shapes = g.shapes
  hasValue : g'.hasValue = g.hasValue

/-- The sum of a vertex of the same shape may be added. -/
theorem Shaped.mergeGrad (h : Shaped had g) {target source : Node}
    (hs : g.shapes source = g.shapes target) :
    Merged had g ((mergeGrad target source : Step (Graph K E) Unit).final g) := by
  have hself : Merged had g g := ⟨h, rfl, rfl, rfl⟩
  cases hempty : (g.cell source).batchSum.isEmpty with
  | true =>
    have hrun : (Graph.mergeGrad target source).run g = .ok () g := by
      simp only [Graph.mergeGrad, EStateM.run_bind, EStateM.run_get, hempty]
      rfl
    rwa [Step.final_of_run_ok hrun]
  | false =>
    generalize hstart : (if (g.cell target).batchSum.isEmpty then (g.cell source).batchSum.fill 0
      else (g.cell target).batchSum) = start
    cases htotal : start.add (g.cell source).batchSum with
    | error e =>
      have hrun : (Graph.mergeGrad target source).run g = .error e g := by
        simp only [Graph.mergeGrad, EStateM.run_bind, EStateM.run_get, hempty, hstart, htotal]
        rfl
      rwa [Step.final_of_run_error hrun]
    | ok total =>
      have hrun : (Graph.mergeGrad target source).run g =
          .ok () (g.update target fun c => { c with batchSum := total }) := by
        simp only [Graph.mergeGrad, EStateM.run_bind, EStateM.run_get, hempty, hstart, htotal]
        rfl
      -- the sum that is added is there, so that it has its shape
      have hsource : (g.cell source).batchSum.shape = g.shapes source := by
        refine (h.within source).batchSum.resolve_left fun hzero => ?_
        have harea := (Matrix.isEmpty_iff (g.cell source).batchSum).2 (by rw [hzero]; rfl)
        rw [hempty] at harea
        cases harea
      have hshape : total.shape = g.shapes target :=
        (Matrix.shape_of_zipWith htotal).trans
          ((Matrix.shape_eq_of_zipWith htotal).trans (hsource.trans hs))
      rw [Step.final_of_run_ok hrun]
      refine ⟨h.update_batchSum hshape, rfl, shapes_update rfl, funext fun n => ?_⟩
      rw [Graph.hasValue, Graph.hasValue, cell_update]
      split
      · next hn => rw [hn.1]; rfl
      · rfl

/-- **Merging sums of isomorphic orders keeps the shapes** of what is stored. -/
theorem Shaped.mergeGrads (h : Shaped (Had ever g) g) {order replica : List Node}
    (hf : g.checkAlike order replica = .ok () → g.Isomorphic order replica) :
    let g' := (Graph.mergeGrads order replica : Step (Graph K E) Unit).final g
    Shaped (Had (Had ever g) g') g' := by
  have hleads : (Graph.mergeGrads order replica : Step (Graph K E) Unit).Leads
      (Merged (Had ever g)) g := by
    refine .get_bind (.ofExcept_bind fun _ hok => ?_)
    refine .forM_of_kept (I := fun s => Shaped (Had ever g) s ∧
      ∀ p ∈ order.zip replica, s.shapes p.2 = s.shapes p.1) ?_ ?_ ⟨h, (hf hok).shapes⟩
    · exact fun s s' hm hs => ⟨hm.shaped, hm.shapes ▸ hs.2⟩
    · exact fun p hp s hs => .single (hs.1.mergeGrad (hs.2 p hp))
  have hmerged : ∀ {s}, ReflTransGen (Merged (Had ever g)) g s → Merged (Had ever g) g s := by
    intro s hs
    induction hs with
    | refl => exact ⟨h, rfl, rfl, rfl⟩
    | tail _ hm ih =>
      exact ⟨hm.shaped, hm.dag.trans ih.dag, hm.shapes.trans ih.shapes,
        hm.hasValue.trans ih.hasValue⟩
  have hm := hmerged hleads
  exact hm.shaped.had_of_hasValue hm.dag fun n _ hv => by rwa [hm.hasValue] at hv

end

end Graph

/-! ## Calls -/

namespace Call

variable [Scalar K] [Arith E] [Laned K E]

/-- Sums are merged between isomorphic orders only. -/
def Fair (c : Call K E) (g : Graph K E) : Prop :=
  match c with
  | mergeGrads order replica => g.checkAlike order replica = .ok () → g.Isomorphic order replica
  | _ => True

/-- Every call of a list is fair when its turn comes. -/
def FairRun : List (Call K E) → Graph K E → Prop
  | [], _ => True
  | c :: cs, g => c.Fair g ∧ FairRun cs (c.run.final g)

/-- A vertex has a value in one of the graphs that a list of calls goes through. -/
def HadValue : List (Call K E) → Graph K E → Node → Prop
  | [], g, n => n < g.size ∧ g.hasValue n = true
  | c :: cs, g, n => (n < g.size ∧ g.hasValue n = true) ∨ HadValue cs (c.run.final g) n

/-- **A fair call keeps the shapes** of what is stored, also when it fails. -/
theorem shaped {ever : Node → Prop} {g : Graph K E} (c : Call K E) (hc : c.Fair g)
    (h : g.Shaped (Graph.Had ever g)) :
    let g' := c.run.final g
    g'.Shaped (Graph.Had (Graph.Had ever g) g') := by
  have hturns : c.Plain → (c.run.final g).Shaped
      (Graph.Had (Graph.Had ever g) (c.run.final g)) := by
    intro hp
    have hg : g.Shaped (Graph.Had (Graph.Had ever g) g) := h.had_of_hasValue rfl fun _ _ hv => hv
    exact Graph.Turns.shaped (turns hp g) hg
  cases c with
  | reset order =>
    obtain ⟨g', hr, hcleared⟩ := Graph.reset_run g order
    have hfinal : (run (reset order)).final g = g' := Step.final_of_run_ok hr
    rw [hfinal]
    exact h.cleared hcleared
  | mergeGrads order replica => exact h.mergeGrads hc
  | _ => exact hturns trivial

theorem runs_shaped (cs : List (Call K E)) {ever : Node → Prop} {g : Graph K E}
    (hcs : FairRun cs g) (h : g.Shaped (Graph.Had ever g)) :
    (runs cs g).Shaped fun n => ever n ∨ HadValue cs g n := by
  induction cs generalizing ever g with
  | nil => exact h
  | cons c cs ih =>
    have hrest := ih hcs.2 (c.shaped hcs.1 h)
    have hassoc : (fun n => Graph.Had ever g n ∨ HadValue cs (c.run.final g) n) =
        fun n => ever n ∨ HadValue (c :: cs) g n := funext fun n => propext or_assoc
    exact hassoc ▸ hrest

theorem hadValue_of_runs {cs : List (Call K E)} {g : Graph K E} {n : Node}
    (hn : n < (runs cs g).size) (hv : (runs cs g).hasValue n = true) : HadValue cs g n := by
  induction cs generalizing g with
  | nil => exact ⟨hn, hv⟩
  | cons c cs ih => exact .inr (ih hn hv)

end Call

end DiffGraph
