/-
  Programs that read their parameters again.

  A program holds the numbers that its parameters had when it was compiled.  It reads those
  that have an entry again; the others are held for good.

  * `Projection.Proper`: a projection that maps no parameter without an entry, as those
    that were made of the program;
  * `Program.Version`: what is left of a compiled program by acts with proper projections
    and at most one conversion.  A parameter without an entry still holds what was compiled
    (`Version.holding`);
  * `Program.Reread`: entries that were visited, whose items hold what the graph has now
    (`Program.run_refreshValues`);
  * `Program.Misplaced`, `mismatch`: an order has another vertex at the place of an entry,
    and the failure with which it is refused.

  So a program that was refreshed is as good as one that is compiled now
  (`refresh_as_compiled`).  It is not if a projection wrote to a parameter without an entry
  (`stale_after_foreign_load`).
-/
import DiffGraph.Proofs.Derivation
import DiffGraph.Proofs.Folding
import DiffGraph.Proofs.Outcomes

namespace DiffGraph

open Relation

variable {K E S T : Type}

/-! ## What stays of a compiled program -/

/-- Every parameter that the projection maps has an entry. -/
def Projection.Proper (j : Projection) (code : Code) : Prop :=
  ∀ i ∈ j.items, (code.instr i).isParameter = true → Program.Dynamic code i

/-- A projection is proper for the program that it is made of. -/
theorem Projection.proper_make (g : Graph K S) (b : Block) (q : Program T) :
    (make g b q).Proper q.code :=
  fun _ hi hp => ⟨hp, items_make hi⟩

namespace Program

section
variable [Scalar K] [Arith E] [Laned K E] [Arith T] [Laned K T] {p : Program E}
  {q q' : Program T}

/-- The programs that are left of `p` by acts with proper projections and at most one
conversion. -/
inductive Version (p : Program E) : ∀ {T : Type} [Arith T] [Laned K T], Program T → Prop where
  | compiled : Version p p
  | converted {T : Type} [Arith T] [Laned K T] {q : Program E}
      (h : ReflTransGen (Act (Projection.Proper · p.code)) p q) :
      Version p (q.convert : Program T)
  | act {T : Type} [Arith T] [Laned K T] {q q' : Program T} (h : Version p q)
      (ha : Act (Projection.Proper · p.code) q q') : Version p q'

omit [Arith E] [Laned K E] in
/-- An act with proper projections writes to no parameter without an entry. -/
theorem Act.value {code : Code} (ha : Act (Projection.Proper · code) q q') (hq : q.code = code)
    {i : Nat} (hp : (code.instr i).isParameter = true) (hi : ¬ Dynamic code i) :
    q'.value i = q.value i := by
  cases ha with
  | call c => exact (reran_call c q).value i (hq ▸ hp)
  | load hj g b =>
    exact (Projection.wrote_load _ b (g, q)).value i fun hmem => hi (hj i hmem hp)
  | loadSplat hj m h => exact (Projection.wrote_loadSplat h).value i fun hmem => hi (hj i hmem hp)
  | refreshValues g order =>
    have hwrote := wrote_refreshValues order (g, q)
    dsimp only at hwrote
    rw [hq] at hwrote
    exact hwrote.value i hi

omit [Scalar K] in
/-- The values of a program are broadcast when it is converted. -/
theorem value_convert [Zero K] (q : Program E) {i : Nat} (hi : i < q.values.size) :
    (q.convert : Program T).value i = Laned.broadcast (q.value i) := by
  simp [value, convert, Array.getD, hi]

/-- What compilation has fixed is there, and parameters without an entry hold what was
compiled. -/
structure Holding (p : Program E) (q : Program T) : Prop where
  intact : Intact p.code q
  value : ∀ i < p.size, (p.code.instr i).isParameter = true → ¬ Dynamic p.code i →
    q.value i = Laned.broadcast (p.value i)

theorem Holding.act (h : Holding p q) (ha : Act (Projection.Proper · p.code) q q') :
    Holding p q' where
  intact := h.intact.act ha
  value i hlt hp hi := (ha.value h.intact.code hp hi).trans (h.value i hlt hp hi)

/-- **A version of a program holds what was compiled**, but for the parameters that have an
entry. -/
theorem Version.holding [Laned.Lawful K E] [Laned.Extensional K E] (h : Version p q)
    (hp : Intact p.code p) : Holding p q := by
  have hself : Holding p p := ⟨hp, fun _ _ _ _ => (Laned.broadcast_self _).symm⟩
  induction h with
  | compiled => exact hself
  | converted h =>
    have hq := Step.keeps_of_moves (fun _ _ ha hq => Holding.act hq ha) h hself
    refine ⟨hq.intact.convert, fun i hlt hpi hi => ?_⟩
    rw [value_convert _ (hq.intact.size_values.symm ▸ hlt), hq.value i hlt hpi hi,
      Laned.broadcast_self]
  | act _ ha ih => exact ih.act ha

end

/-! ## Entries and their vertices -/

section
variable {t : Graph K S} {order : List Node} {e : Entry} {n : Node}

/-- An order has no vertex at the place of an entry, or another one. -/
def Misplaced (t : Graph K S) (order : List Node) (e : Entry) : Prop :=
  ∀ n, order[e.index]? = some n → t.id n ≠ e.node

/-- The failure with which such an order is refused. -/
def mismatch (order : List Node) (e : Entry) : Failure :=
  match order[e.index]? with
  | some n => .otherNode e.index e.node.node n
  | none => .shortOrder e.index e.node.node order.length

theorem entryNode_of_misplaced (h : Misplaced t order e) :
    entryNode t order e = .error (mismatch order e) := by
  unfold entryNode mismatch
  cases hn : order[e.index]? with
  | none => rfl
  | some n => exact if_neg (h n hn)

theorem entryNode_eq_ok : entryNode t order e = .ok n ↔
    order[e.index]? = some n ∧ t.id n = e.node := by
  unfold entryNode
  cases hn : order[e.index]? with
  | none => simp
  | some m =>
    dsimp only
    by_cases hid : t.id m = e.node
    · rw [if_pos hid]
      exact ⟨fun h => by cases h; exact ⟨rfl, hid⟩, fun h => by cases h.1; rfl⟩
    · rw [if_neg hid]
      exact ⟨fun h => (by cases h), fun h => by cases h.1; exact absurd h.2 hid⟩

theorem exists_entryNode (h : ¬ Misplaced t order e) : ∃ n, entryNode t order e = .ok n := by
  by_contra hnone
  exact h fun n hn hid => hnone ⟨n, entryNode_eq_ok.2 ⟨hn, hid⟩⟩

end

/-! ## Reading parameters again -/

section
variable [Scalar K] [Arith S] [Laned K S] [Arith T] [Laned K T] {t : Graph K S}
  {order : List Node} {q : Program T} {e : Entry} {n : Node}

omit [Arith T] in
/-- The entry of an operation is skipped. -/
theorem run_refreshValue_of_operation (hp : (q.code.instr e.index).isParameter = false) :
    (refreshValue order e).run (t, q) = .ok () (t, q) := by
  simp only [refreshValue, EStateM.run_bind, EStateM.run_get, hp]
  rfl

omit [Arith T] in
/-- The number that a parameter has now is written to its item. -/
theorem run_refreshValue (hp : (q.code.instr e.index).isParameter = true)
    (hn : entryNode t order e = .ok n) (hv : t.hasValue n = true)
    (hs : (t.value n).isScalar = true) :
    (refreshValue order e).run (t, q) =
      .ok () (t, q.setValue e.index (Laned.broadcast (t.number n))) := by
  simp only [refreshValue, EStateM.run_bind, EStateM.run_get, hp, if_true, hn,
    Step.run_ofExcept_ok, Step.run_onFirst, Graph.run_scalarOf hv hs]
  rfl

omit [Arith T] in
theorem run_refreshValue_of_misplaced (hp : (q.code.instr e.index).isParameter = true)
    (h : Misplaced t order e) :
    (refreshValue order e).run (t, q) = .error (mismatch order e) (t, q) := by
  simp only [refreshValue, EStateM.run_bind, EStateM.run_get, hp, if_true,
    entryNode_of_misplaced h, Step.run_ofExcept_error]

/-- The vertices of the entries of parameters are numbers wherever they are found. -/
def Readable (q : Program T) (t : Graph K S) : Prop :=
  ∀ e ∈ q.code.entries, (q.code.instr e.index).isParameter = true → ∀ n, t.id n = e.node →
    t.hasValue n = true ∧ (t.value n).isScalar = true

/-- The parameters among the entries `done` were read again, and their items hold what the
graph has. -/
structure Reread (t : Graph K S) (order : List Node) (q : Program T) (done : List Entry)
    (q' : Program T) : Prop where
  wrote : Wrote (Dynamic q.code) q q'
  value : ∀ e ∈ done, (q.code.instr e.index).isParameter = true →
    ∀ n, order[e.index]? = some n → q'.value e.index = Laned.broadcast (t.number n)

/-- One more entry is visited. -/
theorem Reread.refreshValue {done : List Entry} {q' : Program T} (h : Reread t order q done q')
    (hread : q.Readable t) (he : e ∈ q.code.entries) (hlt : e.index < q.values.size)
    (hplace : (q.code.instr e.index).isParameter = true → ¬ Misplaced t order e) :
    ∃ q'', (Program.refreshValue order e).run (t, q') = .ok () (t, q'') ∧
      Reread t order q (done ++ [e]) q'' := by
  cases hp : (q.code.instr e.index).isParameter with
  | false =>
    refine ⟨q', run_refreshValue_of_operation (h.wrote.code ▸ hp), h.wrote, ?_⟩
    intro d hd hpd
    rcases List.mem_append.1 hd with hd | hd
    · exact h.value d hd hpd
    · rw [List.mem_singleton.1 hd, hp] at hpd
      cases hpd
  | true =>
    obtain ⟨n, hn⟩ := exists_entryNode (hplace hp)
    obtain ⟨hplaced, hid⟩ := entryNode_eq_ok.1 hn
    obtain ⟨hv, hs⟩ := hread e he hp n hid
    refine ⟨_, run_refreshValue (h.wrote.code ▸ hp) hn hv hs,
      h.wrote.trans (wrote_setValue _ ⟨hp, e, he, rfl⟩ _), fun d hd hpd m hm => ?_⟩
    by_cases hindex : d.index = e.index
    · rw [hindex, hplaced] at hm
      cases hm
      rw [hindex, value_setValue_self _ (h.wrote.size_values ▸ hlt)]
    · rw [value_setValue_of_ne _ (Ne.symm hindex)]
      rcases List.mem_append.1 hd with hd | hd
      · exact h.value d hd hpd m hm
      · exact absurd (congrArg Entry.index (List.mem_singleton.1 hd)) hindex

/-- **Parameters are read again** along an order that has the vertices of their entries. -/
theorem run_refreshValues (hread : q.Readable t)
    (hplace : ∀ e ∈ q.code.entries, (q.code.instr e.index).isParameter = true →
      ¬ Misplaced t order e)
    (hlt : ∀ e ∈ q.code.entries, e.index < q.values.size) :
    ∃ q', (refreshValues order).run (t, q) = .ok () (t, q') ∧
      Reread t order q q.code.entries q' := by
  obtain ⟨⟨t', q'⟩, hrun, rfl, h⟩ := Step.run_forM_ok (f := Program.refreshValue order)
    (l := q.code.entries) (s := (t, q)) (fun done s => s.1 = t ∧ Reread t order q done s.2)
    (fun done e post s hl hs => by
      have he : e ∈ q.code.entries := hl ▸ List.mem_append_right _ List.mem_cons_self
      obtain ⟨t', q'⟩ := s
      obtain ⟨rfl, hs⟩ := hs
      obtain ⟨q'', hr, h⟩ := hs.refreshValue hread he (hlt e he) (hplace e he)
      exact ⟨(t', q''), hr, rfl, h⟩)
    ⟨rfl, .refl q, by simp⟩
  exact ⟨q', hrun, h⟩

omit [Arith T] in
/-- **An order that misplaces the entry of a parameter is refused.** -/
theorem answer_refreshValues_of_misplaced (hread : q.Readable t)
    (h : ∃ e ∈ q.code.entries, (q.code.instr e.index).isParameter = true ∧
      Misplaced t order e) :
    ∃ e ∈ q.code.entries, ((q.code.instr e.index).isParameter = true ∧ Misplaced t order e) ∧
      (refreshValues order).answer (t, q) = .error (mismatch order e) := by
  refine Step.answer_forM_of_bad (f := refreshValue order)
    (P := fun e => (q.code.instr e.index).isParameter = true ∧ Misplaced t order e)
    (fun s => s.1 = t ∧ s.2.code = q.code) ?_ ?_ ⟨rfl, rfl⟩ h
  · rintro e he hgood ⟨t', q'⟩ ⟨rfl, hcode⟩
    dsimp only at hcode ⊢
    cases hp : (q.code.instr e.index).isParameter with
    | false => exact ⟨_, run_refreshValue_of_operation (hcode ▸ hp), rfl, hcode⟩
    | true =>
      obtain ⟨n, hn⟩ := exists_entryNode fun hm => hgood ⟨hp, hm⟩
      obtain ⟨hv, hs⟩ := hread e he hp n (entryNode_eq_ok.1 hn).2
      exact ⟨_, run_refreshValue (hcode ▸ hp) hn hv hs, rfl, hcode⟩
  · rintro e - ⟨hp, hm⟩ ⟨t', q'⟩ ⟨rfl, hcode⟩
    exact run_refreshValue_of_misplaced (hcode.symm ▸ hp) hm

theorem run_deliverGrad_of_not (hd : q.delivers e = false) :
    (q.deliverGrad order e).run t = .ok () t := by
  change (ite (q.delivers e = true) _ _ : Step (Graph K S) Unit).run t = _
  rw [if_neg (by simp [hd])]
  rfl

/-- The gradient of an entry is refused or added, as its vertex is found or not. -/
theorem run_deliverGrad_of_delivers (hd : q.delivers e = true) :
    (q.deliverGrad order e).run t =
      match entryNode t order e with
      | .ok n => .ok () (t.update n fun c =>
          { c with grad := c.grad.addEach (Laned.fold (q.grad e.index)) })
      | .error f => .error f t := by
  change (ite (q.delivers e = true) _ _ : Step (Graph K S) Unit).run t = _
  rw [if_pos hd]
  simp only [EStateM.run_bind, EStateM.run_get]
  cases entryNode t order e <;> rfl

/-- **An order that misplaces an entry with a gradient is refused.** -/
theorem answer_deliverGrads_of_misplaced
    (h : ∃ e ∈ q.code.entries, q.delivers e = true ∧ Misplaced t order e) :
    ∃ e ∈ q.code.entries, (q.delivers e = true ∧ Misplaced t order e) ∧
      (q.deliverGrads order).answer t = .error (mismatch order e) := by
  -- no vertex gets another name on the way
  have hplace : ∀ {s : Graph K S}, s.tag = t.tag → ∀ e,
      Misplaced s order e ↔ Misplaced t order e := fun {s} hs e => by
    have hid : s.id = t.id := funext fun n => congrArg (NodeId.mk · n) hs
    rw [Misplaced, hid]
    rfl
  refine Step.answer_forM_of_bad (f := q.deliverGrad order)
    (P := fun e => q.delivers e = true ∧ Misplaced t order e)
    (fun s => s.tag = t.tag) (fun e _ hgood s hs => ?_) (fun e _ hbad s hs => ?_) rfl h
  · cases hd : q.delivers e with
    | false => exact ⟨s, run_deliverGrad_of_not hd, hs⟩
    | true =>
      obtain ⟨n, hn⟩ := exists_entryNode fun hm => hgood ⟨hd, (hplace hs e).1 hm⟩
      rw [run_deliverGrad_of_delivers hd, hn]
      exact ⟨_, rfl, hs⟩
  · rw [run_deliverGrad_of_delivers hbad.1, entryNode_of_misplaced ((hplace hs e).2 hbad.2)]

end

/-! ## Programs with the same instructions -/

section
variable [Arith T] {q r : Program T}

theorem code_forwardItem (q : Program T) (i : Nat) : (q.forwardItem i).code = q.code := by
  unfold forwardItem
  split <;> rfl

/-- What an evaluation gives depends on the instructions and on the values. -/
theorem values_forward_of_instr (hsize : r.size = q.size)
    (hinstr : ∀ i, r.code.instr i = q.code.instr i) (h : r.values = q.values) :
    r.forward.values = q.forward.values := by
  have key : ∀ (is : List Nat) (r q : Program T), (∀ i, r.code.instr i = q.code.instr i) →
      r.values = q.values →
        (is.foldl forwardItem r).values = (is.foldl forwardItem q).values := by
    intro is
    induction is with
    | nil => exact fun _ _ _ h => h
    | cons i is ih =>
      intro r q hinstr h
      have hval : r.value = q.value := funext fun j => by rw [value, value, h]
      refine ih _ _ (fun j => ?_) ?_
      · rw [code_forwardItem, code_forwardItem]
        exact hinstr j
      · unfold forwardItem
        rw [hinstr, hval]
        cases (q.code.instr i).compute q.value with
        | none => exact h
        | some v => exact congrArg (Array.setIfInBounds · i v) h
  rw [forward, forward, hsize]
  exact key _ r q hinstr h

/-- **Programs with the same instructions give the same values** if their parameters hold
the same. -/
theorem values_forward_congr (hsize : r.size = q.size)
    (hinstr : ∀ i, r.code.instr i = q.code.instr i) (hq : q.values.size = q.size)
    (hr : r.values.size = r.size)
    (hvalue : ∀ i < q.size, (q.code.instr i).isParameter = true → r.value i = q.value i) :
    r.forward.values = q.forward.values := by
  have hagree : Agrees q.code (fun i => (q.code.instr i).isParameter = true) q
      { q with values := r.values } := by
    refine ⟨rfl, rfl, rfl, hr.trans (hsize.trans hq.symm), rfl, fun i hp => ?_⟩
    by_cases hi : i < q.size
    · exact hvalue i hi hp
    · have hzero : ∀ v : Array T, v.size = q.size → v.getD i 0 = 0 := fun v hv => by
        simp [Array.getD, hv, hi]
      exact (hzero _ (hr.trans hsize)).trans (hzero _ hq).symm
  have hforward := congrArg Program.values (hagree.clearGrads_forward hq)
  exact (values_forward_of_instr (q := { q with values := r.values }) hsize hinstr rfl).trans
    hforward

end

end Program

namespace Graph

section
variable [Arith E] {g t : Graph K E} {order : List Node} {code code' : Code}
  {values values' : Array E}

/-- Along one order the same operations have the same instructions. -/
theorem Compiled.instr_congr (h : Compiled g order code values)
    (h' : Compiled t order code' values') (hop : ∀ n ∈ order, t.op n = g.op n) (i : Nat) :
    code'.instr i = code.instr i := by
  by_cases hi : i < order.length
  · have hn := List.getElem?_eq_getElem hi
    obtain ⟨ins, hins, hcode⟩ := h.instr i _ hn
    obtain ⟨ins', hins', hcode'⟩ := h'.instr i _ hn
    rw [hop _ (List.getElem_mem hi)] at hins'
    rw [hcode, hcode', hins'.unique hins]
  · have hdefault : ∀ c : Code, c.size = order.length → c.instr i = .parameter := fun c hc => by
      have hge : ¬ i < c.items.size := fun hlt => hi (hc ▸ hlt)
      simp [Code.instr, Array.getD, hge]
    rw [hdefault _ h.size, hdefault _ h'.size]

end

section
variable [Scalar K] [Arith E] [Laned K E] {g t : Graph K E} {n : Node}

/-- A graph with numbers for parameters stays one. -/
theorem Edits.numeric {targets : List Node} (h : Edits targets g t) {root : Node}
    (hroot : root < g.size) (hn : g.Numeric root) : t.Numeric root := by
  have hb : ∀ {n}, t.dag.Below root n → g.dag.Below root n := (h.extends.below_iff hroot).1
  have hlt : ∀ {n}, t.dag.Below root n → n < g.size := fun hn => (hb hn).le.trans_lt hroot
  have hop : ∀ {n}, t.dag.Below root n → t.op n = g.op n := fun hn => h.extends.op _ (hlt hn)
  refine ⟨fun n hbn => ?_, fun n hbn hp => ?_⟩
  · rw [kind, hop hbn]
    exact hn.kind n (hb hbn)
  · have hp' : g.isParameter n = true := by rwa [isParameter, hop hbn] at hp
    have hs := hn.parameter n (hb hbn) hp'
    rw [Matrix.isScalar_iff] at hs ⊢
    rw [← shapes_parameter hp, Edits.shapes h n (hlt hbn), shapes_parameter hp', hs]

/-- The vertices of a compiled graph can be read whatever was done with it. -/
theorem Edits.readable {targets : List Node} (h : Edits targets g t) {root : Node}
    (hroot : root < g.size) (hn : g.Numeric root) [Arith T] [Laned K T] {q : Program T}
    {values : Array E} (hc : Compiled g (g.order root) q.code values) : q.Readable t := by
  intro e he hp n hid
  obtain ⟨i, m, hi, -, rfl⟩ := hc.mem_entries.1 he
  obtain ⟨-, rfl⟩ := NodeId.mk.inj hid
  have hb := (mem_order hroot).1 (List.mem_of_getElem? hi)
  have hp' : t.isParameter n = true := by
    rw [isParameter, h.extends.op n (hb.le.trans_lt hroot)]
    exact (hc.isParameter_instr hi).symm.trans hp
  exact ⟨hasValue_of_isParameter hp',
    (h.numeric hroot hn).parameter n ((h.extends.below_iff hroot).2 hb) hp'⟩

/-- A graph beside `g`: what calls have made of it, or a graph with another tag. -/
inductive Coexists (g : Graph K E) : ∀ {S : Type} [Arith S] [Laned K S], Graph K S → Prop where
  | later (cs : List (Call K E)) : Coexists g (Call.runs cs g)
  | other {S : Type} [Arith S] [Laned K S] {t : Graph K S} (h : t.tag ≠ g.tag) : Coexists g t

theorem Coexists.readable [Arith S] [Laned K S] [Arith T] [Laned K T] {t : Graph K S}
    (h : g.Coexists t) {root : Node} (hroot : root < g.size) (hn : g.Numeric root)
    {q : Program T} {values : Array E} (hc : Compiled g (g.order root) q.code values) :
    q.Readable t := by
  cases h with
  | later cs => exact (Call.runs_edits cs g).readable hroot hn hc
  | other hne =>
    intro e he hp n hid
    obtain ⟨i, m, -, -, rfl⟩ := hc.mem_entries.1 he
    exact absurd (NodeId.mk.inj hid).1 hne

end

end Graph

namespace Program

section
variable [Scalar K] [Arith E] [Laned K E] [Arith T] [Laned K T] {g t : Graph K E} {root : Node}
  {p : Program E} {q : Program T}

/-- **All parameters hold what the graph has now**, if those without an entry were not
written to. -/
theorem Holding.run_refreshValues (h : Holding p q) (hroot : root < g.size)
    (hp : g.compile (g.order root) = .ok p) {targets : List Node} (he : Graph.Edits targets g t)
    (hmarked : ∀ n ∈ targets, g.dag.Below root n → g.marked n = true) :
    ∃ q', (refreshValues (g.order root)).run (t, q) = .ok () (t, q') ∧
      Wrote (Dynamic p.code) q q' ∧ ∀ i n, (g.order root)[i]? = some n →
        (p.code.instr i).isParameter = true → q'.value i = Laned.broadcast (t.number n) := by
  obtain ⟨hnumeric, hc⟩ := Graph.numeric_of_compile hroot hp
  have hcode := h.intact.code
  have hcq : Graph.Compiled g (g.order root) q.code p.values := hcode ▸ hc
  have hplace : ∀ e ∈ q.code.entries, (q.code.instr e.index).isParameter = true →
      ¬ Misplaced t (g.order root) e := fun e hmem _ hm => by
    obtain ⟨i, n, hi, -, rfl⟩ := hcq.mem_entries.1 hmem
    exact hm n hi (congrArg (NodeId.mk · n) he.tag)
  obtain ⟨q', hrun, hwrote, hnew⟩ := Program.run_refreshValues
    (he.readable hroot hnumeric hcq) hplace fun e hmem => by
      obtain ⟨i, n, hi, -, rfl⟩ := hcq.mem_entries.1 hmem
      rw [h.intact.size_values, hc.size]
      exact (List.getElem?_eq_some_iff.1 hi).1
  rw [hcode] at hwrote hnew
  refine ⟨q', hrun, hwrote, fun i n hi hpi => ?_⟩
  by_cases hd : Dynamic p.code i
  · obtain ⟨-, e, hmem, rfl⟩ := hd
    exact hnew e hmem hpi n hi
  · have hb : g.dag.Below root n := (Graph.mem_order hroot).1 (List.mem_of_getElem? hi)
    have hpn : g.isParameter n = true := (hc.isParameter_instr hi).symm.trans hpi
    have hunmarked : n ∉ targets := fun ht =>
      hd ⟨hpi, _, hc.mem_entries.2 ⟨i, n, hi, hmarked n ht hb, rfl⟩, rfl⟩
    have hlt : i < p.size := (List.getElem?_eq_some_iff.1 hi).1.trans_eq hc.size.symm
    rw [hwrote.value i hd, h.value i hlt hpi hd, Graph.number,
      he.value_parameter (hb.le.trans_lt hroot) hpn hunmarked, hc.value i n hi hpn]
    rfl

/-- A program whose parameters hold what the graph has now gives what a program does that
is compiled now. -/
theorem values_forward_of_number {fresh : Program E} {q' : Program T}
    (hc : Graph.Compiled g (g.order root) q'.code p.values)
    (hc' : Graph.Compiled t (g.order root) fresh.code fresh.values)
    (hop : ∀ n ∈ g.order root, t.op n = g.op n) (hsize : q'.values.size = q'.size)
    (hvalue : ∀ i n, (g.order root)[i]? = some n → (q'.code.instr i).isParameter = true →
      q'.value i = Laned.broadcast (t.number n)) :
    (fresh.convert : Program T).forward.values = q'.forward.values := by
  have hlength : fresh.code.size = q'.code.size := hc'.size.trans hc.size.symm
  have hvalues : fresh.values.size = q'.code.size := hc'.size_values.trans hc.size.symm
  refine values_forward_congr hlength (hc.instr_congr hc' hop) hsize ?_ ?_
  · simp [convert, size, hvalues, hlength]
  · intro i hi hpi
    obtain ⟨n, hn⟩ : ∃ n, (g.order root)[i]? = some n :=
      ⟨_, List.getElem?_eq_getElem (hi.trans_eq hc.size)⟩
    have hpn : t.isParameter n = true := by
      rw [Graph.isParameter, hop n (List.mem_of_getElem? hn)]
      exact (hc.isParameter_instr hn).symm.trans hpi
    rw [value_convert fresh (hi.trans_eq hvalues.symm), hvalue i n hn hpi, Graph.number,
      hc'.value i n hn hpn]
    rfl

/-- **A program that was refreshed is as good as one that is compiled now.**  Let `p` be
compiled along the order of `root`, and let `q` be left of it by acts and at most one
conversion, where no projection maps a parameter without an entry.

* After any calls on the graph that write, below the root, to parameters with an entry
  only, `q` can read them again; this changes their items and nothing else.  What it gives
  then, and the values of all items, are those of a program that is compiled now and
  converted;
* the gradients of `q` go to the parameters that are marked for them, and nothing else is
  changed;
* along any order, of this graph or of another one, that has another vertex at the place of
  an entry that is visited, or none, both fail for this reason. -/
theorem refresh_as_compiled [Laned.Lawful K E] [Laned.Extensional K E] (hroot : root < g.size)
    (hp : g.compile (g.order root) = .ok p) (hq : Version p q) :
    (∀ cs : List (DiffGraph.Call K E),
      (∀ c ∈ cs, ∀ n ∈ c.targets, g.dag.Below root n → g.marked n = true) →
      let now := DiffGraph.Call.runs cs g
      ∃ q' fresh v, (refreshValues (g.order root)).run (now, q) = .ok () (now, q') ∧
        Wrote (Dynamic p.code) q q' ∧ now.compile (g.order root) = .ok fresh ∧
        result.answer q' = .ok v ∧ result.answer (fresh.convert : Program T) = .ok v ∧
        (result.final q').values = (result.final (fresh.convert : Program T)).values) ∧
    (∀ cs : List (DiffGraph.Call K E),
      let now := DiffGraph.Call.runs cs g
      ∃ t', (q.deliverGrads (g.order root)).run now = .ok () t' ∧ now.Beside t' ∧
        (∀ n, g.Receives (g.order root) n → t'.cell n = { now.cell n with
          grad := (now.grad n).addEach (Laned.fold (q.grad ((g.order root).idxOf n))) }) ∧
        ∀ n, ¬ g.Receives (g.order root) n → t'.cell n = now.cell n) ∧
    ∀ {S : Type} [Arith S] [Laned K S] (t : Graph K S), g.Coexists t → ∀ order,
      ((∃ e ∈ q.code.entries, (q.code.instr e.index).isParameter = true ∧
          Misplaced t order e) →
        ∃ e ∈ q.code.entries, ((q.code.instr e.index).isParameter = true ∧
          Misplaced t order e) ∧ (refreshValues order).answer (t, q) = .error (mismatch order e)) ∧
      ((∃ e ∈ q.code.entries, q.delivers e = true ∧ Misplaced t order e) →
        ∃ e ∈ q.code.entries, (q.delivers e = true ∧ Misplaced t order e) ∧
          (q.deliverGrads order).answer t = .error (mismatch order e)) := by
  obtain ⟨hnumeric, hc⟩ := Graph.numeric_of_compile hroot hp
  have hold := hq.holding (Graph.intact_of_compile hp).1
  have hcq : Graph.Compiled g (g.order root) q.code p.values := hold.intact.code ▸ hc
  refine ⟨fun cs hcs => ?_, fun cs => ?_, fun t ht order => ⟨?_, ?_⟩⟩
  · intro now
    have he := DiffGraph.Call.runs_edits cs g
    obtain ⟨q', hrun, hwrote, hvalue⟩ := hold.run_refreshValues hroot hp he fun n hn => by
      obtain ⟨c, hc, hn⟩ := List.mem_flatMap.1 hn
      exact hcs c hc n hn
    have hroot' : root < now.size := hroot.trans_le he.extends.size
    obtain ⟨fresh, hfresh, hc', -⟩ := Graph.compile_order hroot' (he.numeric hroot hnumeric).kind
      (he.numeric hroot hnumeric).parameter
    rw [he.extends.order hroot] at hfresh hc'
    have hq' := hold.intact.wrote hwrote
    have hvalues := values_forward_of_number (hq'.code.symm ▸ hc) hc'
      (fun n hn => he.extends.op n (((Graph.mem_order hroot).1 hn).le.trans_lt hroot))
      (hq'.size_values.trans (congrArg Code.size hq'.code).symm) (hq'.code.symm ▸ hvalue)
    have hpos : p.code.size ≠ 0 := hc.size_ne_zero hroot
    have hrun' := hq'.run_result hpos
    have hrun'' := (Graph.intact_of_compile hfresh).1.convert (U := T) |>.run_result <| by
      rwa [hc'.size, ← hc.size]
    have hv : (fresh.convert : Program T).forward.value (fresh.code.size - 1) =
        q'.forward.value (p.code.size - 1) := by
      rw [value, value, hvalues, hc'.size, hc.size]
    refine ⟨q', fresh, _, hrun, hwrote, hfresh, Step.answer_of_run_ok hrun',
      hv ▸ Step.answer_of_run_ok hrun'', ?_⟩
    rw [Step.final_of_run_ok hrun', Step.final_of_run_ok hrun'', hvalues]
  · intro now
    obtain ⟨t', hrun, hbeside, hnew, hrest⟩ := run_deliverGrads hcq (Dag.nodup_traverse root)
      (DiffGraph.Call.runs_edits cs g).tag
    refine ⟨t', hrun, hbeside, fun n hn => hnew n hn ?_, hrest⟩
    have hlt : n < g.size := ((Graph.mem_order hroot).1 hn.mem).le.trans_lt hroot
    exact hlt.trans_le (DiffGraph.Call.runs_edits cs g).extends.size
  · exact answer_refreshValues_of_misplaced (ht.readable hroot hnumeric hcq)
  · exact answer_deliverGrads_of_misplaced

end

/-- A program was loaded, widened and run, and the graph was written to; refreshed, it
squares three. -/
theorem refresh_as_compiled_trackedSquare :
    ∃ p q : Program Float32, trackedSquare.compile [0, 1] = .ok p ∧
      (Projection.make trackedSquare (.scalar 0) p).loadSplat (.scalar 7) p = .ok q ∧
      let wide : Program (Lanes Float32 2) := Call.result.run.final q.convert
      let now := DiffGraph.Call.runs [.assign 0 3] trackedSquare
      (∃ q' v, (refreshValues [0, 1]).run (now, wide) = .ok () (now, q') ∧
        result.answer q' = .ok v ∧ Laned.lane v 1 = 9) ∧
      (refreshValues [1]).answer (now, wide) = .error (.otherNode 0 0 1) ∧
      (wide.deliverGrads []).answer now = .error (.shortOrder 0 0 0) := by
  let now := DiffGraph.Call.runs [.assign 0 3] trackedSquare
  have hcompile : (trackedSquare.compile [0, 1] >>= fun p =>
      (Projection.make trackedSquare (.scalar 0) p).loadSplat (.scalar 7) p >>= fun q =>
        .ok (q.code.entries, (q.code.instr 0).isParameter, q.code.tracked 0)) =
      .ok ([⟨0, ⟨0, 0⟩⟩], true, true) := by
    decide +kernel
  have hnine : (now.compile [0, 1] >>= fun fresh =>
      (result.answer (fresh.convert : Program (Lanes Float32 2))).map (Laned.lane · 1)) =
      .ok 9 := by
    decide +kernel
  obtain ⟨p, hp, hrest⟩ := bind_eq_ok.1 hcompile
  obtain ⟨q, hq, hcode⟩ := bind_eq_ok.1 hrest
  refine ⟨p, q, hp, hq, ?_⟩
  intro wide now
  have hversion : Version p wide := by
    have hproper : (Projection.make trackedSquare (.scalar 0) p).Proper p.code :=
      Projection.proper_make trackedSquare _ p
    exact .act (.converted (.single (.loadSplat hproper _ hq))) (.call .result _)
  obtain ⟨hentries, hparameter, htracked⟩ : wide.code.entries = [⟨0, ⟨0, 0⟩⟩] ∧
      (wide.code.instr 0).isParameter = true ∧ wide.code.tracked 0 = true := by
    have hwide : wide.code = q.code := (reran_call .result q.convert).code
    rw [hwide]
    simpa using hcode
  have hmem : ⟨0, ⟨0, 0⟩⟩ ∈ wide.code.entries := by
    rw [hentries]
    exact List.mem_singleton_self _
  obtain ⟨hrefresh, -, hrefuse⟩ := refresh_as_compiled (by decide +kernel)
    (order_trackedSquare.symm ▸ hp) hversion
  rw [order_trackedSquare] at hrefresh
  refine ⟨?_, ?_, ?_⟩
  · obtain ⟨q', fresh, v, hrun, -, hfresh, hv, hv', -⟩ := hrefresh [.assign 0 3]
      fun c hc n hn _ => by
        obtain rfl := List.mem_singleton.1 hc
        obtain rfl := List.mem_singleton.1 hn
        decide +kernel
    refine ⟨q', v, hrun, hv, ?_⟩
    rw [hfresh, ok_bind, hv'] at hnine
    exact Except.ok.inj hnine
  · obtain ⟨e, he, -, hanswer⟩ := (hrefuse now (.later [.assign 0 3]) [1]).1
      ⟨_, hmem, hparameter, fun n hn hid => by
        obtain rfl : 1 = n := Option.some.inj hn
        exact Nat.one_ne_zero (congrArg NodeId.node hid)⟩
    rw [hentries, List.mem_singleton] at he
    rw [hanswer, he]
    rfl
  · obtain ⟨e, he, -, hanswer⟩ := (hrefuse now (.later [.assign 0 3]) []).2
      ⟨_, hmem, by simp [delivers, hparameter, htracked],
        fun n hn => by cases hn⟩
    rw [hentries, List.mem_singleton] at he
    rw [hanswer, he]
    rfl

/-- Two times three; the three is an input. -/
def sixOfInput : Graph Float32 Float32 :=
  DiffGraph.Call.runs [.parameter (.scalar 2), .parameter (.scalar 3), .record (.mul 0 1),
    .setInput 1 true] (.empty 0 ⟨fun _ => 0, fun _ => 0⟩)

/-- **A projection of another program can write where nothing is read again.**  The three is
an input of one program, the two of another one with the same instructions.  A seven that a
projection of the first writes to the second stays when that one is refreshed, and it gives
fourteen where a program that is compiled now gives six. -/
theorem stale_after_foreign_load :
    let g := DiffGraph.Call.runs [.setInput 1 false, .setInput 0 true] sixOfInput
    g.order 2 = [0, 1, 2] ∧
    ∃ other p q q' : Program Float32,
      sixOfInput.compile [0, 1, 2] = .ok other ∧ g.compile [0, 1, 2] = .ok p ∧
      (Projection.make sixOfInput (.scalar 1) other).loadSplat (.scalar 7) p = .ok q ∧
      (refreshValues [0, 1, 2]).run (g, q) = .ok () (g, q') ∧
      result.answer q' = .ok 14 ∧ result.answer p = .ok 6 := by
  intro g
  have horder : g.order 2 = [0, 1, 2] := by
    have hsize : g.dag.size = 3 := by decide +kernel
    have hops : g.dag.operands 2 = [0, 1] ∧ g.dag.operands 1 = [] ∧ g.dag.operands 0 = [] := by
      decide +kernel
    simp [Graph.order, Dag.traverse, Dag.visit, hsize, hops]
  have hcompile : (sixOfInput.compile [0, 1, 2] >>= fun other => g.compile [0, 1, 2] >>= fun p =>
      (Projection.make sixOfInput (.scalar 1) other).loadSplat (.scalar 7) p >>= fun q =>
        .ok (q.code.entries, (q.code.instr 0).isParameter,
          result.answer (q.setValue 0 (Laned.broadcast (g.number 0))), result.answer p)) =
      .ok ([⟨0, ⟨0, 0⟩⟩], true, .ok 14, .ok 6) := by
    decide +kernel
  obtain ⟨other, hother, hrest⟩ := bind_eq_ok.1 hcompile
  obtain ⟨p, hp, hrest⟩ := bind_eq_ok.1 hrest
  obtain ⟨q, hq, hall⟩ := bind_eq_ok.1 hrest
  obtain ⟨hentries, hparameter, hstale, hsix⟩ : q.code.entries = [⟨0, ⟨0, 0⟩⟩] ∧
      (q.code.instr 0).isParameter = true ∧
      result.answer (q.setValue 0 (Laned.broadcast (g.number 0))) = .ok 14 ∧
      result.answer p = .ok 6 := by
    simpa using hall
  refine ⟨horder, other, p, q, _, hother, hp, hq, ?_, hstale, hsix⟩
  have hone : (refreshValue [0, 1, 2] ⟨0, ⟨0, 0⟩⟩).run (g, q) =
      .ok () (g, q.setValue 0 (Laned.broadcast (g.number 0))) :=
    run_refreshValue hparameter (entryNode_eq_ok.2 ⟨rfl, rfl⟩) (by decide +kernel)
      (by decide +kernel)
  simp only [refreshValues, EStateM.run_bind, EStateM.run_get, hentries, List.forM_eq_forM,
    List.forM_cons, List.forM_nil, hone]
  rfl

end Program

end DiffGraph
