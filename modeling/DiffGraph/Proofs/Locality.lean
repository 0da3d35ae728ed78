/-
  Calls that stay in one place.

  Parts of a graph that do not reach each other can be worked on in any order.

  * `Patched`: two graphs agree in a place, and one of them was changed in this place only;
  * `Call.Within`: a call changes a place, and reads nothing but this place and another;
  * `Call.patched`: such a call acts alike on two graphs that agree there, and changes
    nothing elsewhere;
  * `Call.run_interleaved`: if the calls of each party stay in its own place, any
    interleaving of them leaves every place as the party alone leaves it.
-/
import DiffGraph.Proofs.Denotation
import DiffGraph.Proofs.Renaming
import DiffGraph.Proofs.StoredShapes

namespace DiffGraph

variable {K E : Type}

namespace Graph

/-- The vertices `R` and `Q` are the same in `s` and `t`, and `s` differs from `g` in `Q`
only. -/
structure Patched (R Q : Node → Prop) (g s t : Graph K E) : Prop where
  dag : s.dag = g.dag
  dag' : t.dag = g.dag
  noise : s.noise = g.noise
  noise' : t.noise = g.noise
  read : ∀ n, R n → s.cell n = t.cell n
  cell : ∀ n, Q n → s.cell n = t.cell n
  old : ∀ n, ¬ Q n → s.cell n = g.cell n

namespace Patched

variable {R Q : Node → Prop} {g s t : Graph K E} {n : Node}

theorem op (h : Patched R Q g s t) (n : Node) : s.op n = t.op n := by
  rw [Graph.op, Graph.op, h.dag, h.dag']

theorem op' (h : Patched R Q g s t) (n : Node) : t.op n = g.op n := by
  rw [Graph.op, Graph.op, h.dag']

theorem isParameter (h : Patched R Q g s t) (n : Node) : s.isParameter n = t.isParameter n := by
  rw [Graph.isParameter, Graph.isParameter, h.op]

theorem value (h : Patched R Q g s t) (hn : Q n) : s.value n = t.value n :=
  congrArg Cell.value (h.cell n hn)

/-- Both cells are changed in the same way. -/
theorem update (h : Patched R Q g s t) (hn : Q n) (f : Cell E → Cell E) :
    Patched R Q g (s.update n f) (t.update n f) := by
  have hsize : s.size = t.size := congrArg Dag.size (h.dag.trans h.dag'.symm)
  have hcell : ∀ m, s.cell m = t.cell m → (s.update n f).cell m = (t.update n f).cell m := by
    intro m hm
    rw [cell_update, cell_update, hsize, h.cell n hn, hm]
  refine ⟨h.dag, h.dag', h.noise, h.noise', fun m hm => hcell m (h.read m hm),
    fun m hm => hcell m (h.cell m hm), fun m hm => ?_⟩
  have hne : n ≠ m := fun hnm => hm (hnm ▸ hn)
  rw [cell_update_of_ne s hne, h.old m hm]

theorem use (h : Patched R Q g s t) (i j : Nat) : Patched R Q g (s.use i) (t.use j) :=
  ⟨h.dag, h.dag', h.noise, h.noise', h.read, h.cell, h.old⟩

/-- The same change along an order. -/
theorem modify {f : Graph K E → Node → Graph K E} {order : List Node}
    (hf : ∀ n, Q n → ∀ s t, Patched R Q g s t → Patched R Q g (f s n) (f t n))
    (ho : ∀ n ∈ order, Q n) (h : Patched R Q g s t) :
    Alike (fun _ _ => True) (Patched R Q g)
      ((modify fun s => order.foldl f s : Step (Graph K E) PUnit).run s)
      ((modify fun t => order.foldl f t : Step (Graph K E) PUnit).run t) := by
  refine .ok trivial ?_
  induction order generalizing s t with
  | nil => exact h
  | cons n ns ih =>
    exact ih (fun m hm => ho m (List.mem_cons_of_mem n hm))
      (hf n (ho n List.mem_cons_self) s t h)

/-! ## Parts of calls -/

theorem alter (h : Patched R Q g s t) (hn : Q n) (operation : String)
    (f : Matrix E → Except Failure (Matrix E)) :
    Alike (fun _ _ => True) (Patched R Q g) ((Graph.alter operation n f).run s)
      ((Graph.alter operation n f).run t) := by
  simp only [Graph.alter, EStateM.run_bind, EStateM.run_get, h.isParameter, h.value hn]
  split
  · exact .error h
  · cases f (t.value n) with
    | error e => exact .error h
    | ok v => exact .ok trivial (h.update hn _)

theorem checkAlike (h : Patched R Q g s t) (a b : List Node) :
    s.checkAlike a b = t.checkAlike a b := by
  have hkind : s.kind = t.kind := funext fun n => congrArg Op.kind (h.op n)
  rw [Graph.checkAlike, Graph.checkAlike, Graph.unlike?, Graph.unlike?, hkind]

theorem setValue (h : Patched R Q g s t) (hn : Q n) (v : Matrix E) :
    Alike (fun _ _ => True) (Patched R Q g) ((Graph.setValue n v).run s)
      ((Graph.setValue n v).run t) := h.alter hn _ _

theorem copyParameter (h : Patched R Q g s t) {source target : Node} (hs : R source)
    (ht : Q target) :
    Alike (fun _ _ => True) (Patched R Q g) ((Graph.copyParameter source target).run s)
      ((Graph.copyParameter source target).run t) := by
  have hvalue : s.value source = t.value source := congrArg Cell.value (h.read source hs)
  simp only [Graph.copyParameter, EStateM.run_bind, EStateM.run_get, h.isParameter, hvalue]
  split
  · exact h.alter ht _ _
  · exact .ok trivial h

theorem copyParameters (h : Patched R Q g s t) {order replica : List Node}
    (ho : ∀ n ∈ order, R n) (hr : ∀ n ∈ replica, Q n) :
    Alike (fun _ _ => True) (Patched R Q g) ((Graph.copyParameters order replica).run s)
      ((Graph.copyParameters order replica).run t) := by
  have hrun : ∀ g : Graph K E, (Graph.copyParameters order replica).run g =
      (Step.ofExcept (g.checkAlike order replica) >>= fun _ =>
        (order.zip replica).forM fun p => Graph.copyParameter p.1 p.2).run g := fun _ => rfl
  rw [hrun, hrun, h.checkAlike]
  refine .ofExcept_bind h fun _ _ => .forM (fun p hp s t h => ?_) h
  exact h.copyParameter (ho _ (List.of_mem_zip hp).1) (hr _ (List.of_mem_zip hp).2)

/-- The same vertices are missing below a root. -/
theorem missing (h : Patched R Q g s t) {root : Node} (hroot : root < g.size)
    (hQ : ∀ n, g.dag.Below root n → Q n) : s.missing root = t.missing root := by
  have hvalue : ∀ n, g.dag.Below root n → s.hasValue n = t.hasValue n := fun n hn => by
    rw [Graph.hasValue, Graph.hasValue, h.cell n (hQ n hn), h.isParameter]
  have hdescend : ∀ n, g.dag.Below root n → (! s.hasValue n) = ! t.hasValue n := fun n hn =>
    congrArg not (hvalue n hn)
  rw [Graph.missing, Graph.missing, h.dag, h.dag',
    (Dag.Renamed.refl g.dag root).traverse hroot hroot hdescend, List.map_id']

section
variable [Arith E]

theorem collectOne (h : Patched R Q g s t) (hn : Q n) :
    Alike (fun _ _ => True) (Patched R Q g) ((Graph.collectOne n).run s)
      ((Graph.collectOne n).run t) := by
  have hrun : ∀ g : Graph K E, (Graph.collectOne n).run g =
      (Step.ofExcept (g.cell n).collect >>= fun c =>
        (set (g.update n fun _ => c) : Step (Graph K E) Unit)).run g := fun _ => rfl
  rw [hrun, hrun, h.cell n hn]
  exact .ofExcept_bind h fun c _ => .ok trivial (h.update hn _)

theorem receive (h : Patched R Q g s t) (hn : Q n) (p : Push E) :
    Alike (fun _ _ => True) (Patched R Q g) ((Graph.receive n p).run s)
      ((Graph.receive n p).run t) := by
  have hrun : ∀ g : Graph K E, (Graph.receive n p).run g =
      (Step.ofExcept (p.apply (g.grad n)) >>= fun grad =>
        (set (g.update n fun c => { c with grad := grad }) : Step (Graph K E) Unit)).run g :=
    fun _ => rfl
  have hgrad : s.grad n = t.grad n := congrArg Cell.grad (h.cell n hn)
  rw [hrun, hrun, hgrad]
  exact .ofExcept_bind h fun grad _ => .ok trivial (h.update hn _)

theorem propagate (h : Patched R Q g s t) (hn : Q n) (ho : ∀ c ∈ (g.op n).operands, Q c) :
    Alike (fun _ _ => True) (Patched R Q g) ((Graph.propagate n).run s)
      ((Graph.propagate n).run t) := by
  have hrun : ∀ g : Graph K E, (Graph.propagate n).run g =
      (Step.ofExcept (g.pushes n) >>= fun ps => ps.forM fun x => Graph.receive x.1 x.2).run g :=
    fun _ => rfl
  have hpushes : s.pushes n = t.pushes n := by
    rw [Graph.pushes, Graph.pushes, h.cell n hn, h.op]
    exact Op.pushes_congr fun c hc => h.value (ho c (h.op' n ▸ hc))
  rw [hrun, hrun, hpushes]
  refine .ofExcept_bind h fun ps hps => ?_
  have hmem : ∀ x ∈ ps, x.1 ∈ (g.op n).operands := fun x hx => by
    rw [← h.op' n, ← Op.map_fst_pushes hps]
    exact List.mem_map_of_mem hx
  exact .forM (fun x hx s t h => h.receive (ho x.1 (hmem x hx)) x.2) h

end

section
variable [Scalar K] [Arith E] [Laned K E]

/-- A vertex that keeps all entries is evaluated alike, whatever was drawn before. -/
theorem evaluateOne (h : Patched R Q g s t) (hn : Q n) (ho : ∀ c ∈ (g.op n).operands, Q c)
    (hk : (g.op n).Keeps) (hnoise : g.noise.Nonneg) :
    Alike (fun _ _ => True) (Patched R Q g) ((Graph.evaluateOne n).run s)
      ((Graph.evaluateOne n).run t) := by
  have hcompute : s.compute n = t.compute n := by
    have hval : ∀ c ∈ (t.op n).operands, s.value c = t.value c := fun c hc =>
      h.value (ho c (h.op' n ▸ hc))
    rw [Graph.compute, Graph.compute, h.op, h.value hn, h.noise, h.noise',
      Op.freshMask_congr hval]
    simp only [Op.freshMask_of_keeps (h.op' n ▸ hk) hnoise hnoise, Op.value_congr hval]
  rw [run_evaluateOne, run_evaluateOne, hcompute]
  cases t.compute n with
  | error e => exact .error h
  | ok x => exact .ok trivial ((h.update hn _).use _ _)

/-- A reverse pass within a place. -/
theorem reverseAlong (h : Patched R Q g s t) {root : Node} {order : List Node}
    (hroot : root < g.size) (hQ : ∀ n, g.dag.Below root n → Q n) (hk : g.Keeps root)
    (hnoise : g.noise.Nonneg) (ho : ∀ n ∈ order, g.dag.Below root n) :
    Alike (fun _ _ => True) (Patched R Q g) ((Graph.reverseAlong root order).run s)
      ((Graph.reverseAlong root order).run t) := by
  have hevaluate : Alike (fun _ _ => True) (Patched R Q g) ((Graph.evaluate root).run s)
      ((Graph.evaluate root).run t) := by
    have hbelow : ∀ n ∈ t.missing root, g.dag.Below root n := fun n hn =>
      h.dag' ▸ below_of_mem_missing (hroot.trans_eq (congrArg Dag.size h.dag').symm) hn
    rw [run_evaluate_of_missing (h.missing hroot hQ), run_evaluate_of_missing rfl]
    refine .forM (fun n hn s t h => ?_) h
    exact h.evaluateOne (hQ n (hbelow n hn)) (fun c hc => hQ c ((hbelow n hn).operand hc))
      (hk n (hbelow n hn)) hnoise
  refine hevaluate.bind fun _ _ s t _ h => ?_
  have hseed : Alike (fun _ _ => True) (Patched R Q g) ((Graph.seed root).run s)
      ((Graph.seed root).run t) := .ok trivial (h.update (hQ root (.refl _ _)) _)
  refine hseed.bind fun _ _ s t _ h => .forM (fun n hn s t h => ?_) h
  have hb := ho n (List.mem_reverse.1 hn)
  exact h.propagate (hQ n hb) fun c hc => hQ c (hb.operand hc)

end

end Patched

end Graph

/-! ## Calls -/

namespace Call

variable {R Q : Node → Prop} {g s t t' : Graph K E}

/-- The call changes vertices of `Q` only, and what it does depends on `R` and `Q` only. -/
def Within [Scalar K] (g : Graph K E) (R Q : Node → Prop) : Call K E → Prop
  | reset order | collect order | endBatch order => ∀ n ∈ order, Q n
  | setValue n _ => Q n
  | copyParameters order replica => (∀ n ∈ order, R n) ∧ ∀ n ∈ replica, Q n
  | reverseAlong root order =>
    root < g.size ∧ (∀ n, g.dag.Below root n → Q n) ∧ g.Keeps root ∧
      ∀ n ∈ order, g.dag.Below root n
  | _ => False

variable [Scalar K] [Arith E] [Laned K E]

/-- **A call acts alike** on two graphs that agree where it reads, and changes nothing but
the vertices where it writes. -/
theorem patched {c : Call K E} (hc : c.Within g R Q) (hnoise : g.noise.Nonneg)
    (h : Graph.Patched R Q g s t) :
    Alike (fun _ _ => True) (Graph.Patched R Q g) (c.run.run s) (c.run.run t) := by
  cases c with
  | reset order =>
    refine Graph.Patched.modify (fun n hn s t h => ?_) hc h
    simp only [h.isParameter]
    split
    · exact h.update hn _
    · exact h.update hn _
  | collect order => exact .forM (fun n hn s t h => h.collectOne (hc n hn)) h
  | endBatch order => exact Graph.Patched.modify (fun n hn s t h => h.update hn _) hc h
  | setValue n value => exact h.setValue hc value
  | copyParameters order replica => exact h.copyParameters hc.1 hc.2
  | reverseAlong root order =>
    obtain ⟨hroot, hQ, hk, ho⟩ := hc
    exact h.reverseAlong hroot hQ hk hnoise ho
  | _ => exact hc.elim

omit [Arith E] [Laned K E] in
theorem Within.of_dag {c : Call K E} (hc : c.Within g R Q) (hdag : s.dag = g.dag) :
    c.Within s R Q := by
  cases c with
  | reverseAlong root order =>
    obtain ⟨hroot, hQ, hk, ho⟩ := hc
    refine ⟨hroot.trans_eq (congrArg Dag.size hdag.symm), ?_, fun n hn => ?_, ?_⟩
    · rwa [hdag]
    · rw [hdag] at hn
      rw [Graph.op, hdag]
      exact hk n hn
    · rwa [hdag]
  | _ => exact hc

omit [Arith E] [Laned K E] in
theorem Within.fair {c : Call K E} (hc : c.Within g R Q) (s : Graph K E) : c.Fair s := by
  cases c with
  | mergeGrads order replica => exact hc.elim
  | _ => trivial

/-! ## Interleavings -/

section
variable {ι : Type} [DecidableEq ι] {Q : ι → Node → Prop} {pre ts : List (ι × Call K E)}
  {calls : ι → List (Call K E)}

omit [Scalar K] [Arith E] [Laned K E] in
/-- The calls of one party. -/
def ofParty (ts : List (ι × Call K E)) (j : ι) : List (Call K E) :=
  (ts.filter fun t => t.1 = j).map Prod.snd

omit [Scalar K] [Arith E] [Laned K E] in
theorem ofParty_append (ts ts' : List (ι × Call K E)) (j : ι) :
    ofParty (ts ++ ts') j = ofParty ts j ++ ofParty ts' j := by
  rw [ofParty, List.filter_append, List.map_append]
  rfl

omit [Scalar K] [Arith E] [Laned K E] in
theorem ofParty_cons (j : ι) (c : Call K E) (ts : List (ι × Call K E)) :
    ofParty ((j, c) :: ts) j = c :: ofParty ts j := by
  rw [ofParty, List.filter_cons_of_pos (by simp)]
  rfl

omit [Scalar K] [Arith E] [Laned K E] in
theorem ofParty_of_ne {i j : ι} (h : j ≠ i) (c : Call K E) : ofParty [(j, c)] i = [] := by
  simp [ofParty, h]

omit [Scalar K] [Arith E] [Laned K E] in
theorem mem_ofParty {t : ι × Call K E} (h : t ∈ ts) : t.2 ∈ ofParty ts t.1 :=
  List.mem_map_of_mem (List.mem_filter.2 ⟨h, by simp⟩)

/-- After the calls `pre` every place is as its party alone leaves it. -/
structure Together (g : Graph K E) (R : Node → Prop) (Q : ι → Node → Prop)
    (pre : List (ι × Call K E)) (s : Graph K E) : Prop where
  dag : s.dag = g.dag
  noise : s.noise = g.noise
  old : ∀ n, (∀ j, ¬ Q j n) → s.cell n = g.cell n
  alone : ∀ j, ∃ t, ((ofParty pre j).forM run).run g = .ok () t ∧ Graph.Patched R (Q j) s s t

/-- **Parties do not meet.**  If the calls of each party stay in its own place, and succeed
without those of the others, any interleaving of them succeeds and leaves every place as its
party alone leaves it. -/
theorem run_interleaved (hnoise : g.noise.Nonneg) (hread : ∀ j n, R n → ¬ Q j n)
    (hapart : ∀ i j n, Q i n → Q j n → i = j)
    (hcalls : ∀ j, ∀ c ∈ ofParty ts j, c.Within g R (Q j))
    (halone : ∀ j, ∃ t, ((ofParty ts j).forM run).run g = .ok () t) :
    ∃ s, (ts.forM fun t => t.2.run).run g = .ok () s ∧ Together g R Q ts s := by
  refine Step.run_forM_ok (Together g R Q) ?_
    ⟨rfl, rfl, fun _ _ => rfl, fun j => ⟨g, rfl, rfl, rfl, rfl, rfl, fun _ _ => rfl,
      fun _ _ => rfl, fun _ _ => rfl⟩⟩
  rintro pre ⟨j, c⟩ post s rfl h
  obtain ⟨t, hrt, hpatched⟩ := h.alone j
  -- the party alone goes on with this call
  obtain ⟨t', hrt'⟩ : ∃ t', c.run.run t = .ok () t' := by
    obtain ⟨u, hu⟩ := halone j
    rw [ofParty_append, ofParty_cons, Step.run_forM_append hrt] at hu
    obtain ⟨t', hrt', -⟩ := Step.exists_run_of_forM_cons hu
    exact ⟨t', hrt'⟩
  have hwithin : c.Within s R (Q j) := by
    refine (hcalls j c ?_).of_dag h.dag
    rw [ofParty_append, ofParty_cons]
    exact List.mem_append_right _ List.mem_cons_self
  have halike := patched hwithin (h.noise ▸ hnoise) hpatched
  rw [hrt'] at halike
  cases hrs : c.run.run s with
  | error e s' => rw [hrs] at halike; cases halike
  | ok _ s' =>
    rw [hrs] at halike
    obtain ⟨-, hpatched'⟩ := halike
    refine ⟨s', rfl, hpatched'.dag.trans h.dag, hpatched'.noise.trans h.noise, ?_, fun i => ?_⟩
    · intro n hn
      rw [hpatched'.old n (hn j), h.old n hn]
    · by_cases hij : j = i
      · subst hij
        refine ⟨t', ?_, ⟨rfl, hpatched'.dag'.trans hpatched'.dag.symm, rfl,
          hpatched'.noise'.trans hpatched'.noise.symm, hpatched'.read, hpatched'.cell,
          fun _ _ => rfl⟩⟩
        rw [ofParty_append, ofParty_cons, Step.run_forM_append hrt, Step.run_forM_cons hrt']
        rfl
      · obtain ⟨u, hu, hother⟩ := h.alone i
        rw [ofParty_append, ofParty_of_ne hij, List.append_nil]
        refine ⟨u, hu, ⟨rfl, hother.dag'.trans hpatched'.dag.symm, rfl,
          hother.noise'.trans hpatched'.noise.symm, fun n hn => ?_, fun n hn => ?_,
          fun _ _ => rfl⟩⟩
        · rw [hpatched'.old n (hread j n hn), hother.read n hn]
        · rw [hpatched'.old n fun hn' => hij (hapart j i n hn' hn), hother.cell n hn]

end

end Call

end DiffGraph
