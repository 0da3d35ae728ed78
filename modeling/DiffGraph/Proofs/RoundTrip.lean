/-
  From a block into a program and back.

  * `Projection.slot_make`: a cell is mapped to the place of its vertex if that has an entry
    in the program, and to nothing else;
  * `Graph.run_scalarOf_later`: a vertex that can be read as a number can still be read when
    others have been evaluated;
  * `Projection.run_load`, `run_unload`: what a block that can be read writes to a program,
    and what a program writes to a block of distinct parameters.

  Elements that come back to their own width are as before (`Laned.broadcast_broadcast`), so
  the values of a block that was loaded are unloaded unchanged (`load_unload`).
-/
import DiffGraph.Proofs.Folding
import DiffGraph.Proofs.Reading

namespace DiffGraph

variable {K E R S T : Type}

namespace Graph

/-! ## Reading a number -/

variable [Scalar K] [Arith S] [Laned K S] {g : Graph K S} {n : Node}

/-- **A vertex that can be read as a number can be read later**, when others have been
evaluated. -/
theorem run_scalarOf_later (hg : Reachable g) {v : S} (h : (scalarOf n).answer g = .ok v)
    {s : Graph K S} (hs : Reachable s) (ht : Turns [] g s) :
    ∃ s', (scalarOf n).run s = .ok (s'.number n) s' ∧ Reachable s' ∧ Turns [] g s' ∧
      s.Filled (s.dag.Below n) s' ∧ s'.hasValue n = true ∧ (s'.value n).isScalar = true := by
  have hread : s.Readable n := (readable_of_answer hg h).of_edits ht.edits
  obtain ⟨s', he, hr, hs'⟩ := hread.run_scalarOf fun m _ => fits_of_reachable hs m
  refine ⟨s', hr, Step.final_of_run_ok he ▸ hs.call (.evaluate n),
    ht.trans (evaluated_of_run_ok he).2, ?_, hs'.hasValue, ?_⟩
  · exact .of_moves ((leads_scalarOf s n).moves hr)
  · rw [hs'.value, Matrix.isScalar_scalar]

end Graph

namespace Projection

/-! ## Which cells are mapped -/

/-- Among entries of different vertices, an entry is found by its vertex. -/
theorem find?_eq_some_iff {es : List Entry} (h : (es.map Entry.node).Nodup) {x : NodeId}
    {i : Nat} :
    (es.find? fun e => e.node = x).map Entry.index = some i ↔ (⟨i, x⟩ : Entry) ∈ es := by
  rw [Option.map_eq_some_iff]
  constructor
  · rintro ⟨e, he, rfl⟩
    have hx : e.node = x := by simpa using List.find?_some he
    exact hx ▸ List.mem_of_find?_eq_some he
  · intro hmem
    have hsome : (es.find? fun e => e.node = x).isSome :=
      List.find?_isSome.2 ⟨_, hmem, by simp⟩
    obtain ⟨e, he⟩ := Option.isSome_iff_exists.1 hsome
    have hx : e.node = x := by simpa using List.find?_some he
    have heq := List.inj_on_of_nodup_map h (List.mem_of_find?_eq_some he) hmem hx
    exact ⟨e, he, by rw [heq]⟩

variable {s : Graph K S} {b : Block} {r : Program R} {n : Node} {i k : Nat}

/-- **A cell is mapped to the place of its vertex**, if that has an entry. -/
theorem slot_make (h : (r.code.entries.map Entry.node).Nodup) (hn : b.nodes[k]? = some n) :
    ∃ slot, (make s b r).slots.data[k]? = some slot ∧
      ∀ i, slot = some i ↔ (⟨i, s.id n⟩ : Entry) ∈ r.code.entries := by
  refine ⟨_, ?_, fun i => find?_eq_some_iff h⟩
  rw [Block.nodes, Array.getElem?_toList] at hn
  rw [make, Matrix.map, Array.getElem?_map, hn]
  rfl

/-- A cell and its item are paired up. -/
theorem mem_pairs {A : Type} {j : Projection} {m : Matrix A} {c : A × Nat} :
    c ∈ j.pairs m ↔
      ∃ k : Nat, m.data.toList[k]? = some c.1 ∧ j.slots.data[k]? = some (some c.2) := by
  rw [pairs, List.mem_filterMap]
  constructor
  · rintro ⟨⟨a, slot⟩, hmem, hc⟩
    obtain ⟨i, rfl, rfl⟩ := Option.map_eq_some_iff.1 hc
    obtain ⟨k, hk⟩ := List.mem_iff_getElem?.1 hmem
    obtain ⟨ha, hslot⟩ := List.getElem?_zip_eq_some.1 hk
    exact ⟨k, ha, by rwa [← Array.getElem?_toList]⟩
  · rintro ⟨k, ha, hslot⟩
    rw [← Array.getElem?_toList] at hslot
    refine ⟨(c.1, some c.2), List.mem_iff_getElem?.2 ⟨k, ?_⟩, rfl⟩
    exact List.getElem?_zip_eq_some.2 ⟨ha, hslot⟩

/-- A cell that has an item is the vertex of its entry. -/
theorem entry_of_mem_pairs (h : (r.code.entries.map Entry.node).Nodup) {c : Node × Nat}
    (hc : c ∈ (make s b r).pairs b) : (⟨c.2, s.id c.1⟩ : Entry) ∈ r.code.entries := by
  obtain ⟨k, hn, hslot⟩ := mem_pairs.1 hc
  obtain ⟨slot, hk, hiff⟩ := slot_make (s := s) h hn
  rw [hk] at hslot
  exact (hiff c.2).1 (Option.some.inj hslot)

/-- The cells that have an item are cells of the block, in its order. -/
theorem sublist_cells (j : Projection) (b : Block) : (j.cells b).Sublist b.nodes := by
  unfold cells pairs Block.nodes
  generalize b.data.toList = ns
  generalize j.slots.data.toList = slots
  induction ns generalizing slots with
  | nil => exact List.Sublist.refl _
  | cons n ns ih =>
    cases slots with
    | nil => exact List.nil_sublist _
    | cons slot slots =>
      cases slot with
      | none => exact (ih slots).cons n
      | some i => exact (ih slots).cons_cons n

/-- Where vertices are distinct, one that is not mapped is no cell of the projection. -/
theorem not_mem_cells {j : Projection} {b : Block} (hb : b.nodes.Nodup) (hn : b.nodes[k]? = some n)
    (hslot : j.slots.data[k]? = some none) : n ∉ j.cells b := by
  intro hmem
  obtain ⟨c, hc, rfl⟩ := List.mem_map.1 hmem
  obtain ⟨k', hn', hslot'⟩ := mem_pairs.1 hc
  obtain rfl : k = k' := (List.getElem?_inj (List.getElem?_eq_some_iff.1 hn).1 hb).1
    (hn.trans hn'.symm)
  rw [hslot] at hslot'
  cases hslot'

/-! ## Loading and unloading -/

section
variable [Scalar K] [Arith S] [Arith T] [Laned K S] [Laned K T] {j : Projection} {s s' : Graph K S}
  {q q' : Program T} {b out : Block} {u : Graph K S}

/-- The cells `done` were read, and their items hold what was read. -/
structure Carried (s : Graph K S) (q : Program T) (done : List (Node × Nat)) (s' : Graph K S)
    (q' : Program T) : Prop where
  reachable : Reachable s'
  turns : Graph.Turns [] s s'
  size_values : q'.values.size = q.values.size
  hasValue : ∀ c ∈ done, s'.hasValue c.1 = true
  value : ∀ c ∈ done, s'.value c.1 = .scalar (s'.number c.1)
  item : ∀ c ∈ done, q'.value c.2 = Laned.broadcast (s'.number c.1)

/-- One more cell is read. -/
theorem Carried.loadCell {done : List (Node × Nat)} (h : Carried s q done s' q') (hs : Reachable s)
    {c : Node × Nat} {v : S} (hread : (Graph.scalarOf c.1).answer s = .ok v)
    (hlt : c.2 < q.values.size) (hsame : ∀ d ∈ done, d.2 = c.2 → d.1 = c.1) :
    ∃ s'' q'', (Projection.loadCell c).run (s', q') = .ok () (s'', q'') ∧
      Carried s q (done ++ [c]) s'' q'' := by
  obtain ⟨s'', hrun, hs'', hturns, hfilled, hv, hscalar⟩ :=
    Graph.run_scalarOf_later hs hread h.reachable h.turns
  have hcell : ∀ d ∈ done, s''.cell d.1 = s'.cell d.1 := fun d hd =>
    hfilled.cell_of_hasValue (h.hasValue d hd)
  have hnumber : ∀ d ∈ done, s''.number d.1 = s'.number d.1 := fun d hd => by
    rw [Graph.number, Graph.value, hcell d hd]
    rfl
  refine ⟨s'', _, by rw [run_loadCell, hrun], hs'', hturns, ?_, fun d hd => ?_, fun d hd => ?_,
    fun d hd => ?_⟩
  · simpa [Program.setValue] using h.size_values
  all_goals
    rcases List.mem_append.1 hd with hd | hd
  · exact hfilled.hasValue (h.hasValue d hd)
  · exact List.mem_singleton.1 hd ▸ hv
  · rw [hnumber d hd, Graph.value, hcell d hd]
    exact h.value d hd
  · exact List.mem_singleton.1 hd ▸ Matrix.eq_scalar hscalar
  · by_cases hitem : d.2 = c.2
    · rw [hitem, Program.value_setValue_self _ (h.size_values.symm ▸ hlt), hsame d hd hitem]
    · rw [Program.value_setValue_of_ne _ (Ne.symm hitem), hnumber d hd]
      exact h.item d hd
  · rw [List.mem_singleton.1 hd, Program.value_setValue_self _ (h.size_values.symm ▸ hlt)]

/-- **A block that can be read is loaded**, also if it has a cell several times. -/
theorem run_load (hs : Reachable s) (hcheck : j.check q b.shape = .ok ())
    (hread : ∀ c ∈ j.pairs b, ∃ v, (Graph.scalarOf c.1).answer s = .ok v)
    (hlt : ∀ c ∈ j.pairs b, c.2 < q.values.size)
    (hsame : ∀ c ∈ j.pairs b, ∀ d ∈ j.pairs b, d.2 = c.2 → d.1 = c.1) :
    ∃ s' q', (j.load b).run (s, q) = .ok () (s', q') ∧ Carried s q (j.pairs b) s' q' := by
  obtain ⟨⟨s', q'⟩, hrun, h⟩ := Step.run_forM_ok (f := loadCell) (l := j.pairs b) (s := (s, q))
    (fun done t => Carried s q done t.1 t.2)
    (fun done c post t hl ht => by
      have hmem : ∀ d ∈ done, d ∈ j.pairs b := fun d hd => hl ▸ List.mem_append_left _ hd
      have hc : c ∈ j.pairs b := hl ▸ List.mem_append_right _ List.mem_cons_self
      obtain ⟨v, hv⟩ := hread c hc
      obtain ⟨s'', q'', hr, h⟩ := ht.loadCell hs hv (hlt c hc) fun d hd => hsame c hc d (hmem d hd)
      exact ⟨(s'', q''), hr, h⟩)
    ⟨hs, .refl, rfl, by simp, by simp, by simp⟩
  refine ⟨s', q', ?_, h⟩
  simp only [load, EStateM.run_bind, EStateM.run_get, hcheck, Step.run_ofExcept_ok]
  exact hrun

/-- What a cell is replaced by when its item is unloaded. -/
def unloaded (q : Program T) (c : Node × Nat) (d : Cell S) : Except Failure (Cell S) :=
  if d.value.isScalar then
    .ok { d with
      value := .scalar (Laned.broadcast (q.value c.2))
      grad := .scalar (Laned.broadcast (q.grad c.2)) }
  else .error (.shapeMismatch (1, 1) d.value.shape "assign")

omit [Arith S] in
theorem run_unloadCell (q : Program T) (c : Node × Nat) (hp : u.isParameter c.1 = true) :
    (unloadCell q c).run u =
      match unloaded q c (u.cell c.1) with
      | .ok d => .ok () (u.update c.1 fun _ => d)
      | .error e => .error e u := by
  rw [unloadCell, EStateM.run_bind]
  by_cases hs : (u.value c.1).isScalar = true
  · have hassign : (Graph.assign c.1 (Laned.broadcast (q.value c.2) : S)).run u = .ok ()
        (u.update c.1 fun d => { d with value := .scalar (Laned.broadcast (q.value c.2)) }) :=
      Graph.run_alter hp (if_pos hs)
    have hnew : unloaded q c (u.cell c.1) = .ok { u.cell c.1 with
        value := .scalar (Laned.broadcast (q.value c.2))
        grad := .scalar (Laned.broadcast (q.grad c.2)) } := if_pos hs
    rw [hassign, hnew]
    exact congrArg (EStateM.Result.ok ()) ((Graph.update_update u c.1 _ _).trans
      (Graph.update_congr u rfl))
  · have hassign : (Graph.assign c.1 (Laned.broadcast (q.value c.2) : S)).run u =
        .error (.shapeMismatch (1, 1) (u.value c.1).shape "assign") u := by
      simp only [Graph.assign, Graph.alter, EStateM.run_bind, EStateM.run_get, hp, if_neg hs]
      rfl
    have hnew : unloaded q c (u.cell c.1) =
        .error (.shapeMismatch (1, 1) (u.value c.1).shape "assign") := if_neg hs
    rw [hassign, hnew]

omit [Arith S] in
/-- **Distinct parameters that are numbers are unloaded to**, and nothing else is changed. -/
theorem run_unload (hcheck : j.check q out.shape = .ok ()) (hnodup : out.nodes.Nodup)
    (hcells : ∀ m ∈ out.nodes, u.isParameter m = true ∧ (u.value m).isScalar = true) :
    ∃ u', (j.unload q out).run u = .ok () u' ∧
      Graph.Replaced Prod.fst (unloaded q) (j.pairs out) u u' := by
  have hmem : ∀ c ∈ j.pairs out, c.1 ∈ out.nodes := fun c hc =>
    (sublist_cells j out).subset (List.mem_map_of_mem hc)
  obtain ⟨u', hrun, h⟩ := Graph.run_replacing Prod.fst (f := unloaded q) (unloadCell q)
    (fun c hc t ht _ => run_unloadCell q c
      ((Graph.isParameter_of_dag ht.dag c.1).trans (hcells c.1 (hmem c hc)).1))
    (hnodup.sublist (sublist_cells j out))
    (fun c hc => ⟨_, if_pos (hcells c.1 (hmem c hc)).2⟩)
  refine ⟨u', ?_, h⟩
  simp only [unload, EStateM.run_bind, hcheck, Step.run_ofExcept_ok]
  exact hrun

/-- What was carried over comes back to the cells that have the same item. -/
theorem Carried.value_unloaded [Laned.Lawful K S] [Laned.Extensional K S] [Laned.Lawful K T]
    {done cells : List (Node × Nat)} (h : Carried s q done s' q')
    (hwidth : Laned.width S ≤ Laned.width T) {u' : Graph K S}
    (hu : Graph.Replaced Prod.fst (unloaded q') cells u u') {n m : Node} {i : Nat}
    (hn : (n, i) ∈ done) (hm : (m, i) ∈ cells) (hscalar : (u.value m).isScalar = true) :
    u'.value m = s'.value n ∧ u'.grad m = .scalar (Laned.broadcast (q'.grad i)) := by
  have hnew := hu.new _ hm (Graph.lt_size_of_isScalar hscalar)
  have hcell := Except.ok.inj (hnew.symm.trans (if_pos hscalar))
  refine ⟨?_, congrArg Cell.grad hcell⟩
  have hitem : q'.value i = Laned.broadcast (s'.number n) := h.item _ hn
  rw [Graph.value, hcell, hitem, Laned.broadcast_broadcast hwidth]
  exact (h.value _ hn).symm

end

/-! ## There and back -/

variable [Scalar K] [Arith E] [Laned K E] [Arith R] [Laned K R] [Arith S] [Laned K S] [Arith T]
  [Laned K T]

/-- **What is loaded is unloaded unchanged.**  Let the programs `r` and `q` be left by any acts
and conversions of a compiled one, and let `j` be the projection of a block onto `r`.

* A cell is mapped to `i` if and only if its vertex has an entry with the number `i`, which
  is its place in the order;
* if the cells that are mapped can be read as numbers, the block is loaded into `q`.  Vertices
  below these cells are evaluated, their items are written to, and nothing else is changed;
* from there, a block of the same shape whose cells are distinct parameters gets the values
  of the first one where it is mapped, and the gradients of the items, with lanes read modulo
  the width of the program.  Its other cells are left alone, and so is what is no cell of it,
  as are the cells of the first block if the two have none in common. -/
theorem load_unload [Laned.Lawful K S] [Laned.Extensional K S] [Laned.Lawful K T] {g : Graph K E}
    {root : Node} (hroot : root < g.size) {p : Program E} (hp : g.compile (g.order root) = .ok p)
    {r : Program R} (hr : Program.Derived p r) {q : Program T} (hq : Program.Derived p q)
    (hwidth : Laned.width S ≤ Laned.width T) {s : Graph K S} (hs : Reachable s) (b : Block) :
    let j := make s b r
    (∀ (k : Nat) (n : Node), b.nodes[k]? = some n → ∃ slot, j.slots.data[k]? = some slot ∧ ∀ i,
      (slot = some i ↔ (⟨i, s.id n⟩ : Entry) ∈ q.code.entries) ∧
      (slot = some i → ∃ m, (g.order root)[i]? = some m ∧ g.id m = s.id n)) ∧
    ((∀ n ∈ j.cells b, ∃ v, (Graph.scalarOf n).answer s = .ok v) →
      ∃ s' q', (j.load b).run (s, q) = .ok () (s', q') ∧ s.Filled (j.Reads b s.dag) s' ∧
        Program.Wrote (· ∈ j.items) q q' ∧
        ∀ (u : Graph K S) (out : Block), out.shape = b.shape → out.nodes.Nodup →
          (∀ m ∈ out.nodes, u.isParameter m = true ∧ (u.value m).isScalar = true) →
          ∃ u', (j.unload q' out).run u = .ok () u' ∧
            (∀ (k : Nat) (n m : Node) (i : Nat), b.nodes[k]? = some n → out.nodes[k]? = some m →
              j.slots.data[k]? = some (some i) → u'.value m = s'.value n ∧
                ∃ e, u'.grad m = .scalar e ∧ ∀ l < Laned.width S,
                  Laned.lane e l = Laned.lane (q.grad i) (l % Laned.width T)) ∧
            (∀ (k : Nat) (m : Node), out.nodes[k]? = some m →
              j.slots.data[k]? = some none → u'.cell m = u.cell m) ∧
            ∀ m ∉ out.nodes, u'.cell m = u.cell m) := by
  intro j
  obtain ⟨-, hc⟩ := Graph.numeric_of_compile hroot hp
  have hp₀ := (Graph.intact_of_compile hp).1
  have hir := hr.intact hp₀
  have hiq := hq.intact hp₀
  have hnodes : (r.code.entries.map Entry.node).Nodup := by
    rw [hir.code]
    exact hc.nodup_entries (Dag.nodup_traverse root)
  refine ⟨fun k n hn => ?_, fun hread => ?_⟩
  · obtain ⟨slot, hslot, hiff⟩ := slot_make (s := s) hnodes hn
    refine ⟨slot, hslot, fun i => ⟨?_, fun hi => ?_⟩⟩
    · rw [hiff, hir.code, hiq.code]
    · obtain ⟨i', m, hm, -, he⟩ := hc.mem_entries.1 (hir.code ▸ (hiff i).1 hi)
      obtain ⟨rfl, hid⟩ := Entry.mk.inj he
      exact ⟨m, hm, hid.symm⟩
  have hcheck : ∀ {q : Program T}, Program.Intact p.code q → ∀ {out : Block},
      out.shape = b.shape → j.check q out.shape = .ok () := fun h out ho => by
    rw [check_make (h.fingerprint.trans hir.fingerprint.symm), if_pos ho]
  have hpairs : ∀ c ∈ j.pairs b, (⟨c.2, s.id c.1⟩ : Entry) ∈ p.code.entries := fun c hc =>
    hir.code ▸ entry_of_mem_pairs hnodes hc
  obtain ⟨s', q', hload, hcarried⟩ := run_load (q := q) hs (hcheck hiq rfl)
    (fun c hc => hread c.1 (List.mem_map_of_mem hc))
    (fun c hcell => by
      rw [hiq.size_values]
      exact (Graph.intact_of_compile hp).2 _ (hpairs c hcell))
    (fun c hcell d hd hitem => by
      have hid := hc.id_eq (hitem ▸ hpairs d hd) (hpairs c hcell)
      exact (NodeId.mk.inj hid).2)
  have hwrote := wrote_load j b (s, q)
  have hfilled := filled_load j b (s, q)
  rw [Step.final_of_run_ok hload] at hwrote hfilled
  refine ⟨s', q', hload, hfilled, hwrote, fun u out ho hnodup hcells => ?_⟩
  obtain ⟨u', hunload, hreplaced⟩ := run_unload (hcheck (hiq.wrote hwrote) ho) hnodup hcells
  refine ⟨u', hunload, fun k n m i hn hm hslot => ?_, fun k m hm hslot => ?_, fun m hm => ?_⟩
  · have hcell := (hcells m (List.mem_of_getElem? hm)).2
    obtain ⟨hvalue, hgrad⟩ := hcarried.value_unloaded hwidth hreplaced
      (mem_pairs.2 ⟨k, hn, hslot⟩) (mem_pairs.2 ⟨k, hm, hslot⟩) hcell
    refine ⟨hvalue, _, hgrad, fun l hl => ?_⟩
    rw [Laned.broadcast, Laned.Lawful.lane_ofLanes hl, Program.grad, hwrote.grads]
    rfl
  · exact hreplaced.old m (not_mem_cells hnodup hm hslot)
  · exact hreplaced.old m fun hmem => hm ((sublist_cells j out).subset hmem)

/-- A pair and its square, both inputs, a pair that is none, and three zeros. -/
def inputPairs : Graph Float32 (Lanes Float32 2) :=
  DiffGraph.Call.runs [.parameter (.scalar ⟨#v[2, 3]⟩), .record (.mul 0 0), .setInput 0 true,
    .setInput 1 true, .parameter (.scalar ⟨#v[4, 5]⟩), .parameter (.scalar 0),
    .parameter (.scalar 0), .parameter (.scalar 0)] (.empty 0 ⟨fun _ => 0, fun _ => 0⟩)

theorem visits_inputPairs : inputPairs.order 1 = [0, 1] ∧ inputPairs.missing 1 = [1] := by
  have hsize : inputPairs.dag.size = 6 := by decide +kernel
  have hops : inputPairs.dag.operands 1 = [0, 0] ∧ inputPairs.dag.operands 0 = [] := by
    decide +kernel
  have hv : inputPairs.hasValue 1 = false ∧ inputPairs.hasValue 0 = true := by decide +kernel
  simp [Graph.order, Graph.missing, Dag.traverse, Dag.visit, hsize, hops, hv]

theorem parameters_inputPairs : ∀ n ∈ [0, 2, 3, 4, 5], inputPairs.isParameter n = true ∧
    inputPairs.hasValue n = true ∧ (inputPairs.value n).isScalar = true := by
  decide +kernel

/-- The square is evaluated, and the pairs are there. -/
theorem exists_scalarOf_inputPairs :
    ∀ n ∈ [1, 0, 2], ∃ v, (Graph.scalarOf n).answer inputPairs = .ok v := by
  have hsquare : ((Graph.scalarOf 1).answer inputPairs >>= fun v =>
      .ok (Laned.lane v 0, Laned.lane v 1)) = .ok (4, 9) := by
    rw [Step.answer, Graph.scalarOf, EStateM.run_bind,
      Graph.run_evaluate_of_missing visits_inputPairs.2]
    decide +kernel
  obtain ⟨v, hv, -⟩ := bind_eq_ok.1 hsquare
  refine List.forall_mem_cons.2 ⟨⟨v, hv⟩, fun n hn => ?_⟩
  obtain ⟨-, hv, hscalar⟩ :=
    parameters_inputPairs n ((by decide : [0, 2] ⊆ [0, 2, 3, 4, 5]) hn)
  exact ⟨_, Step.answer_of_run_ok (Graph.run_scalarOf hv hscalar)⟩

/-- Pairs come back from a program of three lanes. -/
theorem load_unload_inputPairs :
    ∃ p : Program (Lanes Float32 2), inputPairs.compile [0, 1] = .ok p ∧
      let j := make inputPairs (.column [1, 0, 2]) p
      let wide : Program (Lanes Float32 3) := p.convert
      j.slots.data.toList = [some 1, some 0, none] ∧
      ∃ s' q' u', (j.load (.column [1, 0, 2])).run (inputPairs, wide) = .ok () (s', q') ∧
        (j.unload q' (.column [3, 4, 5])).run s' = .ok () u' ∧
        u'.value 3 = s'.value 1 ∧ u'.value 4 = .scalar ⟨#v[2, 3]⟩ ∧ u'.value 5 = .scalar 0 := by
  have hcompile : (inputPairs.compile [0, 1] >>= fun p =>
      .ok (make inputPairs (.column [1, 0, 2]) p).slots.data.toList) =
      .ok [some 1, some 0, none] := by
    decide +kernel
  obtain ⟨p, hp, hslots⟩ := bind_eq_ok.1 hcompile
  refine ⟨p, hp, ?_⟩
  intro j wide
  have hslots : j.slots.data.toList = [some 1, some 0, none] := Except.ok.inj hslots
  have hslot : ∀ k : Nat, j.slots.data[k]? = [some 1, some 0, none][k]? := fun k => by
    rw [← hslots, Array.getElem?_toList]
  have hderived : Program.Derived p wide := .convert .self
  obtain ⟨-, hround⟩ := load_unload (S := Lanes Float32 2) (by decide +kernel)
    (visits_inputPairs.1.symm ▸ hp) .self hderived (by decide : 2 ≤ 3)
    ((Reachable.empty 0 _).runs _) (.column [1, 0, 2])
  obtain ⟨s', q', hload, hfilled, -, hrest⟩ := hround fun n hn =>
    exists_scalarOf_inputPairs n ((sublist_cells j _).subset hn)
  have hkept : ∀ n ∈ [0, 2, 3, 4, 5], s'.value n = inputPairs.value n := fun n hn =>
    congrArg Cell.value (hfilled.cell_of_hasValue (parameters_inputPairs n hn).2.1)
  obtain ⟨u', hunload, hvalue, hsame, -⟩ := hrest s' (.column [3, 4, 5]) rfl (by decide)
    fun m hm => by
      have hm : m ∈ [0, 2, 3, 4, 5] := (by decide : [3, 4, 5] ⊆ [0, 2, 3, 4, 5]) hm
      rw [Graph.isParameter_of_dag hfilled.dag, hkept m hm]
      exact ⟨(parameters_inputPairs m hm).1, (parameters_inputPairs m hm).2.2⟩
  refine ⟨hslots, s', q', u', hload, hunload, ?_, ?_, ?_⟩
  · exact (hvalue 0 1 3 1 rfl rfl (hslot 0)).1
  · refine (hvalue 1 0 4 0 rfl rfl (hslot 1)).1.trans ((hkept 0 (by decide)).trans ?_)
    rfl
  · refine (congrArg Cell.value (hsame 2 5 rfl (hslot 2))).trans ((hkept 5 (by decide)).trans ?_)
    rfl

end Projection

end DiffGraph
