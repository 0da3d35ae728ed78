/-
  Rounds of a compiled program.

  In a round, an example is loaded into a program, the program is run, and its gradients
  are added to those of a block.

  * `Program.Agrees`: two copies of a program have the same values at some items.  Copies
    that agree on the parameters agree on all items after an evaluation
    (`Agrees.forward`);
  * `Program.learn`: a round up to its gradients.  It changes no parameter but those that
    are loaded (`agrees_learned`), and copies that agree on the others are the same after
    it (`Agrees.learned_eq`).  So nothing is left of an earlier round;
  * `Block.Gathers`: the gradients of a block are the entries of a matrix.  A round adds
    to them what the program has (`Gathers.run_addGrads`).
-/
import DiffGraph.Proofs.Rebinding
import DiffGraph.Proofs.Sums

namespace DiffGraph

variable {K S T : Type}

/-- An item is computed from the items before it. -/
theorem Code.operands_lt_self (code : Code) {i c : Nat} (hc : c ∈ (code.instr i).operands) :
    c < i := by
  by_cases h : i < code.items.size
  · exact code.operands_lt i h c (by simpa [instr, Array.getD, h] using hc)
  · simp [instr, Array.getD, h, Instr.operands] at hc

theorem Instr.compute_congr [Arith T] {val val' : Nat → T} {i : Instr}
    (h : ∀ c ∈ i.operands, val' c = val c) : i.compute val' = i.compute val := by
  cases i <;> simp_all [compute, operands]

namespace Program

/-! ## Copies of a program -/

/-- Two copies of a program have the same values at the items with `P`. -/
structure Agrees [Zero T] (code : Code) (P : Nat → Prop) (q q' : Program T) : Prop where
  first : q.code = code
  second : q'.code = code
  fingerprint : q'.fingerprint = q.fingerprint
  size_values : q'.values.size = q.values.size
  size_grads : q'.grads.size = q.grads.size
  value : ∀ i, P i → q'.value i = q.value i

section
variable [Arith T] {code : Code} {P Q : Nat → Prop} {q q' r : Program T}

theorem Agrees.mono (h : Agrees code Q q q') (hPQ : ∀ i, P i → Q i) : Agrees code P q q' :=
  ⟨h.first, h.second, h.fingerprint, h.size_values, h.size_grads, fun i hi => h.value i (hPQ i hi)⟩

/-- The same value is written into both copies. -/
theorem Agrees.setValue {k : Nat} (h : Agrees code (fun i => P i ∧ i ≠ k) q q') (v : T) :
    Agrees code P (q.setValue k v) (q'.setValue k v) where
  first := h.first
  second := h.second
  fingerprint := h.fingerprint
  size_values := by simpa [Program.setValue] using h.size_values
  size_grads := h.size_grads
  value i hi := by
    by_cases hik : i = k
    · subst hik
      simp [Program.value, Program.setValue, Array.getD, h.size_values]
    · rw [value_setValue_of_ne _ (Ne.symm hik), value_setValue_of_ne _ (Ne.symm hik)]
      exact h.value i ⟨hi, hik⟩

/-- An item agrees if the items before it do. -/
theorem Agrees.forwardItem {k : Nat}
    (h : Agrees code (fun i => i < k ∨ (code.instr i).isParameter = true) q q') :
    Agrees code (fun i => i < k + 1 ∨ (code.instr i).isParameter = true)
      (q.forwardItem k) (q'.forwardItem k) := by
  have hcompute : (code.instr k).compute q'.value = (code.instr k).compute q.value :=
    Instr.compute_congr fun c hc => h.value c (Or.inl (code.operands_lt_self hc))
  unfold Program.forwardItem
  rw [h.first, h.second, hcompute]
  cases hv : (code.instr k).compute q.value with
  | none =>
    have hk : (code.instr k).isParameter = true := by
      cases hi : code.instr k with
      | parameter => rfl
      | _ => rw [hi] at hv; cases hv
    refine h.mono fun i hi => hi.elim (fun hlt => ?_) Or.inr
    rcases Nat.lt_succ_iff_lt_or_eq.1 hlt with hlt | rfl
    · exact Or.inl hlt
    · exact Or.inr hk
  | some v =>
    refine (h.mono fun i hi => ?_).setValue v
    exact hi.1.imp_left fun hlt => Nat.lt_of_le_of_ne (Nat.lt_succ_iff.1 hlt) hi.2

/-- **Copies that agree on the parameters agree on all items after an evaluation.** -/
theorem Agrees.forward (h : Agrees code (fun i => (code.instr i).isParameter = true) q q') :
    Agrees code (fun i => i < code.size ∨ (code.instr i).isParameter = true)
      q.forward q'.forward := by
  have hitems : ∀ k, Agrees code (fun i => i < k ∨ (code.instr i).isParameter = true)
      ((List.range k).foldl Program.forwardItem q)
      ((List.range k).foldl Program.forwardItem q') := by
    intro k
    induction k with
    | zero => exact h.mono fun i hi => hi.resolve_left (Nat.not_lt_zero i)
    | succ k ih =>
      rw [List.range_succ, List.foldl_append, List.foldl_append]
      exact ih.forwardItem
  unfold Program.forward
  rw [Program.size, Program.size, h.first, h.second]
  exact hitems code.size

/-- After an evaluation nothing but gradients can differ. -/
theorem Agrees.clearGrads_forward
    (h : Agrees code (fun i => (code.instr i).isParameter = true) q q')
    (hsize : q.values.size = code.size) : q'.forward.clearGrads = q.forward.clearGrads := by
  have hf := h.forward
  have hvalues : q'.forward.values = q.forward.values := by
    refine Array.ext hf.size_values fun i hi' hi => ?_
    have hlt : i < code.size := by
      rwa [(reran_forward q).size_values, hsize] at hi
    simpa [Program.value, Array.getD, hi, hi'] using hf.value i (Or.inl hlt)
  simp only [Program.clearGrads, hf.first, hf.second, hf.fingerprint, hvalues, Array.map_const',
    hf.size_grads]

theorem Agrees.trans (h : Agrees code P q q') (h' : Agrees code P q' r) : Agrees code P q r where
  first := h.first
  second := h'.second
  fingerprint := h'.fingerprint.trans h.fingerprint
  size_values := h'.size_values.trans h.size_values
  size_grads := h'.size_grads.trans h.size_grads
  value i hi := (h'.value i hi).trans (h.value i hi)

/-- Running a program changes no parameter. -/
theorem agrees_of_reran (h : Reran q q') (hq : q.code = code) :
    Agrees code (fun i => (code.instr i).isParameter = true) q q' where
  first := hq
  second := h.code.trans hq
  fingerprint := h.fingerprint
  size_values := h.size_values
  size_grads := h.size_grads
  value i hi := h.value i (hq ▸ hi)

end

end Program

/-! ## Loading an example -/

namespace Projection

/-- The items that a projection writes to or reads from. -/
def items (j : Projection) : List Nat := j.slots.data.toList.reduceOption

/-- The parameters that a projection does not write to. -/
def Spares (j : Projection) (code : Code) (i : Nat) : Prop :=
  (code.instr i).isParameter = true ∧ i ∉ j.items

/-- All items are paired up, whatever the entries are. -/
theorem map_snd_pairs {A : Type} (j : Projection) {m : Matrix A} (hm : m.shape = j.slots.shape) :
    (j.pairs m).map Prod.snd = j.items := by
  have hlength : m.data.toList.length = j.slots.data.toList.length := by
    rw [Array.length_toList, Array.length_toList, m.size_data, j.slots.size_data]
    exact congrArg Shape.area hm
  unfold pairs items
  generalize m.data.toList = xs at hlength
  generalize j.slots.data.toList = slots at hlength
  induction xs generalizing slots with
  | nil =>
    rw [List.length_eq_zero_iff.1 hlength.symm]
    rfl
  | cons x xs ih =>
    cases slots with
    | nil => cases hlength
    | cons slot slots =>
      have hrest := ih slots (Nat.succ.inj hlength)
      cases slot <;> simpa [List.reduceOption] using hrest

/-- A projection fits a program with its fingerprint and a block of its shape. -/
theorem check_eq_ok {j : Projection} {q : Program T} {s : Shape}
    (hf : q.fingerprint = j.fingerprint) (hs : s = j.slots.shape) : j.check q s = .ok () := by
  simp [check, hf, hs]

end Projection

namespace Program

section
variable [Arith T] [Laned K T]

/-- Numbers are written into items. -/
def writeSplats (ws : List (K × Nat)) (q : Program T) : Program T :=
  ws.foldl (fun q w => q.setValue w.2 (Laned.splat w.1)) q

variable {code : Code} {P : Nat → Prop} {q q' : Program T}

theorem Agrees.writeSplats {ws : List (K × Nat)}
    (h : Agrees code (fun i => P i ∧ i ∉ ws.map Prod.snd) q q') :
    Agrees code P (writeSplats ws q) (writeSplats ws q') := by
  induction ws generalizing q q' with
  | nil => exact h.mono fun i hi => ⟨hi, List.not_mem_nil⟩
  | cons w ws ih =>
    refine ih ((h.mono fun i hi => ⟨hi.1.1, ?_⟩).setValue _)
    rw [List.map_cons, List.mem_cons, not_or]
    exact ⟨hi.2, hi.1.2⟩

/-- What is written changes nothing else. -/
theorem agrees_writeSplats (ws : List (K × Nat)) (hq : q.code = code) :
    Agrees code (fun i => i ∉ ws.map Prod.snd) q (writeSplats ws q) := by
  induction ws generalizing q with
  | nil => exact ⟨hq, hq, rfl, rfl, rfl, fun _ _ => rfl⟩
  | cons w ws ih =>
    have hw : Agrees code (fun i => i ≠ w.2) q (q.setValue w.2 (Laned.splat w.1)) :=
      ⟨hq, hq, rfl, by simp [Program.setValue], rfl, fun i hi => value_setValue_of_ne q hi.symm _⟩
    refine (hw.mono fun i hi => ?_).trans ((ih hw.second).mono fun i hi => ?_)
    · exact fun h => hi (h ▸ List.mem_cons_self)
    · exact fun h => hi (List.mem_cons_of_mem _ h)

/-! ## Rounds -/

/-- The gradients for one example: it is loaded, all items are computed, old gradients are
cleared, and a reverse pass is done. -/
def learn [Scalar K] (input : Projection) (x : Matrix K) : Step (Program T) Unit := do
  set (← Step.ofExcept (input.loadSplat x (← get)))
  discard result
  modify clearGrads
  reversePass

/-- The program after that. -/
def learned (input : Projection) (x : Matrix K) (q : Program T) : Program T :=
  (writeSplats (input.pairs x) q).forward.clearGrads.reverse

variable {input : Projection} {x : Matrix K}

theorem run_learn [Scalar K] (hf : q.fingerprint = input.fingerprint)
    (hx : x.shape = input.slots.shape) (hpos : q.size ≠ 0) :
    (learn input x).run q = .ok () (learned input x q) := by
  have hload : input.loadSplat x q = .ok (writeSplats (input.pairs x) q) := by
    rw [Projection.loadSplat, Projection.check_eq_ok hf hx]
    rfl
  have hcode : (writeSplats (input.pairs x) q).forward.code = q.code :=
    (reran_forward _).code.trans (agrees_writeSplats _ rfl).second
  have hsize : (writeSplats (input.pairs x) q).forward.size ≠ 0 := by rwa [size, hcode]
  have hresult : (discard result).run (writeSplats (input.pairs x) q) =
      .ok () (writeSplats (input.pairs x) q).forward :=
    Step.run_discard (by rw [run_result, if_neg hsize])
  have hreverse : reversePass.run (writeSplats (input.pairs x) q).forward.clearGrads =
      .ok () (learned input x q) := by
    rw [run_reversePass, if_neg (by simpa [size, clearGrads] using hsize)]
    rfl
  simp only [learn, EStateM.run_bind, EStateM.run_get, hload, Step.run_ofExcept_ok,
    EStateM.run_set, EStateM.run_modify, hresult, hreverse]

/-- A round changes no parameter but those that are loaded. -/
theorem agrees_learned (hx : x.shape = input.slots.shape) (hq : q.code = code) :
    Agrees code (input.Spares code) q (learned input x q) := by
  have hload := agrees_writeSplats (input.pairs x) hq
  have hrun := ((reran_forward (writeSplats (input.pairs x) q)).trans
    (reran_clearGrads _)).trans (reran_reverse _)
  rw [input.map_snd_pairs hx] at hload
  exact (hload.mono fun i hi => hi.2).trans
    ((agrees_of_reran hrun hload.second).mono fun i hi => hi.1)

/-- **Nothing is left of earlier rounds**: copies that agree on the parameters that are not
loaded are the same after a round. -/
theorem Agrees.learned_eq (h : Agrees code (input.Spares code) q q')
    (hx : x.shape = input.slots.shape) (hsize : q.values.size = code.size) :
    learned input x q' = learned input x q := by
  have hw : Agrees code (fun i => (code.instr i).isParameter = true)
      (Program.writeSplats (input.pairs x) q) (Program.writeSplats (input.pairs x) q') := by
    refine Agrees.writeSplats ?_
    rw [input.map_snd_pairs hx]
    exact h
  rw [learned, learned, hw.clearGrads_forward]
  rw [(agrees_writeSplats _ h.first).size_values, hsize]

end

end Program

/-! ## Blocks that gather gradients -/

namespace Graph

variable [Zero S]

/-- New numbers are vertices of their own, with gradients that are zero. -/
theorem run_scalars (xs : List S) (s : Graph K S) :
    ∃ ns s', (xs.mapM scalar).run s = .ok ns s' ∧ ns.Nodup ∧
      (∀ n ∈ ns, s.size ≤ n ∧ n < s'.size) ∧ (∀ n < s.size, s'.cell n = s.cell n) ∧
      s.size ≤ s'.size ∧ ns.map s'.grad = xs.map fun _ => .scalar 0 := by
  induction xs generalizing s with
  | nil => exact ⟨[], s, rfl, List.nodup_nil, by simp, fun _ _ => rfl, le_rfl, rfl⟩
  | cons x xs ih =>
    let s₁ : Graph K S := s.push .parameter (fun _ h => absurd h (by simp [Op.operands]))
      (.parameter (.scalar x))
    have hsize : s₁.size = s.size + 1 := size_push ..
    obtain ⟨ns, s', hr, hnodup, hns, hold, hle, hgrad⟩ := ih s₁
    have hn : s.size < s₁.size := hsize ▸ Nat.lt_succ_self _
    have hcell : s'.cell s.size = .parameter (.scalar x) :=
      (hold _ hn).trans (cell_push_size ..)
    refine ⟨s.size :: ns, s', ?_, ?_, ?_, fun n hlt => ?_, hn.le.trans hle, ?_⟩
    · have hx : (scalar x).run s = .ok s.size s₁ := rfl
      rw [List.mapM_cons]
      simp only [EStateM.run_bind, hx, hr]
      rfl
    · exact List.nodup_cons.2 ⟨fun hm => absurd (hns _ hm).1 (Nat.not_le.2 hn), hnodup⟩
    · intro n hm
      rcases List.mem_cons.1 hm with rfl | hm
      · exact ⟨le_rfl, hn.trans_le hle⟩
      · exact ⟨hn.le.trans (hns n hm).1, (hns n hm).2⟩
    · exact (hold n (hlt.trans hn)).trans (cell_push_of_lt s hlt)
    · rw [List.map_cons, List.map_cons, hgrad, grad, hcell]
      exact congrArg (· :: _) Matrix.zeros_one_one

end Graph

namespace Block

/-- The gradients of a block are the entries of a matrix. -/
structure Gathers (b : Block) (s : Graph K S) (m : Matrix S) : Prop where
  shape : m.shape = b.shape
  nodup : b.nodes.Nodup
  lt : ∀ n ∈ b.nodes, n < s.size
  grad : b.nodes.map s.grad = m.data.toList.map Matrix.scalar

section
variable [Arith S] {rows cols : Nat} {b : Block} {s s' : Graph K S} {m : Matrix S}

/-- A new block can be made, and its gradients are zero. -/
theorem run_zeros (rows cols : Nat) (s : Graph K S) :
    ∃ b s', (zeros rows cols).run s = .ok b s' ∧ b.Gathers s' (.zeros rows cols) := by
  obtain ⟨ns, s', hr, hnodup, hns, -, -, hgrad⟩ :=
    Graph.run_scalars (K := K) (Matrix.zeros rows cols : Matrix S).data.toList s
  obtain ⟨b, hb, hshape, hnodes⟩ := Matrix.run_mapM hr
  subst hnodes
  refine ⟨b, s', hb, hshape.symm, hnodup, fun n hn => (hns n hn).2, hgrad.trans ?_⟩
  refine List.map_congr_left fun x hx => ?_
  rw [(Array.mem_replicate.1 (Array.mem_toList_iff.1 hx)).2]

theorem run_grads_of_data [Scalar K] [Laned K S] (hm : m.shape = b.shape)
    (hgrad : b.nodes.map s.grad = m.data.toList.map Matrix.scalar) : b.grads.run s = .ok m s := by
  have hlist : (b.data.toList.mapM fun n => (s.grad n).toScalar) = .ok m.data.toList := by
    calc (b.nodes.mapM fun n => (s.grad n).toScalar)
        = (b.nodes.map s.grad).mapM Matrix.toScalar := by rw [List.mapM_map]; rfl
      _ = m.data.toList.mapM (pure : S → Except Failure S) := by
        rw [hgrad, List.mapM_map]
        rfl
      _ = .ok m.data.toList :=
        (List.mapM_pure (f := fun x => x)).trans (congrArg Except.ok (List.map_id' _))
  obtain ⟨m', hm', hshape, hdata⟩ := Matrix.mapM_ok hlist
  rw [grads, EStateM.run_bind, EStateM.run_get]
  simp only [hm', Matrix.eq_of_data (hshape.trans hm.symm) hdata]
  rfl

theorem Gathers.run_grads [Scalar K] [Laned K S] (h : b.Gathers s m) :
    b.grads.run s = .ok m s :=
  run_grads_of_data h.shape h.grad

end

end Block

namespace Projection

variable [Arith S] [Arith T]

section
variable [Arith K] [Laned K S] [Laned K T]

/-- The gradient of a program for a cell, zero if it has no item. -/
def term (q : Program T) (slot : Option Nat) : S :=
  (slot.map fun i => Laned.fold (q.grad i)).getD 0

/-- The gradients of a program for the cells of a block. -/
def gradients (j : Projection) (q : Program T) : Matrix S := j.slots.map (term q)

/-- The gradients of a program are added to those of vertices. -/
def addTerms (q : Program T) (cells : List (Node × Option Nat)) (s : Graph K S) : Graph K S :=
  (cells.filterMap fun c => c.2.map fun i => (c.1, i)).foldl
    (fun s c => s.update c.1 fun d => { d with grad := d.grad.addEach (Laned.fold (q.grad c.2)) }) s

/-- One vertex gets its term. -/
theorem exists_addTerms_cons (hS : LawfulSum S) (q : Program T) (slot : Option Nat) {n : Node}
    {x : S} {s : Graph K S} (hlt : n < s.size) (hx : s.grad n = .scalar x) :
    ∃ s', s'.size = s.size ∧ (∀ m, m ≠ n → s'.cell m = s.cell m) ∧
      s'.grad n = .scalar (x + term q slot) ∧
      ∀ cells, addTerms q ((n, slot) :: cells) s = addTerms q cells s' := by
  cases slot with
  | none =>
    refine ⟨s, rfl, fun _ _ => rfl, ?_, fun _ => rfl⟩
    rw [hx]
    exact congrArg Matrix.scalar ((hS.zero_add x).symm.trans (hS.comm 0 x))
  | some i =>
    refine ⟨s.update n fun d => { d with grad := d.grad.addEach (Laned.fold (q.grad i)) }, rfl,
      fun m hm => Graph.cell_update_of_ne s hm.symm _, ?_, fun _ => rfl⟩
    rw [Graph.grad, Graph.cell_update_self s hlt]
    show (s.grad n).addEach _ = _
    rw [hx, Matrix.addEach, Matrix.map_scalar]
    rfl

/-- Each vertex gets its term. -/
theorem grad_addTerms (hS : LawfulSum S) (q : Program T) {ns : List Node}
    {slots : List (Option Nat)} {xs : List S} {s : Graph K S} (hnodup : ns.Nodup)
    (hlt : ∀ n ∈ ns, n < s.size) (hlength : ns.length = slots.length)
    (hxs : ns.map s.grad = xs.map Matrix.scalar) :
    (addTerms q (ns.zip slots) s).size = s.size ∧
      (∀ n, n ∉ ns → (addTerms q (ns.zip slots) s).cell n = s.cell n) ∧
      ns.map (addTerms q (ns.zip slots) s).grad =
        (xs.zipWith (fun x slot => x + term q slot) slots).map Matrix.scalar := by
  induction ns generalizing slots xs s with
  | nil =>
    obtain rfl : xs = [] := List.map_eq_nil_iff.1 hxs.symm
    exact ⟨rfl, fun _ _ => rfl, rfl⟩
  | cons n ns ih =>
    obtain ⟨slot, slots, rfl⟩ := List.exists_cons_of_length_eq_add_one hlength.symm
    obtain ⟨x, xs, rfl, hx, hrest⟩ := List.map_eq_cons_iff.1 hxs.symm
    obtain ⟨hn, hnodup⟩ := List.nodup_cons.1 hnodup
    obtain ⟨s₁, hsize, hother, hgrad, hcons⟩ := exists_addTerms_cons hS q slot
      (hlt n List.mem_cons_self) hx.symm
    have hkept : ns.map s₁.grad = ns.map s.grad := List.map_congr_left fun m hm =>
      congrArg Cell.grad (hother m fun h => hn (h ▸ hm))
    obtain ⟨hsize', hother', hgrad'⟩ := ih hnodup
      (fun m hm => hsize.symm ▸ hlt m (List.mem_cons_of_mem _ hm)) (Nat.succ.inj hlength)
      (hkept.trans hrest.symm)
    rw [List.zip_cons_cons, hcons]
    refine ⟨hsize'.trans hsize, fun m hm => ?_, ?_⟩
    · rw [List.mem_cons, not_or] at hm
      exact (hother' m hm.2).trans (hother m hm.1)
    · rw [List.map_cons, hgrad', Graph.grad, hother' n hn]
      exact congrArg (· :: _) hgrad

end

end Projection

namespace Block

/-- The gradients of a program are added to what a block has gathered. -/
theorem Gathers.run_addGrads [Scalar K] [Arith S] [Arith T] [Laned K S] [Laned K T]
    (hS : LawfulSum S) {b : Block} {s : Graph K S} {m : Matrix S} (h : b.Gathers s m)
    {j : Projection} {q : Program T} (hf : q.fingerprint = j.fingerprint)
    (hb : b.shape = j.slots.shape) :
    ∃ s' m', (j.addGrads q b).run s = .ok () s' ∧ m.add (j.gradients q) = .ok m' ∧
      b.Gathers s' m' := by
  have hlength : b.nodes.length = j.slots.data.toList.length := by
    rw [nodes, Array.length_toList, Array.length_toList, b.size_data, j.slots.size_data]
    exact congrArg Shape.area hb
  obtain ⟨hsize, -, hgrad⟩ := Projection.grad_addTerms hS q h.nodup h.lt hlength h.grad
  have hm : m.shape = (j.gradients q : Matrix S).shape := h.shape.trans hb
  refine ⟨Projection.addTerms q (b.nodes.zip j.slots.data.toList) s,
    _, ?_, dif_pos (Prod.mk.inj hm), ?_⟩
  · rw [Projection.addGrads, Projection.check_eq_ok hf hb]
    rfl
  · refine ⟨h.shape, h.nodup, fun n hn => hsize.symm ▸ h.lt n hn, hgrad.trans ?_⟩
    rw [Array.toList_zipWith, Projection.gradients, Matrix.map, Array.toList_map,
      List.zipWith_map_right]

end Block

end DiffGraph
