/-
  What projections can reach.

  A projection holds numbers of items.  It is checked against the fingerprint of a program
  and the shape of a block, and then follows its numbers blindly.

  * `Graph.Filled`: vertices without a value were evaluated, and nothing else was done;
  * `Graph.Rewritten`: values and gradients of some vertices were replaced, and nothing
    else was done;
  * `Projection.Refuses`: a program or a shape is refused before anything is touched;
  * `Projection.Confined`: all numbers belong to items, and no call touches anything but
    these items and the cells that are paired up with them.

  A projection refuses programs with other instructions and blocks of another shape, and
  is confined with all others (`Program.projection_safe`), as long as no two of the
  instruction arrays have the same hash.
-/
import DiffGraph.Proofs.Derivation
import DiffGraph.Proofs.Learning

namespace DiffGraph

open Relation

variable {K E F R S T : Type}

namespace Graph

/-! ## Values that are filled in -/

section
variable [Arith S] {P Q : Node → Prop} {g g' g'' : Graph K S} {n : Node}

/-- Vertices with `P` that had no value were evaluated, and nothing else was done but to
draw samples for this. -/
structure Filled (P : Node → Prop) (g g' : Graph K S) : Prop where
  tag : g'.tag = g.tag
  dag : g'.dag = g.dag
  noise : g'.noise = g.noise
  drawnNormal : g'.drawnNormal = g.drawnNormal
  cell : ∀ n, g'.cell n = g.cell n ∨
    P n ∧ g.hasValue n = false ∧ (∀ c ∈ g.dag.operands n, g'.hasValue c = true) ∧ g'.Settled n ∧
      ∃ v mask, g'.cell n = store v mask (g.cell n)

theorem Filled.refl (g : Graph K S) : Filled P g g := ⟨rfl, rfl, rfl, rfl, fun _ => .inl rfl⟩

theorem Filled.mono (h : Filled P g g') (hPQ : ∀ n, P n → Q n) : Filled Q g g' :=
  ⟨h.tag, h.dag, h.noise, h.drawnNormal, fun n => (h.cell n).imp_right fun hn =>
    ⟨hPQ n hn.1, hn.2⟩⟩

/-- A vertex that had a value is left alone. -/
theorem Filled.cell_of_hasValue (h : Filled P g g') (hv : g.hasValue n = true) :
    g'.cell n = g.cell n := by
  rcases h.cell n with hn | ⟨-, hn, -⟩
  · exact hn
  · rw [hv] at hn
    cases hn

theorem Filled.hasValue (h : Filled P g g') (hv : g.hasValue n = true) : g'.hasValue n = true := by
  rwa [Graph.hasValue, h.cell_of_hasValue hv, isParameter_of_dag h.dag]

/-- What was computed from the operands stays so when others are filled in. -/
theorem Filled.settled (h : Filled P g g') (ho : ∀ c ∈ g.dag.operands n, g.hasValue c = true)
    (hcell : g'.cell n = g.cell n) (hn : g.Settled n) : g'.Settled n := by
  have hval : ∀ c ∈ (g.op n).operands, g'.value c = g.value c := fun c hc =>
    congrArg Cell.value (h.cell_of_hasValue (ho c hc))
  unfold Settled Graph.value at hn ⊢
  rw [op_of_dag h.dag, hcell]
  exact (Op.value_congr hval).trans hn

theorem Filled.trans (h : Filled P g g') (h' : Filled P g' g'') : Filled P g g'' := by
  refine ⟨h'.tag.trans h.tag, h'.dag.trans h.dag, h'.noise.trans h.noise,
    h'.drawnNormal.trans h.drawnNormal, fun n => ?_⟩
  rcases h.cell n with hn | ⟨hP, hv, ho, hs, v, mask, hn⟩
  · rcases h'.cell n with hn' | ⟨hP, hv', ho', hs', v, mask, hn'⟩
    · exact .inl (hn'.trans hn)
    · rw [Graph.hasValue, hn, isParameter_of_dag h.dag] at hv'
      rw [h.dag] at ho'
      exact .inr ⟨hP, hv', ho', hs', v, mask, hn' ▸ congrArg _ hn⟩
  · have hvalue : g'.hasValue n = true := by rw [Graph.hasValue, hn]; rfl
    have hn' := h'.cell_of_hasValue hvalue
    exact .inr ⟨hP, hv, fun c hc => h'.hasValue (ho c hc),
      h'.settled (fun c hc => ho c (h.dag ▸ hc)) hn' hs, v, mask, hn'.trans hn⟩

theorem Filled.of_moves (h : ReflTransGen (Filled P) g g') : Filled P g g' :=
  Step.keeps_of_moves (fun _ _ hm hg => hg.trans hm) h (.refl g)

end

section
variable [Scalar K] [Arith S] [Laned K S] {g g' : Graph K S} {root : Node}

theorem filled_of_evaluated {pre post : List Node} (h : Evaluated g g' pre)
    (hl : g.missing root = pre ++ post) (htag : g'.tag = g.tag)
    (hnormal : g'.drawnNormal = g.drawnNormal) : Filled (g.dag.Below root) g g' := by
  refine ⟨htag, h.dag, h.noise, hnormal, fun n => ?_⟩
  by_cases hn : n ∈ pre
  · have hmem : n ∈ g.missing root := hl ▸ List.mem_append_left post hn
    have hv : g.hasValue n = false := hasValue_of_mem_missing hmem
    have hroot : root < g.size := by
      by_contra hge
      rw [missing, Dag.traverse_of_size_le (not_lt.1 hge)] at hmem
      cases hmem
    obtain ⟨first, v, mask, -, hvalue, hcell⟩ := h.new n hn
    refine .inr ⟨below_of_mem_missing hroot hmem, hv, fun c hc => ?_, ?_, v, mask, hcell⟩
    · obtain ⟨pre', post', rfl⟩ := List.append_of_mem hn
      rw [List.append_assoc] at hl
      exact h.hasValue ((hasValue_or_mem_of_missing_eq hl hc).imp_right (List.mem_append_left _))
    · have hown : (g'.cell n).value = v ∧ (g'.cell n).mask = mask := by simp [hcell, store]
      unfold Settled Graph.value
      rw [hown.1, hown.2, h.op]
      exact (Op.value_own (isParameter_of_not_hasValue hv) _ _ _ _).trans hvalue
  · exact .inl (h.old n hn)

/-- **An evaluation only fills in what is missing**, also if it stops half way. -/
theorem filled_evaluate (g : Graph K S) (root : Node) :
    Filled (g.dag.Below root) g ((evaluate root).final g) := by
  have hmoves : (evaluate root).Leads
      (fun s t : Graph K S => t.tag = s.tag ∧ t.drawnNormal = s.drawnNormal) g :=
    .get_bind (.forM (fun _ _ _ => .get_bind (.ofExcept_bind fun _ _ =>
      .set (.single ⟨rfl, rfl⟩))) g)
  obtain ⟨htag, hnormal⟩ := Step.keeps_of_moves
    (I := fun t => t.tag = g.tag ∧ t.drawnNormal = g.drawnNormal)
    (fun s t hm hs => ⟨hm.1.trans hs.1, hm.2.trans hs.2⟩) hmoves ⟨rfl, rfl⟩
  rcases evaluate_cases g root with ⟨g', hr, h, -⟩ | ⟨pre, n, post, e, g', hl, h, -, -, hr⟩
  · rw [Step.final_of_run_ok hr] at htag hnormal ⊢
    exact filled_of_evaluated h (List.append_nil _).symm htag hnormal
  · rw [Step.final_of_run_error hr] at htag hnormal ⊢
    exact filled_of_evaluated h hl htag hnormal

theorem leads_scalarOf (g : Graph K S) (n : Node) :
    (scalarOf n).Leads (Filled (g.dag.Below n)) g :=
  .bind (ReflTransGen.single (filled_evaluate g n)) fun _ _ _ => .get_bind (.ofExcept _ _)

end

/-! ## Values and gradients that are replaced -/

section
variable {ns : List Node} {g g' g'' : Graph K S}

/-- Values and gradients of the vertices `ns` were replaced, and nothing else was done. -/
structure Rewritten (ns : List Node) (g g' : Graph K S) : Prop where
  beside : g.Beside g'
  old : ∀ n, n ∉ ns → g'.cell n = g.cell n
  cell : ∀ n, g'.cell n = { g.cell n with value := g'.value n, grad := g'.grad n }

theorem Rewritten.refl (g : Graph K S) : Rewritten ns g g :=
  ⟨.refl g, fun _ _ => rfl, fun _ => rfl⟩

theorem Rewritten.trans (h : Rewritten ns g g') (h' : Rewritten ns g' g'') :
    Rewritten ns g g'' where
  beside := h.beside.trans h'.beside
  old n hn := (h'.old n hn).trans (h.old n hn)
  cell n := by rw [h'.cell n, h.cell n]

/-- One cell is changed. -/
theorem rewritten_update (g : Graph K S) {n : Node} (hn : n ∈ ns) {f : Cell S → Cell S}
    (hf : ∀ c, f c = { c with value := (f c).value, grad := (f c).grad }) :
    Rewritten ns g (g.update n f) where
  beside := .update g n f
  old m hm := cell_update_of_ne g (fun h : n = m => hm (h ▸ hn)) f
  cell m := by
    rw [value, grad, cell_update]
    split
    · next h => exact h.1 ▸ hf _
    · rfl

end

end Graph

namespace Projection

/-- The cells of a block that have an item. -/
def cells (j : Projection) (b : Block) : List Node := (j.pairs b).map Prod.fst

/-- The vertex stands below a cell that has an item. -/
def Reads (j : Projection) (b : Block) (d : Dag K) (n : Node) : Prop :=
  ∃ c ∈ j.cells b, d.Below c n

variable [Scalar K]

/-! ## Refusals -/

/-- With this program, and blocks and matrices of this shape, every call with the
projection fails and changes nothing. -/
structure Refuses [Laned K T] [Arith T] (j : Projection) (q : Program T) (shape : Shape)
    (e : Failure) : Prop where
  load : ∀ {S : Type} [Arith S] [Laned K S] (g : Graph K S) (b : Block), b.shape = shape →
    (j.load b).run (g, q) = .error e (g, q)
  loadSplat : ∀ m : Matrix K, m.shape = shape → j.loadSplat m q = .error e
  unload : ∀ {S : Type} [Arith S] [Laned K S] (g : Graph K S) (out : Block), out.shape = shape →
    (j.unload q out).run g = .error e g
  addGrads : ∀ {S : Type} [Arith S] [Laned K S] (g : Graph K S) (b : Block), b.shape = shape →
    (j.addGrads q b).run g = .error e g

variable [Arith T] [Laned K T] {j : Projection} {q : Program T} {shape : Shape}

theorem refuses_of_check {e : Failure} (h : j.check q shape = .error e) :
    j.Refuses q shape e where
  load g b hb := by
    subst hb
    simp only [load, EStateM.run_bind, EStateM.run_get, h, Step.run_ofExcept_error]
  loadSplat m hm := by
    subst hm
    rw [loadSplat, h]
    rfl
  unload g out hout := by
    subst hout
    simp only [unload, EStateM.run_bind, h, Step.run_ofExcept_error]
  addGrads g b hb := by
    subst hb
    simp only [addGrads, EStateM.run_bind, h, Step.run_ofExcept_error]

/-! ## What calls can touch -/

/-- With this program, and blocks and matrices of this shape, the projection touches what
it maps and nothing else. -/
structure Confined (j : Projection) (q : Program T) (shape : Shape) : Prop where
  lt_values : ∀ i ∈ j.items, i < q.values.size
  lt_grads : ∀ i ∈ j.items, i < q.grads.size
  load : ∀ {S : Type} [Arith S] [Laned K S] (g : Graph K S) (b : Block), b.shape = shape →
    Program.Wrote (· ∈ j.items) q ((j.load b).final (g, q)).2 ∧
      g.Filled (j.Reads b g.dag) ((j.load b).final (g, q)).1
  loadSplat : ∀ m : Matrix K, m.shape = shape →
    ∃ q', j.loadSplat m q = .ok q' ∧ Program.Wrote (· ∈ j.items) q q'
  unload : ∀ {S : Type} [Arith S] [Laned K S] (g : Graph K S) (out : Block), out.shape = shape →
    g.Rewritten (j.cells out) ((j.unload q out).final g)
  addGrads : ∀ {S : Type} [Arith S] [Laned K S] (g : Graph K S) (b : Block), b.shape = shape →
    ∃ g', (j.addGrads q b).run g = .ok () g' ∧ g.Rewritten (j.cells b) g' ∧
      ∀ n, g'.value n = g.value n

section
variable [Arith S] [Laned K S]

omit [Arith T] in
/-- What a block lacks is filled in when it is loaded. -/
theorem filled_load (j : Projection) (b : Block) (s : Graph K S × Program T) :
    s.1.Filled (j.Reads b s.1.dag) ((j.load b).final s).1 := by
  -- what stands below a cell is told by the operations, which stay
  have hleads : (j.load b).Leads
      (fun t t' : Graph K S × Program T => t.1.Filled (j.Reads b s.1.dag) t'.1) s := by
    refine .get_bind (.ofExcept_bind fun _ _ => .forM_of_kept (I := fun t => t.1.dag = s.1.dag)
      (fun _ _ hm ht => hm.dag.trans ht) (fun cell hcell t ht => ?_) rfl)
    have hscalar : (Graph.scalarOf cell.1).Leads (Graph.Filled (j.Reads b s.1.dag)) t.1 :=
      (Graph.leads_scalarOf t.1 cell.1).mono fun _ _ h => h.mono fun n hn =>
        ⟨cell.1, List.mem_map_of_mem hcell, ht ▸ hn⟩
    refine .bind (hscalar.onFirst.mono fun t t' hm => ?_) fun v t' _ =>
      .of_modify (.single (.refl t'.1))
    exact .of_moves hm.1
  have hkeeps : ∀ t t' : Graph K S × Program T, t.1.Filled (j.Reads b s.1.dag) t'.1 →
      s.1.Filled (j.Reads b s.1.dag) t.1 → s.1.Filled (j.Reads b s.1.dag) t'.1 :=
    fun _ _ hm ht => ht.trans hm
  exact Step.keeps_of_moves hkeeps hleads (.refl s.1)

omit [Arith S] in
/-- Values and gradients of cells are replaced when a block is unloaded. -/
theorem rewritten_unload (j : Projection) (q : Program T) (out : Block) (g : Graph K S) :
    g.Rewritten (j.cells out) ((j.unload q out).final g) := by
  have hleads : (j.unload q out).Leads (Graph.Rewritten (j.cells out)) g := by
    refine .ofExcept_bind fun _ _ => .forM (fun cell hcell g => ?_) g
    have hn : cell.1 ∈ j.cells out := List.mem_map_of_mem hcell
    refine .bind (.get_bind ?_) fun _ g _ =>
      .of_modify (.single (Graph.rewritten_update g hn fun _ => rfl))
    dsimp only
    split
    · exact .throw _ _
    · exact .ofExcept_bind fun v _ => .set (.single (Graph.rewritten_update g hn fun _ => rfl))
  exact Step.keeps_of_moves (fun _ _ hm hg => hg.trans hm) hleads (.refl g)

/-- Gradients of cells are added to, and values stay. -/
theorem rewritten_addGrads (h : j.check q shape = .ok ()) (g : Graph K S) (b : Block)
    (hb : b.shape = shape) : ∃ g', (j.addGrads q b).run g = .ok () g' ∧
      g.Rewritten (j.cells b) g' ∧ ∀ n, g'.value n = g.value n := by
  subst hb
  refine ⟨_, by simp only [addGrads, EStateM.run_bind, h, Step.run_ofExcept_ok]; rfl, ?_⟩
  -- one cell after another
  have key : ∀ (cells : List (Node × Nat)) (g : Graph K S), (∀ c ∈ cells, c.1 ∈ j.cells b) →
      let g' := cells.foldl (fun g c => g.update c.1 fun d =>
        { d with grad := d.grad.addEach (Laned.fold (q.grad c.2)) }) g
      g.Rewritten (j.cells b) g' ∧ ∀ n, g'.value n = g.value n := by
    intro cells
    induction cells with
    | nil => exact fun g _ => ⟨.refl g, fun _ => rfl⟩
    | cons c cells ih =>
      intro g hc
      obtain ⟨hrest, hvalue⟩ := ih (g.update c.1 fun d =>
        { d with grad := d.grad.addEach (Laned.fold (q.grad c.2)) })
        fun d hd => hc d (List.mem_cons_of_mem _ hd)
      have hfirst := Graph.rewritten_update g (hc c List.mem_cons_self)
        (f := fun d => { d with grad := d.grad.addEach (Laned.fold (q.grad c.2)) }) fun _ => rfl
      refine ⟨hfirst.trans hrest, fun n => (hvalue n).trans ?_⟩
      rw [Graph.value, Graph.value, Graph.cell_update]
      split
      · next hn => rw [hn.1]
      · rfl
  exact key _ g fun c hc => List.mem_map_of_mem hc

end

theorem confined_of_check (h : j.check q shape = .ok ()) (hitems : ∀ i ∈ j.items, i < q.size)
    (hvalues : q.values.size = q.size) (hgrads : q.grads.size = q.size) :
    j.Confined q shape where
  lt_values i hi := hvalues ▸ hitems i hi
  lt_grads i hi := hgrads ▸ hitems i hi
  load g b _ := ⟨wrote_load j b (g, q), filled_load j b (g, q)⟩
  loadSplat m hm := by
    have hrun : j.loadSplat m q =
        .ok ((j.pairs m).foldl (fun p c => p.setValue c.2 (Laned.splat c.1)) q) := by
      rw [loadSplat, hm, h]
      rfl
    exact ⟨_, hrun, wrote_loadSplat hrun⟩
  unload g out _ := rewritten_unload j q out g
  addGrads g b hb := rewritten_addGrads h g b hb

end Projection

namespace Program

variable [Scalar K] [Arith E] [Laned K E] [Arith F] [Laned K F] [Arith R] [Laned K R] [Arith T]
  [Laned K T]

/-- **Projections are safe.**  Let the programs `p` and `q` be left by any acts and
conversions of compiled ones, and let `j` be the projection of a block onto `p`.

* What compilation has fixed of `q` is still there, and its fingerprint is that of its
  instructions;
* if `q` has other instructions than `p`, every call with `j` is refused;
* if it has the same, every call with a block of another shape is refused, and with a block
  of the same shape every item of `j` has a value and a gradient, and calls touch what `j`
  maps and nothing else.

Fingerprints are hashes.  The two instruction arrays are not allowed to collide. -/
theorem projection_safe {g : Graph K E} {order : List Node} {p₀ : Program E}
    (hp₀ : g.compile order = .ok p₀) {p : Program R} (hp : Derived p₀ p)
    {g' : Graph K F} {order' : List Node} {q₀ : Program F} (hq₀ : g'.compile order' = .ok q₀)
    {q : Program T} (hq : Derived q₀ q)
    (hash : q₀.code.fingerprint = p₀.code.fingerprint →
      q₀.code.items.map Item.instr = p₀.code.items.map Item.instr)
    (s : Graph K S) (b : Block) :
    let j := Projection.make s b p
    (q.code = q₀.code ∧ q.fingerprint = q.code.fingerprint) ∧
    (q.code.items.map Item.instr ≠ p.code.items.map Item.instr →
      ∀ shape, j.Refuses q shape (.otherProgram p.fingerprint q.fingerprint)) ∧
    (q.code.items.map Item.instr = p.code.items.map Item.instr →
      (∀ shape ≠ b.shape, j.Refuses q shape (.otherBlock b.shape shape)) ∧
      j.Confined q b.shape) := by
  intro j
  obtain ⟨hp₀, hentries⟩ := Graph.intact_of_compile hp₀
  have hip := hp.intact hp₀
  have hiq := hq.intact (Graph.intact_of_compile hq₀).1
  rw [← hip.fingerprint, ← hiq.fingerprint, ← hip.code, ← hiq.code] at hash
  refine ⟨⟨hiq.code, hiq.code ▸ hiq.fingerprint⟩, fun hne shape => ?_, fun heq => ?_⟩
  · exact Projection.refuses_of_check (if_pos fun h => hne (hash h))
  · have hfits : q.fingerprint = p.fingerprint := by
      rw [hiq.fingerprint, hip.fingerprint, ← hiq.code, ← hip.code, Code.fingerprint_congr heq]
    have hcheck := Projection.check_make (g := s) hfits b
    refine ⟨fun shape hne => ?_, ?_⟩
    · exact Projection.refuses_of_check ((hcheck shape).trans (if_neg hne))
    · have hsize : q.size = p.size := by simpa [size, Code.size] using congrArg Array.size heq
      refine Projection.confined_of_check ((hcheck b.shape).trans (if_pos rfl)) (fun i hi => ?_)
        (by rw [hiq.size_values, size, hiq.code]) (by rw [hiq.size_grads, size, hiq.code])
      obtain ⟨e, he, rfl⟩ := Projection.items_make hi
      rw [hsize, size, hip.code]
      exact hentries e (hip.code ▸ he)

/-- A program that was run and widened takes what belongs to the compiled one; the square
by a function has other instructions than the product. -/
theorem projection_safe_trackedSquare :
    ∃ p q : Program Float32, trackedSquare.compile [0, 1] = .ok p ∧
      squared.compile [0, 1] = .ok q ∧
      let j := Projection.make trackedSquare (.scalar 0) p
      let wide : Program (Lanes Float32 2) := (Call.result.run.final p).convert
      j.Confined wide (1, 1) ∧ j.Refuses q (1, 1) (.otherProgram p.fingerprint q.fingerprint) := by
  have hcompile : (trackedSquare.compile [0, 1] >>= fun p => squared.compile [0, 1] >>= fun q =>
      .ok (q.code.fingerprint == p.code.fingerprint,
        q.code.items.map Item.instr == p.code.items.map Item.instr)) = .ok (false, false) := by
    decide +kernel
  obtain ⟨p, hp, hrest⟩ := bind_eq_ok.1 hcompile
  obtain ⟨q, hq, hboth⟩ := bind_eq_ok.1 hrest
  obtain ⟨hhash, hinstr⟩ := Prod.mk.inj (Except.ok.inj hboth)
  refine ⟨p, q, hp, hq, ?_⟩
  intro j wide
  have hwide : Derived p wide := .convert (.act .self (.call .result p))
  obtain ⟨-, -, hsame⟩ := projection_safe hp .self hp hwide (fun _ => rfl) trackedSquare (.scalar 0)
  obtain ⟨-, hother, -⟩ := projection_safe hp .self hq .self
    (fun h => absurd h (by simpa using hhash)) trackedSquare (.scalar 0)
  refine ⟨(hsame ?_).2, hother (by simpa using hinstr) _⟩
  rw [(hwide.intact (Graph.intact_of_compile hp).1).code]

end Program

end DiffGraph
