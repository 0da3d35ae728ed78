/-
  What becomes of a program.

  Once a program is compiled it is run, numbers are written into it, and it is converted to
  other elements.  None of this changes what compilation has fixed.

  * `Program.Wrote`: numbers were written into some items, and nothing else was changed.
    So do projections to their items (`Projection.wrote_load`, `Projection.wrote_loadSplat`),
    and a program that reads its parameters again to theirs (`wrote_refreshValues`);
  * `Program.Act`, `Program.Derived`: whatever is done with a program, also if it fails, and
    all programs that are left by it;
  * `Program.Intact`: the code and the fingerprint are those of the compilation, and every
    item has a value and a gradient.  This is so for every program that was derived from a
    compiled one (`Derived.intact`).
-/
import DiffGraph.Program.Exchange
import DiffGraph.Proofs.Renaming
import DiffGraph.Proofs.Rounds

namespace DiffGraph

open Relation

variable {K E S T U : Type}

/-- A computation on the first part of a state leaves the second part alone. -/
theorem Step.Leads.onFirst {σ τ α : Type} {Move : σ → σ → Prop} {x : Step σ α} {s : σ × τ}
    (h : x.Leads Move s.1) :
    (Step.onFirst x).Leads (fun s t => ReflTransGen Move s.1 t.1 ∧ t.2 = s.2) s := by
  have hfinal : (Step.onFirst x).final s = (x.final s.1, s.2) := by
    have hrun := Step.run_onFirst x s.1 s.2
    unfold Step.final
    cases hx : x.run s.1 <;> rw [hx] at hrun <;> rw [hrun]
  rw [Step.Leads, hfinal]
  exact .single ⟨h, rfl⟩

namespace Program

/-! ## Writing numbers -/

/-- Values were written into items with `P`, and nothing else was changed. -/
structure Wrote [Zero T] (P : Nat → Prop) (q q' : Program T) : Prop where
  code : q'.code = q.code
  fingerprint : q'.fingerprint = q.fingerprint
  grads : q'.grads = q.grads
  size_values : q'.values.size = q.values.size
  value : ∀ i, ¬ P i → q'.value i = q.value i

section
variable [Zero T] {P : Nat → Prop} {q q' q'' : Program T}

theorem Wrote.refl (q : Program T) : Wrote P q q := ⟨rfl, rfl, rfl, rfl, fun _ _ => rfl⟩

theorem Wrote.trans (h : Wrote P q q') (h' : Wrote P q' q'') : Wrote P q q'' where
  code := h'.code.trans h.code
  fingerprint := h'.fingerprint.trans h.fingerprint
  grads := h'.grads.trans h.grads
  size_values := h'.size_values.trans h.size_values
  value i hi := (h'.value i hi).trans (h.value i hi)

theorem wrote_setValue (q : Program T) {i : Nat} (hi : P i) (v : T) :
    Wrote P q (q.setValue i v) where
  code := rfl
  fingerprint := rfl
  grads := rfl
  size_values := by simp [setValue]
  value j hj := value_setValue_of_ne q (fun hij : i = j => hj (hij ▸ hi)) v

/-- What each step of a computation writes, the whole of it writes. -/
theorem Wrote.of_leads {σ α : Type} {x : Step (σ × Program T) α} {s : σ × Program T}
    (h : x.Leads (fun s t => Wrote P s.2 t.2) s) : Wrote P s.2 (x.final s).2 := by
  have hkeeps : ∀ t t' : σ × Program T, Wrote P t.2 t'.2 → Wrote P s.2 t.2 → Wrote P s.2 t'.2 :=
    fun _ _ hm ht => ht.trans hm
  exact Step.keeps_of_moves hkeeps h (.refl _)

/-- A computation beside the program writes nothing. -/
theorem leads_onFirst {σ α : Type} (x : Step σ α) (s : σ × Program T) :
    (Step.onFirst x).Leads (fun s t => Wrote P s.2 t.2) s := by
  have hfirst : x.Leads (fun _ _ => True) s.1 := .single trivial
  refine hfirst.onFirst.mono fun s t h => ?_
  rw [h.2]
  exact .refl s.2

end

end Program

namespace Projection

theorem mem_items {j : Projection} {i : Nat} : i ∈ j.items ↔ some i ∈ j.slots.data.toList :=
  List.reduceOption_mem_iff

/-- Only the items of a projection are paired up. -/
theorem snd_mem_items {A : Type} {j : Projection} {m : Matrix A} {c : A × Nat}
    (hc : c ∈ j.pairs m) : c.2 ∈ j.items := by
  simp only [pairs, List.mem_filterMap, Option.map_eq_some_iff] at hc
  obtain ⟨⟨a, slot⟩, hmem, i, rfl, rfl⟩ := hc
  exact mem_items.2 (List.of_mem_zip hmem).2

/-- The items of a projection are those of entries. -/
theorem items_make {g : Graph K S} {b : Block} {p : Program T} {i : Nat}
    (hi : i ∈ (make g b p).items) : ∃ e ∈ p.code.entries, e.index = i := by
  rw [mem_items, make, Matrix.map, Array.toList_map, List.mem_map] at hi
  obtain ⟨n, -, hn⟩ := hi
  obtain ⟨e, he, hei⟩ := Option.map_eq_some_iff.1 hn
  exact ⟨e, List.mem_of_find?_eq_some he, hei⟩

variable [Scalar K] [Arith S] [Arith T] [Laned K S] [Laned K T]

/-- **A block is loaded into the items of a projection**, also if that fails half way. -/
theorem wrote_load (j : Projection) (b : Block) (s : Graph K S × Program T) :
    Program.Wrote (· ∈ j.items) s.2 ((j.load b).final s).2 := by
  refine .of_leads (.get_bind (.ofExcept_bind fun _ _ => .forM (fun cell hcell s => ?_) s))
  refine .bind (Program.leads_onFirst _ _) fun v _ _ => .of_modify (.single ?_)
  exact Program.wrote_setValue _ (snd_mem_items hcell) _

omit [Scalar K] in
/-- **Numbers are loaded into the items of a projection.** -/
theorem wrote_loadSplat {j : Projection} {m : Matrix K} {q q' : Program T}
    (h : j.loadSplat m q = .ok q') : Program.Wrote (· ∈ j.items) q q' := by
  obtain ⟨_, -, hq'⟩ := bind_eq_ok.1 h
  cases hq'
  have key : ∀ (cells : List (K × Nat)) (q : Program T), (∀ c ∈ cells, c.2 ∈ j.items) →
      Program.Wrote (· ∈ j.items) q
        (cells.foldl (fun p c => p.setValue c.2 (Laned.splat c.1)) q) := by
    intro cells
    induction cells with
    | nil => exact fun q _ => .refl q
    | cons c cells ih =>
      intro q hc
      exact (Program.wrote_setValue q (hc c List.mem_cons_self) _).trans
        (ih _ fun d hd => hc d (List.mem_cons_of_mem _ hd))
  exact key _ q fun c hc => snd_mem_items hc

end Projection

namespace Program

/-- The item of a parameter that has an entry. -/
def Dynamic (code : Code) (i : Nat) : Prop :=
  (code.instr i).isParameter = true ∧ ∃ e ∈ code.entries, e.index = i

section
variable [Scalar K] [Arith S] [Arith T] [Laned K S] [Laned K T]

/-- **Parameters that have an entry are read again**, also if that fails half way. -/
theorem wrote_refreshValues (order : List Node) (s : Graph K S × Program T) :
    Wrote (Dynamic s.2.code) s.2 ((refreshValues order).final s).2 := by
  -- the loop asks the code which entries are parameters, so the code has to stay
  refine .of_leads (.get_bind (.forM_of_kept (I := fun t => t.2.code = s.2.code)
    (fun _ _ hm ht => hm.code.trans ht) (fun e he t ht => .get_bind ?_) rfl))
  dsimp only
  split
  · next hp =>
    refine .ofExcept_bind fun n _ => .bind (leads_onFirst _ _) fun v _ _ =>
      .of_modify (.single (wrote_setValue _ ⟨ht ▸ hp, e, he, rfl⟩ _))
  · exact .pure _ _

/-! ## Whatever is done with a program -/

/-- What can be done with a program, if projections with `J` are at hand.  A call may fail
half way.  What only reads a program has no place here: gradients are delivered and blocks
are unloaded without a change of it. -/
inductive Act (J : Projection → Prop) : Program T → Program T → Prop where
  | call (c : Call) (q : Program T) : Act J q (c.run.final q)
  | load {S : Type} [Arith S] [Laned K S] {j : Projection} (hj : J j) (g : Graph K S) (b : Block)
      (q : Program T) : Act J q ((j.load b).final (g, q)).2
  | loadSplat {j : Projection} (hj : J j) (m : Matrix K) {q q' : Program T}
      (h : j.loadSplat m q = .ok q') : Act J q q'
  | refreshValues {S : Type} [Arith S] [Laned K S] (g : Graph K S) (order : List Node)
      (q : Program T) : Act J q ((Program.refreshValues order).final (g, q)).2

/-- The programs that are left by acts and conversions, starting from `p`. -/
inductive Derived [Arith E] [Laned K E] (p : Program E) :
    ∀ {T : Type} [Arith T] [Laned K T], Program T → Prop where
  | self : Derived p p
  | act {T : Type} [Arith T] [Laned K T] {q q' : Program T} (h : Derived p q)
      (ha : Act (fun _ => True) q q') : Derived p q'
  | convert {T U : Type} [Arith T] [Laned K T] [Arith U] [Laned K U] {q : Program T}
      (h : Derived p q) : Derived p (q.convert : Program U)

end

/-! ## What stays -/

/-- What was fixed by compilation is still there, and every item has a value and a
gradient. -/
structure Intact (compiled : Code) (q : Program T) : Prop where
  code : q.code = compiled
  fingerprint : q.fingerprint = compiled.fingerprint
  size_values : q.values.size = compiled.size
  size_grads : q.grads.size = compiled.size

section
variable {code : Code} {q q' : Program T}

theorem Intact.reran [Arith T] (h : Intact code q) (hq : Reran q q') : Intact code q' where
  code := hq.code.trans h.code
  fingerprint := hq.fingerprint.trans h.fingerprint
  size_values := hq.size_values.trans h.size_values
  size_grads := hq.size_grads.trans h.size_grads

theorem Intact.wrote [Zero T] {P : Nat → Prop} (h : Intact code q) (hq : Wrote P q q') :
    Intact code q' where
  code := hq.code.trans h.code
  fingerprint := hq.fingerprint.trans h.fingerprint
  size_values := hq.size_values.trans h.size_values
  size_grads := (congrArg Array.size hq.grads).trans h.size_grads

theorem Intact.convert [Zero K] [Laned K T] [Zero U] [Laned K U] (h : Intact code q) :
    Intact code (q.convert : Program U) where
  code := h.code
  fingerprint := h.fingerprint
  size_values := by simpa [Program.convert] using h.size_values
  size_grads := by simp [Program.convert, Program.size, h.code]

theorem Intact.act [Scalar K] [Arith T] [Laned K T] {J : Projection → Prop} (h : Intact code q)
    (ha : Act J q q') : Intact code q' := by
  cases ha with
  | call c => exact h.reran (reran_call c q)
  | load hj g b => exact h.wrote (Projection.wrote_load _ b (g, q))
  | loadSplat hj m hm => exact h.wrote (Projection.wrote_loadSplat hm)
  | refreshValues g order => exact h.wrote (wrote_refreshValues order (g, q))

/-- **What compilation fixes is never changed.** -/
theorem Derived.intact [Scalar K] [Arith E] [Laned K E] [Arith T] [Laned K T] {p : Program E}
    (h : Derived p q) (hp : Intact code p) : Intact code q := by
  induction h with
  | self => exact hp
  | act _ ha ih => exact ih.act ha
  | convert _ ih => exact ih.convert

/-- A program with items always gives a result. -/
theorem Intact.run_result [Arith T] (h : Intact code q) (hpos : code.size ≠ 0) :
    result.run q = .ok (q.forward.value (code.size - 1)) q.forward := by
  have hsize : q.forward.size = code.size := by rw [size, (reran_forward q).code, h.code]
  rw [Program.run_result, hsize, if_neg hpos]

/-- And it can always go back from it. -/
theorem Intact.run_reversePass [Arith T] (h : Intact code q) (hpos : code.size ≠ 0) :
    reversePass.run q = .ok () q.reverse := by
  rw [Program.run_reversePass, if_neg (by rwa [size, h.code])]

end

end Program

/-! ## Compiled programs -/

namespace Graph

variable [Arith E] {g : Graph K E}

/-- What one vertex adds to a code. -/
theorem compileNode_eq_ok {before : Array Node} {n : Node} {code : Code} {values : Array E}
    {r : Code × Array E} (h : g.compileNode before n code values = .ok r) :
    ∃ item hlt v, r = (code.push item hlt (g.entry? n before.size), values.push v) := by
  obtain ⟨instr, -, h⟩ := bind_eq_ok.1 h
  obtain ⟨v, -, h⟩ := bind_eq_ok.1 h
  dsimp only at h
  split at h
  · next hlt => exact ⟨_, hlt, v, (Except.ok.inj h).symm⟩
  · cases h

/-- While an order is compiled, every vertex has an item with a value, and entries belong to
items. -/
theorem size_of_compileRest {rest : List Node} {before : Array Node} {code : Code}
    {values : Array E} {r : Code × Array E} (h : g.compileRest before code values rest = .ok r)
    (hsize : before.size = code.size) (hvalues : values.size = code.size)
    (hentries : ∀ e ∈ code.entries, e.index < code.size) :
    r.2.size = r.1.size ∧ ∀ e ∈ r.1.entries, e.index < r.1.size := by
  induction rest generalizing before code values with
  | nil =>
    cases h
    exact ⟨hvalues, hentries⟩
  | cons n rest ih =>
    obtain ⟨⟨code', values'⟩, hnode, hrest⟩ := bind_eq_ok.1 h
    obtain ⟨item, hlt, v, hr⟩ := compileNode_eq_ok hnode
    obtain ⟨rfl, rfl⟩ := Prod.mk.inj hr
    have hpush : (code.push item hlt (g.entry? n before.size)).size = code.size + 1 :=
      Array.size_push _
    refine ih hrest ?_ ?_ fun e he => ?_
    · rw [hpush, Array.size_push, hsize]
    · rw [hpush, Array.size_push, hvalues]
    · rw [hpush]
      rcases List.mem_append.1 he with he | he
      · exact Nat.lt_succ_of_lt (hentries e he)
      · rw [Option.mem_toList, entry?] at he
        split at he
        · cases he
          exact hsize ▸ Nat.lt_succ_self _
        · cases he

/-- **A compiled program is intact**, along whatever order it was compiled. -/
theorem intact_of_compile {order : List Node} {p : Program E} (h : g.compile order = .ok p) :
    Program.Intact p.code p ∧ ∀ e ∈ p.code.entries, e.index < p.size := by
  obtain ⟨⟨code, values⟩, hrest, hp⟩ := bind_eq_ok.1 h
  obtain ⟨hvalues, hentries⟩ := size_of_compileRest hrest rfl rfl (by simp [Code.empty])
  cases hp
  exact ⟨⟨rfl, rfl, hvalues, Array.size_replicate⟩, hentries⟩

end Graph

end DiffGraph
