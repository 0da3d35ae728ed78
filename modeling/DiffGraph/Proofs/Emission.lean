/-
  What compilation accepts and emits.

  * `Graph.offence`: why a vertex cannot be compiled.  The first offence of an order is the
    failure of its compilation (`compile_of_offence`), and without one it succeeds;
  * `Graph.ItemOf`: the item of a vertex.  Its operands are the places of the operands of the
    vertex, which come before its own, and it receives gradients if some vertex below it is
    marked (`Compiled.tracked_iff`);
  * `Graph.Emitted`: a program whose items belong to the vertices of an order, one at each
    place, and whose entries are the marked ones in ascending order;
  * `Program.Sure`: a program that can always be run, and whose items read items only.

  `Graph.compile_emits` puts this together.
-/
import DiffGraph.Proofs.Derivation
import DiffGraph.Proofs.Folding

namespace DiffGraph

open Relation

variable {K E T : Type}

namespace Graph

/-! ## Offences -/

/-- Why a vertex cannot be compiled, if it cannot: it is no operation on numbers, or a
parameter that is no number. -/
def offence (g : Graph K E) (n : Node) : Option Failure :=
  if g.kind n ∉ Kind.compiled then some (.notCompilable (g.kind n))
  else if g.isParameter n = true ∧ (g.value n).shape ≠ (1, 1) then
    some (.parameterNotScalar n (g.value n).shape)
  else none

variable {g : Graph K E} {n root : Node} {e : Failure}

theorem offence_eq_none : g.offence n = none ↔
    g.kind n ∈ Kind.compiled ∧ (g.isParameter n = true → (g.value n).shape = (1, 1)) := by
  unfold offence
  split
  · next h => simp [h]
  · next h =>
    split
    · next hp => simp [hp]
    · next hp =>
      rw [not_and, not_not] at hp
      exact iff_of_true rfl ⟨not_not.1 h, hp⟩

section
variable [Arith E]

/-- An operation that is not compiled has no instruction. -/
theorem instr?_of_kind {op : Op K} (h : op.kind ∉ Kind.compiled)
    (position : Node → Except Failure Nat) :
    op.instr? position = .error (.notCompilable op.kind) := by
  cases op with
  | parameter | add | neg | mul | div | func | max => simp [Op.kind, Kind.compiled] at h
  | _ => rfl

/-- **A vertex with an offence fails with it.** -/
theorem compileNode_of_offence (h : g.offence n = some e) (before : Array Node) (code : Code)
    (values : Array E) : g.compileNode before n code values = .error e := by
  unfold offence at h
  split at h
  · next hk =>
    cases h
    rw [compileNode, instr?_of_kind hk]
    rfl
  · split at h
    · next hp =>
      cases h
      have hs : ¬ (g.value n).isScalar = true := fun hs => hp.2 (Matrix.isScalar_iff.1 hs)
      rw [compileNode, op_eq_parameter hp.1, itemValue, if_pos hp.1, if_neg hs]
      rfl
    · cases h

/-- The first offence among further vertices. -/
theorem Compiled.rest_of_offence {rest before : List Node} {code : Code} {values : Array E}
    (h : Compiled g before code values) (hb : g.Ordered (before ++ rest))
    (hrest : rest.findSome? g.offence = some e) :
    g.compileRest before.toArray code values rest = .error e := by
  induction rest generalizing before code values with
  | nil => cases hrest
  | cons n rest ih =>
    rw [List.findSome?_cons] at hrest
    rw [compileRest]
    cases hn : g.offence n with
    | some e' =>
      rw [hn] at hrest
      cases hrest
      rw [compileNode_of_offence hn]
      rfl
    | none =>
      -- the vertex is compiled, and the offence is met later
      rw [hn] at hrest
      obtain ⟨hkind, hp⟩ := offence_eq_none.1 hn
      obtain ⟨ins, hins⟩ := Op.exists_does hkind
      have hb' : g.Ordered (before ++ [n] ++ rest) := by simpa using hb
      obtain ⟨code', values', hrun, h'⟩ := h.concat hb'.of_append hins fun hpn =>
        Matrix.isScalar_iff.2 (hp hpn)
      rw [hrun, ok_bind]
      simpa using ih h' hb' hrest

/-- **The first offence is the failure of the compilation.** -/
theorem compile_of_offence (h : (g.order root).findSome? g.offence = some e) :
    g.compile (g.order root) = .error e := by
  have hb : g.Ordered ([] ++ g.order root) := ordered_order g root
  have hrest := (Compiled.nil g).rest_of_offence hb h
  rw [compile, hrest]
  rfl

end

/-! ## Items -/

section
variable [Arith E] {order : List Node} {code : Code} {values : Array E} {i : Nat}

/-- The operands of an item are the places of the operands of its vertex. -/
theorem Compiled.operands (h : Compiled g order code values) (hi : order[i]? = some n) :
    (code.instr i).operands = (g.op n).operands.map (order.idxOf ·) := by
  obtain ⟨ins, hins, hcode⟩ := h.instr i n hi
  rw [hcode, Instr.operands_rename, hins.operands]

theorem Compiled.kind (h : Compiled g order code values) (hi : order[i]? = some n) :
    (code.instr i).kind = g.kind n := by
  obtain ⟨ins, hins, hcode⟩ := h.instr i n hi
  rw [hcode, Graph.kind]
  generalize g.op n = op at hins
  cases hins <;> rfl

theorem Compiled.funcIndex (h : Compiled g order code values) (hi : order[i]? = some n)
    {f : Unary} {l : Node} (hop : g.op n = .func f l) : (code.instr i).funcIndex = f.index := by
  obtain ⟨ins, hins, hcode⟩ := h.instr i n hi
  rw [hop] at hins
  cases hins
  rw [hcode]
  rfl

/-- **Gradients are computed for an item if a vertex below its own is marked.** -/
theorem Compiled.tracked_iff (h : Compiled g order code values) (hb : g.Ordered order)
    (hi : order[i]? = some n) :
    code.tracked i = true ↔ ∃ m, g.dag.Below n m ∧ (g.cell m).tracked = true := by
  induction n using Nat.strong_induction_on generalizing i with
  | _ n ih =>
    have hoperand : ∀ c ∈ (g.op n).operands,
        code.tracked (order.idxOf c) = true ↔ ∃ m, g.dag.Below c m ∧ (g.cell m).tracked = true :=
      fun c hc => ih c (g.dag.operands_lt_self hc)
        (List.getElem?_idxOf (List.mem_of_mem_take (hb.mem hi hc)))
    rw [h.tracked i n hi, h.operands hi, Bool.or_eq_true, List.any_map, List.any_eq_true]
    constructor
    · rintro (hn | ⟨c, hc, htracked⟩)
      · exact ⟨n, .refl _ n, hn⟩
      · obtain ⟨m, hm, ht⟩ := (hoperand c hc).1 htracked
        exact ⟨m, .head ⟨rfl, hc⟩ hm, ht⟩
    · rintro ⟨m, hm, ht⟩
      rcases ReflTransGen.cases_head hm with rfl | ⟨c, ⟨-, hc⟩, hm⟩
      · exact .inl ht
      · exact .inr ⟨c, hc, (hoperand c hc).2 ⟨m, hm, ht⟩⟩

/-- The item at place `i` of a program, which belongs to vertex `n`. -/
structure ItemOf (g : Graph K E) (order : List Node) (p : Program E) (i : Nat) (n : Node) :
    Prop where
  kind : (p.code.instr i).kind = g.kind n
  lhs : (p.code.instr i).lhs = ((g.op n).operands.map (order.idxOf ·)).getD 0 Instr.unused
  rhs : (p.code.instr i).rhs = ((g.op n).operands.map (order.idxOf ·)).getD 1 Instr.unused
  /-- a place is never mistaken for an operand that is not there -/
  lt_unused : i < Instr.unused
  operand : ∀ c ∈ (g.op n).operands, order[order.idxOf c]? = some c ∧ order.idxOf c < i
  function : ∀ f l, g.op n = .func f l → Unary.ofIndex? (p.code.instr i).funcIndex = some f
  value : g.isParameter n = true → g.value n = .scalar (p.value i)
  tracked : p.code.tracked i = true ↔ ∃ m, g.dag.Below n m ∧ (g.cell m).tracked = true

/-- The program that belongs to an order. -/
structure Emitted (g : Graph K E) (order : List Node) (p : Program E) : Prop where
  size : p.size = order.length
  item : ∀ i n, order[i]? = some n → g.ItemOf order p i n
  entry : ∀ e, e ∈ p.code.entries ↔
    ∃ i n, order[i]? = some n ∧ g.marked n = true ∧ e = ⟨i, g.id n⟩
  ascending : (p.code.entries.map Entry.index).Pairwise (· < ·)

theorem Compiled.itemOf {p : Program E} (h : Compiled g order p.code p.values)
    (hb : g.Ordered order) (hlen : order.length < Instr.unused) (hi : order[i]? = some n) :
    g.ItemOf order p i n where
  kind := h.kind hi
  lhs := by rw [Instr.lhs, h.operands hi]
  rhs := by rw [Instr.rhs, h.operands hi]
  lt_unused := (List.getElem?_eq_some_iff.1 hi).1.trans hlen
  operand c hc := by
    have hmem := hb.mem hi hc
    have hplace : order.idxOf c ∈ (p.code.instr i).operands := by
      rw [h.operands hi]
      exact List.mem_map_of_mem hc
    exact ⟨List.getElem?_idxOf (List.mem_of_mem_take hmem), Code.operand_lt hplace⟩
  function f l hop := by
    rw [h.funcIndex hi hop]
    cases f <;> rfl
  value hp := h.value i n hi hp
  tracked := h.tracked_iff hb hi

omit [Arith E] in
/-- Entries stand in the order of their items. -/
theorem map_index_entries (g : Graph K E) (order : List Node) (k : Nat) :
    (((order.zipIdx k).filterMap fun v => g.entry? v.1 v.2).map Entry.index).Sublist
      (List.range' k order.length) := by
  induction order generalizing k with
  | nil => exact List.Sublist.refl _
  | cons n order ih =>
    rw [List.zipIdx_cons, List.filterMap_cons, List.length_cons, List.range'_succ, entry?]
    cases g.marked n with
    | true => exact (ih (k + 1)).cons_cons k
    | false => exact (ih (k + 1)).cons k

theorem Compiled.emitted {p : Program E} (h : Compiled g order p.code p.values)
    (hb : g.Ordered order) (hlen : order.length < Instr.unused) : g.Emitted order p where
  size := h.size
  item _ _ hi := h.itemOf hb hlen hi
  entry _ := h.mem_entries
  ascending := by
    rw [h.entries]
    exact List.Pairwise.sublist (map_index_entries g order 0) List.pairwise_lt_range'

end

end Graph

namespace Program

/-- A program that can always be run: what an item reads has a value and a gradient, an
evaluation gives a result, and a reverse pass ends. -/
structure Sure [Arith T] (q : Program T) : Prop where
  size_values : q.values.size = q.size
  size_grads : q.grads.size = q.size
  operand : ∀ i < q.size, ∀ c ∈ (q.code.instr i).operands, c < q.size
  result : ∃ v q', result.run q = .ok v q'
  reversePass : ∃ q', reversePass.run q = .ok () q'

theorem Intact.sure [Arith T] {code : Code} {q : Program T} (h : Intact code q)
    (hpos : code.size ≠ 0) : q.Sure where
  size_values := h.size_values.trans (congrArg Code.size h.code).symm
  size_grads := h.size_grads.trans (congrArg Code.size h.code).symm
  operand _ hi _ hc := (Code.operand_lt hc).trans hi
  result := ⟨_, _, h.run_result hpos⟩
  reversePass := ⟨_, h.run_reversePass hpos⟩

end Program

namespace Graph

/-- Compiles what is below a root, as a computation on its graph. -/
def compileBelow [Arith E] (root : Node) : Step (Graph K E) (Program E) := do
  let g ← get
  Step.ofExcept (g.compile (g.order root))

variable [Scalar K] [Arith E] [Laned K E]

/-- **What compilation accepts and emits.**  Let fewer vertices stand below `root` than there
are numbers for them.

* Compilation succeeds if and only if only operations on numbers stand below the root, and
  its parameters are numbers;
* otherwise the first vertex of the order that offends against this is reported;
* on success every vertex has its item, every marked vertex has its entry, and the program
  can be run after whatever is done with it.

The graph is left as it was in either case. -/
theorem compile_emits {g : Graph K E} {root : Node} (hroot : root < g.size)
    (hlen : (g.order root).length < Instr.unused) :
    ((∃ p, (compileBelow root).run g = .ok p g) ↔
      ∀ n, g.dag.Below root n →
        g.kind n ∈ Kind.compiled ∧ (g.isParameter n = true → (g.value n).shape = (1, 1))) ∧
    (∀ e, (g.order root).findSome? g.offence = some e →
      (compileBelow root).run g = .error e g) ∧
    ((g.order root).findSome? g.offence = none → ∃ p, (compileBelow root).run g = .ok p g ∧
      g.Emitted (g.order root) p ∧
      ∀ {T : Type} [Arith T] [Laned K T] (q : Program T), Program.Derived p q → q.Sure) := by
  have hrun : (compileBelow root).run g =
      (Step.ofExcept (g.compile (g.order root)) : Step (Graph K E) (Program E)).run g := rfl
  have herror : ∀ e, (g.order root).findSome? g.offence = some e →
      (compileBelow root).run g = .error e g := fun e he => by
    rw [hrun, compile_of_offence he, Step.run_ofExcept_error]
  have hok : (g.order root).findSome? g.offence = none → ∃ p,
      (compileBelow root).run g = .ok p g ∧ g.Emitted (g.order root) p ∧
      ∀ {T : Type} [Arith T] [Laned K T] (q : Program T), Program.Derived p q → q.Sure := by
    intro hnone
    have hfine : ∀ n, g.dag.Below root n → g.offence n = none := fun n hn =>
      List.findSome?_eq_none_iff.1 hnone n ((mem_order hroot).2 hn)
    obtain ⟨p, hp, hc, -⟩ := compile_order hroot (fun n hn => (offence_eq_none.1 (hfine n hn)).1)
      fun n hn hpn => Matrix.isScalar_iff.2 ((offence_eq_none.1 (hfine n hn)).2 hpn)
    refine ⟨p, by rw [hrun, hp, Step.run_ofExcept_ok], hc.emitted (ordered_order g root) hlen, ?_⟩
    intro T _ _ q hq
    exact (hq.intact (intact_of_compile hp).1).sure (hc.size_ne_zero hroot)
  refine ⟨⟨?_, fun hfine => ?_⟩, herror, hok⟩
  · rintro ⟨p, hp⟩ n hn
    refine offence_eq_none.1 ?_
    cases hfirst : (g.order root).findSome? g.offence with
    | none => exact List.findSome?_eq_none_iff.1 hfirst n ((mem_order hroot).2 hn)
    | some e =>
      rw [herror e hfirst] at hp
      cases hp
  · obtain ⟨p, hp, -⟩ := hok (List.findSome?_eq_none_iff.2 fun n hn =>
      offence_eq_none.2 (hfine n ((mem_order hroot).1 hn)))
    exact ⟨p, hp⟩

/-- A marked number is squared; the sum of a row is refused, and the row before it. -/
theorem compile_emits_trackedSquare :
    (∃ p, (compileBelow 1).run Program.trackedSquare = .ok p Program.trackedSquare ∧
      Program.trackedSquare.Emitted [0, 1] p) ∧
    let row : Graph Float32 Float32 := Call.runs [.parameter (.filled 1 2 3), .record (.sum 0)]
      (.empty 0 ⟨fun _ => 0, fun _ => 0⟩)
    (compileBelow 1).run row = .error (.parameterNotScalar 0 (1, 2)) row := by
  constructor
  · have hlen : (Program.trackedSquare.order 1).length < Instr.unused := by
      rw [Program.order_trackedSquare]
      decide
    obtain ⟨-, -, hok⟩ := compile_emits (by decide +kernel) hlen
    rw [Program.order_trackedSquare] at hok
    obtain ⟨p, hp, hemitted, -⟩ := hok (by decide +kernel)
    exact ⟨p, hp, hemitted⟩
  · intro row
    have horder : row.order 1 = [0, 1] := by
      have hsize : row.dag.size = 2 := by decide +kernel
      have hops : row.dag.operands 1 = [0] ∧ row.dag.operands 0 = [] := by decide +kernel
      simp [order, Dag.traverse, Dag.visit, hsize, hops]
    have hlen : (row.order 1).length < Instr.unused := by
      rw [horder]
      decide
    obtain ⟨-, herror, -⟩ := compile_emits (by decide +kernel) hlen
    refine herror _ ?_
    rw [horder]
    decide +kernel

end Graph

end DiffGraph
