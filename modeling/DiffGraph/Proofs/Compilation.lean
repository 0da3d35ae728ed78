/-
  What compilation gives.

  `Compiled`: item `i` of a code belongs to vertex `i` of the order.  Its
  instruction is the operation of the vertex over the places of its operands, it
  receives gradients if its vertex is marked or an operand receives them, and its
  first value is that of a parameter, else zero.  The items of marked vertices are
  the entries.

  `compile_order`: a graph of numbers compiles along the order of a root, and
  `kind_of_compileRest` says that only such a graph does.
-/
import DiffGraph.Proofs.Evaluation
import DiffGraph.Proofs.Numeric

namespace DiffGraph

variable {K E : Type}

theorem Instr.rename_congr {i : Instr} {f f' : Nat → Nat} (h : ∀ c ∈ i.operands, f c = f' c) :
    i.rename f = i.rename f' := by
  cases i <;> simp_all [rename, operands]

namespace Code

variable {code : Code} {item : Item} {h : ∀ c ∈ item.instr.operands, c < code.size}
  {entry : Option Entry} {i : Nat}

theorem operand_lt {c : Nat} (hc : c ∈ (code.instr i).operands) : c < i := by
  by_cases hi : i < code.items.size
  · exact code.operands_lt i hi c (by simpa [instr, Array.getD, hi] using hc)
  · simp [instr, Array.getD, hi, Instr.operands] at hc

theorem items_push : (code.push item h entry).items[i]? =
    if i = code.size then some item else code.items[i]? := by
  rw [push, Array.getElem?_push]
  rfl

theorem instr_push : (code.push item h entry).instr i =
    if i = code.size then item.instr else code.instr i := by
  simp only [instr, Array.getD_eq_getD_getElem?, items_push]
  split <;> rfl

theorem tracked_push : (code.push item h entry).tracked i =
    if i = code.size then item.tracked else code.tracked i := by
  simp only [tracked, Array.getD_eq_getD_getElem?, items_push]
  split <;> rfl

/-- What is received by the items that are there stays the same. -/
theorem any_tracked_push {is : List Nat} (his : ∀ i ∈ is, i < code.size) :
    is.any (code.push item h entry).tracked = is.any code.tracked := by
  induction is with
  | nil => rfl
  | cons i is ih =>
    rw [List.any_cons, List.any_cons, tracked_push, if_neg (his i List.mem_cons_self).ne,
      ih fun j hj => his j (List.mem_cons_of_mem _ hj)]

end Code

namespace Graph

/-- The vertex is marked as an input or as a receiver of gradients. -/
def marked (g : Graph K E) (n : Node) : Bool := (g.cell n).isInput || (g.cell n).tracked

/-- The entry of the vertex at place `i`, if it has one. -/
def entry? (g : Graph K E) (n : Node) (i : Nat) : Option Entry :=
  if g.marked n then some ⟨i, g.id n⟩ else none

section
variable [Arith E]

/-- The code and the first values that belong to an order. -/
structure Compiled (g : Graph K E) (order : List Node) (code : Code) (values : Array E) :
    Prop where
  size : code.size = order.length
  size_values : values.size = order.length
  instr : ∀ i n, order[i]? = some n →
    ∃ ins, (g.op n).Does ins ∧ code.instr i = ins.rename (order.idxOf ·)
  tracked : ∀ i n, order[i]? = some n →
    code.tracked i = ((g.cell n).tracked || (code.instr i).operands.any code.tracked)
  value : ∀ i n, order[i]? = some n → g.isParameter n = true →
    g.value n = .scalar (values.getD i 0)
  entries : code.entries = order.zipIdx.filterMap fun v => g.entry? v.1 v.2

theorem Compiled.nil (g : Graph K E) : Compiled g [] .empty #[] :=
  ⟨rfl, rfl, by simp, by simp, by simp, rfl⟩

omit [Arith E] in
/-- The operands of the vertices of an order are in the order. -/
theorem Ordered.mem {g : Graph K E} {order : List Node} (h : g.Ordered order) {i : Nat} {n c : Node}
    (hn : order[i]? = some n) (hc : c ∈ (g.op n).operands) : c ∈ order.take i := by
  obtain ⟨hi, rfl⟩ := List.getElem?_eq_some_iff.1 hn
  refine h (order.take i) order[i] (order.drop (i + 1)) ?_ c hc
  rw [← List.drop_eq_getElem_cons hi, List.take_append_drop]

theorem position_of_mem {before : List Node} {n c : Node} (h : c ∈ before) :
    Program.position before.toArray n c = .ok (before.idxOf c) := by
  have hidx : before.idxOf? c = some (before.idxOf c) := by
    induction before with
    | nil => cases h
    | cons b before ih =>
      rw [List.idxOf?_cons, List.idxOf_cons]
      rcases List.mem_cons.1 h with rfl | h
      · simp
      · rw [ih h]
        cases b == c <;> rfl
  rw [Program.position, List.idxOf?_toArray, hidx]

/-- The places among the vertices before stay the same. -/
theorem rename_idxOf_concat {before : List Node} {ins : Instr}
    (h : ∀ c ∈ ins.operands, c ∈ before) (n : Node) :
    ins.rename (before.idxOf ·) = ins.rename ((before ++ [n]).idxOf ·) :=
  Instr.rename_congr fun c hc => (List.idxOf_append_of_mem (h c hc)).symm

theorem getElem?_concat_cases {before : List Node} {n m : Node} {i : Nat}
    (h : (before ++ [n])[i]? = some m) :
    (i < before.length ∧ before[i]? = some m) ∨ (i = before.length ∧ m = n) := by
  rcases Nat.lt_trichotomy i before.length with hi | rfl | hi
  · exact Or.inl ⟨hi, by rwa [List.getElem?_append_left hi] at h⟩
  · exact Or.inr ⟨rfl, by simpa using h.symm⟩
  · simp [List.getElem?_append_right hi.le, List.getElem?_singleton] at h
    omega

/-- The item of one more vertex. -/
theorem Compiled.push {g : Graph K E} {before : List Node} {n : Node} {code : Code}
    {values : Array E} (h : Compiled g before code values) (hb : g.Ordered (before ++ [n]))
    {ins : Instr} (hins : (g.op n).Does ins) {item : Item}
    (hlt : ∀ i ∈ item.instr.operands, i < code.size)
    (hi : item.instr = ins.rename (before.idxOf ·))
    (ht : item.tracked = ((g.cell n).tracked || item.instr.operands.any code.tracked))
    {v : E} (hv : g.isParameter n = true → g.value n = .scalar v) :
    Compiled g (before ++ [n]) (code.push item hlt (g.entry? n before.length)) (values.push v) := by
  exact
    { size := by
        rw [List.length_append, ← h.size]
        exact Array.size_push _
      size_values := by simp [h.size_values]
      instr := by
        intro i m hm
        rw [Code.instr_push, h.size]
        rcases getElem?_concat_cases hm with ⟨hlt', hm⟩ | ⟨rfl, rfl⟩
        · rw [if_neg hlt'.ne]
          obtain ⟨ins, hins, hcode⟩ := h.instr i m hm
          refine ⟨ins, hins, hcode.trans (rename_idxOf_concat (fun c hc => ?_) n)⟩
          exact List.mem_of_mem_take (hb.of_append.mem hm (hins.operands ▸ hc))
        · rw [if_pos rfl]
          refine ⟨ins, hins, hi.trans (rename_idxOf_concat (fun c hc => ?_) m)⟩
          exact hb before m [] rfl c (hins.operands ▸ hc)
      tracked := by
        intro i m hm
        rw [Code.tracked_push, Code.instr_push, h.size]
        rcases getElem?_concat_cases hm with ⟨hlt', hm⟩ | ⟨rfl, rfl⟩
        · rw [if_neg hlt'.ne, if_neg hlt'.ne, h.tracked i m hm, Code.any_tracked_push]
          exact fun j hj => (Code.operand_lt hj).trans (h.size ▸ hlt')
        · rw [if_pos rfl, if_pos rfl, ht, Code.any_tracked_push hlt]
      value := by
        intro i m hm hpm
        rcases getElem?_concat_cases hm with ⟨hlt', hm⟩ | ⟨rfl, rfl⟩
        · have hi' : i < values.size := by rwa [h.size_values]
          rw [h.value i m hm hpm]
          simp [Array.getD, hi', Nat.lt_succ_of_lt hi', Array.getElem_push_lt hi']
        · rw [hv hpm, Array.getD_eq_getD_getElem?, ← h.size_values, Array.getElem?_push_size]
          rfl
      entries := by
        rw [Code.push, h.entries, List.zipIdx_append, List.filterMap_append]
        simp only [Nat.zero_add, List.zipIdx_cons, List.zipIdx_nil, List.filterMap_cons,
          List.filterMap_nil]
        cases g.entry? n before.length <;> rfl }

/-- One more vertex is compiled. -/
theorem Compiled.concat {g : Graph K E} {before : List Node} {n : Node} {code : Code}
    {values : Array E} (h : Compiled g before code values) (hb : g.Ordered (before ++ [n]))
    {ins : Instr} (hins : (g.op n).Does ins)
    (hp : g.isParameter n = true → (g.value n).isScalar = true) :
    ∃ code' values', g.compileNode before.toArray n code values = .ok (code', values') ∧
      Compiled g (before ++ [n]) code' values' := by
  have hmem : ∀ c ∈ (g.op n).operands, c ∈ before := hb before n [] rfl
  have hinstr : (g.op n).instr? (Program.position before.toArray n) =
      .ok (ins.rename (before.idxOf ·)) := hins.instr? fun c hc => position_of_mem (hmem c hc)
  have hlt : ∀ i ∈ (ins.rename (before.idxOf ·)).operands, i < code.size := by
    rw [Instr.operands_rename, hins.operands, h.size]
    intro i hi
    obtain ⟨c, hc, rfl⟩ := List.mem_map.1 hi
    exact List.idxOf_lt_length_of_mem (hmem c hc)
  obtain ⟨v, hv, hvalue⟩ : ∃ v, g.itemValue n = .ok v ∧
      (g.isParameter n = true → g.value n = .scalar v) := by
    unfold itemValue
    cases hpn : g.isParameter n with
    | true => exact ⟨_, by rw [if_pos rfl, if_pos (hp hpn)], fun _ => Matrix.eq_scalar (hp hpn)⟩
    | false => exact ⟨0, rfl, fun h => by cases h⟩
  have hrun : g.compileNode before.toArray n code values = .ok (code.push
      ⟨ins.rename (before.idxOf ·), (g.cell n).tracked ||
        (ins.rename (before.idxOf ·)).operands.any code.tracked⟩ hlt (g.entry? n before.length),
      values.push v) := by
    simp only [compileNode, hinstr, hv, ok_bind]
    rw [dif_pos hlt]
    rfl
  exact ⟨_, _, hrun, h.push hb hins hlt rfl rfl hvalue⟩

/-- The rest of an order is compiled. -/
theorem Compiled.rest {g : Graph K E} {rest before : List Node} {code : Code} {values : Array E}
    (h : Compiled g before code values) (hb : g.Ordered (before ++ rest))
    (hops : ∀ n ∈ rest, g.kind n ∈ Kind.compiled ∧
      (g.isParameter n = true → (g.value n).isScalar = true)) :
    ∃ code' values', g.compileRest before.toArray code values rest = .ok (code', values') ∧
      Compiled g (before ++ rest) code' values' := by
  induction rest generalizing before code values with
  | nil => exact ⟨code, values, rfl, by simpa using h⟩
  | cons n rest ih =>
    have hb' : g.Ordered (before ++ [n] ++ rest) := by simpa using hb
    obtain ⟨hkind, hp⟩ := hops n List.mem_cons_self
    obtain ⟨ins, hins⟩ := Op.exists_does hkind
    obtain ⟨code₁, values₁, hrun, h₁⟩ := h.concat hb'.of_append hins hp
    obtain ⟨code', values', hrun', h'⟩ := ih h₁ hb' fun m hm => hops m (List.mem_cons_of_mem _ hm)
    refine ⟨code', values', ?_, by simpa using h'⟩
    rw [compileRest, hrun, ok_bind]
    simpa using hrun'

/-- **A graph of numbers compiles.** -/
theorem compile_order {g : Graph K E} {root : Node} (hroot : root < g.size)
    (hops : ∀ n, g.dag.Below root n → g.kind n ∈ Kind.compiled)
    (hp : ∀ n, g.dag.Below root n → g.isParameter n = true → (g.value n).isScalar = true) :
    ∃ p, g.compile (g.order root) = .ok p ∧ Compiled g (g.order root) p.code p.values ∧
      p.grads = Array.replicate p.size 0 := by
  have hb : g.Ordered ([] ++ g.order root) := ordered_order g root
  obtain ⟨code, values, hrun, h⟩ := (Compiled.nil g).rest hb fun n hn =>
    ⟨hops n ((mem_order hroot).1 hn), hp n ((mem_order hroot).1 hn)⟩
  refine ⟨⟨code, code.fingerprint, values, Array.replicate code.size 0⟩, ?_, by simpa using h, rfl⟩
  rw [compile, hrun, ok_bind]
  rfl

theorem kind_of_instr? {op : Op K} {position : Node → Except Failure Nat} {i : Instr}
    (h : op.instr? position = .ok i) : op.kind ∈ Kind.compiled := by
  cases op with
  | parameter | add | neg | mul | div | func | max => simp [Op.kind, Kind.compiled]
  | _ => cases h

/-- **Only a graph of numbers compiles.** -/
theorem kind_of_compileRest {g : Graph K E} {rest : List Node} {before : Array Node} {code : Code}
    {values : Array E} {r : Code × Array E} (h : g.compileRest before code values rest = .ok r) :
    ∀ n ∈ rest, g.kind n ∈ Kind.compiled ∧
      (g.isParameter n = true → (g.value n).isScalar = true) := by
  induction rest generalizing before code values with
  | nil => simp
  | cons n rest ih =>
    obtain ⟨⟨code₁, values₁⟩, hnode, hrest⟩ := bind_eq_ok.1 h
    obtain ⟨ins, hins, hnode⟩ := bind_eq_ok.1 hnode
    obtain ⟨v, hv, -⟩ := bind_eq_ok.1 hnode
    refine List.forall_mem_cons.2 ⟨⟨kind_of_instr? hins, fun hp => ?_⟩, ih hrest⟩
    by_contra hs
    rw [itemValue, if_pos hp, if_neg hs] at hv
    cases hv

omit [Arith E] in
/-- The entry of a vertex tells its place, if the vertex is marked. -/
theorem find?_entries {g : Graph K E} {n : Node} (order : List Node) (k : Nat) :
    ((order.zipIdx k).filterMap fun v => g.entry? v.1 v.2).find? (fun e => e.node = g.id n) =
      if n ∈ order ∧ g.marked n = true then some ⟨k + order.idxOf n, g.id n⟩ else none := by
  induction order generalizing k with
  | nil => simp
  | cons m order ih =>
    have hid : g.id m = g.id n ↔ m = n := ⟨congrArg NodeId.node, congrArg g.id⟩
    rw [List.zipIdx_cons, List.filterMap_cons, entry?]
    by_cases hmn : m = n
    · subst hmn
      cases hm : g.marked m with
      | true => simp
      | false => simp [ih, hm]
    · have hidx : k + 1 + order.idxOf n = k + (m :: order).idxOf n := by
        rw [List.idxOf_cons_ne order hmn]
        omega
      cases g.marked m with
      | true => simp [ih, hid, hmn, Ne.symm hmn, hidx]
      | false => simp [ih, hmn, Ne.symm hmn, hidx]

end

end Graph

end DiffGraph
