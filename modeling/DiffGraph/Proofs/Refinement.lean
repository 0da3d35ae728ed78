/-
  A compiled program does what its graph does.

  * `evaluate_numeric`: a graph of numbers can be evaluated, and its values are
    numbers;
  * `Forwarded.item`, `Stands.forward`: the items of the program get values that agree
    with those of their vertices;
  * `Matches`: values agree, gradients agree where the program keeps them, and all
    gradients of the graph are numbers.  Every contribution keeps this
    (`Matches.receive`), so every vertex does (`Matches.propagate`) and so does a
    reverse pass (`Matches.reverse`).  An item without gradients passes nothing on
    to items with gradients, so nothing is lost when the program skips it.

  What it is to agree is left open (`Agreement`): in exact arithmetic it is to be
  the same (`compile_refines`).
-/
import Mathlib
import DiffGraph.Graph.Gradient
import DiffGraph.Proofs.Compilation
import DiffGraph.Proofs.Exact
import DiffGraph.Proofs.History

namespace DiffGraph

variable {K E : Type}

namespace Graph

variable [Scalar K] [Arith E] [Laned K E]

/-! ## Values -/

/-- The number that is the value of a vertex. -/
def number (g : Graph K E) (n : Node) : E := (g.value n).entry 0 0

/-- A number that is there is read without a change of the graph. -/
theorem run_scalarOf {g : Graph K E} {n : Node} (hv : g.hasValue n = true)
    (hs : (g.value n).isScalar = true) : (scalarOf n).run g = .ok (g.number n) g := by
  have hval : g.value n = .scalar (g.number n) := Matrix.eq_scalar hs
  rw [scalarOf, EStateM.run_bind, run_evaluate_of_hasValue hv]
  simp only [EStateM.run_bind, EStateM.run_get, hval, Matrix.toScalar_scalar]
  rfl

/-- The vertices below a root are operations on numbers. -/
structure Numeric (g : Graph K E) (root : Node) : Prop where
  kind : ∀ n, g.dag.Below root n → g.kind n ∈ Kind.compiled
  parameter : ∀ n, g.dag.Below root n → g.isParameter n = true → (g.value n).isScalar = true

section
variable {g g' : Graph K E} {root n : Node}

omit [Scalar K] [Laned K E] in
/-- Numbers are computed from numbers. -/
theorem Consistent.number (hc : g.Consistent root) (hn : g.Numeric root)
    (hb : g.dag.Below root n) (hv : g.hasValue n = true) : g.value n = .scalar (g.number n) := by
  induction n using Nat.strong_induction_on with
  | _ n ih =>
    cases hp : g.isParameter n with
    | true => exact Matrix.eq_scalar (hn.parameter n hb hp)
    | false =>
      obtain ⟨ho, hs⟩ := hc n hb hv hp
      obtain ⟨i, hi⟩ := Op.exists_does (hn.kind n hb)
      obtain ⟨v, -, hval⟩ := hi.value (fun c hc =>
        ih c (g.dag.operands_lt_self hc) (hb.operand hc) (ho c hc)) hp (g.value n) (g.cell n).mask
      have h := hs.symm.trans hval
      have hval' : g.value n = .scalar v := Except.ok.inj h
      rw [Graph.number, hval']
      rfl

/-- A graph with numbers for parameters stays one. -/
theorem Evaluated.numeric {done : List Node} (h : Evaluated g g' done)
    (hd : ∀ n ∈ done, g.isParameter n = false) (hn : g.Numeric root) : g'.Numeric root := by
  constructor
  · intro n hb
    rw [kind, h.op]
    exact hn.kind n (h.dag ▸ hb)
  · intro n hb hp
    have hp' : g.isParameter n = true := by rwa [isParameter, h.op] at hp
    rw [value, h.old n fun hm => by rw [hd n hm] at hp'; cases hp']
    exact hn.parameter n (h.dag ▸ hb) hp'

/-- **A graph of numbers can be evaluated.** -/
theorem evaluate_numeric (hn : g.Numeric root) (hc : g.Consistent root) (hroot : root < g.size) :
    ∃ g', (evaluate root).run g = .ok () g' ∧ Evaluated g g' (g.missing root) ∧
      g'.Numeric root ∧ g'.Ready root := by
  have hp : ∀ n ∈ g.missing root, g.isParameter n = false := fun n hm =>
    isParameter_of_not_hasValue (hasValue_of_mem_missing hm)
  rcases evaluate_cases g root with ⟨g', hr, h, -⟩ | ⟨pre, n, post, e, g', hl, h, -, hcomp, -⟩
  · exact ⟨g', hr, h, h.numeric hp hn, h.ready hroot hc⟩
  · have hn' := h.numeric (fun m hm => hp m (by simp [hl, hm])) hn
    have hc' := h.consistent hl hc
    have hm : n ∈ g.missing root := by simp [hl]
    have hb : g'.dag.Below root n := h.dag ▸ below_of_mem_missing hroot hm
    have ho : ∀ c ∈ g'.dag.operands n, g'.hasValue c = true := fun c hcn =>
      h.hasValue (hasValue_or_mem_of_missing_eq hl (h.dag ▸ hcn))
    have hpn : g'.isParameter n = false := by
      rw [isParameter, h.op]
      exact hp n hm
    obtain ⟨i, hi⟩ := Op.exists_does (hn'.kind n hb)
    obtain ⟨v, -, hval⟩ := hi.value (fun c hcn =>
      hc'.number hn' (hb.operand hcn) (ho c hcn)) hpn (g'.value n) .empty
    rw [compute, hi.freshMask, ok_bind, hval] at hcomp
    cases hcomp

end

/-! ## Items and their vertices -/

/-- The values `y` of the vertices of an order are fine for all of their operations. -/
def FineAlong (A : Agreement E) (d : Dag K) (order : List Node) (y : Node → E) : Prop :=
  ∀ n ∈ order, ∀ i, (d.op n).Does i → A.Fine i y

/-- The items of a code stand for the vertices of an order. -/
structure Stands (d : Dag K) (order : List Node) (code : Code) : Prop where
  nodup : order.Nodup
  lt : ∀ n ∈ order, n < d.size
  size : code.size = order.length
  instr : ∀ i n, order[i]? = some n →
    ∃ ins, (d.op n).Does ins ∧ code.instr i = ins.rename (order.idxOf ·)
  operand : ∀ i n, order[i]? = some n → ∀ c ∈ d.operands n,
    order[order.idxOf c]? = some c ∧ order.idxOf c < i
  untracked : ∀ i n, order[i]? = some n → code.tracked i = false → ∀ c ∈ d.operands n,
    code.tracked (order.idxOf c) = false

section
omit [Scalar K] [Laned K E]

theorem Compiled.stands {g : Graph K E} {root : Node} {code : Code} {values : Array E}
    (h : Compiled g (g.order root) code values) : Stands g.dag (g.order root) code := by
  exact
    { nodup := Dag.nodup_traverse root
      lt := by
        intro n hn
        by_cases hroot : root < g.size
        · exact ((mem_order hroot).1 hn).le.trans_lt hroot
        · rw [order, Dag.traverse_of_size_le (not_lt.1 hroot)] at hn
          cases hn
      size := h.size
      instr := h.instr
      operand := by
        intro i n hi c hc
        have hmem := (ordered_order g root).mem hi hc
        have hlt : (g.order root).idxOf c < ((g.order root).take i).length := by
          conv_lhs => rw [← List.take_append_drop i (g.order root)]
          rw [List.idxOf_append_of_mem hmem]
          exact List.idxOf_lt_length_of_mem hmem
        have hget : (g.order root).idxOf c < (g.order root).length :=
          hlt.trans_le (List.length_take_le' i _)
        refine ⟨?_, hlt.trans_le (List.length_take_le i _)⟩
        rw [List.getElem?_eq_getElem hget, List.getElem_idxOf]
      untracked := by
        intro i n hi ht c hc
        obtain ⟨ins, hins, hcode⟩ := h.instr i n hi
        rw [h.tracked i n hi, Bool.or_eq_false_iff] at ht
        have hops : (code.instr i).operands = (g.dag.operands n).map ((g.order root).idxOf ·) := by
          rw [hcode, Instr.operands_rename, hins.operands]
          rfl
        rw [hops, List.any_map, List.any_eq_false] at ht
        simpa using ht.2 c hc }

variable {A : Agreement E} {d : Dag K} {order : List Node} {code : Code} {s : Graph K E}
  {y : Node → E} {i : Nat} {n : Node} {val : Nat → E}

/-- The value of an item agrees with that of its vertex. -/
theorem Stands.compute (h : Stands d order code) (hf : FineAlong A d order y)
    (hi : order[i]? = some n) (hd : s.dag = d) (hy : ∀ n ∈ order, s.value n = .scalar (y n))
    (hs : s.Settled n) (hp : s.isParameter n = false)
    (hval : ∀ c ∈ d.operands n, A.value (y c) (val (order.idxOf c))) :
    ∃ v, (code.instr i).compute val = some v ∧ A.value (y n) v := by
  subst hd
  have hn := List.mem_of_getElem? hi
  obtain ⟨ins, hins, hcode⟩ := h.instr i n hi
  obtain ⟨w, v, hw, hv, hwv⟩ := A.compute (hf n hn ins hins) (x := val ∘ order.idxOf)
    (fun c hc => hval c (hins.operands.subst hc)) (hins.isParameter.trans hp)
  obtain ⟨w', hw', hvalue⟩ := hins.value (fun c hc =>
    hy c (List.mem_of_getElem? (h.operand i n hi c hc).1)) hp (s.value n) (s.cell n).mask
  obtain rfl : w = w' := Option.some.inj (hw.symm.trans hw')
  have hyn : y n = w := Matrix.scalar_injective <|
    (hy n hn).symm.trans (Except.ok.inj (hs.symm.trans hvalue))
  refine ⟨v, ?_, hyn ▸ hwv⟩
  rw [hcode, Instr.compute_rename]
  exact hv

/-- What an item adds to the gradients of others agrees with what its vertex adds. -/
theorem Stands.pushes (h : Stands d order code) (hf : FineAlong A d order y)
    (hi : order[i]? = some n) (hd : s.dag = d) (hy : ∀ n ∈ order, s.value n = .scalar (y n))
    (hval : ∀ c ∈ d.operands n, A.value (y c) (val (order.idxOf c))) {a b : E}
    (ha : s.grad n = .scalar a) (hab : A.grad a b) :
    ∃ ts us : List (Node × E), s.pushes n = .ok (ts.map fun t => (t.1, .whole (.scalar t.2))) ∧
      us.map Prod.fst = d.operands n ∧
      List.Forall₂ (fun t u => t.1 = u.1 ∧ ∀ {a b}, A.grad a b → A.grad (a + t.2) (b + u.2)) ts us ∧
      (code.instr i).pushes val b = us.map fun t => (order.idxOf t.1, t.2) := by
  subst hd
  obtain ⟨ins, hins, hcode⟩ := h.instr i n hi
  have hgrad : (s.cell n).grad = .scalar a := ha
  have hpushes := hins.pushes (fun c hc =>
    hy c (List.mem_of_getElem? (h.operand i n hi c hc).1)) (s.value n) (s.cell n).mask a
  refine ⟨_, ins.pushes (val ∘ order.idxOf) b, ?_, ?_,
    A.pushes (hf n (List.mem_of_getElem? hi) ins hins)
      (fun c hc => hval c (hins.operands.subst hc)) hab, ?_⟩
  · unfold Graph.pushes
    simp only [hgrad]
    exact hpushes
  · rw [Instr.map_fst_pushes, hins.operands]
    rfl
  · rw [hcode, Instr.pushes_rename]

/-- A program whose items before `k` are evaluated. -/
structure Forwarded (A : Agreement E) (d : Dag K) (order : List Node) (code : Code)
    (y : Node → E) (grads : Array E) (k : Nat) (q : Program E) : Prop where
  program : q.code = code
  grads : q.grads = grads
  size : q.values.size = order.length
  value : ∀ i n, order[i]? = some n → (i < k ∨ (d.op n).isParameter = true) →
    A.value (y n) (q.value i)

/-- One more item is evaluated. -/
theorem Forwarded.item {grads : Array E} {q : Program E}
    (h : Forwarded A d order code y grads i q) (hs : Stands d order code)
    (hf : FineAlong A d order y) (hi : order[i]? = some n) (hd : s.dag = d)
    (hy : ∀ n ∈ order, s.value n = .scalar (y n)) (hset : s.Settled n) :
    Forwarded A d order code y grads (i + 1) (q.forwardItem i) := by
  have hself : ∀ m, order[i]? = some m → m = n := fun m hm => Option.some.inj (hm.symm.trans hi)
  cases hp : (d.op n).isParameter with
  | true =>
    have hitem : q.forwardItem i = q := by
      obtain ⟨ins, hins, hcode⟩ := hs.instr i n hi
      rw [Program.forwardItem, h.program, hcode, hins.eq_parameter hp]
      rfl
    rw [hitem]
    refine ⟨h.program, h.grads, h.size, fun j m hj hv => h.value j m hj ?_⟩
    rcases hv with hv | hv
    · rcases Nat.lt_succ_iff_lt_or_eq.1 hv with hv | rfl
      · exact Or.inl hv
      · exact Or.inr (hself m hj ▸ hp)
    · exact Or.inr hv
  | false =>
    have hp' : s.isParameter n = false := by rwa [isParameter, op, hd]
    obtain ⟨v, hv, hyv⟩ := hs.compute hf hi hd hy hset hp' fun c hc =>
      have hc' := hs.operand i n hi c hc
      h.value _ c hc'.1 (Or.inl hc'.2)
    have hitem : q.forwardItem i = q.setValue i v := by
      rw [Program.forwardItem, h.program, hv]
    rw [hitem]
    refine ⟨h.program, h.grads, by simpa [Program.setValue] using h.size, fun j m hj hv => ?_⟩
    by_cases hji : j = i
    · subst hji
      rw [hself m hj, Program.value_setValue_self _ (h.size ▸ (List.getElem?_eq_some_iff.1 hi).1)]
      exact hyv
    · rw [Program.value_setValue_of_ne _ (Ne.symm hji)]
      exact h.value j m hj (hv.imp_left fun h => Nat.lt_of_le_of_ne (Nat.lt_succ_iff.1 h) hji)

/-- **The items of a program get values that agree with those of their vertices.** -/
theorem Stands.forward (h : Stands d order code) (hf : FineAlong A d order y) (hd : s.dag = d)
    (hy : ∀ n ∈ order, s.value n = .scalar (y n)) (hs : ∀ n ∈ order, s.Settled n)
    {p : Program E} (hcode : p.code = code) (hsize : p.values.size = order.length)
    (hp : ∀ i n, order[i]? = some n → (d.op n).isParameter = true → A.value (y n) (p.value i)) :
    p.forward.code = code ∧ p.forward.grads = p.grads ∧
      ∀ i n, order[i]? = some n → A.value (y n) (p.forward.value i) := by
  have hitems : ∀ k ≤ order.length,
      Forwarded A d order code y p.grads k ((List.range k).foldl Program.forwardItem p) := by
    intro k
    induction k with
    | zero =>
      exact fun _ => ⟨hcode, rfl, hsize, fun i n hi hv =>
        hp i n hi (hv.resolve_left (Nat.not_lt_zero i))⟩
    | succ k ih =>
      intro hlt
      rw [List.range_succ, List.foldl_append]
      exact (ih (Nat.le_of_succ_le hlt)).item h hf (List.getElem?_eq_getElem hlt) hd hy
        (hs _ (List.getElem_mem hlt))
  have hall := hitems order.length le_rfl
  rw [← h.size, ← hcode] at hall
  exact ⟨hall.program.trans hcode, hall.grads, fun i n hi => hall.value i n hi
    (Or.inl (hcode ▸ h.size ▸ (List.getElem?_eq_some_iff.1 hi).1))⟩

end

/-! ## Gradients -/

/-- A program and the graph it was compiled from, between two contributions. -/
structure Matches (A : Agreement E) (d : Dag K) (order : List Node) (code : Code) (y : Node → E)
    (s : Graph K E) (p : Program E) : Prop where
  dag : s.dag = d
  program : p.code = code
  size : p.grads.size = order.length
  number : ∀ n ∈ order, s.value n = .scalar (y n)
  value : ∀ i n, order[i]? = some n → A.value (y n) (p.value i)
  gradNumber : ∀ n ∈ order, ∃ a, s.grad n = .scalar a ∧ A.grad a a
  grad : ∀ i n, order[i]? = some n → code.tracked i = true →
    ∃ a, s.grad n = .scalar a ∧ A.grad a (p.grad i)
  untracked : ∀ i, i + 1 < order.length → code.tracked i = false → p.grad i = 0
  hasValue : ∀ n ∈ order, s.hasValue n = true

section
omit [Scalar K] [Laned K E]

variable {A : Agreement E} {d : Dag K} {order : List Node} {code : Code} {y : Node → E}
  {s : Graph K E} {p p' : Program E} {i : Nat} {n : Node}

/-- The gradients of a vertex and of its item are set to numbers that agree. -/
theorem Matches.update (h : Matches A d order code y s p) (hs : Stands d order code)
    (hi : order[i]? = some n) {a : E} (ha : A.grad a a) (hcode : p'.code = p.code)
    (hvalue : ∀ j, p'.value j = p.value j) (hsize : p'.grads.size = p.grads.size)
    (hself : code.tracked i = true → A.grad a (p'.grad i))
    (hself' : i + 1 < order.length → code.tracked i = false → p'.grad i = 0)
    (hne : ∀ j, j ≠ i → p'.grad j = p.grad j) :
    Matches A d order code y (s.update n fun c => { c with grad := .scalar a }) p' := by
  have hlt : n < s.size := by
    rw [Graph.size, h.dag]
    exact hs.lt n (List.mem_of_getElem? hi)
  have hcell : ∀ m, (s.update n fun c => { c with grad := .scalar a }).cell m =
      if m = n then { s.cell n with grad := .scalar a } else s.cell m := by
    intro m
    rw [cell_update]
    simp [hlt]
  have hindex : ∀ {j}, order[j]? = some n → j = i := fun hj => by
    obtain ⟨hj, hjn⟩ := List.getElem?_eq_some_iff.1 hj
    obtain ⟨hi, hin⟩ := List.getElem?_eq_some_iff.1 hi
    exact (hs.nodup.getElem_inj_iff).1 (hjn.trans hin.symm)
  exact
    { dag := h.dag
      program := hcode.trans h.program
      size := hsize.trans h.size
      number := by
        intro m hm
        rw [← h.number m hm, Graph.value, hcell]
        split
        · next hmn => rw [hmn]; rfl
        · rfl
      value := by
        intro j m hj
        rw [hvalue]
        exact h.value j m hj
      gradNumber := by
        intro m hm
        rw [Graph.grad, hcell]
        split
        · exact ⟨a, rfl, ha⟩
        · exact h.gradNumber m hm
      grad := by
        intro j m hj ht
        rw [Graph.grad, hcell]
        by_cases hmn : m = n
        · subst hmn
          obtain rfl := hindex hj
          rw [if_pos rfl]
          exact ⟨a, rfl, hself ht⟩
        · have hji : j ≠ i := fun hji => by
            rw [hji, hi] at hj
            exact hmn (Option.some.inj hj).symm
          rw [if_neg hmn, hne j hji]
          exact h.grad j m hj ht
      untracked := by
        intro j hj ht
        by_cases hji : j = i
        · subst hji
          exact hself' hj ht
        · rw [hne j hji]
          exact h.untracked j hj ht
      hasValue := by
        intro m hm
        have hv := h.hasValue m hm
        unfold Graph.hasValue at hv ⊢
        rw [hcell]
        split
        · next hmn => rw [← hmn]; exact hv
        · exact hv }

/-- **One contribution**, to a vertex and to its item. -/
theorem Matches.receive (h : Matches A d order code y s p) (hs : Stands d order code)
    (hi : order[i]? = some n) {t u : E} (htu : ∀ {a b}, A.grad a b → A.grad (a + t) (b + u)) :
    ∃ s', (Graph.receive n (.whole (.scalar t))).run s = .ok () s' ∧
      Matches A d order code y s' (p.receive (i, u)) := by
  obtain ⟨a, hgrad, ha⟩ := h.gradNumber n (List.mem_of_getElem? hi)
  have hrun : (Graph.receive n (.whole (.scalar t))).run s =
      .ok () (s.update n fun c => { c with grad := .scalar (a + t) }) := by
    simp only [Graph.receive, EStateM.run_bind, EStateM.run_get, hgrad, Push.apply,
      Matrix.add_scalar]
    rfl
  refine ⟨_, hrun, ?_⟩
  cases ht : code.tracked i with
  | false =>
    rw [Program.receive_of_untracked (by rwa [h.program])]
    exact h.update hs hi (A.left (htu ha)) rfl (fun _ => rfl) rfl
      (fun h => by rw [ht] at h; cases h) (h.untracked i) fun _ _ => rfl
  | true =>
    rw [Program.receive_of_tracked (by rwa [h.program])]
    have hlt : i < p.grads.size := h.size ▸ (List.getElem?_eq_some_iff.1 hi).1
    refine h.update hs hi (A.left (htu ha)) rfl (fun _ => rfl) (by simp) (fun _ => ?_)
      (fun _ h => by rw [ht] at h; cases h) fun j hj => Program.grad_modify_of_ne hj u
    obtain ⟨a', hgrad', ha'⟩ := h.grad i n hi ht
    obtain rfl : a = a' := Matrix.scalar_injective (hgrad.symm.trans hgrad')
    rw [Program.grad_modify_self hlt]
    exact htu ha'

/-- The contributions of a vertex. -/
theorem Matches.receives (hs : Stands d order code) {ts us : List (Node × E)}
    (hsame : List.Forall₂
      (fun t u => t.1 = u.1 ∧ ∀ {a b}, A.grad a b → A.grad (a + t.2) (b + u.2)) ts us)
    (hmem : ∀ u ∈ us, order[order.idxOf u.1]? = some u.1) (h : Matches A d order code y s p) :
    ∃ s', ((ts.map fun t => (t.1, Push.whole (.scalar t.2))).forM
        fun x => Graph.receive x.1 x.2).run s = .ok () s' ∧
      Matches A d order code y s'
        ((us.map fun t => (order.idxOf t.1, t.2)).foldl Program.receive p) := by
  induction hsame generalizing s p with
  | nil => exact ⟨s, rfl, h⟩
  | @cons t u ts us htu _ ih =>
    obtain ⟨hplace, hterm⟩ := htu
    obtain ⟨s₁, hrun, h₁⟩ := h.receive hs (hmem u List.mem_cons_self) hterm
    obtain ⟨s', hrun', h'⟩ := ih (fun v hv => hmem v (List.mem_cons_of_mem _ hv)) h₁
    rw [← hplace] at hrun
    exact ⟨s', Step.run_forM_cons_ok hrun hrun', h'⟩

/-- **A vertex and its item** contribute the same to the gradients of their operands. -/
theorem Matches.propagate (h : Matches A d order code y s p) (hs : Stands d order code)
    (hf : FineAlong A d order y) (hi : order[i]? = some n) :
    ∃ s', (Graph.propagate n).run s = .ok () s' ∧
      Matches A d order code y s' (p.reverseItem i) := by
  have hops := hs.operand i n hi
  have hval : ∀ c ∈ d.operands n, A.value (y c) (p.value (order.idxOf c)) := fun c hc =>
    h.value _ c (hops c hc).1
  -- where the program keeps no gradient, the one of the graph stands in for it
  obtain ⟨a, b, hgrad, hab, hb⟩ : ∃ a b, s.grad n = .scalar a ∧ A.grad a b ∧
      (code.tracked i = true → b = p.grad i) := by
    cases ht : code.tracked i with
    | true =>
      obtain ⟨a, hgrad, ha⟩ := h.grad i n hi ht
      exact ⟨a, _, hgrad, ha, fun _ => rfl⟩
    | false =>
      obtain ⟨a, hgrad, ha⟩ := h.gradNumber n (List.mem_of_getElem? hi)
      exact ⟨a, a, hgrad, ha, fun ht => by cases ht⟩
  obtain ⟨ts, us, hpushes, hfst, hsame, hcode⟩ := hs.pushes hf hi h.dag h.number hval hgrad hab
  have hmem : ∀ u ∈ us, u.1 ∈ d.operands n := fun u hu => hfst ▸ List.mem_map_of_mem hu
  obtain ⟨s', hrun, h'⟩ := Matches.receives hs hsame (fun u hu => (hops _ (hmem u hu)).1) h
  refine ⟨s', ?_, ?_⟩
  · simp only [Graph.propagate, EStateM.run_bind, EStateM.run_get, hpushes]
    exact hrun
  · cases ht : code.tracked i with
    | true =>
      rw [Program.reverseItem, h.program, if_pos ht, ← hb ht, hcode]
      exact h'
    | false =>
      -- an item without gradients has no operands with gradients
      rw [Program.reverseItem, h.program, if_neg (by simp [ht])]
      rwa [Program.foldl_receive_of_untracked] at h'
      intro t htm
      obtain ⟨u, hu, rfl⟩ := List.mem_map.1 htm
      rw [h.program]
      exact hs.untracked i n hi ht _ (hmem u hu)

/-- The vertices and items from the last one to the first. -/
theorem Matches.sweep (hs : Stands d order code) (hf : FineAlong A d order y) (is : List Nat)
    (his : ∀ i ∈ is, i < order.length) (h : Matches A d order code y s p) :
    ∃ s', ((is.map (order.getD · 0)).forM Graph.propagate).run s = .ok () s' ∧
      Matches A d order code y s' (is.foldl Program.reverseItem p) := by
  induction is generalizing s p with
  | nil => exact ⟨s, rfl, h⟩
  | cons i is ih =>
    have hi : order[i]? = some (order.getD i 0) := by
      have := his i List.mem_cons_self
      simp [List.getD_eq_getElem?_getD, this]
    obtain ⟨s₁, hrun, h₁⟩ := h.propagate hs hf hi
    obtain ⟨s', hrun', h'⟩ := ih (fun j hj => his j (List.mem_cons_of_mem _ hj)) h₁
    exact ⟨s', Step.run_forM_cons_ok hrun hrun', h'⟩

theorem reverse_eq_map (order : List Node) :
    order.reverse = (List.range order.length).reverse.map (order.getD · 0) := by
  rw [List.map_reverse]
  congr 1
  refine List.ext_getElem (by simp) fun i hi hi' => ?_
  simp [List.getD_eq_getElem?_getD, hi]

end

section

variable {A : Agreement E} {s : Graph K E} {root : Node} {order : List Node} {code : Code}
  {y : Node → E} {p : Program E} {d : Dag K}

omit [Scalar K] [Laned K E] in
/-- Both sides start from one at the root. -/
theorem Matches.seed (h : Matches A d order code y s p) (hs : Stands d order code)
    (hroot : order[order.length - 1]? = some root) :
    ∃ s', (Graph.seed root).run s = .ok () s' ∧
      Matches A d order code y s' { p with grads := p.grads.setIfInBounds (p.size - 1) 1 } := by
  have hlt := (List.getElem?_eq_some_iff.1 hroot).1
  have hsize : p.size = order.length := by rw [Program.size, h.program, hs.size]
  have hrun : (Graph.seed root).run s =
      .ok () (s.update root fun c => { c with grad := .scalar 1 }) := by
    refine congrArg (EStateM.Result.ok ()) (update_congr s ?_)
    have hv : (s.cell root).value = .scalar (y root) := h.number root (List.mem_of_getElem? hroot)
    rw [hv, Matrix.fill_scalar]
  refine ⟨_, hrun, h.update hs hroot A.one rfl (fun _ => rfl) (by simp) (fun _ => ?_)
    (fun hj _ => ?_) fun j hj => ?_⟩
  · have hlt' : order.length - 1 < p.grads.size := h.size ▸ hlt
    have hone : ({ p with grads := p.grads.setIfInBounds (p.size - 1) 1 } : Program E).grad
        (order.length - 1) = 1 := by
      simp [Program.grad, hsize, Array.getD, hlt']
    rw [hone]
    exact A.one
  · omega
  · have hj' : p.size - 1 ≠ j := by
      rw [hsize]
      exact Ne.symm hj
    simp [Program.grad, Array.getD_eq_getD_getElem?, Array.getElem?_setIfInBounds_ne hj']

/-- **A reverse pass** on both sides. -/
theorem Matches.reverse (h : Matches A d order code y s p) (hs : Stands d order code)
    (hf : FineAlong A d order y) (hroot : order[order.length - 1]? = some root) :
    ∃ s', (Graph.reverseAlong root order).run s = .ok () s' ∧
      Matches A d order code y s' p.reverse := by
  have hmem : root ∈ order := List.mem_of_getElem? hroot
  obtain ⟨s₁, hr₁, h₁⟩ := h.seed hs hroot
  obtain ⟨s', hr', h'⟩ := Matches.sweep hs hf (List.range order.length).reverse
    (fun i hi => by simpa using hi) h₁
  refine ⟨s', ?_, ?_⟩
  · simp only [Graph.reverseAlong, EStateM.run_bind, run_evaluate_of_hasValue (h.hasValue _ hmem),
      hr₁]
    rw [reverse_eq_map]
    exact hr'
  · rw [Program.reverse, Program.size, h.program, hs.size]
    rwa [Program.size, h.program, hs.size] at h'

/-- Any number of reverse passes on both sides. -/
theorem Matches.times (h : Matches A d order code y s p) (hs : Stands d order code)
    (hf : FineAlong A d order y) (hroot : order[order.length - 1]? = some root) (k : Nat) :
    ∃ s' p', (Step.times (reverseAlong root order) k).run s = .ok () s' ∧
      (Step.times Program.reversePass k).run p = .ok () p' ∧ Matches A d order code y s' p' := by
  have hpass : ∀ p' : Program E, p'.code = code →
      Program.reversePass.run p' = .ok () p'.reverse := fun p' hcode => by
    refine p'.run_reversePass.trans (if_neg ?_)
    rw [Program.size, hcode, hs.size]
    exact ((Nat.zero_le _).trans_lt (List.getElem?_eq_some_iff.1 hroot).1).ne'
  induction k with
  | zero => exact ⟨s, p, rfl, rfl, h⟩
  | succ k ih =>
    obtain ⟨s₁, p₁, hrun, hrp, h₁⟩ := ih
    obtain ⟨s', hrun', h'⟩ := h₁.reverse hs hf hroot
    refine ⟨s', p₁.reverse, ?_, ?_, h'⟩
    · rw [Step.times, EStateM.run_bind, hrun]
      exact hrun'
    · rw [Step.times, EStateM.run_bind, hrp]
      exact hpass p₁ h₁.program

end

/-! ## Compilation is correct -/

section
variable {g g' : Graph K E} {root : Node}

/-- Before the first pass all gradients are zero on both sides. -/
theorem Evaluated.matches {A : Agreement E} (h : Evaluated g g' (g.missing root))
    (hready : g'.Ready root) (hroot : root < g.size) (hc : g.Consistent root) {code : Code}
    {q : Program E} (hcode : q.code = code) (hs : Stands g.dag (g.order root) code)
    (hq : q.grads = Array.replicate code.size 0)
    (hy : ∀ n ∈ g.order root, g'.value n = .scalar (g'.number n))
    (hv : ∀ i n, (g.order root)[i]? = some n → A.value (g'.number n) (q.value i))
    (hzero : ∀ n ∈ g.order root, g.hasValue n = true → g.grad n = .zeros 1 1) :
    Matches A g.dag (g.order root) code g'.number g' q := by
  have hgrad : ∀ i, q.grad i = 0 := fun i => by
    simp [Program.grad, hq, Array.getD_eq_getD_getElem?, Array.getElem?_replicate]
    split <;> rfl
  have hnum : ∀ n ∈ g.order root, g'.grad n = .scalar 0 := by
    intro n hn
    by_cases hm : n ∈ g.missing root
    · obtain ⟨_, v, mask, -, -, hcell⟩ := h.new n hm
      have hvalue := hy n hn
      rw [value, hcell, store] at hvalue
      rw [grad, hcell, store]
      simp only at hvalue ⊢
      rw [hvalue]
      exact Matrix.zeros_one_one
    · rw [grad, h.old n hm, ← Matrix.zeros_one_one]
      exact hzero n hn ((hc.hasValue_or_mem hroot ((mem_order hroot).1 hn)).resolve_right hm)
  exact
    { dag := h.dag
      program := hcode
      size := by simp [hq, hs.size]
      number := hy
      value := hv
      gradNumber := fun n hn => ⟨0, hnum n hn, A.zero⟩
      grad := by
        intro i n hi _
        rw [hgrad i]
        exact ⟨0, hnum n (List.mem_of_getElem? hi), A.zero⟩
      untracked := fun i _ _ => hgrad i
      hasValue := fun n hn => hready.hasValue n (h.dag ▸ (mem_order hroot).1 hn) }

omit [Scalar K] [Arith E] [Laned K E] in
/-- The root is the last vertex of its order. -/
theorem getElem?_order_last (hroot : root < g.size) :
    (g.order root)[(g.order root).length - 1]? = some root := by
  obtain ⟨pre, hpre⟩ : ∃ pre, g.order root = pre ++ [root] := Dag.traverse_eq_concat hroot rfl
  simp [hpre]

omit [Scalar K] [Laned K E] in
/-- A program has items, at least that of its root. -/
theorem Compiled.size_ne_zero {code : Code} {values : Array E}
    (h : Compiled g (g.order root) code values) (hroot : root < g.size) : code.size ≠ 0 := by
  rw [h.size]
  exact ((Nat.zero_le _).trans_lt (List.getElem?_eq_some_iff.1 (getElem?_order_last hroot)).1).ne'

omit [Scalar K] [Laned K E] in
/-- All values of an evaluated graph of numbers are numbers. -/
theorem Ready.number (h : g.Ready root) (hn : g.Numeric root) {n : Node}
    (hb : g.dag.Below root n) : g.value n = .scalar (g.number n) := by
  have hc : g.Consistent root := fun m hb _ _ =>
    ⟨fun c hc => h.hasValue c (hb.operand hc), h.settled m hb⟩
  exact hc.number hn hb (h.hasValue n hb)

/-- **A program computes the values of its graph**, if its parameters have the values
of their vertices. -/
theorem Stands.result {A : Agreement E} {code : Code} {q : Program E}
    (hs : Stands g.dag (g.order root) code) (hroot : root < g.size)
    (hrun : (evaluate root).run g = .ok () g') (hready : g'.Ready root) (hn : g'.Numeric root)
    (hf : FineAlong A g.dag (g.order root) g'.number) (hcode : q.code = code)
    (hsize : q.values.size = (g.order root).length)
    (hq : ∀ i n, (g.order root)[i]? = some n → g.isParameter n = true →
      A.value (g'.number n) (q.value i)) :
    q.forward.code = code ∧ q.forward.grads = q.grads ∧
      (∀ i n, (g.order root)[i]? = some n → A.value (g'.number n) (q.forward.value i)) ∧
      ∃ v, Program.result.run q = .ok v q.forward ∧
        (scalarOf root).answer g = .ok (g'.number root) ∧ A.value (g'.number root) v := by
  obtain ⟨heval, -⟩ := evaluated_of_run_ok hrun
  have hbelow : ∀ n ∈ g.order root, g'.dag.Below root n := fun n hm =>
    heval.dag ▸ (mem_order hroot).1 hm
  have hy : ∀ n ∈ g.order root, g'.value n = .scalar (g'.number n) := fun n hm =>
    hready.number hn (hbelow n hm)
  obtain ⟨hcode', hgrads, hv⟩ := hs.forward hf heval.dag hy
    (fun n hm => hready.settled n (hbelow n hm)) hcode hsize hq
  have hlast := getElem?_order_last hroot
  have hpos := (Nat.zero_le _).trans_lt (List.getElem?_eq_some_iff.1 hlast).1
  have hsize' : q.forward.size = (g.order root).length := by rw [Program.size, hcode', hs.size]
  refine ⟨hcode', hgrads, hv, q.forward.value ((g.order root).length - 1), ?_, ?_, hv _ _ hlast⟩
  · rw [q.run_result, hsize', if_neg hpos.ne']
  · rw [Step.answer, scalarOf, EStateM.run_bind, hrun]
    simp only [EStateM.run_bind, EStateM.run_get, hy root (List.mem_of_getElem? hlast),
      Matrix.toScalar_scalar]
    rfl

/-- **A compiled program does what its graph does.**  Let the vertices below `root`
be operations on numbers, and let the values that are there be up to date with
each other.  Then

* the graph compiles along its order, the program gives the value of the root, and
  every item has the value of its vertex;
* if all gradients are zero, then after any number of reverse passes on both sides
  an item that receives gradients has the gradient of its vertex, and every other
  one but the last has none. -/
theorem compile_refines (hroot : root < g.size) (hn : g.Numeric root) (hc : g.Consistent root)
    (hzero : ∀ x : E, 0 + x = x) (hcomm : ∀ x y : E, x * y = y * x) :
    ∃ p v q g', g.compile (g.order root) = .ok p ∧
      Program.result.run p = .ok v q ∧
      (evaluate root).run g = .ok () g' ∧ (scalarOf root).answer g = .ok v ∧
      (∀ i n, (g.order root)[i]? = some n → g'.value n = .scalar (q.value i)) ∧
      ((∀ n ∈ g.order root, g.hasValue n = true → g.grad n = .zeros 1 1) → ∀ k, 1 ≤ k →
        ∃ g'' q', (Step.times (reverseAlong root (g.order root)) k).run g = .ok () g'' ∧
          (Step.times Program.reversePass k).run q = .ok () q' ∧
          ∀ i n, (g.order root)[i]? = some n →
            (q'.code.tracked i = true → g''.grad n = .scalar (q'.grad i)) ∧
            (q'.code.tracked i = false → i + 1 < (g.order root).length → q'.grad i = 0)) := by
  obtain ⟨p, hp, hcomp, hgrads⟩ := compile_order hroot hn.kind hn.parameter
  obtain ⟨g', hrun, heval, hn', hready⟩ := evaluate_numeric hn hc hroot
  have hs := hcomp.stands
  let A : Agreement E := .exact (.of_zero_add hzero hcomm)
  have hf : FineAlong A g.dag (g.order root) g'.number := fun _ _ _ _ _ _ _ => hzero _
  have hy : ∀ n ∈ g.order root, g'.value n = .scalar (g'.number n) := fun n hm =>
    hready.number hn' (heval.dag ▸ (mem_order hroot).1 hm)
  obtain ⟨hcode, hgrads', hv, v, hresult, hanswer, rfl⟩ := hs.result (A := A) hroot hrun hready hn'
    hf rfl hcomp.size_values fun i n hi hp => by
      have hvalue := (heval.value_parameter hp).trans (hcomp.value i n hi hp)
      exact Matrix.scalar_injective ((hy n (List.mem_of_getElem? hi)).symm.trans hvalue)
  refine ⟨p, _, _, g', hp, hresult, hrun, hanswer, fun i n hi => ?_, fun hz k hk => ?_⟩
  · rw [hy n (List.mem_of_getElem? hi), show g'.number n = _ from hv i n hi]
  have hlast := getElem?_order_last hroot
  have hm := heval.matches hready hroot hc hcode hs (hgrads'.trans hgrads) hy hv hz
  obtain ⟨g'', q', hg, hq, h⟩ := hm.times hs hf hlast k
  obtain ⟨k, rfl⟩ := Nat.exists_eq_succ_of_ne_zero (Nat.one_le_iff_ne_zero.1 hk)
  refine ⟨g'', q', ?_, hq, fun i n hi => ⟨fun ht => ?_, fun ht hi => ?_⟩⟩
  · rw [← hg]
    refine Step.run_times_succ_congr ?_ k
    have hroot' : g'.hasValue root = true := hm.hasValue root (List.mem_of_getElem? hlast)
    simp only [reverseAlong, EStateM.run_bind, hrun, run_evaluate_of_hasValue hroot']
  · obtain ⟨a, ha, hab, -⟩ := h.grad i n hi (h.program ▸ ht)
    rw [ha, hab]
  · exact h.untracked i hi (h.program ▸ ht)

end

/-- The product of two with itself. -/
def newSquare : Graph ℚ ℚ :=
  Call.runs [.parameter (.scalar 2), .setTracked 0 true, .record (.mul 0 0)]
    (.empty 0 ⟨fun _ => 0, fun _ => 0⟩)

theorem order_newSquare : newSquare.order 1 = [0, 1] := by
  have hsize : newSquare.dag.size = 2 := by decide +kernel
  have hops : newSquare.dag.operands 1 = [0, 0] ∧ newSquare.dag.operands 0 = [] := by
    decide +kernel
  simp [order, Dag.traverse, Dag.visit, hsize, hops]

theorem run_evaluate_newSquare :
    (evaluate 1).run newSquare = (evaluateOne 1).run newSquare := by
  have hsize : newSquare.dag.size = 2 := by decide +kernel
  have hops : newSquare.dag.operands 1 = [0, 0] := by decide +kernel
  have hv : newSquare.hasValue 1 = false ∧ newSquare.hasValue 0 = true := by decide +kernel
  have hmissing : newSquare.missing 1 = [1] := by
    simp [missing, Dag.traverse, Dag.visit, hsize, hops, hv]
  rw [run_evaluate_of_missing hmissing, List.forM_eq_forM, List.forM_cons, List.forM_nil,
    EStateM.run_bind]
  cases (evaluateOne 1).run newSquare <;> rfl

theorem compile_refines_newSquare :
    1 < newSquare.size ∧ ∃ p q, newSquare.compile [0, 1] = .ok p ∧
      Program.result.run p = .ok 4 q ∧ (scalarOf 1).answer newSquare = .ok 4 ∧
      ∀ k, 1 ≤ k → ∃ g'' q',
        (Step.times (reverseAlong 1 [0, 1]) k).run newSquare = .ok () g'' ∧
        (Step.times Program.reversePass k).run q = .ok () q' ∧
        (q'.code.tracked 0 = true → g''.grad 0 = .scalar (q'.grad 0)) := by
  have hroot : 1 < newSquare.size := by decide +kernel
  have hops : ∀ n ≤ 1, newSquare.kind n ∈ Kind.compiled ∧
      (newSquare.isParameter n = true → (newSquare.value n).isScalar = true) ∧
      newSquare.hasValue n = newSquare.isParameter n := by decide +kernel
  have hn : newSquare.Numeric 1 :=
    ⟨fun n hb => (hops n hb.le).1, fun n hb => (hops n hb.le).2.1⟩
  have hc : newSquare.Consistent 1 := fun n hb hv hp => by
    rw [(hops n hb.le).2.2, hp] at hv
    cases hv
  have hzero : ∀ n ∈ newSquare.order 1, newSquare.hasValue n = true →
      newSquare.grad n = .zeros 1 1 := by
    intro n hm hv
    have hn : n = 0 := by
      rw [(hops n ((mem_order hroot).1 hm).le).2.2] at hv
      rcases Nat.le_one_iff_eq_zero_or_eq_one.1 ((mem_order hroot).1 hm).le with rfl | rfl
      · rfl
      · revert hv
        decide +kernel
    rw [hn]
    rfl
  obtain ⟨p, v, q, g', hp, hq, -, hv, -, hpass⟩ :=
    compile_refines hroot hn hc (fun x : ℚ => zero_add x) mul_comm
  have hfour : (scalarOf 1).answer newSquare = .ok 4 := by
    rw [Step.answer, scalarOf, EStateM.run_bind, run_evaluate_newSquare]
    decide +kernel
  obtain rfl : v = 4 := Except.ok.inj (hv.symm.trans hfour)
  rw [order_newSquare] at hp hpass
  refine ⟨hroot, p, q, hp, hq, hfour, fun k hk => ?_⟩
  obtain ⟨g'', q', hg, hq', h⟩ := hpass (order_newSquare ▸ hzero) k hk
  exact ⟨g'', q', hg, hq', (h 0 0 rfl).1⟩

/-- The same after an evaluation, and with the two replaced by a three. -/
def staleSquare : Graph ℚ ℚ := Call.runs [.evaluate 1, .assign 0 3] newSquare

theorem staleSquare_eq : staleSquare = (assign 0 3).final ((evaluateOne 1).final newSquare) := by
  have h : (evaluate 1).final newSquare = (evaluateOne 1).final newSquare := by
    rw [Step.final, run_evaluate_newSquare, Step.final]
  exact congrArg (assign 0 3).final h

/-- **Stored values have to be up to date**: a graph keeps the square of the number
that was replaced, and its program computes that of the new one. -/
theorem compile_staleSquare :
    1 < staleSquare.size ∧ staleSquare.Numeric 1 ∧
      (∃ p q, staleSquare.compile (staleSquare.order 1) = .ok p ∧
        Program.result.run p = .ok 9 q) ∧
      (scalarOf 1).answer staleSquare = .ok 4 := by
  have hops : ∀ n ≤ 1, staleSquare.kind n ∈ Kind.compiled ∧
      (staleSquare.isParameter n = true → (staleSquare.value n).isScalar = true) := by
    rw [staleSquare_eq]
    decide +kernel
  have hsize : staleSquare.dag.size = 2 := by
    rw [staleSquare_eq]
    decide +kernel
  have hoperands : staleSquare.dag.operands 1 = [0, 0] ∧ staleSquare.dag.operands 0 = [] := by
    rw [staleSquare_eq]
    decide +kernel
  have horder : staleSquare.order 1 = [0, 1] := by
    simp [order, Dag.traverse, Dag.visit, hsize, hoperands]
  refine ⟨?_, ⟨fun n hb => (hops n hb.le).1, fun n hb => (hops n hb.le).2⟩, ?_, ?_⟩
  · rw [size, hsize]
    decide
  · have h : (staleSquare.compile [0, 1] >>= Program.result.answer) = .ok 9 := by
      rw [staleSquare_eq]
      decide +kernel
    obtain ⟨p, hp, hr⟩ := bind_eq_ok.1 h
    exact ⟨p, _, horder ▸ hp, Step.run_of_answer_ok hr⟩
  · have hv : staleSquare.hasValue 1 = true ∧ (staleSquare.value 1).toScalar = .ok 4 := by
      rw [staleSquare_eq]
      decide +kernel
    rw [Step.answer, scalarOf, EStateM.run_bind, run_evaluate_of_hasValue hv.1]
    simp only [EStateM.run_bind, EStateM.run_get, hv.2]
    rfl

end Graph

end DiffGraph
