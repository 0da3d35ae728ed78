/-
  Expressions that are built over vertices.

  * `Term`: an expression over vertices that are numbers.  `Term.value` computes it, products as
    sums that start from zero;
  * `Graph.Spells`: a vertex was built for a term.  What was built stays (`Spells.of_turns`), can
    be read if the leaves can (`Spells.readable`), and its value is that of the term over the
    values of the leaves (`Spells.holds`).  The leaves may be any vertices, their values may be
    stale;
  * `yields_record` and what follows: what single operations build;
  * `Block.Spelled`: blocks of such vertices.  Their values are those of the terms
    (`Block.Spelled.map_number`).
-/
import DiffGraph.Block
import DiffGraph.Proofs.Numeric
import DiffGraph.Proofs.Reading

namespace DiffGraph

open Relation

variable {K E α : Type}

/-- An expression over vertices that are numbers. -/
inductive Term where
  | leaf (n : Node)
  | neg (t : Term)
  | func (f : Unary) (t : Term)
  | add (l r : Term)
  | mul (l r : Term)
  | max (l r : Term)

namespace Term

/-- The vertices that occur. -/
def leaves : Term → List Node
  | leaf n => [n]
  | neg t | func _ t => t.leaves
  | add l r | mul l r | max l r => l.leaves ++ r.leaves

/-- The value over numbers for the vertices. -/
def value [Arith E] (x : Node → E) : Term → E
  | leaf n => x n
  | neg t => -t.value x
  | func f t => f.apply (t.value x)
  | add l r => l.value x + r.value x
  | mul l r => 0 + l.value x * r.value x
  | max l r => Arith.max (l.value x) (r.value x)

/-- A difference, as a sum with a negative. -/
def sub (l r : Term) : Term := add l (neg r)

/-- Terms added up from left to right. -/
def chain (t : Term) (ts : List Term) : Term := ts.foldl add t

/-- The largest of several terms. -/
def largest (t : Term) (ts : List Term) : Term := ts.foldl max t

end Term

namespace Graph

/-! ## Values that were computed -/

/-- A value that is there was computed from values that are there. -/
def Backed [Arith E] (g : Graph K E) (n : Node) : Prop :=
  g.isParameter n = false → g.hasValue n = true →
    (∀ c ∈ g.dag.operands n, g.hasValue c = true) ∧ g.Settled n

variable [Scalar K] [Arith E] [Laned K E] {g s s' : Graph K E} {n m l r : Node} {t u : Term}

/-- **A turn that writes to no vertex keeps what values were computed from.** -/
theorem Turn.backed (h : Turn [] s s') (hn : n < s.size) (hb : s.Backed n) : s'.Backed n := by
  intro hp hv
  have hop : s'.op n = s.op n := h.extends.op n hn
  have hlt : ∀ c ∈ (s.op n).operands, c < s.size := fun c => lt_size_of_mem_operands
  have hpn : s.isParameter n = false := by rwa [isParameter, ← hop]
  have hkept : (∀ c ∈ s.dag.operands n, s.hasValue c = true) →
      (∀ c ∈ s'.dag.operands n, s'.hasValue c = true) ∧
        ∀ c ∈ (s.op n).operands, s'.value c = s.value c := by
    intro ho
    refine ⟨fun c hc => ?_, fun c hc => (h.kept (hlt c hc) (ho c hc)).2.1⟩
    rw [Dag.operands, show s'.dag.op n = s.dag.op n from hop] at hc
    exact (h.kept (hlt c hc) (ho c hc)).1
  rcases h.cell_cases hn with hc | ⟨hm, -⟩ | ⟨-, ho, v, mask, hcomp, hc⟩
  · have hvn : s.hasValue n = true := by
      rwa [Graph.hasValue, hc.hasValue, isParameter, hop] at hv
    obtain ⟨ho, hs⟩ := hb hpn hvn
    obtain ⟨ho', hvalues⟩ := hkept ho
    refine ⟨ho', ?_⟩
    unfold Settled Graph.value at hs ⊢
    rw [hop, hc.value, hc.mask]
    exact (Op.value_congr hvalues).trans hs
  · cases hm
  · obtain ⟨ho', hvalues⟩ := hkept ho
    refine ⟨ho', ?_⟩
    unfold Settled Graph.value
    rw [hop, hc]
    exact (Op.value_congr hvalues).trans ((Op.value_own hpn _ _ _ _).trans (compute_eq_ok hcomp).2)

/-! ## Vertices that were built for a term -/

/-- The vertex was built for the term. -/
inductive Spells (g : Graph K E) : Term → Node → Prop where
  | leaf {n : Node} (hn : n < g.size) : Spells g (.leaf n) n
  | neg {t : Term} {l n : Node} (h : Spells g t l) (hop : g.op n = .neg l) (hb : g.Backed n) :
      Spells g (.neg t) n
  | func {f : Unary} {t : Term} {l n : Node} (h : Spells g t l) (hop : g.op n = .func f l)
      (hb : g.Backed n) : Spells g (.func f t) n
  | add {t u : Term} {l r n : Node} (hl : Spells g t l) (hr : Spells g u r)
      (hop : g.op n = .add l r) (hb : g.Backed n) : Spells g (.add t u) n
  | mul {t u : Term} {l r n : Node} (hl : Spells g t l) (hr : Spells g u r)
      (hop : g.op n = .mul l r) (hb : g.Backed n) : Spells g (.mul t u) n
  | max {t u : Term} {l r n : Node} (hl : Spells g t l) (hr : Spells g u r)
      (hop : g.op n = .max l r) (hb : g.Backed n) : Spells g (.max t u) n

omit [Scalar K] [Arith E] [Laned K E] in
theorem lt_size_of_op {op : Op K} (hop : g.op n = op) (hp : op.isParameter = false) :
    n < g.size := by
  by_contra hge
  rw [op_of_size_le g (not_lt.1 hge)] at hop
  subst hop
  cases hp

omit [Scalar K] [Laned K E] in
theorem Spells.lt (h : Spells g t n) : n < g.size := by
  cases h with
  | leaf hn => exact hn
  | neg _ hop | func _ hop | add _ _ hop | mul _ _ hop | max _ _ hop =>
    exact lt_size_of_op hop rfl

omit [Scalar K] [Laned K E] in
/-- A vertex stays built for a term if nothing below it changes. -/
theorem Spells.imp (h : s.Spells t n) (hsize : s.size ≤ s'.size)
    (hs : ∀ m, s.dag.Below n m → m < s.size → s'.op m = s.op m ∧ (s.Backed m → s'.Backed m)) :
    s'.Spells t n := by
  have hside : ∀ {n l op}, s.op n = op → l ∈ op.operands → ∀ m, s.dag.Below l m →
      s.dag.Below n m := fun hop hl m hm =>
    ((Dag.Below.refl s.dag _).operand (hop ▸ hl : _ ∈ (s.op _).operands)).trans hm
  induction h with
  | leaf hn => exact .leaf (hn.trans_le hsize)
  | neg _ hop hb ih =>
    obtain ⟨hop', hb'⟩ := hs _ (.refl _ _) (lt_size_of_op hop rfl)
    exact .neg (ih fun m hm => hs m (hside hop (by simp [Op.operands]) m hm)) (hop'.trans hop)
      (hb' hb)
  | func _ hop hb ih =>
    obtain ⟨hop', hb'⟩ := hs _ (.refl _ _) (lt_size_of_op hop rfl)
    exact .func (ih fun m hm => hs m (hside hop (by simp [Op.operands]) m hm)) (hop'.trans hop)
      (hb' hb)
  | add _ _ hop hb ihl ihr =>
    obtain ⟨hop', hb'⟩ := hs _ (.refl _ _) (lt_size_of_op hop rfl)
    exact .add (ihl fun m hm => hs m (hside hop (by simp [Op.operands]) m hm))
      (ihr fun m hm => hs m (hside hop (by simp [Op.operands]) m hm)) (hop'.trans hop) (hb' hb)
  | mul _ _ hop hb ihl ihr =>
    obtain ⟨hop', hb'⟩ := hs _ (.refl _ _) (lt_size_of_op hop rfl)
    exact .mul (ihl fun m hm => hs m (hside hop (by simp [Op.operands]) m hm))
      (ihr fun m hm => hs m (hside hop (by simp [Op.operands]) m hm)) (hop'.trans hop) (hb' hb)
  | max _ _ hop hb ihl ihr =>
    obtain ⟨hop', hb'⟩ := hs _ (.refl _ _) (lt_size_of_op hop rfl)
    exact .max (ihl fun m hm => hs m (hside hop (by simp [Op.operands]) m hm))
      (ihr fun m hm => hs m (hside hop (by simp [Op.operands]) m hm)) (hop'.trans hop) (hb' hb)

/-- What was built stays. -/
theorem lasting_spells (t : Term) (n : Node) : Lasting fun s : Graph K E => s.Spells t n := by
  have hturn : ∀ s s' : Graph K E, Turn [] s s' → s.Spells t n → s'.Spells t n := fun s s' ht h =>
    h.imp ht.extends.size fun m _ hm => ⟨ht.extends.op m hm, ht.backed hm⟩
  exact fun s s' ht h => Step.keeps_of_moves hturn ht h

omit [Arith E] [Laned K E] in
/-- An operation on numbers that can be read can be read, if it accepts numbers. -/
theorem readable_of_operands (hp : (g.op n).isParameter = false)
    (ho : ∀ c ∈ (g.op n).operands, g.Readable c)
    (h : ∀ s : Node → Shape, (∀ c ∈ (g.op n).operands, s c = (1, 1)) →
      (g.op n).Evaluable s ∧ (g.op n).shape (0, 0) s = (1, 1)) : g.Readable n := by
  obtain ⟨hevaluable, hshape⟩ := h g.shapes fun c hc => (ho c hc).shapes
  refine ⟨lt_size_of_op rfl hp, ?_, evaluable_of_operands hevaluable fun c hc => ?_⟩
  · rw [shapes_eq, Op.shape_own hp _ (0, 0)]
    exact hshape
  · exact (ho c hc).evaluable

omit [Laned K E] in
/-- **What was built can be read** if the leaves can. -/
theorem Spells.readable (h : Spells g t n) (hl : ∀ m ∈ t.leaves, g.Readable m) :
    g.Readable n := by
  have hside : ∀ {t u : Term}, (∀ m ∈ t.leaves ++ u.leaves, g.Readable m) →
      (∀ m ∈ t.leaves, g.Readable m) ∧ ∀ m ∈ u.leaves, g.Readable m :=
    fun h => List.forall_mem_append.1 h
  induction h with
  | leaf hn => exact hl _ (List.mem_singleton_self _)
  | neg _ hop _ ih | func _ hop _ ih =>
    have ho := ih hl
    refine readable_of_operands (by rw [hop]; rfl) ?_ ?_ <;> rw [hop]
    · simpa [Op.operands] using ho
    · intro s hs
      simp only [Op.operands, List.mem_singleton, forall_eq] at hs
      exact ⟨⟨trivial, trivial⟩, hs⟩
  | add _ _ hop _ ihl ihr | mul _ _ hop _ ihl ihr | max _ _ hop _ ihl ihr =>
    have ho := And.intro (ihl (hside hl).1) (ihr (hside hl).2)
    refine readable_of_operands (by rw [hop]; rfl) ?_ ?_ <;> rw [hop]
    · simpa [Op.operands] using ho
    · intro s hs
      simp only [Op.operands, List.mem_cons, List.not_mem_nil, or_false, forall_eq_or_imp,
        forall_eq] at hs
      exact ⟨⟨trivial, by simp [Op.Accepts, hs]⟩, by simp [Op.shape, hs]⟩

omit [Scalar K] [Laned K E] in
/-- The value of an operation, from what it does. -/
theorem Backed.holds {op : Op K} (hb : g.Backed n) (hop : g.op n = op)
    (hp : op.isParameter = false) (hv : g.hasValue n = true) :
    (∀ c ∈ op.operands, g.hasValue c = true) ∧
      ∀ v, (∀ own mask, op.value own mask g.value = .ok (.scalar v)) → g.Holds n v := by
  subst hop
  obtain ⟨ho, hs⟩ := hb hp hv
  refine ⟨ho, fun v h => ⟨lt_size_of_op rfl hp, hv, ?_⟩⟩
  unfold Settled at hs
  rw [h] at hs
  exact (Except.ok.inj hs).symm

omit [Laned K E] in
/-- **The value of what was built** is that of the term over the values of the leaves, which are
there. -/
theorem Spells.holds (h : Spells g t n) (hl : ∀ m ∈ t.leaves, g.Readable m)
    (hf : ∀ m, g.Fits m) (hv : g.hasValue n = true) :
    (∀ m ∈ t.leaves, g.hasValue m = true) ∧ g.Holds n (t.value g.number) := by
  induction h with
  | leaf hn =>
    have hread := hl _ (List.mem_singleton_self _)
    exact ⟨by simpa [Term.leaves] using hv, hn, hv, hread.value_eq (hf _) hv⟩
  | neg _ hop hb ih | func _ hop hb ih =>
    obtain ⟨ho, hval⟩ := hb.holds hop rfl hv
    obtain ⟨hleaves, hl'⟩ := ih hl (ho _ (by simp [Op.operands]))
    refine ⟨hleaves, hval _ fun own mask => ?_⟩
    rw [Op.value, hl'.value, Matrix.map_scalar]
    rfl
  | add _ _ hop hb ihl ihr | mul _ _ hop hb ihl ihr | max _ _ hop hb ihl ihr =>
    obtain ⟨ho, hval⟩ := hb.holds hop rfl hv
    obtain ⟨hll, hlr⟩ := List.forall_mem_append.1 hl
    obtain ⟨hleavesl, hl'⟩ := ihl hll (ho _ (by simp [Op.operands]))
    obtain ⟨hleavesr, hr'⟩ := ihr hlr (ho _ (by simp [Op.operands]))
    refine ⟨List.forall_mem_append.2 ⟨hleavesl, hleavesr⟩, hval _ fun own mask => ?_⟩
    rw [Op.value, hl'.value, hr'.value]
    simp [Term.value]

/-! ## What single operations build -/

/-- A vertex is added.  It has no value yet. -/
theorem yields_record {op : Op K} (hlt : ∀ c ∈ op.operands, c < s.size) :
    Yields s (record op) fun s' n => s'.op n = op ∧ s'.Backed n := by
  have hadmits : s.dag.Admits op := hlt
  refine ⟨s.size, s.push op hadmits .blank, ?_, .single (.push s op hadmits .blank (.inl rfl)),
    ?_, fun hp hv => ?_⟩
  · rw [record, EStateM.run_bind, EStateM.run_get]
    simp only [dif_pos hadmits]
    rfl
  · rw [op_push, if_pos rfl]
  · rw [Graph.hasValue, hp, cell_push, if_pos rfl] at hv
    cases hv

namespace Spells

/-- An operation on one vertex that was built. -/
theorem yields_unary {op : Op K} {τ : Term} (hl : s.Spells t l) (hop : op.operands = [l])
    (hτ : ∀ {s' : Graph K E} {n : Node}, s'.Spells t l → s'.op n = op → s'.Backed n →
      s'.Spells τ n) : Yields s (record op) fun s' n => s'.Spells τ n := by
  refine (yields_record (by simpa [hop] using hl.lt)).mono fun n s' ht h => ?_
  exact hτ (lasting_spells t l s s' ht hl) h.1 h.2

/-- An operation on two vertices that were built. -/
theorem yields_binary {op : Op K} {τ : Term} (hl : s.Spells t l) (hr : s.Spells u r)
    (hop : op.operands = [l, r])
    (hτ : ∀ {s' : Graph K E} {n : Node}, s'.Spells t l → s'.Spells u r → s'.op n = op →
      s'.Backed n → s'.Spells τ n) : Yields s (record op) fun s' n => s'.Spells τ n := by
  refine (yields_record (by simpa [hop] using ⟨hl.lt, hr.lt⟩)).mono fun n s' ht h => ?_
  exact hτ (lasting_spells t l s s' ht hl) (lasting_spells u r s s' ht hr) h.1 h.2

theorem yields_func (hl : s.Spells t l) (f : Unary) :
    Yields s (record (.func f l)) fun s' n => s'.Spells (t.func f) n :=
  hl.yields_unary rfl .func

theorem yields_add (hl : s.Spells t l) (hr : s.Spells u r) :
    Yields s (record (.add l r)) fun s' n => s'.Spells (t.add u) n :=
  hl.yields_binary hr rfl .add

theorem yields_mul (hl : s.Spells t l) (hr : s.Spells u r) :
    Yields s (record (.mul l r)) fun s' n => s'.Spells (t.mul u) n :=
  hl.yields_binary hr rfl .mul

theorem yields_max (hl : s.Spells t l) (hr : s.Spells u r) :
    Yields s (record (.max l r)) fun s' n => s'.Spells (t.max u) n :=
  hl.yields_binary hr rfl .max

theorem yields_sub (hl : s.Spells t l) (hr : s.Spells u r) :
    Yields s (sub l r) fun s' n => s'.Spells (t.sub u) n :=
  (hr.yields_unary rfl .neg).bind fun _ s' ht hn =>
    yields_add (lasting_spells t l s s' ht hl) hn

end Spells

end Graph

/-! ## Blocks of terms -/

namespace Block

open DiffGraph.Graph

variable [Scalar K] [Arith E] [Laned K E] {s s' : Graph K E} {b : Block} {T : Matrix Term}

/-- The cells were built for terms. -/
def Spelled (s : Graph K E) (T : Matrix Term) (b : Block) : Prop := Matrix.Related s.Spells T b

theorem Spelled.of_turns (h : Spelled s T b) (ht : Turns [] s s') : Spelled s' T b :=
  h.imp fun t _ n _ => lasting_spells t n s s' ht

omit [Scalar K] [Laned K E] in
/-- Any vertices are terms of their own. -/
theorem spelled_leaf (h : ∀ n ∈ b.nodes, n < s.size) : Spelled s (b.map .leaf) b := by
  refine ⟨rfl, ?_⟩
  rw [Matrix.map, Array.toList_map, List.forall₂_map_left_iff]
  exact List.forall₂_same.2 fun n hn => .leaf (h n hn)

/-- **One vertex is built for each cell.** -/
theorem Spelled.yields_mapM {f : Node → Step (Graph K E) Node} {τ : Term → Term}
    (hf : ∀ t n s', Turns [] s s' → Spells s' t n → Yields s' (f n) fun s' m => s'.Spells (τ t) m)
    (h : Spelled s T b) : Yields s (b.mapM f) fun s' c => Spelled s' (T.map τ) c := by
  refine (Yields.mapM_matrix lasting_spells (fun t => lasting_spells (τ t)) hf h).mono
    fun c s' _ hc => ⟨hc.shape, ?_⟩
  rw [Matrix.map, Array.toList_map, List.forall₂_map_left_iff]
  exact hc.data

/-- The vertices added up. -/
theorem yields_chain {t : Term} {n : Node} {ts : List Term} {ns : List Node} (h : s.Spells t n)
    (hs : List.Forall₂ s.Spells ts ns) :
    Yields s (chain n ns) fun s' m => s'.Spells (t.chain ts) m :=
  Yields.foldlM lasting_spells (fun _ _ _ _ _ _ hl hr => hl.yields_add hr) h hs

theorem Spelled.yields_sum (h : Spelled s T b) {t : Term} {ts : List Term}
    (hT : T.data.toList = t :: ts) : Yields s (sum b) fun s' m => s'.Spells (t.chain ts) m := by
  have hdata := h.data
  rw [hT] at hdata
  unfold sum nodes
  cases hb : b.data.toList with
  | nil => rw [hb] at hdata; cases hdata
  | cons n ns =>
    rw [hb] at hdata
    cases hdata with
    | cons hn hns => exact yields_chain hn hns

omit [Laned K E] in
/-- **The values of what was built** are those of the terms. -/
theorem Spelled.map_number (h : Spelled s T b)
    (hl : ∀ t ∈ T.data.toList, ∀ m ∈ t.leaves, s.Readable m) (hf : ∀ m, s.Fits m)
    (hv : b.Read s) : b.map s.number = T.map fun t => t.value s.number :=
  (h.imp fun t ht n hn hspells =>
    ((hspells.holds (hl t ht) hf (hv n hn).hasValue).2.number.symm)).map_eq.symm

omit [Laned K E] in
/-- What was built can be read if the leaves can. -/
theorem Spelled.readable (h : Spelled s T b)
    (hl : ∀ t ∈ T.data.toList, ∀ m ∈ t.leaves, s.Readable m) : ∀ n ∈ b.nodes, s.Readable n := by
  intro n hn
  obtain ⟨t, ht, hspells⟩ := h.exists_left n hn
  exact hspells.readable (hl t ht)

end Block

end DiffGraph
