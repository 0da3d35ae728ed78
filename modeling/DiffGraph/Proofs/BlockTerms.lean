/-
  What the operations on blocks build.

  Every operation adds vertices that spell terms over the cells that it was given.

  * `Block.yields_mul`: a matrix product.  Each cell is a sum of products, added up in the
    order of the inner index (`Block.entryTerm`);
  * `Block.yields_logSoftmax`: the logarithm of the softmax;
  * `Block.Spelled.yields_dot`: products cell by cell;
  * `Block.yields_ofValues`: new cells for numbers;
  * `Block.Spelled.yields_weighted`: the sum of all cells, each with a weight.
-/
import DiffGraph.Proofs.MiniBatch
import DiffGraph.Proofs.Rounds
import DiffGraph.Proofs.Terms

namespace DiffGraph

open Relation

variable {K E : Type}

/-- The data of a matrix are what it was made from. -/
theorem Matrix.mem_ofFn_iff {α : Type} {rows cols : Nat} {f : Nat → Nat → α} {x : α} :
    x ∈ (ofFn rows cols f).data.toList ↔ ∃ r < rows, ∃ c < cols, f r c = x := by
  have hmap : ofFn rows cols f = (ofFn rows cols Prod.mk).map fun p => f p.1 p.2 := by
    rw [map_ofFn]
  rw [hmap, map, Array.toList_map, List.mem_map]
  constructor
  · rintro ⟨p, hp, rfl⟩
    obtain ⟨r, hr, c, hc, rfl⟩ := mem_toList_iff.1 hp
    have hp' : (ofFn rows cols Prod.mk).entry r c = (r, c) := entry_ofFn hr hc
    exact ⟨r, hr, c, hc, by rw [hp']⟩
  · rintro ⟨r, hr, c, hc, rfl⟩
    exact ⟨(r, c), mem_toList_iff.2 ⟨r, hr, c, hc, entry_ofFn hr hc⟩, rfl⟩

namespace Term

/-- The product of two vertices. -/
def product (p : Node × Node) : Term := mul (leaf p.1) (leaf p.2)

@[simp] theorem leaves_product (p : Node × Node) : (product p).leaves = [p.1, p.2] := rfl

@[simp] theorem leaves_sub (l r : Term) : (l.sub r).leaves = l.leaves ++ r.leaves := rfl

theorem leaves_chain (t : Term) (ts : List Term) :
    (t.chain ts).leaves = t.leaves ++ ts.flatMap leaves := by
  induction ts generalizing t with
  | nil => simp [chain]
  | cons u us ih =>
    rw [chain, List.foldl_cons, List.flatMap_cons, ← List.append_assoc]
    exact ih (t.add u)

theorem leaves_largest (t : Term) (ts : List Term) :
    (t.largest ts).leaves = t.leaves ++ ts.flatMap leaves := by
  induction ts generalizing t with
  | nil => simp [largest]
  | cons u us ih =>
    rw [largest, List.foldl_cons, List.flatMap_cons, ← List.append_assoc]
    exact ih (t.max u)

section
variable [Arith E] (x : Node → E)

theorem value_chain (t : Term) (ts : List Term) :
    (t.chain ts).value x = (ts.map (value x)).foldl (· + ·) (t.value x) := by
  induction ts generalizing t with
  | nil => rfl
  | cons u us ih => exact ih (t.add u)

theorem value_largest (t : Term) (ts : List Term) :
    (t.largest ts).value x = (ts.map (value x)).foldl Arith.max (t.value x) := by
  induction ts generalizing t with
  | nil => rfl
  | cons u us ih => exact ih (t.max u)

end

end Term

namespace Graph

variable [Scalar K] [Arith E] [Laned K E] {s s' : Graph K E}

/-- A number becomes a vertex that holds it. -/
theorem yields_scalar (x : E) :
    Yields s (scalar x) fun s' n => s'.isParameter n = true ∧ s'.Holds n x := by
  let s₁ : Graph K E := s.push .parameter (fun _ h => absurd h (by simp [Op.operands]))
    (.parameter (.scalar x))
  have hcell : s₁.cell s.size = .parameter (.scalar x) := cell_push_size ..
  have hop : s₁.op s.size = .parameter := (op_push ..).trans (if_pos rfl)
  have hp : s₁.isParameter s.size = true := by rw [isParameter, hop]; rfl
  refine ⟨s.size, s₁, rfl, .single (.push s _ _ _ (.inr ⟨rfl, _, rfl⟩)), hp, ?_, ?_, ?_⟩
  · rw [show s₁.size = s.size + 1 from size_push ..]
    exact Nat.lt_succ_self _
  · rw [hasValue, hp, Bool.or_true]
  · rw [value, hcell]
    rfl

/-- Numbers become vertices of their own. -/
theorem yields_scalars (xs : List E) :
    Yields s (xs.mapM scalar) fun s' ns => ns.Nodup ∧ (∀ n ∈ ns, s.size ≤ n) ∧
      List.Forall₂ (fun x n => s'.isParameter n = true ∧ s'.Holds n x) xs ns := by
  have hlasting : ∀ (x : E) n, Lasting fun s : Graph K E => s.isParameter n = true ∧ s.Holds n x :=
    fun x n s s' ht h =>
      ⟨by rw [isParameter, ht.edits.extends.op n h.2.lt]; exact h.1, lasting_holds n x s s' ht h.2⟩
  obtain ⟨ns, s', hr, ht, hholds⟩ : Yields s (xs.mapM scalar) fun s' ns =>
      List.Forall₂ (fun x n => s'.isParameter n = true ∧ s'.Holds n x) xs ns := by
    refine Yields.mapM (P := fun _ x y => y = x) (fun _ _ _ _ _ h => h) hlasting ?_
      (List.forall₂_same.2 fun _ _ => rfl)
    rintro x _ s' - rfl
    exact yields_scalar _
  obtain ⟨_, _, hr', hnodup, hns, -⟩ := run_scalars xs s
  rw [hr] at hr'
  cases hr'
  exact ⟨ns, s', hr, ht, hnodup, fun n hn => (hns n hn).1, hholds⟩

end Graph

namespace Block

open DiffGraph.Graph

variable [Scalar K] [Arith E] [Laned K E] {s s' : Graph K E} {a b c : Block} {T U : Matrix Term}

/-! ## Cells -/

omit [Scalar K] [Arith E] [Laned K E] in
theorem entry_map [Zero E] (f : Node → E) {r c : Nat} (hr : r < b.rows) (hc : c < b.cols) :
    (b.map f).entry r c = f (b.node r c) := by
  rw [Matrix.map_eq, Matrix.entry_ofFn hr hc]
  rfl

/-- Distinct cells stand at distinct places. -/
theorem node_inj (hb : b.nodes.Nodup) {r c r' c' : Nat} (hr : r < b.rows) (hc : c < b.cols)
    (hr' : r' < b.rows) (hc' : c' < b.cols) (h : b.node r c = b.node r' c') : r = r' ∧ c = c' := by
  have hidx := idxOf_node hb hr hc
  rw [h, idxOf_node hb hr' hc'] at hidx
  have hpos : 0 < b.cols := Nat.zero_lt_of_lt hc
  have hdiv := congrArg (· / b.cols) hidx
  have hmod := congrArg (· % b.cols) hidx
  simp only [Nat.mul_comm _ b.cols, Nat.mul_add_div hpos, Nat.div_eq_of_lt hc,
    Nat.div_eq_of_lt hc', Nat.add_zero, Nat.mul_add_mod, Nat.mod_eq_of_lt hc,
    Nat.mod_eq_of_lt hc'] at hdiv hmod
  exact ⟨hdiv.symm, hmod.symm⟩

omit [Arith E] [Laned K E] in
theorem OfNumbers.readable (hb : b.OfNumbers s) {n : Node} (hn : n ∈ b.nodes) : s.Readable n :=
  readable_parameter (hb n hn).1 (hb n hn).2

/-- Cells that are parameters stay so. -/
theorem OfNumbers.of_turns (hb : b.OfNumbers s) (ht : Turns [] s s') {n : Node}
    (hn : n ∈ b.nodes) : s'.isParameter n = true ∧ s'.Readable n :=
  ((hb.readable hn).kept_parameter (hb n hn).1 ht).1

/-- Cells that are parameters keep their numbers. -/
theorem OfNumbers.map_number (hb : b.OfNumbers s) (ht : Turns [] s s') :
    b.map s'.number = b.map s.number :=
  Matrix.map_congr fun n hn => ((hb.readable hn).kept_parameter (hb n hn).1 ht).2

/-- The values of cells that are parameters. -/
theorem answer_values (hb : b.OfNumbers s) (hf : ∀ n, s.Fits n) :
    b.values.answer s = .ok (b.map s.number) := by
  obtain ⟨v, s', hr, ht, -, rfl⟩ := yields_values (fun _ => hb.readable) hf
  rw [Step.answer_of_run_ok hr, hb.map_number ht]

/-! ## Products -/

/-- The products of pairs, added up. -/
theorem yields_inner {p : Node × Node} {ps : List (Node × Node)}
    (hp : p.1 < s.size ∧ p.2 < s.size) (hps : ∀ q ∈ ps, q.1 < s.size ∧ q.2 < s.size) :
    Yields s (inner p ps) fun s' n =>
      s'.Spells ((Term.product p).chain (ps.map Term.product)) n := by
  have hproduct : ∀ (q : Node × Node) (s : Graph K E), q.1 < s.size ∧ q.2 < s.size →
      Yields s (record (.mul q.1 q.2)) fun s' n => s'.Spells (.product q) n := fun q s hq =>
    (Spells.leaf hq.1).yields_mul (.leaf hq.2)
  refine (hproduct p s hp).bind fun n s₁ ht₁ hn => ?_
  rw [Term.chain, List.foldl_map]
  refine Yields.foldlM (P := fun s q r => r = q ∧ q.1 < s.size ∧ q.2 < s.size)
    (R := fun s t n => s.Spells t n) (t := fun t q => t.add (.product q))
    (fun q r s s' ht h => ?_) (fun t n q r s' _ ht h => ?_) hn ?_
  · have hle := ht.edits.extends.size
    exact ⟨h.1, h.2.1.trans_le hle, h.2.2.trans_le hle⟩
  · obtain ⟨rfl, hq⟩ := h
    exact (hproduct r s' hq).bind fun m s₂ ht₂ hm =>
      (lasting_spells t n s' s₂ ht₂ ht).yields_add hm
  · have hle := ht₁.edits.extends.size
    exact List.forall₂_same.2 fun q hq =>
      ⟨rfl, (hps q hq).1.trans_le hle, (hps q hq).2.trans_le hle⟩

/-- The factors in a sum for one cell of a matrix product. -/
def factors (a b : Block) (r c k : Nat) : Node × Node := (a.node r k, b.node k c)

/-- One cell of a matrix product. -/
def entryTerm (a b : Block) (r c : Nat) : Term :=
  (Term.product (factors a b r c 0)).chain
    (((List.range' 1 (a.cols - 1)).map (factors a b r c)).map Term.product)

/-- **What a matrix product builds.** -/
theorem yields_mul (hab : a.cols = b.rows) (h0 : a.cols ≠ 0) (ha : ∀ n ∈ a.nodes, n < s.size)
    (hb : ∀ n ∈ b.nodes, n < s.size) :
    Yields s (a.mul b) fun s' c => Spelled s' (.ofFn a.rows b.cols (entryTerm a b)) c := by
  have hfactors : ∀ {s' : Graph K E}, Turns [] s s' → ∀ r < a.rows, ∀ c < b.cols, ∀ k < a.cols,
      (factors a b r c k).1 < s'.size ∧ (factors a b r c k).2 < s'.size := by
    intro s' ht r hr c hc k hk
    have hle := ht.edits.extends.size
    exact ⟨(ha _ (node_mem hr hk)).trans_le hle, (hb _ (node_mem (hab ▸ hk) hc)).trans_le hle⟩
  rw [mul, if_neg (by simp [hab, hab ▸ h0])]
  refine Yields.mapM_matrix
    (P := fun _ t (p : Nat × Nat) => t = entryTerm a b p.1 p.2 ∧ p.1 < a.rows ∧ p.2 < b.cols)
    (fun _ _ _ _ _ h => h) lasting_spells (fun t p s' ht h => ?_)
    (Matrix.related_ofFn_iff.2 ⟨rfl, fun r hr c hc => ?_⟩)
  · obtain ⟨rfl, hr, hc⟩ := h
    refine yields_inner (hfactors ht _ hr _ hc 0 (Nat.pos_of_ne_zero h0)) fun q hq => ?_
    obtain ⟨k, hk, rfl⟩ := List.mem_map.1 hq
    rw [List.mem_range'_1] at hk
    exact hfactors ht _ hr _ hc k (by omega)
  · rw [Matrix.entry_ofFn hr hc]
    exact ⟨rfl, hr, hc⟩

omit [Scalar K] [Arith E] [Laned K E] in
/-- Blocks that do not fit have no product. -/
theorem run_mul_of_ne (h : a.cols ≠ b.rows ∨ a.cols = 0) :
    (a.mul b).run s = .error (.shapeMismatch (a.cols, b.cols) b.shape "matmul") s := by
  rw [mul, if_pos h]
  rfl

/-! ## Weights -/

/-- **New cells for numbers.** -/
theorem yields_ofValues (v : Matrix E) :
    Yields s (ofValues v) fun s' w => w.nodes.Nodup ∧ (∀ n ∈ w.nodes, s.size ≤ n) ∧
      Matrix.Related (fun x n => s'.isParameter n = true ∧ s'.Holds n x) v w := by
  obtain ⟨ns, s', hr, ht, hnodup, hfresh, hholds⟩ := yields_scalars (s := s) v.data.toList
  obtain ⟨w, hw, hshape, rfl⟩ := Matrix.run_mapM hr
  exact ⟨w, s', hw, ht, hnodup, hfresh, hshape.symm, hholds⟩

/-- Products cell by cell. -/
theorem Spelled.yields_dot {rows cols : Nat} {T U : Nat → Nat → Term}
    (ha : Spelled s (.ofFn rows cols T) a) (hb : Spelled s (.ofFn rows cols U) b) :
    Yields s (a.dot b) fun s' c =>
      Spelled s' (.ofFn rows cols fun r c => (T r c).mul (U r c)) c := by
  obtain ⟨has, ha⟩ := Matrix.related_ofFn_iff.1 ha
  obtain ⟨hbs, hb⟩ := Matrix.related_ofFn_iff.1 hb
  have hpairs : a.zipWith "dot" Prod.mk b =
      .ok (.ofFn a.rows a.cols fun r c => (a.entry r c, b.entry r c)) :=
    Matrix.zipWith_eq (has.trans hbs.symm)
  obtain ⟨rfl, rfl⟩ := Prod.mk.inj has
  rw [dot, combine, hpairs]
  refine Yields.mapM_matrix
    (P := fun s t (p : Nat × Nat) => ∃ u v, t = u.mul v ∧ s.Spells u p.1 ∧ s.Spells v p.2)
    ?_ lasting_spells ?_ (Matrix.related_ofFn_iff.2 ⟨rfl, fun r hr c hc => ?_⟩)
  · rintro t p s s' ht ⟨u, v, rfl, hu, hv⟩
    exact ⟨u, v, rfl, lasting_spells u _ s s' ht hu, lasting_spells v _ s s' ht hv⟩
  · rintro t p s' - ⟨u, v, rfl, hu, hv⟩
    exact hu.yields_mul hv
  · rw [Matrix.entry_ofFn hr hc]
    exact ⟨_, _, rfl, ha r hr c hc, hb r hr c hc⟩

/-- The cells added up, each with a weight. -/
def weighted (b : Block) (weights : Matrix E) : Step (Graph K E) Node := do
  let w ← ofValues weights
  sum (← b.dot w)

/-- **What a sum with weights builds**, over new vertices for the weights. -/
theorem Spelled.yields_weighted {rows cols : Nat} {T : Nat → Nat → Term} {v : Matrix E}
    (hb : Spelled s (.ofFn rows cols T) b) (hv : v.shape = (rows, cols)) (hrows : rows ≠ 0)
    (hcols : cols ≠ 0) :
    Yields s (b.weighted v) fun s' l => ∃ (w : Block) (t : Term) (ts : List Term),
      w.nodes.Nodup ∧ (∀ n ∈ w.nodes, s.size ≤ n) ∧
      Matrix.Related (fun x n => s'.isParameter n = true ∧ s'.Holds n x) v w ∧
      (Matrix.ofFn rows cols fun r c => (T r c).mul (.leaf (w.node r c))).data.toList = t :: ts ∧
      s'.Spells (t.chain ts) l := by
  refine (yields_ofValues v).bind fun w s₁ ht₁ ⟨hnodup, hfresh, hw⟩ => ?_
  have hws : w.shape = (rows, cols) := hw.shape.symm.trans hv
  have hwlt : ∀ n ∈ w.nodes, n < s₁.size := fun n hn => by
    obtain ⟨x, -, -, hx⟩ := hw.exists_left n hn
    exact hx.lt
  have hwterm : Spelled s₁ (.ofFn rows cols fun r c => .leaf (w.node r c)) w := by
    refine Matrix.related_ofFn_iff.2 ⟨hws, fun r hr c hc => .leaf (hwlt _ ?_)⟩
    obtain ⟨rfl, rfl⟩ := Prod.mk.inj hws
    exact node_mem hr hc
  refine ((hb.of_turns ht₁).yields_dot hwterm).bind fun d s₂ ht₂ hd => ?_
  obtain ⟨t, ts, hts⟩ := List.exists_cons_of_ne_nil
    (l := (Matrix.ofFn rows cols fun r c => (T r c).mul (.leaf (w.node r c))).data.toList)
    (by simp [Matrix.ofFn, hrows, hcols])
  refine (hd.yields_sum hts).mono fun l s' ht' hl => ?_
  refine ⟨w, t, ts, hnodup, hfresh, hw.imp fun x _ n _ h => ?_, hts, hl⟩
  have hturns : Turns [] s₁ s' := ht₂.trans ht'
  exact ⟨by rw [isParameter, hturns.edits.extends.op n h.2.lt]; exact h.1,
    lasting_holds n x s₁ s' hturns h.2⟩

/-- The gradients of a block are the entries of a matrix. -/
theorem run_grads {m : Matrix E} (hm : m.shape = b.shape)
    (hgrad : ∀ r < b.rows, ∀ c < b.cols, s.grad (b.node r c) = .scalar (m.entry r c)) :
    b.grads.run s = .ok m s := by
  obtain ⟨hrows, hcols⟩ := Prod.mk.inj hm
  have hrelated : Matrix.Related (fun e n => s.grad n = .scalar e) m b :=
    Matrix.related_iff.2 ⟨hm.symm, fun r hr c hc => hgrad r (hrows ▸ hr) c (hcols ▸ hc)⟩
  refine run_grads_of_data hm ?_
  rw [← List.forall₂_eq_eq_eq, List.forall₂_map_left_iff, List.forall₂_map_right_iff]
  exact hrelated.data.flip

/-! ## The logarithm of the softmax -/

/-- The largest of several vertices. -/
def peakTerm (n : Node) (ns : List Node) : Term := (Term.leaf n).largest (ns.map .leaf)

/-- The exponentials of several vertices less the largest, added up. -/
def totalTerm (n : Node) (ns : List Node) : Term :=
  let e m := Term.func .exp ((Term.leaf m).sub (peakTerm n ns))
  (e n).chain (ns.map e)

/-- One cell of the logarithm of the softmax. -/
def logTerm (n : Node) (ns : List Node) (m : Node) : Term :=
  ((Term.leaf m).sub (peakTerm n ns)).sub (.func .log (totalTerm n ns))

/-- The largest vertex. -/
theorem yields_largest {t : Term} {n : Node} {ts : List Term} {ns : List Node} (h : s.Spells t n)
    (hs : List.Forall₂ s.Spells ts ns) :
    Yields s (ns.foldlM (fun acc n => record (.max acc n)) n) fun s' m =>
      s'.Spells (t.largest ts) m :=
  Yields.foldlM lasting_spells (fun _ _ _ _ _ _ hl hr => hl.yields_max hr) h hs

/-- **What the logarithm of the softmax builds.** -/
theorem yields_logSoftmax {n : Node} {ns : List Node} (hb : b.nodes = n :: ns)
    (hlt : ∀ m ∈ b.nodes, m < s.size) :
    Yields s b.logSoftmax fun s' c => Spelled s' (b.map (logTerm n ns)) c := by
  have hleaves : List.Forall₂ s.Spells (ns.map Term.leaf) ns := by
    rw [List.forall₂_map_left_iff]
    exact List.forall₂_same.2 fun m hm => .leaf (hlt m (by simp [hb, hm]))
  have hdata : b.data.toList = n :: ns := hb
  rw [logSoftmax, hb]
  refine (yields_largest (.leaf (hlt n (by simp [hb]))) hleaves).bind fun peak s₁ ht₁ hpeak => ?_
  have hcells : Spelled s₁ (b.map .leaf) b := (spelled_leaf hlt).of_turns ht₁
  refine (hcells.yields_mapM fun t m s' ht hm =>
    hm.yields_sub (lasting_spells _ peak s₁ s' ht hpeak)).bind fun shifted s₂ ht₂ hshifted => ?_
  refine (hshifted.yields_mapM fun t m s' _ hm => hm.yields_func .exp).bind
    fun exps s₃ ht₃ hexps => ?_
  have hterms : (((b.map Term.leaf).map (Term.sub · (peakTerm n ns))).map
      (Term.func .exp)).data.toList =
      .func .exp ((Term.leaf n).sub (peakTerm n ns)) ::
        ns.map fun m => .func .exp ((Term.leaf m).sub (peakTerm n ns)) := by
    simp [Matrix.map, hdata, Function.comp_def]
  refine (hexps.yields_sum hterms).bind fun total s₄ ht₄ htotal => ?_
  refine (htotal.yields_func .log).bind fun log s₅ ht₅ hlog => ?_
  have hmap : b.map (logTerm n ns) = ((b.map Term.leaf).map (Term.sub · (peakTerm n ns))).map
      (Term.sub · (.func .log (totalTerm n ns))) := by
    simp [Matrix.map, logTerm, Function.comp_def]
  rw [hmap]
  refine (hshifted.of_turns (ht₃.trans (ht₄.trans ht₅))).yields_mapM fun t m s' ht hm => ?_
  exact hm.yields_sub (lasting_spells _ log s₅ s' ht hlog)

end Block

end DiffGraph
