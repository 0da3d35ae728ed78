/-
  Gradients from wide programs.

  The lanes of a gradient are added up where it is moved to narrower elements.

  * `Laned.lane_fold`: lane `j` of what is moved is the sum of the lanes that agree with
    `j` modulo the narrower width, from left to right;
  * `Cell.Gains`: a cell to whose gradient numbers were added, lane by lane;
  * `Graph.replaced_foldl`: cells that are changed one after another;
  * `Projection.run_addGrads`, `Program.run_deliverGrads`: what a program adds to the
    gradients of a block and to those of the graph that it was compiled from.
-/
import DiffGraph.Proofs.Learning
import DiffGraph.Proofs.Rounds

namespace DiffGraph

variable {K E S T : Type}

/-! ## Sums over lanes -/

/-- A sum may start from either zero, if something is added. -/
theorem foldl_neg_zero [Arith K] (hzero : ∀ x : K, 0 + x = x) (hnegative : ∀ x : K, -0 + x = x)
    {xs : List K} (hxs : xs ≠ []) : xs.foldl (· + ·) (-0) = total xs := by
  obtain ⟨x, xs, rfl⟩ := List.exists_cons_of_ne_nil hxs
  rw [total, List.foldl_cons, List.foldl_cons, hnegative, hzero]

/-- The lanes below `width` that agree with `j` modulo `step`. -/
def strideOf (width step j : Nat) : List Nat := (List.range width).filter fun l => l % step = j

theorem mem_strideOf {width step j l : Nat} :
    l ∈ strideOf width step j ↔ l < width ∧ l % step = j := by
  simp [strideOf]

theorem strideOf_ne_nil {width step j : Nat} (hj : j < step) (hstep : step ≤ width) :
    strideOf width step j ≠ [] :=
  List.ne_nil_of_mem (mem_strideOf.2 ⟨hj.trans_le hstep, Nat.mod_eq_of_lt hj⟩)

/-- Steps of one reach all lanes. -/
theorem strideOf_one (width : Nat) : strideOf width 1 0 = List.range width :=
  List.filter_eq_self.2 fun l _ => by simp [Nat.mod_one]

/-- Steps as wide as all lanes reach one. -/
theorem strideOf_self {width j : Nat} (hj : j < width) : strideOf width width j = [j] := by
  have hfilter : strideOf width width j = (List.range width).filter (· == j) :=
    List.filter_congr fun l hl => by rw [Nat.mod_eq_of_lt (List.mem_range.1 hl)]; rfl
  rw [hfilter, List.filter_beq, List.count_eq_one_of_mem List.nodup_range (List.mem_range.2 hj)]
  rfl

namespace Laned

/-- The sum of all lanes is built up from negative zero, or nothing is added at all. -/
class Totals (K T : Type) [Arith K] [Laned K T] : Prop where
  total_eq : (∀ x : K, -0 + x = x) → ∀ v : T,
    Laned.total v = ((List.range (width T)).map (lane v)).foldl (· + ·) (-0)

instance [Scalar K] : Totals K K where
  total_eq h v := (h v).symm

instance [Arith K] {W : Nat} : Totals K (Lanes K W) where
  total_eq _ v := by
    have hlanes : v.lanes.toList = (List.range W).map (lane v) := by
      refine List.ext_getElem (by simp) fun l hl hl' => ?_
      have hlt : l < W := by simpa using hl
      simp [lane, lane?, hlt]
    exact congrArg (List.foldl (· + ·) (-0)) hlanes

section
variable [Arith K] [Arith S] [Arith T] [Laned K S] [Laned K T] [Laned.Lawful K S]
  [Laned.Totals K T]

omit [Arith T] in
/-- **Lane `j` of what is moved** is the sum of the lanes that agree with `j`. -/
theorem lane_fold (hzero : ∀ x : K, 0 + x = x) (hnegative : ∀ x : K, -0 + x = x) (v : T) {j : Nat}
    (hj : j < width S) (hwidth : width S ≤ width T) :
    lane (fold v : S) j = DiffGraph.total ((strideOf (width T) (width S) j).map (lane v)) := by
  have hsum : ((strideOf (width T) (width S) j).map (lane v)).foldl (· + ·) (-0) =
      DiffGraph.total ((strideOf (width T) (width S) j).map (lane v)) :=
    foldl_neg_zero hzero hnegative fun h =>
      strideOf_ne_nil hj hwidth (List.map_eq_nil_iff.1 h)
  unfold fold
  split
  · next hone =>
    have hj' : j = 0 := Nat.lt_one_iff.1 (hone ▸ hj)
    rw [splat, Laned.Lawful.lane_ofLanes hj, Totals.total_eq hnegative, ← hsum, hone, hj',
      strideOf_one]
  split
  · next hle =>
    have heq : width S = width T := Nat.le_antisymm hwidth hle
    rw [broadcast, Laned.Lawful.lane_ofLanes hj, ← heq, Nat.mod_eq_of_lt hj, strideOf_self hj]
    exact (hzero _).symm
  · rw [Laned.Lawful.lane_ofLanes hj, stride, ← hsum, List.foldl_map]
    rfl

end

end Laned

/-! ## Cells that gain -/

/-- A cell to whose gradient numbers were added: `sum j` to lane `j` of each entry.
Nothing else of it changed. -/
structure Cell.Gains [Arith K] [Arith S] [Laned K S] (c c' : Cell S) (sum : Nat → K) : Prop where
  rest : c' = { c with grad := c'.grad }
  shape : c'.grad.shape = c.grad.shape
  lane : ∀ i < c.grad.rows, ∀ k < c.grad.cols, ∀ j < Laned.width S,
    Laned.lane (c'.grad.entry i k) j = Laned.lane (c.grad.entry i k) j + sum j

/-- The same element is added to every entry. -/
theorem Cell.gains_addEach [Arith K] [Arith S] [Laned K S] [Laned.Lawful K S] (c : Cell S) (e : S)
    {sum : Nat → K} (h : ∀ j < Laned.width S, Laned.lane e j = sum j) :
    c.Gains { c with grad := c.grad.addEach e } sum := by
  refine ⟨rfl, rfl, fun i hi k hk j hj => ?_⟩
  have hentry : (c.grad.addEach e).entry i k = c.grad.entry i k + e := by
    rw [Matrix.addEach, Matrix.entry_map_of_lt _ hi hk]
  rw [hentry, (Laned.Lawful.preserves (K := K) hj).add, h j hj]

namespace Graph

/-- Cells that are changed one after another. -/
theorem replaced_foldl {α : Type} (target : α → Node) (f : α → Cell S → Cell S) {l : List α}
    (hl : (l.map target).Nodup) (t : Graph K S) :
    Replaced target (fun a c => .ok (f a c)) l t
      (l.foldl (fun t a => t.update (target a) (f a)) t) := by
  induction l generalizing t with
  | nil => exact ⟨Beside.refl t, fun _ _ => rfl, by simp⟩
  | cons a l ih =>
    obtain ⟨ha, hl⟩ := List.nodup_cons.1 hl
    have hrest := ih hl (t.update (target a) (f a))
    refine ⟨(Beside.update t _ _).trans hrest.beside, fun n hn => ?_, fun b hb hlt => ?_⟩
    · rw [List.map_cons, List.mem_cons, not_or] at hn
      rw [List.foldl_cons, hrest.old n hn.2, cell_update_of_ne t (Ne.symm hn.1)]
    · rcases List.mem_cons.1 hb with rfl | hb
      · rw [List.foldl_cons, hrest.old _ ha, cell_update_self t hlt]
      · have hne : target a ≠ target b := fun h => ha (h ▸ List.mem_map_of_mem hb)
        rw [List.foldl_cons, ← hrest.new b hb hlt, cell_update_of_ne t hne]

/-- A parameter below the root of an order that is marked as a receiver of gradients. -/
structure Receives (g : Graph K S) (order : List Node) (n : Node) : Prop where
  mem : n ∈ order
  parameter : g.isParameter n = true
  tracked : (g.cell n).tracked = true

theorem hasEntry_iff {g : Graph K S} {order : List Node} {n : Node} :
    g.hasEntry order n = true ↔ n ∈ order ∧ g.marked n = true := by
  simp [hasEntry]

theorem Receives.hasEntry {g : Graph K S} {order : List Node} {n : Node}
    (h : g.Receives order n) : g.hasEntry order n = true :=
  hasEntry_iff.2 ⟨h.mem, by simp [marked, h.tracked]⟩

section
variable [Arith E] {g : Graph K E} {order : List Node} {code : Code} {values : Array E} {i : Nat}
  {n : Node}

/-- A parameter has the instruction that computes nothing. -/
theorem Compiled.isParameter_instr (h : Compiled g order code values) (hi : order[i]? = some n) :
    (code.instr i).isParameter = g.isParameter n := by
  obtain ⟨ins, hins, hcode⟩ := h.instr i n hi
  have hrename : (ins.rename (order.idxOf ·)).isParameter = ins.isParameter := by
    cases ins <;> rfl
  rw [hcode, hrename, hins.isParameter]
  rfl

/-- Gradients are computed for a parameter if it is marked. -/
theorem Compiled.tracked_parameter (h : Compiled g order code values) (hi : order[i]? = some n)
    (hp : g.isParameter n = true) : code.tracked i = (g.cell n).tracked := by
  have hinstr : code.instr i = .parameter := by
    have hparam := (h.isParameter_instr hi).trans hp
    cases hins : code.instr i with
    | parameter => rfl
    | _ => rw [hins] at hparam; cases hparam
  rw [h.tracked i n hi, hinstr]
  exact Bool.or_false _

/-- The entries of a program, one for each marked vertex. -/
theorem Compiled.mem_entries (h : Compiled g order code values) {e : Entry} :
    e ∈ code.entries ↔ ∃ i n, order[i]? = some n ∧ g.marked n = true ∧ e = ⟨i, g.id n⟩ := by
  rw [h.entries, List.mem_filterMap]
  constructor
  · rintro ⟨⟨n, i⟩, hmem, he⟩
    rw [List.mem_zipIdx_iff_getElem?] at hmem
    unfold entry? at he
    split at he
    · next hm =>
      cases he
      exact ⟨i, n, hmem, hm, rfl⟩
    · cases he
  · rintro ⟨i, n, hi, hm, rfl⟩
    exact ⟨(n, i), List.mem_zipIdx_iff_getElem?.2 hi, if_pos hm⟩

omit [Arith E] in
theorem map_node_entries (g : Graph K E) (order : List Node) (k : Nat) :
    ((order.zipIdx k).filterMap fun v => g.entry? v.1 v.2).map (fun e => e.node.node) =
      order.filter g.marked := by
  induction order generalizing k with
  | nil => rfl
  | cons n order ih =>
    rw [List.zipIdx_cons, List.filterMap_cons, List.filter_cons, entry?]
    cases g.marked n with
    | true => exact congrArg (n :: ·) (ih (k + 1))
    | false => exact ih (k + 1)

/-- Entries belong to different vertices. -/
theorem Compiled.nodup_entries (h : Compiled g order code values) (hnodup : order.Nodup) :
    (code.entries.map Entry.node).Nodup := by
  have hnodes : (code.entries.map Entry.node).map NodeId.node = order.filter g.marked := by
    rw [List.map_map, h.entries]
    exact map_node_entries g order 0
  exact List.Nodup.of_map NodeId.node (hnodes ▸ hnodup.filter _)

/-- An item belongs to one vertex. -/
theorem Compiled.id_eq (h : Compiled g order code values) {x y : NodeId}
    (hx : (⟨i, x⟩ : Entry) ∈ code.entries) (hy : (⟨i, y⟩ : Entry) ∈ code.entries) : x = y := by
  obtain ⟨k, n, hn, -, hxn⟩ := h.mem_entries.1 hx
  obtain ⟨k', m, hm, -, hym⟩ := h.mem_entries.1 hy
  obtain ⟨rfl, rfl⟩ := Entry.mk.inj hxn
  obtain ⟨rfl, rfl⟩ := Entry.mk.inj hym
  rw [hn] at hm
  cases hm
  rfl

end

end Graph

/-! ## Gradients of a program -/

section
variable [Scalar K] [Arith E] [Arith S] [Arith T] [Laned K S] [Laned K T] {g : Graph K E}
  {order : List Node} {p : Program E} {q : Program T} {values : Array E} {t : Graph K S}

/-- **What is added to a block**: the cells that have an item get its gradient. -/
theorem Projection.run_addGrads (h : Graph.Compiled g order p.code values)
    (hq : q.fingerprint = p.fingerprint) {weights target : Block}
    (hs : target.shape = weights.shape) (hnodup : target.nodes.Nodup) (t : Graph K S) :
    ∃ t', ((make g weights p).addGrads q target).run t = .ok () t' ∧
      Graph.Replaced Prod.fst
        (fun c d => .ok { d with
          grad := d.grad.addEach (Laned.fold (q.grad (order.idxOf c.2))) })
        (g.entryCells order weights target) t t' := by
  have hfst : ((g.entryCells order weights target).map Prod.fst).Nodup := by
    rw [Graph.entryCells, if_pos hs]
    have hlength : target.data.toList.length ≤ weights.nodes.length := by
      rw [Block.nodes, Array.length_toList, Array.length_toList, target.size_data,
        weights.size_data]
      exact (congrArg Shape.area hs).le
    have hzip : (target.data.toList.zip weights.nodes).map Prod.fst = target.nodes :=
      List.map_fst_zip hlength
    exact (hzip.symm ▸ hnodup).sublist (List.filter_sublist.map Prod.fst)
  refine ⟨_, ?_, Graph.replaced_foldl _ _ hfst t⟩
  simp only [addGrads, check_make hq, if_pos hs, pairs_make h weights target hs, List.foldl_map]
  rfl

namespace Program

/-- The gradient of an entry goes to the graph. -/
def delivers (q : Program T) (e : Entry) : Bool :=
  (q.code.instr e.index).isParameter && q.code.tracked e.index

/-- The cell of an entry when its gradient has been delivered. -/
def delivered (q : Program T) (e : Entry) (d : Cell S) : Cell S :=
  if q.delivers e then { d with grad := d.grad.addEach (Laned.fold (q.grad e.index)) } else d

omit [Scalar K] [Arith T] [Laned K T] in
theorem delivers_iff (h : Graph.Compiled g order q.code values) {i : Nat} {n : Node}
    (hi : order[i]? = some n) : q.delivers ⟨i, g.id n⟩ = true ↔ g.Receives order n := by
  rw [delivers, Bool.and_eq_true, h.isParameter_instr hi]
  constructor
  · rintro ⟨hp, ht⟩
    exact ⟨List.mem_of_getElem? hi, hp, h.tracked_parameter hi hp ▸ ht⟩
  · intro hn
    exact ⟨hn.parameter, (h.tracked_parameter hi hn.parameter).trans hn.tracked⟩

theorem run_deliverGrad (h : Graph.Compiled g order q.code values) (htag : t.tag = g.tag)
    {e : Entry} (he : e ∈ q.code.entries) :
    (q.deliverGrad order e).run t =
      .ok ⟨⟩ (t.update e.node.node fun _ => q.delivered e (t.cell e.node.node)) := by
  obtain ⟨i, n, hi, -, rfl⟩ := h.mem_entries.1 he
  have hnode : entryNode t order ⟨i, g.id n⟩ = .ok n := by
    have hid : t.id n = g.id n := congrArg (NodeId.mk · n) htag
    simp only [entryNode, hi]
    exact if_pos hid
  have hrun : (q.deliverGrad order ⟨i, g.id n⟩).run t =
      if q.delivers ⟨i, g.id n⟩ = true then .ok ⟨⟩ (t.update n fun d =>
        { d with grad := d.grad.addEach (Laned.fold (q.grad i)) }) else .ok ⟨⟩ t := by
    rw [deliverGrad]
    change (ite (q.delivers ⟨i, g.id n⟩ = true) _ _ : Step (Graph K S) Unit).run t = _
    split
    · simp only [EStateM.run_bind, EStateM.run_get, hnode]
      rfl
    · rfl
  rw [hrun]
  cases hd : q.delivers ⟨i, g.id n⟩ with
  | true =>
    have hcell : q.delivered ⟨i, g.id n⟩ (t.cell n) =
        { t.cell n with grad := (t.cell n).grad.addEach (Laned.fold (q.grad i)) } := if_pos hd
    exact congrArg (EStateM.Result.ok ()) (Graph.update_congr t hcell.symm)
  | false =>
    have hcell : q.delivered ⟨i, g.id n⟩ (t.cell n) = t.cell n := if_neg (by simp [hd])
    have hself : (t.update n fun _ => q.delivered ⟨i, g.id n⟩ (t.cell n)) = t := by
      rw [hcell, Graph.update_cell]
    exact congrArg (EStateM.Result.ok ()) hself.symm

/-- **What is added to the graph of a program**: the parameters that receive gradients get
that of their item. -/
theorem run_deliverGrads (h : Graph.Compiled g order q.code values) (hnodup : order.Nodup)
    (htag : t.tag = g.tag) :
    ∃ t', (q.deliverGrads order).run t = .ok () t' ∧ t.Beside t' ∧
      (∀ n, g.Receives order n → n < t.size → t'.cell n = { t.cell n with
        grad := (t.grad n).addEach (Laned.fold (q.grad (order.idxOf n))) }) ∧
      ∀ n, ¬ g.Receives order n → t'.cell n = t.cell n := by
  have hnodes : q.code.entries.map (fun e => e.node.node) = order.filter g.marked := by
    rw [h.entries]
    exact Graph.map_node_entries g order 0
  obtain ⟨t', hrun, hreplaced⟩ := Graph.run_replacing (fun e : Entry => e.node.node)
    (f := fun e d => .ok (q.delivered e d)) (q.deliverGrad order)
    (fun e he s hs _ => run_deliverGrad h (hs.tag.trans htag) he)
    (hnodes ▸ hnodup.filter _) fun e _ => ⟨_, rfl⟩
  refine ⟨t', hrun, hreplaced.beside, fun n hn hlt => ?_, fun n hn => ?_⟩
  · have hi : order[order.idxOf n]? = some n := List.getElem?_idxOf hn.mem
    have hmarked : g.marked n = true := by simp [Graph.marked, hn.tracked]
    have hnew := hreplaced.new ⟨order.idxOf n, g.id n⟩
      (h.mem_entries.2 ⟨_, n, hi, hmarked, rfl⟩) hlt
    exact (Except.ok.inj hnew).symm.trans (if_pos ((delivers_iff h hi).2 hn))
  · by_cases hmem : n ∈ q.code.entries.map fun e => e.node.node
    · obtain ⟨e, he, hen⟩ := List.mem_map.1 hmem
      obtain ⟨i, m, hi, -, rfl⟩ := h.mem_entries.1 he
      obtain rfl : m = n := hen
      by_cases hlt : m < t.size
      · have hd : ¬ q.delivers ⟨i, g.id m⟩ = true := fun hd => hn ((delivers_iff h hi).1 hd)
        exact (Except.ok.inj (hreplaced.new _ he hlt)).symm.trans (if_neg hd)
      · rw [Graph.cell_of_size_le t (not_lt.1 hlt), Graph.cell_of_size_le t']
        rw [Graph.size_of_dag hreplaced.beside.dag]
        exact not_lt.1 hlt
    · exact hreplaced.old n hmem

end Program

end

end DiffGraph
