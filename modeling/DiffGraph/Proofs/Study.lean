/-
  Learning in another place.

  A graph that stands in another place, under other names, can learn examples with the
  parameters of this one.

  * `Studied`: what a place has learned since it got the parameters of a graph.  The
    gradient of an example is the one that it has alone, at the beginning
    (`Studied.run_learn`), so that the place sums up these gradients;
  * `run_begin`: a place begins a batch.
-/
import DiffGraph.Proofs.Mirror
import DiffGraph.Proofs.Sums

namespace DiffGraph

variable {K E : Type}

namespace Example

/-- The example under other names. -/
def rename (f : Node → Node) (x : Example E) : Example E := x.map fun w => (f w.1, w.2)

theorem written_rename {f : Node → Node} {x : Example E} {n : Node}
    (hf : ∀ w ∈ x, f w.1 = f n → w.1 = n) (v : Matrix E) :
    (x.rename f).written (f n) v = x.written n v := by
  induction x generalizing v with
  | nil => rfl
  | cons w x ih =>
    have hiff : f w.1 = f n ↔ w.1 = n := ⟨hf w List.mem_cons_self, congrArg f⟩
    rw [rename, List.map_cons, written, written, List.foldl_cons, List.foldl_cons]
    simp only [hiff]
    exact ih (fun u hu => hf u (List.mem_cons_of_mem _ hu)) _

/-- An example that gives a value to a vertex leaves nothing of the old one. -/
theorem written_of_mem {x : Example E} {n : Node} (h : n ∈ x.map Prod.fst) (v v' : Matrix E) :
    x.written n v = x.written n v' := by
  induction x generalizing v v' with
  | nil => cases h
  | cons w x ih =>
    rw [written, written, List.foldl_cons, List.foldl_cons]
    by_cases hw : w.1 = n
    · rw [if_pos hw, if_pos hw]
    · rw [if_neg hw, if_neg hw]
      rw [List.map_cons, List.mem_cons] at h
      exact ih (h.resolve_left fun hn => hw hn.symm) v v'

end Example

namespace Graph

section
variable [Scalar K] [Arith E] [Laned K E]

/-- A root that can be learned, with gradients that do not depend on samples. -/
structure Replayable (g : Graph K E) (root : Node) : Prop extends g.Learnable root where
  keeps : g.Keeps root
  nonneg : g.noise.Nonneg

/-- The example gives values to `inputs`, parameters below the root. -/
structure Feeds (g : Graph K E) (root : Node) (inputs : List Node) (x : Example E) : Prop where
  fits : x.Fits g
  names : x.map Prod.fst = inputs
  below : ∀ n ∈ inputs, g.dag.Below root n

/-- The gradient of a vertex for one example, in a reverse pass of its own. -/
def gradFor (g : Graph K E) (root n : Node) (x : Example E) : Matrix E :=
  ((pass root (g.order root) x).final g).grad n

/-- In `t`, below `root'`, stands what stands below `root` in `g` under the names `f`.  With
the parameters of `g` it learned the examples `xs`: the sums of its parameters are those of
the gradients that the examples have in `g`. -/
structure Studied (g : Graph K E) (root : Node) (inputs : List Node) (t : Graph K E)
    (root' : Node) (f : Node → Node) (xs : List (Example E)) : Prop where
  renamed : g.dag.Renamed t.dag root root' f
  learnable : t.Learnable root'
  nonneg : t.noise.Nonneg
  shape : ∀ n, g.dag.Below root n → g.isParameter n = true →
    (t.value (f n)).shape = (g.value n).shape
  value : ∀ n, g.dag.Below root n → g.isParameter n = true → n ∉ inputs →
    t.value (f n) = g.value n
  sum : ∀ n, g.dag.Below root n → g.isParameter n = true →
    (xs.map (g.gradFor root n)).foldlM Matrix.add (.zeros (g.value n).rows (g.value n).cols) =
      .ok (t.cell (f n)).batchSum

/-! ## One place -/

section
variable {g t t' : Graph K E} {root root' n : Node} {inputs : List Node} {f : Node → Node}
  {x : Example E} {xs : List (Example E)}

theorem leads_learn (root : Node) (order : List Node) (x : Example E) (g : Graph K E) :
    (learn root order x).Leads (Edit (x.map Prod.fst)) g := by
  refine .bind (.bind ((leads_feed x g).mono fun _ _ => .turn) fun _ _ _ =>
    .bind (leads_reset order) fun _ _ _ => ?_) fun _ _ _ => ?_
  · exact (turns_reverseAlong root order).mono fun _ _ => .turn
  · exact (turns_collect order).mono fun _ _ => .turn

/-- A fair call leaves a root that can be learned. -/
theorem Learnable.of_run {c : Call K E} (h : t.Learnable root) (hc : c.Fair t)
    (hr : c.run.run t = .ok () t') : t'.Learnable root ∧ Edits c.targets t t' := by
  have hl := h.call c hc
  have he : Edits c.targets t (c.run.final t) := c.leads t
  rw [Step.final_of_run_ok hr] at hl he
  exact ⟨hl, he⟩

/-- Fair calls leave a root that can be learned. -/
theorem Learnable.of_forM {α : Type*} {call : α → Call K E} {l : List α} (h : t.Learnable root)
    (hfair : ∀ a ∈ l, ∀ s, (call a).Fair s)
    (hr : (l.forM fun a => (call a).run).run t = .ok () t') : t'.Learnable root := by
  induction l generalizing t with
  | nil => cases hr; exact h
  | cons a l ih =>
    obtain ⟨s, ha, hl⟩ := Step.exists_run_of_forM_cons hr
    exact ih (h.of_run (hfair a List.mem_cons_self t) ha).1
      (fun b hb => hfair b (List.mem_cons_of_mem a hb)) hl

/-! ## Single calls -/

/-- The calls by which an example is learned.  Its values are written one after another. -/
def lesson (root : Node) (order : List Node) (x : Example E) : List (Call K E) :=
  x.map (fun w => .setValue w.1 w.2) ++
    [.reset order, .reverseAlong root order, .collect order]

theorem forM_lesson (root : Node) (order : List Node) (x : Example E) :
    (lesson root order x).forM Call.run = (learn root order x : Step (Graph K E) Unit) := by
  simp only [lesson, List.forM_eq_forM, List.forM_append, List.forM_map, List.forM_cons,
    List.forM_nil, learn, pass, feed, bind_assoc, bind_pure_unit]
  rfl

theorem forM_lessons (root : Node) (order : List Node) (xs : List (Example E)) :
    (xs.flatMap (lesson root order)).forM Call.run =
      (xs.forM (learn root order) : Step (Graph K E) Unit) := by
  induction xs with
  | nil => rfl
  | cons x xs ih =>
    have hlesson := forM_lesson (K := K) root order x
    rw [List.forM_eq_forM] at hlesson ih
    rw [List.flatMap_cons, List.forM_eq_forM, List.forM_append, hlesson, ih]
    rfl

namespace Studied

/-- What happens elsewhere does not matter. -/
theorem of_frame (h : Studied g root inputs t root' f xs) (hdag : t'.dag = t.dag)
    (hnoise : t'.noise = t.noise) (hl : t'.Learnable root')
    (hcell : ∀ n, t.dag.Below root' n → t'.cell n = t.cell n) :
    Studied g root inputs t' root' f xs := by
  have hc : ∀ n, g.dag.Below root n → t'.cell (f n) = t.cell (f n) := fun n hn =>
    hcell (f n) (h.renamed.below hn)
  refine ⟨hdag ▸ h.renamed, hl, hnoise ▸ h.nonneg, ?_, ?_, ?_⟩
  · intro n hn hp
    rw [Graph.value, hc n hn]
    exact h.shape n hn hp
  · intro n hn hp hi
    rw [Graph.value, hc n hn]
    exact h.value n hn hp hi
  · intro n hn hp
    rw [hc n hn]
    exact h.sum n hn hp

/-- Under other names an example is written to the same vertices. -/
theorem written (h : Studied g root inputs t root' f xs) (hx : g.Feeds root inputs x)
    (hb : g.dag.Below root n) (v : Matrix E) :
    (x.rename f).written (f n) v = x.written n v := by
  refine Example.written_rename (fun w hw hf => ?_) v
  have hmem : w.1 ∈ inputs := hx.names ▸ List.mem_map_of_mem hw
  exact h.renamed.injective (hx.below w.1 hmem) hb hf

/-- It is written to no other place. -/
theorem written_of_not_below (h : Studied g root inputs t root' f xs)
    (hx : g.Feeds root inputs x) (hb : ¬ t.dag.Below root' n) (v : Matrix E) :
    (x.rename f).written n v = v := by
  refine Example.written_of_not_mem (fun w hw hwn => hb ?_) v
  obtain ⟨u, hu, rfl⟩ := List.mem_map.1 hw
  rw [← hwn]
  exact h.renamed.below (hx.below u.1 (hx.names ▸ List.mem_map_of_mem hu))

theorem fits (h : Studied g root inputs t root' f xs) (hx : g.Feeds root inputs x) :
    (x.rename f).Fits t := by
  intro w hw
  obtain ⟨u, hu, rfl⟩ := List.mem_map.1 hw
  obtain ⟨hp, hs⟩ := hx.fits u hu
  have hb : g.dag.Below root u.1 := hx.below u.1 (hx.names ▸ List.mem_map_of_mem hu)
  exact ⟨(isParameter_of_renamed h.renamed hb).trans hp, hs.trans (h.shape u.1 hb hp).symm⟩

/-- Once the example is written, the parameters are the same. -/
theorem written_eq (h : Studied g root inputs t root' f xs) (hx : g.Feeds root inputs x)
    (hb : g.dag.Below root n) (hp : g.isParameter n = true) :
    (x.rename f).written (f n) (t.value (f n)) = x.written n (g.value n) := by
  rw [h.written hx hb]
  by_cases hi : n ∈ inputs
  · exact Example.written_of_mem (hx.names.symm ▸ hi) _ _
  · rw [h.value n hb hp hi]

/-- The gradient of an example is the one that it has in `g`. -/
theorem gradFor_eq (h : Studied g root inputs t root' f xs) (hg : g.Replayable root)
    (hx : g.Feeds root inputs x) (hb : g.dag.Below root n) :
    t.gradFor root' (f n) (x.rename f) = g.gradFor root n x :=
  hg.toLearnable.grad_of_renamed h.learnable hx.fits (h.fits hx) h.renamed hg.keeps hg.nonneg
    h.nonneg (fun _ hm hp => h.written_eq hx hm hp) hb

/-- **One more example is learned**, and its gradient is added to the sums. -/
theorem run_learn (h : Studied g root inputs t root' f xs) (hg : g.Replayable root)
    (hx : g.Feeds root inputs x) :
    ∃ t', (learn root' (t.order root') (x.rename f)).run t = .ok () t' ∧
      Studied g root inputs t' root' f (xs ++ [x]) ∧ Edits (inputs.map f) t t' ∧
      t'.dag = t.dag ∧ t'.noise = t.noise ∧
      ∀ n, ¬ t.dag.Below root' n → t'.cell n = t.cell n := by
  obtain ⟨p, t', hr, hr', hlearned, hl⟩ := h.learnable.run_learn (h.fits hx)
  have hgrad : ∀ n, g.dag.Below root n → p.grad (f n) = g.gradFor root n x := by
    intro n hb
    rw [← h.gradFor_eq hg hx hb, gradFor, Step.final_of_run_ok hr]
  have hlt : ∀ n, g.dag.Below root n → f n < t.size := fun n hb =>
    (h.renamed.below hb).le.trans_lt h.learnable.lt
  have hparameter : ∀ n, g.dag.Below root n → g.isParameter n = true →
      t.isParameter (f n) = true := fun n hb hp => (isParameter_of_renamed h.renamed hb).trans hp
  have hfirst : (x.rename f).map Prod.fst = inputs.map f := by
    rw [← hx.names, Example.rename, List.map_map, List.map_map]
    rfl
  refine ⟨t', hr', ⟨?_, hl, ?_, ?_, ?_, ?_⟩, ?_, hlearned.dag, hlearned.noise, ?_⟩
  · rw [hlearned.dag]
    exact h.renamed
  · rw [hlearned.noise]
    exact h.nonneg
  · intro n hb hp
    rw [hlearned.shape_parameter (h.fits hx) (hparameter n hb hp)]
    exact h.shape n hb hp
  · intro n hb hp hi
    rw [hlearned.value_parameter (hlt n hb) (hparameter n hb hp), h.written_eq hx hb hp]
    refine Example.written_of_not_mem (fun w hw hwn => hi ?_) _
    rw [← hwn, ← hx.names]
    exact List.mem_map_of_mem hw
  · intro n hb hp
    obtain ⟨sum, hadd, hcell⟩ :=
      hlearned.cell_parameter h.learnable.lt (h.renamed.below hb) (hparameter n hb hp)
    rw [hgrad n hb] at hadd
    rw [hcell]
    exact Matrix.foldlM_add_concat (h.sum n hb hp) hadd
  · rw [← hfirst]
    exact (leads_learn root' (t.order root') (x.rename f) t).moves hr'
  · intro n hb
    by_cases hn : t.size ≤ n
    · rw [cell_of_size_le t hn, cell_of_size_le t' ((size_of_dag hlearned.dag).trans_le hn)]
    rw [hlearned.cell_of_not_below h.learnable.lt (not_le.1 hn) hb, h.written_of_not_below hx hb]
    rfl

/-- **Examples are learned** one after another. -/
theorem run_examples {ys : List (Example E)} (h : Studied g root inputs t root' f xs)
    (hg : g.Replayable root) (hys : ∀ y ∈ ys, g.Feeds root inputs y) :
    ∃ t', ((ys.map (Example.rename f)).forM (learn root' (t.order root'))).run t = .ok () t' ∧
      Studied g root inputs t' root' f (xs ++ ys) := by
  induction ys generalizing t xs with
  | nil => exact ⟨t, rfl, by rwa [List.append_nil]⟩
  | cons y ys ih =>
    obtain ⟨t₁, hr, h₁, -, hdag, -⟩ := h.run_learn hg (hys y List.mem_cons_self)
    obtain ⟨t', hr', h'⟩ := ih h₁ fun z hz => hys z (List.mem_cons_of_mem _ hz)
    rw [order_of_dag hdag] at hr'
    rw [List.append_assoc, List.singleton_append] at h'
    exact ⟨t', Step.run_forM_cons_ok hr hr', h'⟩

end Studied

/-- Nothing was learned yet. -/
theorem studied_nil (hr : g.dag.Renamed t.dag root root' f) (hl : t.Learnable root')
    (hn : t.noise.Nonneg)
    (hvalue : ∀ n, g.dag.Below root n → g.isParameter n = true → t.value (f n) = g.value n)
    (hsum : ∀ n, g.dag.Below root n → g.isParameter n = true →
      (t.cell (f n)).batchSum = .zeros (g.value n).rows (g.value n).cols) :
    Studied g root inputs t root' f [] where
  renamed := hr
  learnable := hl
  nonneg := hn
  shape n hb hp := congrArg Matrix.shape (hvalue n hb hp)
  value n hb hp _ := hvalue n hb hp
  sum n hb hp := congrArg Except.ok (hsum n hb hp).symm

/-- The graph after a batch was ended for the vertices of an order. -/
structure Ended (t t' : Graph K E) (order : List Node) : Prop where
  beside : t.Beside t'
  cell : ∀ n, t'.cell n = if n ∈ order ∧ n < t.size then (t.cell n).endBatch else t.cell n

omit [Scalar K] [Laned K E] in
theorem run_endBatch (order : List Node) (h : order.Nodup) (t : Graph K E) :
    ∃ t', (endBatch order : Step (Graph K E) Unit).run t = .ok () t' ∧ Ended t t' order :=
  ⟨_, rfl, beside_foldl_update order _ t, cell_foldl_update h _ t⟩

namespace Ended

variable {order : List Node}

omit [Scalar K] [Laned K E] in
theorem value (h : Ended t t' order) (n : Node) : t'.value n = t.value n := by
  rw [Graph.value, h.cell n]
  split <;> rfl

omit [Scalar K] [Laned K E] in
/-- A new sum starts from zero. -/
theorem sum (h : Ended t t' order) (hn : n ∈ order) (hlt : n < t.size) {s : Shape}
    (hfull : (t.cell n).Full s) : (t'.cell n).batchSum = .zeros s.1 s.2 := by
  obtain ⟨hrows, hcols⟩ := Prod.mk.inj hfull.grad
  rw [h.cell n, if_pos ⟨hn, hlt⟩, ← hrows, ← hcols]
  exact Matrix.fill_zero_eq_zeros _

omit [Laned K E] in
/-- Below a root the sums of parameters start from zero. -/
theorem sum_parameter (h : Ended t t' (t.order root)) (hl : t.Learnable root)
    (hb : t.dag.Below root n) (hp : t.isParameter n = true) :
    (t'.cell n).batchSum = .zeros (t.value n).rows (t.value n).cols := by
  have hlt : n < t.size := hb.le.trans_lt hl.lt
  exact h.sum ((mem_order hl.lt).2 hb) hlt (hl.full hlt hp)

end Ended

/-- **A place with the parameters of a graph begins a batch.** -/
theorem run_begin (inputs : List Node) (hr : g.dag.Renamed t.dag root root' f)
    (hl : t.Learnable root') (hn : t.noise.Nonneg)
    (hvalue : ∀ n, g.dag.Below root n → g.isParameter n = true → t.value (f n) = g.value n) :
    ∃ t', (endBatch (t.order root')).run t = .ok () t' ∧
      t'.order root' = t.order root' ∧ Studied g root inputs t' root' f [] := by
  obtain ⟨t', hrun, hended⟩ := run_endBatch (t.order root') (Dag.nodup_traverse root') t
  obtain ⟨hl', -⟩ := hl.of_run (c := .endBatch (t.order root')) trivial hrun
  refine ⟨t', hrun, order_of_dag hended.beside.dag root', studied_nil ?_ hl' ?_ ?_ ?_⟩
  · rw [hended.beside.dag]
    exact hr
  · rw [hended.beside.noise]
    exact hn
  · intro n hb hp
    rw [hended.value]
    exact hvalue n hb hp
  · intro n hb hp
    rw [hended.sum_parameter hl (hr.below hb) ((isParameter_of_renamed hr hb).trans hp),
      hvalue n hb hp]

end

end

end Graph

end DiffGraph
