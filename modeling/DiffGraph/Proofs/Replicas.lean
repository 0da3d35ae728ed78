/-
  Training with replicas.

  The examples of a batch are divided among replicas of a graph.  Each of them gets the
  parameters, learns its examples by itself, and in the end the sums of all are added up.

  * `Fleet`: replicas of a root, apart from it and from each other;
  * `Fleet.calls`: what each of them is told; `Fleet.run_calls`: that they have learned their
    examples in the end, however their calls are interleaved;
  * `Fleet.Pooled`: what the sums are while they are merged (`Fleet.run_merge`);
  * `Fleet.sums_of_merge`: in the end they are those of a single graph that learns all
    examples one after another.
-/
import DiffGraph.Proofs.Exact
import DiffGraph.Proofs.Locality
import DiffGraph.Proofs.Merging
import DiffGraph.Proofs.Study

namespace DiffGraph

variable {K E : Type}

namespace Graph

/-- Replicas of what is below a root: the same operations under other names, apart from it
and from each other, over parameters of the same shapes. -/
structure Fleet (g : Graph K E) (root : Node) (ι : Type) where
  replica : ι → Node
  name : ι → Node → Node
  lt : ∀ j, replica j < g.size
  renamed : ∀ j, g.dag.Renamed g.dag root (replica j) (name j)
  apart : ∀ i j n, g.dag.Below (replica i) n → g.dag.Below (replica j) n → i = j
  away : ∀ j n, g.dag.Below root n → ¬ g.dag.Below (replica j) n
  shape : ∀ j n, g.dag.Below root n → g.isParameter n = true →
    (g.value (name j n)).shape = (g.value n).shape

namespace Fleet

section
variable [Scalar K] [Arith E] [Laned K E] {ι : Type} {g : Graph K E} {root : Node}

/-- The calls of a replica: it begins a batch, gets the parameters, and learns examples. -/
def calls (F : g.Fleet root ι) (xs : List (Example E)) (j : ι) : List (Call K E) :=
  [.endBatch (g.order (F.replica j)), .copyParameters (g.order root) (g.order (F.replica j))] ++
    (xs.map (Example.rename (F.name j))).flatMap (lesson (F.replica j) (g.order (F.replica j)))

/-- The sums of replicas are added up. -/
def merge (F : g.Fleet root ι) (js : List ι) : Step (Graph K E) Unit := do
  endBatch (g.order root)
  js.forM fun j => mergeGrads (g.order root) (g.order (F.replica j))

/-! ## Shapes of replicas -/

section
variable (F : g.Fleet root ι) {s s' t : Graph K E} {inputs : List Node} {j : ι} {n : Node}
  {xs : List (Example E)}

omit [Scalar K] [Arith E] [Laned K E] in
theorem order_eq (hroot : root < g.size) (j : ι) :
    g.order (F.replica j) = (g.order root).map (F.name j) :=
  order_of_renamed (F.renamed j) hroot (F.lt j)

omit [Scalar K] [Arith E] [Laned K E] in
theorem isomorphic (hroot : root < g.size) (j : ι) :
    g.Isomorphic (g.order root) (g.order (F.replica j)) := by
  refine ⟨F.name j, F.order_eq hroot j, fun n hn => ?_⟩
  rw [mem_order hroot] at hn
  exact ⟨(F.renamed j).op n hn, fun c hc => (mem_order hroot).2 (hn.operand hc), F.shape j n hn⟩

omit [Arith E] [Laned K E] in
/-- A replica can be learned if the root can. -/
theorem learnable (hg : g.Learnable root) (j : ι) : g.Learnable (F.replica j) :=
  ⟨F.lt j, hg.shaped, hg.evaluable.of_renamed (F.renamed j) (F.shape j)⟩

/-! ## Replicas at work -/

/-- What holds after the calls of all replicas: nothing below the root has changed, and every
replica has learned its examples. -/
structure Reached (inputs : List Node) (xs : ι → List (Example E)) (s : Graph K E) : Prop where
  edits : ∃ targets, Edits targets g s
  learnable : s.Learnable root
  dag : s.dag = g.dag
  cell : ∀ n, g.dag.Below root n → s.cell n = g.cell n
  studied : ∀ j, Studied g root inputs s (F.replica j) (F.name j) (xs j)

/-- A replica gets the parameters for a new batch. -/
theorem run_begin (hg : g.Learnable root) (hn : g.noise.Nonneg) (j : ι) :
    ∃ t, ([Call.endBatch (g.order (F.replica j)),
        .copyParameters (g.order root) (g.order (F.replica j))].forM Call.run).run g = .ok () t ∧
      t.dag = g.dag ∧ ∀ inputs, Studied g root inputs t (F.replica j) (F.name j) [] := by
  have hl := F.learnable hg j
  obtain ⟨t, hr, hended⟩ := run_endBatch (g.order (F.replica j))
    (Dag.nodup_traverse (F.replica j)) g
  obtain ⟨hlt, -⟩ := hl.of_run (c := .endBatch (g.order (F.replica j))) trivial hr
  have hdag : t.dag = g.dag := hended.beside.dag
  have hren : t.dag.Renamed t.dag root (F.replica j) (F.name j) := by
    rw [hdag]
    exact F.renamed j
  obtain ⟨t', hr', hcopied⟩ := run_copyParameters_of_renamed hren
    (hg.lt.trans_eq (size_of_dag hdag).symm) hlt.lt (by rw [hdag]; exact F.away j)
    (fun n hb hp => by
      rw [hdag] at hb
      rw [isParameter_of_dag hdag] at hp
      rw [hended.value, hended.value, F.shape j n hb hp])
  rw [order_of_dag hdag, order_of_dag hdag] at hr'
  obtain ⟨hlt', -⟩ := hlt.of_run
    (c := .copyParameters (g.order root) (g.order (F.replica j))) trivial hr'
  have hcell : ∀ n, g.dag.Below root n → g.isParameter n = true →
      t'.cell (F.name j n) = { t.cell (F.name j n) with value := g.value n } := by
    intro n hb hp
    rw [← hended.value n]
    exact hcopied.new n (hdag ▸ hb) ((isParameter_of_dag hdag n).trans hp)
  have hdag' : t'.dag = g.dag := hcopied.beside.dag.trans hdag
  refine ⟨t', ?_, hdag', fun inputs =>
    studied_nil ?_ hlt' ?_ (fun n hb hp => ?_) (fun n hb hp => ?_)⟩
  · have hcopy : (Call.run (.copyParameters (g.order root) (g.order (F.replica j)))).run t =
        .ok () t' := hr'
    exact Step.run_forM_cons_ok hr (Step.run_forM_cons_ok hcopy rfl)
  · rw [hdag']
    exact F.renamed j
  · rw [hcopied.beside.noise, hended.beside.noise]
    exact hn
  · rw [Graph.value, hcell n hb hp]
  · obtain ⟨hrows, hcols⟩ := Prod.mk.inj (F.shape j n hb hp)
    rw [hcell n hb hp, ← hrows, ← hcols]
    exact hended.sum_parameter hl ((F.renamed j).below hb)
      ((isParameter_of_renamed (F.renamed j) hb).trans hp)

variable {F}

/-- **A replica by itself** learns its examples. -/
theorem run_alone (hg : g.Replayable root) (hxs : ∀ x ∈ xs, g.Feeds root inputs x) (j : ι) :
    ∃ t, ((F.calls xs j).forM Call.run).run g = .ok () t ∧
      Studied g root inputs t (F.replica j) (F.name j) xs := by
  obtain ⟨s, hs, hdag, hbegun⟩ := F.run_begin hg.toLearnable hg.nonneg j
  obtain ⟨t, ht, hstudied⟩ := (hbegun inputs).run_examples hg hxs
  rw [order_of_dag hdag, ← forM_lessons] at ht
  exact ⟨t, (Step.run_forM_append hs).trans ht, hstudied⟩

omit [Arith E] [Laned K E] in
/-- The calls of a replica read the parameters below the root, and change the replica only. -/
theorem within_calls (hg : g.Replayable root) (hxs : ∀ x ∈ xs, g.Feeds root inputs x) (j : ι) :
    ∀ c ∈ F.calls xs j, c.Within g (g.dag.Below root) (g.dag.Below (F.replica j)) := by
  have horder : ∀ n ∈ g.order (F.replica j), g.dag.Below (F.replica j) n := fun n =>
    (mem_order (F.lt j)).1
  intro c hc
  rcases List.mem_append.1 hc with hc | hc
  · simp only [List.mem_cons, List.not_mem_nil, or_false] at hc
    rcases hc with rfl | rfl
    · exact horder
    · exact ⟨fun n => (mem_order hg.lt).1, horder⟩
  obtain ⟨y, hy, hc⟩ := List.mem_flatMap.1 hc
  obtain ⟨x, hx, rfl⟩ := List.mem_map.1 hy
  rcases List.mem_append.1 hc with hc | hc
  · obtain ⟨w, hw, rfl⟩ := List.mem_map.1 hc
    obtain ⟨u, hu, rfl⟩ := List.mem_map.1 hw
    have hfeeds := hxs x hx
    exact (F.renamed j).below (hfeeds.below u.1 (hfeeds.names ▸ List.mem_map_of_mem hu))
  · simp only [List.mem_cons, List.not_mem_nil, or_false] at hc
    rcases hc with rfl | rfl | rfl
    · exact horder
    · exact ⟨F.lt j, fun _ hb => hb, hg.keeps.of_renamed (F.renamed j), horder⟩
    · exact horder

variable [DecidableEq ι]

/-- **The replicas learn their examples**, however their calls are interleaved. -/
theorem run_calls (hg : g.Replayable root) {xs : ι → List (Example E)}
    (hxs : ∀ j, ∀ x ∈ xs j, g.Feeds root inputs x) {ts : List (ι × Call K E)}
    (hts : ∀ j, Call.ofParty ts j = F.calls (xs j) j) :
    ∃ s, (ts.forM fun t => t.2.run).run g = .ok () s ∧ F.Reached inputs xs s := by
  have hwithin : ∀ j, ∀ c ∈ Call.ofParty ts j,
      c.Within g (g.dag.Below root) (g.dag.Below (F.replica j)) := fun j => by
    rw [hts j]
    exact within_calls hg (hxs j) j
  obtain ⟨s, hr, htogether⟩ := Call.run_interleaved hg.nonneg F.away F.apart hwithin fun j => by
    obtain ⟨t, ht, -⟩ := run_alone (F := F) hg (hxs j) j
    exact ⟨t, (hts j).symm ▸ ht⟩
  have hfair : ∀ t ∈ ts, ∀ s, t.2.Fair s := fun t ht =>
    (hwithin t.1 t.2 (Call.mem_ofParty ht)).fair
  have hedits : (ts.forM fun t => t.2.run).Leads (Edit (ts.flatMap fun t => t.2.targets)) g :=
    .forM (fun t ht s => Edits.mono (fun _ hn => List.mem_flatMap.2 ⟨t, ht, hn⟩) (t.2.leads s)) g
  refine ⟨s, hr, ⟨_, hedits.moves hr⟩, hg.toLearnable.of_forM hfair hr, htogether.dag, ?_, ?_⟩
  · intro n hn
    exact htogether.old n fun j => F.away j n hn
  · intro j
    obtain ⟨t, ht, hpatched⟩ := htogether.alone j
    obtain ⟨t', ht', hstudied⟩ := run_alone (F := F) hg (hxs j) j
    obtain rfl : t = t' := by
      rw [hts j, ht'] at ht
      cases ht
      rfl
    refine hstudied.of_frame hpatched.dag'.symm hpatched.noise'.symm
      ((F.learnable hg.toLearnable j).of_forM hfair hr) fun n hn => hpatched.cell n ?_
    rw [hpatched.dag', htogether.dag] at hn
    exact hn

/-! ## Merging -/

/-- The sums of the replicas `js` in `s` were added up below the root. -/
structure Pooled (F : g.Fleet root ι) (s s' : Graph K E) (js : List ι) : Prop where
  edits : ∃ targets, Edits targets g s'
  learnable : s'.Learnable root
  dag : s'.dag = g.dag
  value : ∀ n, s'.value n = s.value n
  old : ∀ n, ¬ g.dag.Below root n → s'.cell n = s.cell n
  sum : ∀ n, g.dag.Below root n → g.isParameter n = true →
    (js.map fun j => (s.cell (F.name j n)).batchSum).foldlM Matrix.add
      (.zeros (g.value n).rows (g.value n).cols) = .ok (s'.cell n).batchSum

omit [DecidableEq ι] in
/-- **The sums of one more replica are merged.** -/
theorem Pooled.run_mergeGrads {js : List ι} (h : F.Pooled s s' js) (hg : g.Learnable root)
    (hf : Studied g root inputs s (F.replica j) (F.name j) xs) :
    ∃ t, (mergeGrads (g.order root) (g.order (F.replica j))).run s' = .ok () t ∧
      F.Pooled s t (js ++ [j]) := by
  obtain ⟨_, he⟩ := h.edits
  obtain ⟨ever, hs⟩ := h.learnable.shaped
  have hiso : s'.Isomorphic (g.order root) (g.order (F.replica j)) := by
    refine (F.isomorphic hg.lt j).of_edits he fun n hn => ?_
    rcases List.mem_append.1 hn with hn | hn
    · exact ((mem_order hg.lt).1 hn).le.trans_lt hg.lt
    · exact ((mem_order (F.lt j)).1 hn).le.trans_lt (F.lt j)
  have haway : ∀ n, g.dag.Below root n → ¬ g.dag.Below root (F.name j n) := fun n hn hb =>
    F.away j _ hb ((F.renamed j).below hn)
  have hren : s'.dag.Renamed s'.dag root (F.replica j) (F.name j) := by
    rw [h.dag]
    exact F.renamed j
  have hok : ∀ n, s'.dag.Below root n →
      ∃ c, (s'.cell n).gather (s'.cell (F.name j n)).batchSum = .ok c := by
    intro n hn
    have hshapes : s'.shapes (F.name j n) = s'.shapes n := by
      refine hiso.shapes (n, F.name j n) ?_
      rw [F.order_eq hg.lt j, ← List.map_prod_left_eq_zip]
      exact List.mem_map_of_mem ((mem_order hg.lt).2 (h.dag ▸ hn))
    exact Cell.exists_gather (hs.within n) (hshapes ▸ hs.within (F.name j n))
  obtain ⟨t, hr, hgathered⟩ := run_mergeGrads_of_renamed hren h.learnable.lt
    ((F.lt j).trans_eq (size_of_dag h.dag).symm) (by rw [h.dag]; exact F.away j) hok
  rw [order_of_dag h.dag, order_of_dag h.dag] at hr
  obtain ⟨hl, he'⟩ := h.learnable.of_run (c := .mergeGrads (g.order root) (g.order (F.replica j)))
    (fun _ => hiso) hr
  refine ⟨t, hr, ⟨_, he.append he'⟩, hl, hgathered.beside.dag.trans h.dag, ?_, ?_, ?_⟩
  · intro n
    rw [← h.value n]
    by_cases hn : s'.dag.Below root n
    · rw [Graph.value, Cell.eq_of_gather (hgathered.new n hn)]
      rfl
    · rw [Graph.value, hgathered.old n hn]
      rfl
  · intro n hn
    rw [hgathered.old n (h.dag ▸ hn), h.old n hn]
  · intro n hn hp
    have hsum := h.sum n hn hp
    have hadd := hgathered.new n (h.dag ▸ hn)
    rw [h.old _ (haway n hn)] at hadd
    have hshape : (s'.cell n).batchSum.shape = (s.cell (F.name j n)).batchSum.shape :=
      (Matrix.shape_foldlM_add hsum).trans (Matrix.shape_foldlM_add (hf.sum n hn hp)).symm
    exact Matrix.foldlM_add_concat hsum (Cell.add_of_gather hshape hadd)

omit [DecidableEq ι] in
/-- **All sums are merged.** -/
theorem run_merge {xs : ι → List (Example E)} (h : F.Reached inputs xs s) (hg : g.Learnable root)
    (js : List ι) : ∃ s', (F.merge js).run s = .ok () s' ∧ F.Pooled s s' js := by
  have hl := h.learnable
  obtain ⟨s₁, hr₁, hended⟩ := run_endBatch (s.order root) (Dag.nodup_traverse root) s
  obtain ⟨hl₁, he₁⟩ := hl.of_run (c := .endBatch (s.order root)) trivial hr₁
  have hstart : F.Pooled s s₁ [] := by
    obtain ⟨_, he⟩ := h.edits
    refine ⟨⟨_, he.append he₁⟩, hl₁, hended.beside.dag.trans h.dag, hended.value,
      fun n hn => ?_, fun n hb hp => ?_⟩
    · rw [hended.cell n, if_neg fun hm => hn (h.dag ▸ (mem_order hl.lt).1 hm.1)]
    · have hsum := hended.sum_parameter hl (h.dag ▸ hb) ((isParameter_of_dag h.dag n).trans hp)
      rw [Graph.value, h.cell n hb] at hsum
      exact congrArg Except.ok hsum.symm
  obtain ⟨s', hr, hpooled⟩ := Step.run_forM_ok (l := js)
    (f := fun j => mergeGrads (g.order root) (g.order (F.replica j)))
    (fun done s' => F.Pooled s s' done)
    (fun done j rest t _ ht => ht.run_mergeGrads hg (h.studied j)) hstart
  refine ⟨s', ?_, hpooled⟩
  rw [order_of_dag h.dag] at hr₁
  rw [merge, EStateM.run_bind, hr₁]
  exact hr

end

/-! ## The same sums -/

/-- A graph learns the examples of a batch, one after another. -/
def study (root : Node) (order : List Node) (xs : List (Example E)) : Step (Graph K E) Unit := do
  endBatch order
  xs.forM (learn root order)

/-- **The sums of replicas are those of a single graph.** -/
theorem sums_of_merge (hE : LawfulSum E) [DecidableEq ι] (hg : g.FairlyReached)
    (hroot : root < g.size)
    (hev : (evaluate root).answer ((reset (g.order root)).final g) = .ok ()) (hk : g.Keeps root)
    (hn : g.noise.Nonneg) (F : g.Fleet root ι)
    {h : Graph K E} {single : Node} {name : Node → Node} (hh : h.FairlyReached)
    (hsingle : single < h.size) (hn' : h.noise.Nonneg)
    (hr : g.dag.Renamed h.dag root single name)
    (hvalue : ∀ n, g.dag.Below root n → g.isParameter n = true → h.value (name n) = g.value n)
    {inputs : List Node} {xs : ι → List (Example E)}
    (hxs : ∀ j, ∀ x ∈ xs j, g.Feeds root inputs x) {ts : List (ι × Call K E)}
    (hts : ∀ j, Call.ofParty ts j = F.calls (xs j) j) {js : List ι} {all : List (Example E)}
    (hall : (js.flatMap xs).Perm all) :
    ∃ s s' h', (ts.forM fun t => t.2.run).run g = .ok () s ∧ (F.merge js).run s = .ok () s' ∧
      (study single (h.order single) (all.map (Example.rename name))).run h = .ok () h' ∧
      (∀ n, g.dag.Below root n → g.isParameter n = true →
        (s'.cell n).batchSum = (h'.cell (name n)).batchSum ∧ s'.value n = g.value n) ∧
      ∀ j n, g.dag.Below (F.replica j) n → s'.cell n = s.cell n := by
  have hl : g.Replayable root := ⟨hg.learnable hroot hev, hk, hn⟩
  obtain ⟨s, hs, hreached⟩ := run_calls (F := F) hl hxs hts
  obtain ⟨s', hs', hpooled⟩ := run_merge hreached hl.toLearnable js
  -- the single graph begins a batch and learns all examples
  have hlh : h.Learnable single := ⟨hsingle, hh.shaped,
    hl.evaluable.of_renamed hr fun n hb hp => congrArg Matrix.shape (hvalue n hb hp)⟩
  obtain ⟨h₁, hr₁, horder, hbegin⟩ := Graph.run_begin inputs hr hlh hn' hvalue
  have hfeeds : ∀ x ∈ all, g.Feeds root inputs x := by
    intro x hx
    obtain ⟨j, -, hxj⟩ := List.mem_flatMap.1 (hall.mem_iff.2 hx)
    exact hxs j x hxj
  obtain ⟨h', hr', hsingle'⟩ := hbegin.run_examples hl hfeeds
  refine ⟨s, s', h', hs, hs', ?_, fun n hb hp => ⟨?_, ?_⟩, fun j n hb => ?_⟩
  · rw [horder] at hr'
    rw [study, EStateM.run_bind, hr₁]
    exact hr'
  · have hsum := hsingle'.sum n hb hp
    rw [List.nil_append] at hsum
    refine Matrix.foldlM_add_parts hE
      (fun j _ => (hreached.studied j).sum n hb hp) (hpooled.sum n hb hp) hsum ?_
    rw [← List.map_flatMap]
    exact hall.map _
  · rw [hpooled.value n, Graph.value, hreached.cell n hb]
    rfl
  · exact hpooled.old n fun hb' => F.away j n hb' hb

end

/-- A weight times an input, three times: over `0` and `1`, and over the same in the other
order. -/
def threeProducts : Graph ℚ ℚ := Call.runs
  [.parameter (.scalar 2), .parameter (.scalar 0), .record (.mul 0 1),
    .parameter (.scalar 0), .parameter (.scalar 7), .record (.mul 4 3),
    .parameter (.scalar 1), .parameter (.scalar 8), .record (.mul 7 6)]
  (.empty 0 ⟨fun _ => 0, fun _ => 0⟩)

/-- What the vertices of the two replicas are called. -/
def productName (j : Bool) (n : Node) : Node :=
  if j then [4, 3, 5].getD n 0 else [7, 6, 8].getD n 0

theorem ops_threeProducts (n : Node) : threeProducts.dag.op n =
    #[.parameter, .parameter, .mul 0 1, .parameter, .parameter, .mul 4 3, .parameter, .parameter,
      .mul 7 6].getD n .parameter := by
  have hops : threeProducts.dag.ops = #[.parameter, .parameter, .mul 0 1, .parameter, .parameter,
      .mul 4 3, .parameter, .parameter, .mul 7 6] := rfl
  rw [Dag.op, hops]

theorem renamed_product (j : Bool) :
    threeProducts.dag.Renamed threeProducts.dag 2 (productName j 2) (productName j) := by
  have hinj : ∀ j, ∀ n ≤ 2, ∀ m ≤ 2, productName j n = productName j m → n = m := by decide
  refine ⟨rfl, fun n hn m hm => hinj j n (Dag.Below.le hn) m (Dag.Below.le hm), ?_⟩
  intro n hn
  have hle : n ≤ 2 := hn.le
  rw [ops_threeProducts, ops_threeProducts]
  interval_cases n <;> cases j <;> rfl

theorem evaluable_threeProducts : threeProducts.Evaluable 2 := by
  have hparameter : ∀ n < 2, threeProducts.isParameter n = true := by decide
  have hshape : ∀ n < 2, (threeProducts.value n).shape = (1, 1) := by decide
  intro n hn
  rcases Nat.lt_or_eq_of_le hn.le with hlt | rfl
  · exact evaluable_parameter (hparameter n hlt)
  · rw [show threeProducts.op 2 = .mul 0 1 from ops_threeProducts 2]
    refine ⟨trivial, ?_⟩
    show (threeProducts.shapes 0).2 = (threeProducts.shapes 1).1
    rw [shapes_parameter (hparameter 0 (by decide)), shapes_parameter (hparameter 1 (by decide)),
      hshape 0 (by decide), hshape 1 (by decide)]

theorem keeps_threeProducts : threeProducts.Keeps 2 := by
  intro n hn
  have hle : n ≤ 2 := hn.le
  rw [show threeProducts.op n = _ from ops_threeProducts n]
  interval_cases n <;> trivial

/-- Two of the products are replicas of the first one. -/
def productFleet : threeProducts.Fleet 2 Bool where
  replica j := productName j 2
  name := productName
  lt := by decide
  renamed := renamed_product
  apart := by
    have hnames : ∀ i j, ∀ n ≤ 2, ∀ m ≤ 2, productName i n = productName j m → i = j := by decide
    intro i j m hi hj
    obtain ⟨n, hn, rfl⟩ := (renamed_product i).exists_of_below hi
    obtain ⟨k, hk, h⟩ := (renamed_product j).exists_of_below hj
    exact hnames i j n hn.le k hk.le h.symm
  away := by
    have hnames : ∀ j, ∀ n ≤ 2, 2 < productName j n := by decide
    intro j m hm hj
    obtain ⟨n, hn, rfl⟩ := (renamed_product j).exists_of_below hj
    exact absurd hm.le (not_le.2 (hnames j n hn.le))
  shape := by
    have hshape : ∀ n < 9, threeProducts.isParameter n = true →
        (threeProducts.value n).shape = (1, 1) := by decide
    have hlt : ∀ j, ∀ n ≤ 2, productName j n < 9 := by decide
    intro j n hn hp
    have hp' := (isParameter_of_renamed (renamed_product j) hn).trans hp
    rw [hshape n (hn.le.trans_lt (by decide)) hp, hshape _ (hlt j n hn.le) hp']

/-- Three examples, two of them on one replica and one on the other, which is told something
between each two calls for the first one. -/
theorem sums_of_merge_product :
    let h : Graph ℚ ℚ := Call.runs
      [.parameter (.scalar 2), .parameter (.scalar 0), .record (.mul 0 1)]
      (.empty 0 ⟨fun _ => 0, fun _ => 0⟩)
    let x (k : ℚ) : Example ℚ := [(1, .scalar k)]
    let own := threeProducts.order 2
    let left := threeProducts.order 5
    let right := threeProducts.order 8
    let ts : List (Bool × Call ℚ ℚ) :=
      [(true, .endBatch left), (false, .endBatch right), (true, .copyParameters own left),
        (true, .setValue 3 (.scalar 3)), (false, .copyParameters own right), (true, .reset left),
        (false, .setValue 6 (.scalar 5)), (true, .reverseAlong 5 left), (false, .reset right),
        (true, .collect left), (false, .reverseAlong 8 right), (true, .setValue 3 (.scalar 4)),
        (true, .reset left), (false, .collect right), (true, .reverseAlong 5 left),
        (true, .collect left)]
    ∃ s s' h', (ts.forM fun t => t.2.run).run threeProducts = .ok () s ∧
      (productFleet.merge [false, true]).run s = .ok () s' ∧
      (study 2 (h.order 2) [x 3, x 4, x 5]).run h = .ok () h' ∧
      (s'.cell 0).batchSum = (h'.cell 0).batchSum := by
  intro h x own left right ts
  have hg : threeProducts.FairlyReached := by
    refine ⟨0, ⟨fun _ => 0, fun _ => 0⟩, _, ?_, rfl⟩
    exact ⟨trivial, trivial, trivial, trivial, trivial, trivial, trivial, trivial, trivial, trivial⟩
  have hh : h.FairlyReached := by
    refine ⟨0, ⟨fun _ => 0, fun _ => 0⟩, _, ?_, rfl⟩
    exact ⟨trivial, trivial, trivial, trivial⟩
  have hroot : 2 < threeProducts.size := by decide
  have hop : ∀ n, h.dag.op n = #[.parameter, .parameter, .mul 0 1].getD n .parameter := fun n => by
    have hops : h.dag.ops = #[.parameter, .parameter, .mul 0 1] := rfl
    rw [Dag.op, hops]
  have hrenamed : threeProducts.dag.Renamed h.dag 2 2 fun n => n := by
    refine ⟨rfl, fun n _ m _ hnm => hnm, fun n hn => ?_⟩
    have hle : n ≤ 2 := hn.le
    rw [hop, ops_threeProducts]
    interval_cases n <;> rfl
  have hvalue : ∀ n ≤ 2, threeProducts.isParameter n = true →
      h.value n = threeProducts.value n := by
    intro n hn hp
    interval_cases n
    · rfl
    · rfl
    · cases hp
  have hfeeds : ∀ k, threeProducts.Feeds 2 [1] (x k) := fun k =>
    { fits := List.forall_mem_singleton.2 ⟨rfl, rfl⟩
      names := rfl
      below := List.forall_mem_singleton.2 ((Dag.Below.refl _ _).operand (by decide)) }
  obtain ⟨ever, hs⟩ := hg.shaped
  let xs (j : Bool) : List (Example ℚ) := if j then [x 3, x 4] else [x 5]
  have hfed : ∀ j, ∀ y ∈ xs j, threeProducts.Feeds 2 [1] y := by
    intro j y hy
    cases j <;> simp [xs] at hy <;> rcases hy with rfl | rfl <;> exact hfeeds _
  have hcalls : ∀ j, Call.ofParty ts j = productFleet.calls (xs j) j := by
    intro j
    cases j <;> rfl
  have hall : ([false, true].flatMap xs).Perm [x 3, x 4, x 5] := by
    have hparts : ([x 5] ++ [x 3, x 4]).Perm ([x 3, x 4] ++ [x 5]) := List.perm_append_comm
    exact hparts
  obtain ⟨s, s', h', hr, hr', hr'', hsums, -⟩ := sums_of_merge lawfulSum_rat hg hroot
    ((hs.evaluable_iff hroot).1 evaluable_threeProducts) keeps_threeProducts (fun _ _ h => h)
    productFleet hh (by decide) (fun _ _ h => h) hrenamed (fun n hn => hvalue n hn.le) hfed hcalls
    hall
  refine ⟨s, s', h', hr, hr', hr'', (hsums 0 ?_ rfl).1⟩
  exact (Dag.Below.refl _ _).operand (by decide)

/-- Samples that drop the first entry and no other. -/
def dropFirst (i : Nat) : ℚ := if i = 0 then 0 else 3 / 4

/-- A weight of which entries are dropped, times an input, twice. -/
def twoDropouts : Graph ℚ ℚ := Call.runs
  [.parameter (.scalar 1), .record (.dropout (1 / 2) 0), .parameter (.scalar 0),
    .record (.mul 1 2),
    .parameter (.scalar 5), .record (.dropout (1 / 2) 4), .parameter (.scalar 0),
    .record (.mul 5 6)]
  (.empty 0 ⟨dropFirst, fun _ => 0⟩)

/-- The same once more, with the samples that come then. -/
def laterDropout : Graph ℚ ℚ := Call.runs
  [.parameter (.scalar 1), .record (.dropout (1 / 2) 0), .parameter (.scalar 0), .record (.mul 1 2)]
  (.empty 0 ⟨fun i => dropFirst (i + 1), fun _ => 0⟩)

theorem ops_twoDropouts (n : Node) : twoDropouts.dag.op n =
    #[.parameter, .dropout (1 / 2) 0, .parameter, .mul 1 2,
      .parameter, .dropout (1 / 2) 4, .parameter, .mul 5 6].getD n .parameter := by
  have hops : twoDropouts.dag.ops = #[.parameter, .dropout (1 / 2) 0, .parameter, .mul 1 2,
      .parameter, .dropout (1 / 2) 4, .parameter, .mul 5 6] := rfl
  rw [Dag.op, hops]

theorem renamed_dropout : twoDropouts.dag.Renamed twoDropouts.dag 3 7 (· + 4) := by
  refine ⟨rfl, fun n _ m _ h => Nat.add_right_cancel h, fun n hn => ?_⟩
  have hle : n ≤ 3 := hn.le
  rw [ops_twoDropouts, ops_twoDropouts]
  interval_cases n <;> rfl

/-- The second product is a replica of the first one. -/
def dropoutFleet : twoDropouts.Fleet 3 Unit where
  replica _ := 7
  name _ := (· + 4)
  lt := by decide
  renamed _ := renamed_dropout
  apart _ _ _ _ _ := rfl
  away _ m hm hj := by
    obtain ⟨n, -, rfl⟩ := renamed_dropout.exists_of_below hj
    exact absurd (Nat.le_trans (Nat.le_add_left 4 n) hm.le) (by decide)
  shape _ n hn _ := by
    have hshape : ∀ n ≤ 3, (twoDropouts.value (n + 4)).shape = (twoDropouts.value n).shape := by
      decide
    exact hshape n hn.le

theorem order_dropouts : twoDropouts.order 3 = [0, 1, 2, 3] ∧ twoDropouts.order 7 = [4, 5, 6, 7] ∧
    laterDropout.order 3 = [0, 1, 2, 3] := by
  have hsize : twoDropouts.dag.size = 8 ∧ laterDropout.dag.size = 4 := by decide +kernel
  have hops : twoDropouts.dag.operands 0 = [] ∧ twoDropouts.dag.operands 1 = [0] ∧
      twoDropouts.dag.operands 2 = [] ∧ twoDropouts.dag.operands 3 = [1, 2] ∧
      twoDropouts.dag.operands 4 = [] ∧ twoDropouts.dag.operands 5 = [4] ∧
      twoDropouts.dag.operands 6 = [] ∧ twoDropouts.dag.operands 7 = [5, 6] := by decide +kernel
  have hops' : laterDropout.dag.operands 0 = [] ∧ laterDropout.dag.operands 1 = [0] ∧
      laterDropout.dag.operands 2 = [] ∧ laterDropout.dag.operands 3 = [1, 2] := by
    decide +kernel
  simp [order, Dag.traverse, Dag.visit, hsize, hops, hops']

/-- What is missing of a product over entries that are dropped. -/
theorem missing_dropout {t : Graph K E} {n : Node} (hlt : n + 3 < t.size)
    (hops : t.dag.operands (n + 1) = [n] ∧ t.dag.operands (n + 3) = [n + 1, n + 2])
    (hv : t.hasValue n = true ∧ t.hasValue (n + 1) = false ∧ t.hasValue (n + 2) = true ∧
      t.hasValue (n + 3) = false) : t.missing (n + 3) = [n + 1, n + 3] := by
  rw [missing, Dag.traverse_eq hlt]
  simp [Dag.search_of_descend, Dag.search_of_not, Dag.searchAll, hops, hv]

section
variable [Scalar K] [Arith E] [Laned K E]

/-- What is left of learning an example once it is written and `ns` are missing. -/
def finish (root : Node) (order ns : List Node) : Step (Graph K E) Unit := do
  ns.forM evaluateOne
  seed root
  order.reverse.forM propagate
  collect order

theorem run_learn_of_missing {root : Node} {order ns : List Node} {x : Example E}
    {t t₁ t₂ : Graph K E} (hf : (feed x).run t = .ok () t₁) (hr : (reset order).run t₁ = .ok () t₂)
    (h : t₂.missing root = ns) :
    (learn root order x).run t = (finish root order ns).run t₂ := by
  simp only [finish, learn, pass, reverseAlong, EStateM.run_bind, hf, hr, run_evaluate_of_missing h]
  cases (ns.forM evaluateOne : Step (Graph K E) PUnit).run t₂ <;> rfl

end

/-- The replica, having got the parameters. -/
def replicaBegun : Graph ℚ ℚ :=
  ([Call.endBatch [4, 5, 6, 7], .copyParameters [0, 1, 2, 3] [4, 5, 6, 7]].forM Call.run).final
    twoDropouts

/-- The replica, having got the example. -/
def replicaFed : Graph ℚ ℚ :=
  (reset [4, 5, 6, 7]).final ((feed [(6, .scalar 3)]).final replicaBegun)

/-- The replica, having learned that its weight does not matter. -/
def replicaDone : Graph ℚ ℚ := (finish 7 [4, 5, 6, 7] [5, 7]).final replicaFed

/-- The replica learns that its weight does not matter. -/
theorem run_replica :
    ((dropoutFleet.calls [[(2, .scalar 3)]] ()).forM Call.run).run twoDropouts =
      .ok () replicaDone := by
  obtain ⟨horder, horder', -⟩ := order_dropouts
  have hcalls : dropoutFleet.calls [[(2, .scalar 3)]] () =
      [.endBatch [4, 5, 6, 7], .copyParameters [0, 1, 2, 3] [4, 5, 6, 7]] ++
        [[(6, .scalar 3)]].flatMap (lesson 7 [4, 5, 6, 7]) := by
    rw [← horder, ← horder']
    rfl
  have hbegin : ([Call.endBatch [4, 5, 6, 7], .copyParameters [0, 1, 2, 3] [4, 5, 6, 7]].forM
      Call.run).run twoDropouts = .ok () replicaBegun :=
    Step.run_of_answer_ok (a := ()) (by decide +kernel)
  have hmissing : replicaFed.missing 7 = [5, 7] :=
    missing_dropout (by decide +kernel) (by decide +kernel) (by decide +kernel)
  have hlearn : (learn 7 [4, 5, 6, 7] [(6, .scalar 3)]).run replicaBegun = .ok () replicaDone := by
    rw [run_learn_of_missing (Step.run_of_answer_ok (a := ()) (by decide +kernel))
      (Step.run_of_answer_ok (a := ()) (by decide +kernel)) hmissing]
    exact Step.run_of_answer_ok (a := ()) (by decide +kernel)
  rw [hcalls, Step.run_forM_append hbegin, forM_lessons, Step.run_forM_cons hlearn]
  rfl

/-- The parameters, once the replica is merged. -/
def mainDone : Graph ℚ ℚ :=
  (do
    endBatch [0, 1, 2, 3]
    [()].forM fun _ => mergeGrads [0, 1, 2, 3] [4, 5, 6, 7] :
      Step (Graph ℚ ℚ) Unit).final replicaDone

theorem run_main : (dropoutFleet.merge [()]).run replicaDone = .ok () mainDone := by
  obtain ⟨horder, horder', -⟩ := order_dropouts
  show (do
    endBatch (twoDropouts.order 3)
    [()].forM fun _ => mergeGrads (twoDropouts.order 3) (twoDropouts.order 7) :
      Step (Graph ℚ ℚ) Unit).run replicaDone = _
  rw [horder, horder']
  exact Step.run_of_answer_ok (a := ()) (by decide +kernel)

/-- The single graph, having got the example. -/
def singleFed : Graph ℚ ℚ :=
  (reset [0, 1, 2, 3]).final ((feed [(2, .scalar 3)]).final ((endBatch [0, 1, 2, 3]).final
    laterDropout))

/-- The single graph, having learned how its weight matters. -/
def singleDone : Graph ℚ ℚ := (finish 3 [0, 1, 2, 3] [1, 3]).final singleFed

theorem run_single :
    (study 3 (laterDropout.order 3) [[(2, .scalar 3)]]).run laterDropout = .ok () singleDone := by
  obtain ⟨-, -, horder⟩ := order_dropouts
  have hmissing : singleFed.missing 3 = [1, 3] :=
    missing_dropout (by decide +kernel) (by decide +kernel) (by decide +kernel)
  have hbegin : (endBatch [0, 1, 2, 3]).run laterDropout =
      .ok () ((endBatch [0, 1, 2, 3]).final laterDropout) :=
    Step.run_of_answer_ok (by decide +kernel)
  have hlearn : (learn 3 [0, 1, 2, 3] [(2, .scalar 3)]).run
      ((endBatch [0, 1, 2, 3]).final laterDropout) = .ok () singleDone := by
    rw [run_learn_of_missing (Step.run_of_answer_ok (a := ()) (by decide +kernel))
      (Step.run_of_answer_ok (a := ()) (by decide +kernel)) hmissing]
    exact Step.run_of_answer_ok (a := ()) (by decide +kernel)
  rw [study, horder]
  simp only [List.forM_eq_forM, List.forM_cons, EStateM.run_bind, hbegin, hlearn]
  rfl

/-- Where entries are dropped, the sums can differ: the replica drops what the single graph
keeps. -/
theorem sums_of_merge_dropout :
    twoDropouts.FairlyReached ∧ twoDropouts.noise.Nonneg ∧ laterDropout.FairlyReached ∧
      laterDropout.noise.Nonneg ∧
      (evaluate 3).answer ((reset (twoDropouts.order 3)).final twoDropouts) = .ok () ∧
      twoDropouts.Feeds 3 [2] [(2, .scalar 3)] ∧
      twoDropouts.dag.Renamed laterDropout.dag 3 3 (fun n => n) ∧
      (∀ n ≤ 3, laterDropout.value n = twoDropouts.value n) ∧
      ∃ s s' h',
        ((dropoutFleet.calls [[(2, .scalar 3)]] ()).forM Call.run).run twoDropouts = .ok () s ∧
        (dropoutFleet.merge [()]).run s = .ok () s' ∧
        (study 3 (laterDropout.order 3) [[(2, .scalar 3)]]).run laterDropout = .ok () h' ∧
        (s'.cell 0).batchSum ≠ (h'.cell 0).batchSum := by
  obtain ⟨horder, -, -⟩ := order_dropouts
  have hnonneg : ∀ i rate, Scalar.lt (dropFirst i) rate = true → Scalar.lt 0 rate = true := by
    intro i rate hlt
    have hsample : 0 ≤ dropFirst i := by
      unfold dropFirst
      split <;> norm_num
    exact decide_eq_true (hsample.trans_lt (of_decide_eq_true hlt))
  have hmissing : ((reset [0, 1, 2, 3]).final twoDropouts).missing 3 = [1, 3] :=
    missing_dropout (by decide +kernel) (by decide +kernel) (by decide +kernel)
  refine ⟨?_, hnonneg, ?_, fun i => hnonneg (i + 1), ?_, ?_, ?_, fun n hn => ?_, ?_⟩
  · refine ⟨0, ⟨dropFirst, fun _ => 0⟩, _, ?_, rfl⟩
    exact ⟨trivial, trivial, trivial, trivial, trivial, trivial, trivial, trivial, trivial⟩
  · refine ⟨0, ⟨fun i => dropFirst (i + 1), fun _ => 0⟩, _, ?_, rfl⟩
    exact ⟨trivial, trivial, trivial, trivial, trivial⟩
  · rw [horder, Step.answer, run_evaluate_of_missing hmissing]
    decide +kernel
  · exact
      { fits := List.forall_mem_singleton.2 (by decide +kernel)
        names := rfl
        below := List.forall_mem_singleton.2 ((Dag.Below.refl _ _).operand (by decide +kernel)) }
  · refine ⟨rfl, fun n _ m _ h => h, fun n hn => ?_⟩
    have hle : n ≤ 3 := hn.le
    rw [ops_twoDropouts]
    interval_cases n <;> rfl
  · interval_cases n <;> rfl
  · refine ⟨_, _, _, run_replica, run_main, run_single, fun h => ?_⟩
    have h' := congrArg Matrix.toScalar h
    revert h'
    decide +kernel

end Fleet

end Graph

end DiffGraph
