/-
  Reading numbers off a graph.

  * `Turns.kept`: what has a value keeps it while no vertex is written to;
  * `Graph.Yields`: a computation that succeeds, and forgets and overwrites nothing.
    Its rules follow the ways in which computations are composed: `Yields.bind`, and
    `Yields.mapM` and `Yields.foldlM` for what is done with one vertex after another;
  * `Graph.Readable`: a vertex that is a number and can be evaluated
    (`Readable.yields_scalarOf`);
  * `Block.yields_values`: the values of a block are the numbers that its cells hold in the
    graph that is left.
-/
import DiffGraph.Proofs.Confinement
import DiffGraph.Proofs.Outcomes

namespace DiffGraph

open Relation

variable {K E α β γ δ : Type}

/-! ## Matrices that are related -/

namespace Matrix

/-- Matrices of one shape that are related place by place. -/
structure Related (R : α → β → Prop) (a : Matrix α) (b : Matrix β) : Prop where
  shape : a.shape = b.shape
  data : List.Forall₂ R a.data.toList b.data.toList

variable {R : α → β → Prop} {a : Matrix α} {b : Matrix β}

theorem Related.imp {R' : α → β → Prop} (h : Related R a b)
    (hR : ∀ x ∈ a.data.toList, ∀ y ∈ b.data.toList, R x y → R' x y) : Related R' a b := by
  refine ⟨h.shape, List.forall₂_iff_zip.2 ⟨h.data.length_eq, fun {x y} hxy => ?_⟩⟩
  obtain ⟨hx, hy⟩ := List.of_mem_zip hxy
  exact hR x hx y hy ((List.forall₂_iff_zip.1 h.data).2 hxy)

theorem related_self {P : α → Prop} (h : ∀ x ∈ a.data.toList, P x) :
    Related (fun x y => y = x ∧ P x) a a :=
  ⟨rfl, List.forall₂_same.2 fun x hx => ⟨rfl, h x hx⟩⟩

/-- Functions that agree on what is related have one image. -/
theorem Related.map_eq {f : α → γ} {f' : β → γ} (h : Related (fun x y => f x = f' y) a b) :
    a.map f = b.map f' := by
  refine eq_of_data h.shape ?_
  rw [map, map, Array.toList_map, Array.toList_map, ← List.forall₂_eq_eq_eq,
    List.forall₂_map_left_iff, List.forall₂_map_right_iff]
  exact h.data

/-- A matrix that is related to another by a function is its image. -/
theorem Related.eq_map {f : α → β} (h : Related (fun x y => y = f x) a b) : b = a.map f := by
  have hmap : a.map f = b.map id := (h.imp fun _ _ _ _ hxy => hxy.symm).map_eq
  rw [hmap]
  simp [map]

theorem map_congr {f f' : α → β} (h : ∀ x ∈ a.data.toList, f x = f' x) : a.map f = a.map f' :=
  Related.map_eq ⟨rfl, List.forall₂_same.2 h⟩

theorem Related.exists_right (h : Related R a b) : ∀ x ∈ a.data.toList, ∃ y, R x y := by
  have hdata := h.data
  generalize a.data.toList = xs at hdata
  generalize b.data.toList = ys at hdata
  induction hdata with
  | nil => simp
  | cons hxy _ ih => exact List.forall_mem_cons.2 ⟨⟨_, hxy⟩, ih⟩

theorem Related.exists_left (h : Related R a b) :
    ∀ y ∈ b.data.toList, ∃ x, x ∈ a.data.toList ∧ R x y := by
  have hmem : Related (fun x y => x ∈ a.data.toList ∧ R x y) a b :=
    h.imp fun x hx _ _ hxy => ⟨hx, hxy⟩
  have hflip : Related (fun y x => x ∈ a.data.toList ∧ R x y) b a :=
    ⟨h.shape.symm, hmem.data.flip⟩
  exact fun y hy => hflip.exists_right y hy

/-- Matrices are related if their entries are. -/
theorem related_ofFn_iff [Zero β] {rows cols : Nat} {f : Nat → Nat → α} :
    Related R (ofFn rows cols f) b ↔
      b.shape = (rows, cols) ∧ ∀ r < rows, ∀ c < cols, R (f r c) (b.entry r c) := by
  constructor
  · intro h
    obtain ⟨rfl, rfl⟩ := Prod.mk.inj h.shape
    refine ⟨rfl, fun r hr c hc => ?_⟩
    have hpos : 0 < b.cols := Nat.zero_lt_of_lt hc
    have hlt : r * b.cols + c < b.data.size := (position_lt hr hc).trans_eq b.size_data.symm
    have hdiv : (r * b.cols + c) / b.cols = r := by
      rw [Nat.mul_comm, Nat.mul_add_div hpos, Nat.div_eq_of_lt hc, Nat.add_zero]
    have hmod : (r * b.cols + c) % b.cols = c := by
      rw [Nat.mul_comm, Nat.mul_add_mod, Nat.mod_eq_of_lt hc]
    have hget := (List.forall₂_iff_get.1 h.data).2 (r * b.cols + c)
      (by simpa [ofFn] using position_lt hr hc) (by simpa using hlt)
    simpa [ofFn, hdiv, hmod, entry, Array.getD, hlt] using hget
  · rintro ⟨hshape, h⟩
    obtain ⟨rfl, rfl⟩ := Prod.mk.inj hshape
    refine ⟨rfl, List.forall₂_iff_get.2 ⟨by simp [ofFn, b.size_data], fun k hk hk' => ?_⟩⟩
    have hlt : k < b.rows * b.cols := by simpa [ofFn] using hk
    have hpos : 0 < b.cols := Nat.pos_of_ne_zero fun h0 => by simp [h0] at hlt
    have hentry := h _ ((Nat.div_lt_iff_lt_mul hpos).2 hlt) _ (Nat.mod_lt k hpos)
    rw [entry_div_mod b (by simpa using hk')] at hentry
    simpa [ofFn] using hentry

theorem related_iff [Zero α] [Zero β] :
    Related R a b ↔
      b.shape = a.shape ∧ ∀ r < a.rows, ∀ c < a.cols, R (a.entry r c) (b.entry r c) := by
  have hself : ofFn a.rows a.cols a.entry = a :=
    ext_entry rfl rfl fun r hr c hc => entry_ofFn hr hc
  conv_lhs => rw [← hself]
  exact related_ofFn_iff

end Matrix

namespace Graph

variable [Scalar K] [Arith E] [Laned K E] {g s s' : Graph K E} {n root : Node}

/-! ## Values that stay -/

/-- A turn that writes to no vertex keeps the values that are there. -/
theorem Turn.kept (h : Turn [] s s') (hn : n < s.size) (hv : s.hasValue n = true) :
    s'.hasValue n = true ∧ s'.value n = s.value n ∧ (s'.cell n).mask = (s.cell n).mask := by
  rcases h.cell_cases hn with hc | ⟨hm, -⟩ | ⟨hnot, -⟩
  · refine ⟨?_, hc.value, hc.mask⟩
    rwa [Graph.hasValue, hc.hasValue, isParameter, h.extends.op n hn]
  · cases hm
  · rw [hv] at hnot
    cases hnot

theorem Turns.kept (h : Turns [] s s') (hn : n < s.size) (hv : s.hasValue n = true) :
    s'.hasValue n = true ∧ s'.value n = s.value n := by
  induction h with
  | refl => exact ⟨hv, rfl⟩
  | tail hs ht ih =>
    obtain ⟨hv', heq, -⟩ := ht.kept (hn.trans_le (Turns.edits hs).extends.size) ih.1
    exact ⟨hv', heq.trans ih.2⟩

/-! ## Computations that succeed -/

/-- The computation succeeds.  It forgets no value, writes to no vertex, and answers what
`Q` says of the graph that it leaves. -/
def Yields (s : Graph K E) (x : Step (Graph K E) α) (Q : Graph K E → α → Prop) : Prop :=
  ∃ a s', x.run s = .ok a s' ∧ Turns [] s s' ∧ Q s' a

/-- What is true once stays true. -/
def Lasting (P : Graph K E → Prop) : Prop := ∀ s s', Turns [] s s' → P s → P s'

namespace Yields

variable {x : Step (Graph K E) α} {Q R : Graph K E → α → Prop}

theorem pure {a : α} (h : Q s a) : Yields s (pure a) Q := ⟨a, s, rfl, .refl, h⟩

theorem mono (h : Yields s x Q) (hQ : ∀ a s', Turns [] s s' → Q s' a → R s' a) : Yields s x R := by
  obtain ⟨a, s', hr, ht, ha⟩ := h
  exact ⟨a, s', hr, ht, hQ a s' ht ha⟩

theorem bind {f : α → Step (Graph K E) β} {R : Graph K E → β → Prop} (hx : Yields s x Q)
    (hf : ∀ a s', Turns [] s s' → Q s' a → Yields s' (f a) R) : Yields s (x >>= f) R := by
  obtain ⟨a, s₁, hr₁, ht₁, ha⟩ := hx
  obtain ⟨b, s₂, hr₂, ht₂, hb⟩ := hf a s₁ ht₁ ha
  refine ⟨b, s₂, ?_, ht₁.trans ht₂, hb⟩
  rw [EStateM.run_bind, hr₁]
  exact hr₂

section
variable {P : Graph K E → α → β → Prop} {as : List α} {bs : List β}

/-- **The same is done with one after another.** -/
theorem mapM {Q : Graph K E → α → γ → Prop} {f : β → Step (Graph K E) γ}
    (hP : ∀ a b, Lasting (P · a b)) (hQ : ∀ a c, Lasting (Q · a c))
    (hf : ∀ a b s', Turns [] s s' → P s' a b → Yields s' (f b) (Q · a))
    (h : List.Forall₂ (P s) as bs) :
    Yields s (bs.mapM f) fun s' cs => List.Forall₂ (Q s') as cs := by
  induction bs generalizing as s with
  | nil =>
    cases h
    exact .pure .nil
  | cons b bs ih =>
    cases h with
    | @cons a _ as _ hab hrest =>
      rw [List.mapM_cons]
      refine (hf a b s .refl hab).bind fun c s₁ ht₁ hc => ?_
      refine Yields.bind (ih (fun a b s' ht => hf a b s' (ht₁.trans ht))
        (hrest.imp fun a b => hP a b s s₁ ht₁)) fun cs s₂ ht₂ hcs => ?_
      exact .pure (.cons (hQ a c s₁ s₂ ht₂ hc) hcs)

/-- **One after another is added to a result.** -/
theorem foldlM {R : Graph K E → γ → δ → Prop} {f : δ → β → Step (Graph K E) δ} {t : γ → α → γ}
    (hP : ∀ a b, Lasting (P · a b))
    (hf : ∀ c d a b s', Turns [] s s' → R s' c d → P s' a b → Yields s' (f d b) (R · (t c a)))
    {c : γ} {d : δ} (hcd : R s c d) (h : List.Forall₂ (P s) as bs) :
    Yields s (bs.foldlM f d) (R · (as.foldl t c)) := by
  induction bs generalizing as s c d with
  | nil =>
    cases h
    exact .pure hcd
  | cons b bs ih =>
    cases h with
    | @cons a _ as _ hab hrest =>
      rw [List.foldlM_cons, List.foldl_cons]
      refine (hf c d a b s .refl hcd hab).bind fun d' s₁ ht₁ hd' => ?_
      exact ih (fun c d a b s' ht => hf c d a b s' (ht₁.trans ht)) hd'
        (hrest.imp fun a b => hP a b s s₁ ht₁)

/-- The same is done with all entries. -/
theorem mapM_matrix {Q : Graph K E → α → γ → Prop} {f : β → Step (Graph K E) γ}
    {a : Matrix α} {b : Matrix β} (hP : ∀ x y, Lasting (P · x y)) (hQ : ∀ x z, Lasting (Q · x z))
    (hf : ∀ x y s', Turns [] s s' → P s' x y → Yields s' (f y) (Q · x))
    (h : Matrix.Related (P s) a b) :
    Yields s (b.mapM f) fun s' c => Matrix.Related (Q s') a c := by
  obtain ⟨zs, s', hr, ht, hzs⟩ := mapM hP hQ hf h.data
  obtain ⟨c, hc, hshape, rfl⟩ := Matrix.run_mapM hr
  exact ⟨c, s', hc, ht, h.shape.trans hshape.symm, hzs⟩

end

end Yields

/-! ## Numbers that can be read -/

/-- The vertex is a number and can be evaluated. -/
structure Readable (g : Graph K E) (n : Node) : Prop where
  lt : n < g.size
  shapes : g.shapes n = (1, 1)
  evaluable : g.Evaluable n

omit [Arith E] [Laned K E] in
/-- A parameter that is a number can be read. -/
theorem readable_parameter (hp : g.isParameter n = true) (hs : (g.value n).isScalar = true) :
    g.Readable n where
  lt := lt_size_of_isScalar hs
  shapes := (shapes_parameter hp).trans (Matrix.isScalar_iff.1 hs)
  evaluable := (fits_parameter hp (hasValue_of_isParameter hp)).2

/-- No move changes what can be read. -/
theorem Readable.of_edits {targets : List Node} (h : g.Readable n) (he : Edits targets g s) :
    s.Readable n where
  lt := h.lt.trans_le he.extends.size
  shapes := (Edits.shapes he n h.lt).trans h.shapes
  evaluable := h.evaluable.of_edits he h.lt

/-- A parameter that is a number stays what it is if no vertex is written to. -/
theorem Readable.kept_parameter (h : g.Readable n) (hp : g.isParameter n = true)
    (ht : Turns [] g s) : (s.isParameter n = true ∧ s.Readable n) ∧ s.number n = g.number n := by
  refine ⟨⟨?_, h.of_edits ht.edits⟩, ?_⟩
  · rwa [isParameter, ht.edits.extends.op n h.lt]
  · rw [number, number, ht.edits.value_parameter h.lt hp (by simp)]

omit [Laned K E] in
/-- A value that is there is a number. -/
theorem Readable.value_eq (h : s.Readable n) (hf : s.Fits n) (hv : s.hasValue n = true) :
    s.value n = .scalar (s.number n) :=
  Matrix.eq_scalar_of_shape ((hf hv).1.trans h.shapes)

/-- The value of the vertex is there, and is a number. -/
structure Holds (s : Graph K E) (n : Node) (v : E) : Prop where
  lt : n < s.size
  hasValue : s.hasValue n = true
  value : s.value n = .scalar v

omit [Scalar K] [Laned K E] in
theorem Holds.number {v : E} (h : s.Holds n v) : s.number n = v := by
  rw [Graph.number, h.value, Matrix.entry_scalar]

/-- A number that is there stays. -/
theorem lasting_holds (n : Node) (v : E) : Lasting fun s : Graph K E => s.Holds n v := by
  intro s s' ht h
  obtain ⟨hv, hval⟩ := ht.kept h.lt h.hasValue
  exact ⟨h.lt.trans_le ht.edits.extends.size, hv, hval.trans h.value⟩

/-- **A number is read**, if the values below it fit. -/
theorem Readable.run_scalarOf (h : s.Readable n) (hf : ∀ m, s.dag.Below n m → s.Fits m) :
    ∃ s', (evaluate n).run s = .ok () s' ∧ (scalarOf n).run s = .ok (s'.number n) s' ∧
      s'.Holds n (s'.number n) := by
  obtain ⟨s', hr, hev, ht⟩ := h.evaluable.run_evaluate_of_fits h.lt hf
  have hs' : s'.Readable n := h.of_edits ht.edits
  have hv : s'.hasValue n = true := hev.hasValue (hasValue_or_mem_missing h.lt)
  have hval : s'.value n = .scalar (s'.number n) :=
    hs'.value_eq (ht.edits.fits h.lt hf n (.refl _ _)) hv
  refine ⟨s', hr, ?_, hs'.lt, hv, hval⟩
  rw [scalarOf, EStateM.run_bind, hr]
  simp only [EStateM.run_bind, EStateM.run_get]
  rw [hval]
  rfl

/-- What can be read has a number for its value. -/
theorem isScalar_of_scalarOf {v : E} (h : (scalarOf n).answer g = .ok v) :
    ∃ g', (evaluate n).run g = .ok () g' ∧ (g'.value n).isScalar = true := by
  unfold Step.answer scalarOf at h
  rw [EStateM.run_bind] at h
  cases he : (evaluate n).run g with
  | error e g' =>
    rw [he] at h
    cases h
  | ok _ g' =>
    refine ⟨g', rfl, ?_⟩
    by_contra hs
    simp only [he, EStateM.run_bind, EStateM.run_get, Matrix.toScalar, if_neg hs,
      Step.run_ofExcept_error] at h
    cases h

/-- **A vertex that was read can be read**, now and later. -/
theorem readable_of_answer (hg : Reachable g) {v : E} (h : (scalarOf n).answer g = .ok v) :
    g.Readable n := by
  obtain ⟨g', hr, hscalar⟩ := isScalar_of_scalarOf h
  obtain ⟨hev, ht⟩ := evaluated_of_run_ok hr
  have hn : n < g.size := by
    have hlt := lt_size_of_isScalar hscalar
    rwa [size_of_dag hev.dag] at hlt
  have hg' : Reachable g' := Step.final_of_run_ok hr ▸ hg.call (.evaluate n)
  obtain ⟨hshape, hevaluable⟩ :=
    fits_of_reachable hg' n (hev.hasValue (hasValue_or_mem_missing hn))
  refine ⟨hn, ?_, hevaluable.of_later ht.edits hn⟩
  rw [← Edits.shapes ht.edits n hn, ← hshape, Matrix.isScalar_iff.1 hscalar]

theorem Readable.yields_scalarOf (h : s.Readable n) (hf : ∀ m, s.Fits m) :
    Yields s (scalarOf n) fun s' v => s'.Holds n v := by
  obtain ⟨s', he, hr, hs'⟩ := h.run_scalarOf fun m _ => hf m
  exact ⟨_, s', hr, (evaluated_of_run_ok he).2, hs'⟩

end Graph

namespace Block

open DiffGraph.Graph

variable [Scalar K] [Arith E] [Laned K E] {s s' : Graph K E} {b : Block}

omit [Scalar K] [Laned K E] in
/-- All cells hold numbers. -/
def Read (b : Block) (s : Graph K E) : Prop := ∀ n ∈ b.nodes, s.Holds n (s.number n)

theorem Read.of_turns (h : b.Read s) (ht : Turns [] s s') : b.Read s' := fun n hn => by
  have hs' := lasting_holds n _ s s' ht (h n hn)
  rwa [hs'.number]

/-- The numbers that were read are there later. -/
theorem Read.map_number (h : b.Read s) (ht : Turns [] s s') :
    b.map s'.number = b.map s.number :=
  Matrix.map_congr fun n hn => (lasting_holds n _ s s' ht (h n hn)).number

/-- **The values of a block** are the numbers that its cells hold in the graph that is left. -/
theorem yields_values (h : ∀ n ∈ b.nodes, s.Readable n) (hf : ∀ n, s.Fits n) :
    Yields s b.values fun s' v => b.Read s' ∧ v = b.map s'.number := by
  have hread : ∀ n m (s' : Graph K E), Turns [] s s' → m = n ∧ s'.Readable n →
      Yields s' (scalarOf m) (·.Holds n ·) := by
    rintro n _ s' ht ⟨rfl, hn⟩
    exact hn.yields_scalarOf (Edits.fits_all ht.edits hf)
  have hself : Matrix.Related (fun n m => m = n ∧ s.Readable n) b b := Matrix.related_self h
  refine (Yields.mapM_matrix (fun n m s s' ht hn => ⟨hn.1, hn.2.of_edits ht.edits⟩)
    lasting_holds hread hself).mono fun v s' _ hv => ⟨?_, ?_⟩
  · intro n hn
    obtain ⟨w, hw⟩ := hv.exists_right n hn
    rwa [hw.number]
  · exact (hv.imp fun n _ w _ hw => hw.number.symm).eq_map

end Block

end DiffGraph
