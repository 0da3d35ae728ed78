/-
  Dropout and its mask.

  A dropout is evaluated with a mask that is drawn for this evaluation and stored beside the
  value.  The reverse pass reads the mask again, perhaps many calls later.

  * `Quiet`: nothing was evaluated.  A call either evaluates and writes to no vertex, or it is
    quiet (`Call.turns_or_quiet`);
  * `Dropped`: the value of a dropout is that of its operand times its mask;
  * `Call.exists_dropped`: which of the calls a dropout has its value from;
  * `Sized`: the shapes that a reverse pass relies on.  All moves keep them (`Edits.sized`);
  * `dropout_masked`: the value, the gradient and the refusals of a dropout.
-/
import DiffGraph.Proofs.Exponentials
import DiffGraph.Proofs.Extents
import DiffGraph.Proofs.Reading
import DiffGraph.Proofs.ReplicaShapes

namespace DiffGraph

open Relation

variable {K E : Type}

/-- The value and the mask are as before, and no value appeared. -/
structure Cell.Retained (c c' : Cell E) : Prop where
  value : c'.value = c.value
  mask : c'.mask = c.mask
  hasValue : c'.hasValue = true → c.hasValue = true

theorem Cell.Retained.refl (c : Cell E) : c.Retained c := ⟨rfl, rfl, fun h => h⟩

theorem Cell.Retained.trans {c c' c'' : Cell E} (h : c.Retained c') (h' : c'.Retained c'') :
    c.Retained c'' where
  value := h'.value.trans h.value
  mask := h'.mask.trans h.mask
  hasValue hv := h.hasValue (h'.hasValue hv)

namespace Graph

/-! ## Calls that evaluate nothing -/

/-- No operation was evaluated, and none was added. -/
structure Quiet (g g' : Graph K E) : Prop where
  dag : g'.dag = g.dag
  cell : ∀ n, g.isParameter n = false → (g.cell n).Retained (g'.cell n)

theorem Quiet.refl (g : Graph K E) : g.Quiet g := ⟨rfl, fun _ _ => .refl _⟩

theorem Quiet.trans {g g' g'' : Graph K E} (h : g.Quiet g') (h' : g'.Quiet g'') : g.Quiet g'' where
  dag := h'.dag.trans h.dag
  cell n hp := (h.cell n hp).trans (h'.cell n (by rwa [isParameter_of_dag h.dag]))

theorem quiet_of_moves {g g' : Graph K E} (h : ReflTransGen Quiet g g') : g.Quiet g' := by
  induction h with
  | refl => exact .refl _
  | tail _ hm ih => exact ih.trans hm

theorem Quiet.update {g : Graph K E} {n : Node} {f : Cell E → Cell E}
    (h : g.isParameter n = false → (g.cell n).Retained (f (g.cell n))) : g.Quiet (g.update n f) := by
  refine ⟨rfl, fun m hm => ?_⟩
  rw [cell_update]
  split
  · next hmn =>
    obtain ⟨rfl, -⟩ := hmn
    exact h hm
  · exact .refl _

section
variable [Scalar K] [Arith E] [Laned K E] {g : Graph K E} {n : Node}

omit [Scalar K] [Arith E] [Laned K E] in
theorem quiet_alter (operation : String) (n : Node) (f : Matrix E → Except Failure (Matrix E)) :
    (alter operation n f : Step (Graph K E) Unit).Leads Quiet g := by
  refine .get_bind ?_
  dsimp only
  split
  · exact .throw _ _
  · next hp =>
    refine .ofExcept_bind fun v _ => .set (.single (.update fun hnot => ?_))
    rw [hnot] at hp
    simp at hp

theorem quiet_setLane (n : Node) (r c lane : Nat) (k : K) :
    (setLane n r c lane k : Step (Graph K E) Unit).Leads Quiet g := by
  unfold setLane
  split
  · exact .throw _ _
  · exact quiet_alter _ _ _

omit [Arith E] in
theorem quiet_randomUniform (n : Node) (bound : K) :
    (randomUniform n bound : Step (Graph K E) Unit).Leads Quiet g :=
  .get_bind (.bind (quiet_alter _ _ _) fun _ _ _ =>
    .of_modify (.single ⟨rfl, fun _ _ => .refl _⟩))

omit [Scalar K] [Arith E] in
theorem quiet_randomNormal (b : Block) :
    (Block.randomNormal b : Step (Graph K E) Unit).Leads Quiet g := by
  refine .forM (fun n _ s => .get_bind (.bind ?_ fun _ _ _ =>
    .get_bind (.set (.single ⟨rfl, fun _ _ => .refl _⟩)))) g
  rw [assign]
  exact quiet_alter _ _ _

omit [Scalar K] [Arith E] [Laned K E] in
theorem quiet_copyParameters (order replica : List Node) :
    (copyParameters order replica : Step (Graph K E) Unit).Leads Quiet g := by
  refine .get_bind (.ofExcept_bind fun _ _ => .forM (fun p _ s => .get_bind ?_) g)
  split
  · exact quiet_alter _ _ _
  · exact .pure _ _

/-- Only parameters are moved by an optimizer. -/
theorem quiet_step {params : List Node} {config : Sgd.Config K} {o : Sgd K}
    (ho : Sgd.make g params config = .ok o) :
    (o.step : Step (Graph K E) (Sgd K)).Leads Quiet g := by
  obtain ⟨hparams, hp⟩ := params_of_make ho
  have hmove : ∀ n ∈ params, ∀ s : Graph K E, s.dag = g.dag →
      (Sgd.move o.config n : Step (Graph K E) Unit).Leads Quiet s := by
    intro n hn s hs
    refine .get_bind ?_
    dsimp only
    split
    · refine .ofExcept_bind fun v _ => .set (.single (.update fun hnot => ?_))
      rw [isParameter_of_dag hs, hp n hn] at hnot
      cases hnot
    · exact .pure _ _
  refine .bind ?_ fun _ _ _ => .pure _ _
  rw [hparams]
  exact .forM_of_kept (I := fun s => s.dag = g.dag) (fun _ _ hm hs => hm.dag.trans hs) hmove rfl

omit [Arith E] in
theorem quiet_unload {T : Type} [Arith T] [Laned K T] (j : Projection) (p : Program T)
    (out : Block) : (j.unload p out : Step (Graph K E) Unit).Leads Quiet g := by
  refine .ofExcept_bind fun _ _ => .forM (fun _ _ _ => .bind ?_ fun _ _ _ =>
    .of_modify (.single (.update fun _ => ⟨rfl, rfl, fun h => h⟩))) g
  rw [assign]
  exact quiet_alter _ _ _

omit [Scalar K] [Laned K E] in
theorem quiet_reset (order : List Node) : (reset order : Step (Graph K E) Unit).Leads Quiet g := by
  refine .of_modify (Step.Leads.foldl (fun n _ g => ?_) g)
  split
  · exact .single (.update fun _ => ⟨rfl, rfl, fun h => h⟩)
  · exact .single (.update fun _ => ⟨rfl, rfl, fun h => (by cases h)⟩)

omit [Scalar K] [Laned K E] in
theorem quiet_mergeGrads (order replica : List Node) :
    (mergeGrads order replica : Step (Graph K E) Unit).Leads Quiet g := by
  refine (leads_gathers order replica).mono ?_
  rintro s s' ⟨target, source, c, hc, rfl⟩
  have hcell := Cell.eq_of_gather hc
  exact .update fun _ => ⟨by rw [hcell], by rw [hcell], by rw [hcell]; exact fun h => h⟩

omit [Scalar K] [Laned K E] in
/-- The way back reads values and masks. -/
theorem quiet_sweep (root : Node) (ns : List Node) :
    (do seed root; ns.forM propagate : Step (Graph K E) Unit).Leads Quiet g :=
  .bind (.of_modify (.single (.update fun _ => ⟨rfl, rfl, fun h => h⟩))) fun _ _ _ =>
    .forM (fun _ _ s => .get_bind (.ofExcept_bind fun _ _ => .forM (fun _ _ _ =>
      .get_bind (.ofExcept_bind fun _ _ => .set (.single (.update fun _ =>
        ⟨rfl, rfl, fun h => h⟩)))) s)) _

end

/-! ## The value and its mask -/

section
variable [Scalar K] [Arith E] [Laned K E] {g s s' : Graph K E} {n l : Node} {rate : K}

/-- The value of the dropout `n` is that of `l` times a mask that was drawn for it. -/
structure Dropped (g : Graph K E) (n l : Node) (rate : K) : Prop where
  hasValue : g.hasValue n = true
  operand : g.hasValue l = true
  rateOk : Op.rateOk rate = true
  product : (g.value l).zipWith "dropout" (· * ·) (g.cell n).mask = .ok (g.value n)
  drawn : ∃ first, (g.cell n).mask =
    Op.drawMask rate (fun i => g.noise.uniform (first + i)) (g.value l).shape

omit [Scalar K] [Arith E] [Laned K E] in
theorem operand_of_dropout (hop : g.op n = .dropout rate l) : l ∈ g.dag.operands n := by
  rw [Dag.operands, show g.dag.op n = _ from hop]
  exact List.mem_singleton_self l

omit [Scalar K] [Arith E] [Laned K E] in
theorem lt_of_dropout (hop : g.op n = .dropout rate l) : l < n :=
  g.dag.operands_lt_self (operand_of_dropout hop)

omit [Scalar K] [Arith E] [Laned K E] in
theorem isParameter_of_dropout (hop : g.op n = .dropout rate l) : g.isParameter n = false := by
  rw [isParameter, hop]
  rfl

omit [Scalar K] [Arith E] [Laned K E] in
theorem lt_size_of_dropout (hop : g.op n = .dropout rate l) : n < g.size := by
  by_contra hn
  have hp := isParameter_of_size_le g (not_lt.1 hn)
  rw [isParameter_of_dropout hop] at hp
  cases hp

omit [Scalar K] [Arith E] [Laned K E] in
theorem hasValue_of_dropout (hop : g.op n = .dropout rate l) :
    g.hasValue n = (g.cell n).hasValue := by
  rw [Graph.hasValue, isParameter_of_dropout hop, Bool.or_false]

omit [Scalar K] [Arith E] [Laned K E] in
theorem hasValue_of_cell (h : (g.cell n).hasValue = true) : g.hasValue n = true := by
  rw [Graph.hasValue, h]
  rfl

omit [Scalar K] [Arith E] [Laned K E] in
theorem lt_size_of_cell (h : (g.cell n).hasValue = true) : n < g.size := by
  by_contra hn
  rw [cell_of_size_le g (not_lt.1 hn)] at h
  cases h

/-- Turns that write to no vertex keep what belongs to each other. -/
theorem Dropped.turn (h : s.Dropped n l rate) (ht : Turn [] s s') (hn : n < s.size)
    (hl : l < s.size) : s'.Dropped n l rate := by
  obtain ⟨hvn, hvalue, hmask⟩ := ht.kept hn h.hasValue
  obtain ⟨hvl, hoperand, -⟩ := ht.kept hl h.operand
  exact
    { hasValue := hvn
      operand := hvl
      rateOk := h.rateOk
      product := by rw [hoperand, hmask, hvalue]; exact h.product
      drawn := by rw [hoperand, hmask, ht.extends.noise]; exact h.drawn }

/-- A turn leaves a dropout alone, or evaluates it. -/
theorem Turn.dropped (ht : Turn [] s s') (hop : s'.op n = .dropout rate l) :
    (s.cell n).Retained (s'.cell n) ∨ s.hasValue n = false ∧ s'.Dropped n l rate := by
  by_cases hn : n < s.size
  · rw [ht.extends.op n hn] at hop
    rcases ht.cell_cases hn with hc | ⟨hm, -⟩ | ⟨hv, ho, v, mask, hcomp, hc⟩
    · exact .inl ⟨hc.value, hc.mask, fun hv => hc.hasValue ▸ hv⟩
    · cases hm
    · obtain ⟨hvl, hoperand, -⟩ :=
        ht.kept ((lt_of_dropout hop).trans hn) (ho l (operand_of_dropout hop))
      obtain ⟨hmask, hvalue⟩ := compute_eq_ok hcomp
      rw [hop] at hmask hvalue
      simp only [Op.freshMask] at hmask
      split at hmask
      · next hrate =>
        refine .inr ⟨hv, hasValue_of_cell (by rw [hc, store]), hvl, hrate, ?_, s.drawn, ?_⟩
        · have hown : s'.value n = v := congrArg Cell.value hc
          rw [hoperand, hown, hc]
          exact hvalue
        · rw [hoperand, hc, ht.extends.noise]
          exact (Except.ok.inj hmask).symm
      · cases hmask
  · rcases ht.cell_of_size_le (not_lt.1 hn) with hc | ⟨hp, -⟩
    · rw [hc, Graph.cell_of_size_le s (not_lt.1 hn)]
      exact .inl (.refl _)
    · rw [isParameter_of_dropout hop] at hp
      cases hp

/-- **Turns leave a dropout alone, or evaluate it once.** -/
theorem Turns.dropped (ht : Turns [] s s') (hop : s'.op n = .dropout rate l) :
    (s.cell n).Retained (s'.cell n) ∨ (s.cell n).hasValue = false ∧ s'.Dropped n l rate := by
  induction ht with
  | refl => exact .inl (.refl _)
  | @tail u u' hu ht ih =>
    by_cases hn : n < u.size
    · have hop' : u.op n = .dropout rate l := (ht.extends.op n hn).symm.trans hop
      rcases ih hop' with hold | ⟨hfalse, hd⟩
      · rcases ht.dropped hop with hnew | ⟨hv, hd⟩
        · exact .inl (hold.trans hnew)
        · refine .inr ⟨?_, hd⟩
          -- a value that was there at the start would still be there
          by_contra hflag
          have hflag : (s.cell n).hasValue = true := by simpa using hflag
          rw [(Turns.kept hu (lt_size_of_cell hflag) (hasValue_of_cell hflag)).1] at hv
          cases hv
      · exact .inr ⟨hfalse, hd.turn ht hn ((lt_of_dropout hop').trans hn)⟩
    · have hs : n ≥ s.size := (Turns.edits hu).extends.size.trans (not_lt.1 hn)
      rcases ht.dropped hop with hnew | ⟨hv, -⟩
      · rw [cell_of_size_le u (not_lt.1 hn)] at hnew
        rw [cell_of_size_le s hs]
        exact .inl hnew
      · exact absurd (lt_size_of_not_hasValue u hv) hn

end

end Graph

namespace Call

variable [Scalar K] [Arith E] [Laned K E]

/-- **A call that writes to vertices evaluates none**, also when it fails. -/
theorem turns_or_quiet (c : Call K E) (g : Graph K E) :
    c.run.Leads (Graph.Turn []) g ∨ c.run.Leads Graph.Quiet g := by
  have hturns : c.Plain → c.targets = [] →
      c.run.Leads (Graph.Turn []) g ∨ c.run.Leads Graph.Quiet g := fun hp ht =>
    .inl (ht ▸ turns hp g)
  cases c with
  | reset order => exact .inr (Graph.quiet_reset order)
  | mergeGrads order replica => exact .inr (Graph.quiet_mergeGrads order replica)
  | setValue | assign | setEntry | constant | countFrom | diagonal | oneHot | normalize =>
    right
    simp only [run, Graph.setValue, Graph.assign, Graph.setEntry, Graph.constant, Graph.countFrom,
      Graph.diagonal, Graph.oneHot, Graph.normalize]
    exact Graph.quiet_alter _ _ _
  | setLane n r c lane k => exact .inr (Graph.quiet_setLane n r c lane k)
  | randomUniform n bound => exact .inr (Graph.quiet_randomUniform n bound)
  | randomNormal b => exact .inr (Graph.quiet_randomNormal b)
  | copyParameters order replica => exact .inr (Graph.quiet_copyParameters order replica)
  | sgdStep params config =>
    exact .inr (.get_bind (.ofExcept_bind fun _ ho =>
      .bind (Graph.quiet_step ho) fun _ _ _ => .pure _ _))
  | unload j p out => exact .inr (Graph.quiet_unload j p out)
  | _ => exact hturns trivial rfl

theorem runs_append (cs cs' : List (Call K E)) (g : Graph K E) :
    runs (cs ++ cs') g = runs cs' (runs cs g) := by
  induction cs generalizing g with
  | nil => rfl
  | cons c cs ih => exact ih _

/-- **A call leaves a dropout alone, or evaluates it**, and then it writes to nothing else that has
a value. -/
theorem retained_or_dropped (c : Call K E) {g : Graph K E} {n l : Node} {rate : K}
    (hop : (c.run.final g).op n = .dropout rate l) :
    (g.cell n).Retained ((c.run.final g).cell n) ∨
      (g.cell n).hasValue = false ∧ (c.run.final g).Dropped n l rate ∧
        ∀ m < g.size, g.hasValue m = true → (c.run.final g).value m = g.value m := by
  rcases c.turns_or_quiet g with ht | hq
  · exact (Graph.Turns.dropped ht hop).imp_right fun ⟨hfalse, hd⟩ =>
      ⟨hfalse, hd, fun m hm hv => (Graph.Turns.kept ht hm hv).2⟩
  · have hquiet := Graph.quiet_of_moves hq
    refine .inl (hquiet.cell n ?_)
    rw [← Graph.isParameter_of_dag hquiet.dag]
    exact Graph.isParameter_of_dropout hop

/-- **The call that a dropout has its value from.**  From then on value and mask stay as they
are. -/
theorem exists_dropped (tag : Nat) (noise : Noise K) (cs : List (Call K E)) {n l : Node} {rate : K}
    (hop : (runs cs (.empty tag noise)).op n = .dropout rate l)
    (hv : (runs cs (.empty tag noise)).hasValue n = true) :
    ∃ pre c post, cs = pre ++ c :: post ∧
      ((runs pre (.empty tag noise)).cell n).hasValue = false ∧
      (runs (pre ++ [c]) (.empty tag noise)).Dropped n l rate ∧
      (∀ m < (runs pre (.empty tag noise)).size, (runs pre (.empty tag noise)).hasValue m = true →
        (runs (pre ++ [c]) (.empty tag noise)).value m = (runs pre (.empty tag noise)).value m) ∧
      ∀ mid, mid <+: post →
        (runs (pre ++ c :: mid) (.empty tag noise)).hasValue n = true ∧
        (runs (pre ++ c :: mid) (.empty tag noise)).value n =
          (runs cs (.empty tag noise)).value n ∧
        ((runs (pre ++ c :: mid) (.empty tag noise)).cell n).mask =
          ((runs cs (.empty tag noise)).cell n).mask := by
  induction cs using List.reverseRecOn with
  | nil =>
    exact absurd (Graph.lt_size_of_dropout hop) (Nat.not_lt_zero n)
  | append_singleton cs c ih =>
    have hlast : runs (cs ++ [c]) (.empty tag noise) = c.run.final (runs cs (.empty tag noise)) :=
      runs_append cs [c] _
    have hflag : ((runs (cs ++ [c]) (.empty tag noise)).cell n).hasValue = true := by
      rwa [Graph.hasValue_of_dropout hop] at hv
    rw [hlast] at hop hflag
    rcases c.retained_or_dropped hop with hr | ⟨hfalse, hd, hkept⟩
    · have hold := hr.hasValue hflag
      have hlt := Graph.lt_size_of_cell hold
      have hop' : (runs cs (.empty tag noise)).op n = .dropout rate l := by
        rw [← hop]
        exact ((Graph.Edits.extends (c.leads _)).op n hlt).symm
      obtain ⟨pre, c', post, hcs, hfalse, hd, hkept, hstay⟩ := ih hop' (Graph.hasValue_of_cell hold)
      have hsame : (runs (cs ++ [c]) (.empty tag noise)).value n =
          (runs cs (.empty tag noise)).value n ∧
          ((runs (cs ++ [c]) (.empty tag noise)).cell n).mask =
            ((runs cs (.empty tag noise)).cell n).mask := by
        rw [hlast]
        exact ⟨hr.value, hr.mask⟩
      refine ⟨pre, c', post ++ [c], by rw [hcs]; simp, hfalse, hd, hkept, fun mid hmid => ?_⟩
      rw [hsame.1, hsame.2]
      rcases List.prefix_concat_iff.1 hmid with rfl | hmid
      · have hall : pre ++ c' :: (post ++ [c]) = cs ++ [c] := by rw [hcs]; simp
        rw [hall]
        exact ⟨hv, hsame⟩
      · exact hstay mid hmid
    · refine ⟨cs, c, [], rfl, hfalse, hlast ▸ hd, fun m hm hvm => hlast ▸ hkept m hm hvm, ?_⟩
      rintro mid hmid
      rw [List.prefix_nil.1 hmid]
      exact ⟨hv, rfl, rfl⟩

end Call

namespace Graph

/-! ## The way back -/

/-- The shapes that a reverse pass relies on: gradients are of the shape of the value, and what a
value was computed from still has the shape that it had. -/
structure Sized [Scalar K] (g : Graph K E) : Prop where
  fits : ∀ n, g.Fits n
  grad : ∀ n, (g.grad n).shape = (g.value n).shape
  operand : ∀ n, g.hasValue n = true → ∀ c ∈ (g.op n).operands, (g.value c).shape = g.shapes c
  mask : ∀ n rate l, g.op n = .dropout rate l → g.hasValue n = true →
    (g.cell n).mask.shape = (g.value n).shape

section
variable [Scalar K] [Arith E] [Laned K E] {g g' : Graph K E} {n l : Node} {rate : K}
  {targets : List Node}

/-- A value that had the shape of its vertex still has it. -/
theorem Edit.shape_value (he : Edit targets g g') (hfits : ∀ n, g'.Fits n) (hn : n < g.size)
    (hs : (g.value n).shape = g.shapes n) : (g'.value n).shape = g'.shapes n := by
  have hshapes : g'.shapes n = g.shapes n := Edits.shapes (.single he) n hn
  rcases he.cell_cases hn with hc | ⟨-, -, v, hv, hc⟩ | ⟨-, -, v, mask, -, hc⟩
  · rw [hshapes, Graph.value, hc.value]
    exact hs
  · rw [hshapes, Graph.value, hc]
    exact hv.trans hs
  · exact (hfits n (hasValue_of_cell (by rw [hc, store]))).1

/-- A vertex that has a value had it before, or its operands had theirs. -/
theorem Edit.hasValue_cases (he : Edit targets g g') (hn : n < g.size)
    (hv : g'.hasValue n = true) :
    g.hasValue n = true ∨ ∀ c ∈ (g.op n).operands, g.hasValue c = true := by
  rcases he.cell_cases hn with hc | ⟨-, hp, -⟩ | ⟨-, ho, -⟩
  · refine .inl ?_
    rw [Graph.hasValue, Graph.isParameter, he.extends.op n hn, Bool.or_eq_true] at hv
    rw [Graph.hasValue, Bool.or_eq_true]
    exact hv.imp_left hc.hasValue
  · exact .inl (hasValue_of_isParameter hp)
  · exact .inr ho

/-- A new vertex with a value is a parameter. -/
theorem Edit.isParameter_of_new (he : Edit targets g g') (hn : g.size ≤ n)
    (hv : g'.hasValue n = true) : g'.isParameter n = true := by
  have hcell : g'.cell n = .blank ∨ g'.isParameter n = true := by
    cases he with
    | turn ht => exact (ht.cell_of_size_le hn).imp_right And.left
    | note => exact .inl (Graph.cell_of_size_le _ hn)
  refine hcell.elim (fun hc => ?_) fun hp => hp
  rwa [Graph.hasValue, hc, show (Cell.blank : Cell E).hasValue = false from rfl,
    Bool.false_or] at hv

/-- **A move keeps the shapes that a reverse pass relies on.** -/
theorem Edit.sized (he : Edit targets g g') (h : g.Sized) : g'.Sized := by
  have hfits : ∀ n, g'.Fits n := Edits.fits_all (.single he) h.fits
  refine ⟨hfits, fun n => he.shape_grad fun _ => h.grad n, fun n hv c hc => ?_,
    fun n rate l hop hv => ?_⟩
  · by_cases hn : n < g.size
    · rw [he.extends.op n hn] at hc
      refine he.shape_value hfits (lt_size_of_mem_operands hc) ?_
      rcases he.hasValue_cases hn hv with hold | ho
      · exact h.operand n hold c hc
      · exact (h.fits c (ho c hc)).1
    · have hp := he.isParameter_of_new (not_lt.1 hn) hv
      rw [op_eq_parameter hp] at hc
      cases hc
  · by_cases hn : n < g.size
    · have hop' : g.op n = .dropout rate l := (he.extends.op n hn).symm.trans hop
      rcases he.cell_cases hn with hc | ⟨-, hp, -⟩ | ⟨-, -, v, mask, hcomp, hc⟩
      · have hvn : g.hasValue n = true := by
          rw [hasValue_of_dropout hop] at hv
          exact hasValue_of_cell (hc.hasValue hv)
        rw [Graph.value, hc.mask, hc.value]
        exact h.mask n rate l hop' hvn
      · rw [isParameter_of_dropout hop'] at hp
        cases hp
      · obtain ⟨-, hvalue⟩ := compute_eq_ok hcomp
        rw [hop'] at hvalue
        rw [Graph.value, hc]
        exact ((Matrix.shape_of_zipWith hvalue).trans (Matrix.shape_eq_of_zipWith hvalue)).symm
    · have hp := he.isParameter_of_new (not_lt.1 hn) hv
      rw [isParameter_of_dropout hop] at hp
      cases hp

theorem Edits.sized (he : Edits targets g g') (h : g.Sized) : g'.Sized :=
  Step.keeps_of_moves (fun _ _ hm hs => hm.sized hs) he h

omit [Laned K E] in
/-- **A dropout passes its gradient times its mask on**, and changes nothing else. -/
theorem Sized.run_propagate (h : g.Sized) (hop : g.op n = .dropout rate l)
    (hv : g.hasValue n = true) :
    ∃ terms sum, (g.grad n).zipWith "dropout backward" (· * ·) (g.cell n).mask = .ok terms ∧
      (g.grad l).add terms = .ok sum ∧
      (propagate n).run g = .ok () (g.update l fun c => { c with grad := sum }) := by
  have hshape : (g.value n).shape = (g.value l).shape := by
    rw [(h.fits n hv).1, shapes_eq, hop, h.operand n hv l (by simp [hop, Op.operands])]
    rfl
  obtain ⟨terms, hterms, hs⟩ := Matrix.exists_zipWith (o := "dropout backward") (f := (· * ·))
    ((h.grad n).trans (h.mask n rate l hop hv).symm)
  obtain ⟨sum, hsum, -⟩ := Matrix.exists_zipWith (o := "add_assign") (f := (· + ·))
    (a := g.grad l) (b := terms) (by rw [hs, h.grad, h.grad, hshape])
  have hpushes : g.pushes n = .ok [(l, .whole terms)] := by
    rw [pushes, hop]
    simp only [Op.pushes, show (g.cell n).grad = g.grad n from rfl, hterms, ok_bind]
    rfl
  have happly : (Push.whole terms).apply (g.grad l) = .ok sum := hsum
  have hreceive : (receive l (.whole terms)).run g =
      .ok () (g.update l fun c => { c with grad := sum }) := by
    simp only [receive, EStateM.run_bind, EStateM.run_get, happly]
    rfl
  refine ⟨terms, sum, hterms, hsum, ?_⟩
  simp only [propagate, EStateM.run_bind, EStateM.run_get, hpushes]
  simpa using hreceive

end

end Graph

theorem Reachable.sized [Scalar K] [Arith E] [Laned K E] {g : Graph K E} (h : Reachable g) :
    g.Sized := by
  induction h with
  | empty tag noise =>
    refine ⟨Graph.fits_of_reachable (.empty tag noise), fun _ => rfl, fun n _ c hc => ?_,
      fun n rate l hop _ => ?_⟩
    · exact absurd (Graph.lt_size_of_mem_operands hc) (Nat.not_lt_zero c)
    · exact absurd (Graph.lt_size_of_dropout hop) (Nat.not_lt_zero n)
  | call _ c ih => exact Graph.Edits.sized (c.leads _) ih

/-! ## Masks -/

namespace Op

section
variable [Scalar K] [Arith E] [Laned K E] [Laned.Lawful K E] {rate : K} {draw : Nat → K} {s : Shape}

/-- A lane of a mask drops what it is multiplied with, or scales it up. -/
theorem lane_drawMask {r c i : Nat} (hr : r < s.1) (hc : c < s.2) (hi : i < Laned.width E) :
    Laned.lane ((drawMask rate draw s : Matrix E).entry r c) i = 0 ∨
      Laned.lane ((drawMask rate draw s : Matrix E).entry r c) i = 1 / (1 - rate) := by
  rw [drawMask, Matrix.entry_ofFn hr hc, Laned.Lawful.lane_ofLanes hi]
  split
  · exact .inl rfl
  · exact .inr rfl

end

/-- A rate that is refused lies outside of the unit interval, or is no number. -/
theorem rateOk_iff {rate : Float32} : rateOk rate = true ↔ 0 ≤ rate ∧ rate < 1 := by
  have hzero : (0 : Float32).isNaN = false := rfl
  rw [rateOk, Bool.and_eq_true, Bool.not_eq_true']
  show decide (rate < 0) = false ∧ decide (rate < 1) = true ↔ _
  rw [decide_eq_false_iff_not, decide_eq_true_iff, Binary32.not_lt_iff]
  constructor
  · rintro ⟨hle | hnan | hnan, hlt⟩
    · exact ⟨hle, hlt⟩
    · rw [(Binary32.isNaN_of_lt hlt).1] at hnan
      cases hnan
    · cases hnan
  · exact fun ⟨hle, hlt⟩ => ⟨.inl hle, hlt⟩

/-- Without a rate nothing is dropped and nothing is scaled. -/
theorem product_of_zero [Arith E] [Laned Float32 E] [Laned.Lawful Float32 E]
    [Laned.Extensional Float32 E] {rate : Float32} (hrate : rate = 0 ∨ rate = -0)
    {noise : Noise Float32} (hn : noise.Nonneg) (first : Nat) (m : Matrix E) :
    m.zipWith "dropout" (· * ·) (drawMask rate (fun i => noise.uniform (first + i)) m.shape) =
      .ok m := by
  have hkeeps : Scalar.lt 0 rate = false := by
    rcases hrate with rfl | rfl <;> decide +kernel
  have hscale : 1 / (1 - rate) = 1 := by
    rcases hrate with rfl | rfl <;> decide +kernel
  have hdraw : ∀ i, Scalar.lt (noise.uniform i) rate = false := by
    intro i
    by_contra hi
    rw [hn i rate (by simpa using hi)] at hkeeps
    cases hkeeps
  have hone : ∀ x : E, x * Laned.ofLanes (fun _ => (1 : Float32)) = x := fun x =>
    Laned.Extensional.ext (K := Float32) fun l hl => by
      rw [(Laned.Lawful.preserves hl).mul, Laned.Lawful.lane_ofLanes hl]
      exact Binary32.mul_one_float32 _
  have hshape : m.shape =
      (drawMask rate (fun i => noise.uniform (first + i)) m.shape : Matrix E).shape := rfl
  rw [Matrix.zipWith_eq hshape]
  refine congrArg Except.ok (Matrix.ext_entry rfl rfl fun r hr c hc => ?_)
  have hrow : r < m.rows := hr
  have hcol : c < m.cols := hc
  rw [Matrix.entry_ofFn hrow hcol, drawMask,
    Matrix.entry_ofFn (show r < m.shape.1 from hrow) (show c < m.shape.2 from hcol)]
  simp only [hdraw, hscale]
  exact hone _

end Op

namespace Graph

/-! ## Rates that are refused -/

section
variable [Scalar K] [Arith E] [Laned K E] {g s : Graph K E} {n l : Node} {rate : K}

theorem compute_of_rateOk_eq_false (hop : g.op n = .dropout rate l) (hrate : Op.rateOk rate = false) :
    g.compute n = .error (.rateOutside (Scalar.text rate)) := by
  rw [compute, hop]
  simp only [Op.freshMask, hrate]
  rfl

theorem run_evaluateOne_of_rateOk_eq_false (hop : g.op n = .dropout rate l)
    (hrate : Op.rateOk rate = false) :
    (evaluateOne n).run g = .error (.rateOutside (Scalar.text rate)) g := by
  rw [run_evaluateOne, compute_of_rateOk_eq_false hop hrate]

/-- A dropout of such a rate is not among the vertices that were evaluated. -/
theorem Evaluated.not_mem_of_rateOk_eq_false {done : List Node} (h : Evaluated g s done)
    (hop : g.op n = .dropout rate l) (hrate : Op.rateOk rate = false) : n ∉ done := by
  intro hn
  obtain ⟨first, v, mask, hmask, -⟩ := h.new n hn
  rw [hop] at hmask
  simp only [Op.freshMask, hrate] at hmask
  cases hmask

theorem cell_of_rateOk_eq_false (hop : g.op n = .dropout rate l) (hrate : Op.rateOk rate = false)
    (root : Node) : ((evaluate root).final g).cell n = g.cell n := by
  rcases evaluate_cases g root with ⟨s, hr, hev, -⟩ | ⟨_, _, _, _, s, -, hev, -, -, hr⟩
  · rw [Step.final_of_run_ok hr]
    exact hev.old n (hev.not_mem_of_rateOk_eq_false hop hrate)
  · rw [Step.final_of_run_error hr]
    exact hev.old n (hev.not_mem_of_rateOk_eq_false hop hrate)

/-- **A rate that is refused is reported** when the operand has its value. -/
theorem answer_of_rateOk_eq_false (hop : g.op n = .dropout rate l) (hrate : Op.rateOk rate = false)
    (hv : g.hasValue n = false) :
    (evaluate n).answer g =
      (evaluate l).answer g >>= fun _ => .error (.rateOutside (Scalar.text rate)) := by
  have hrun := run_evaluate_of_operand hv (congrArg Op.operands hop)
  cases hl : (evaluate l).run g with
  | error e s =>
    rw [EStateM.run_bind, hl] at hrun
    rw [Step.answer_of_run_error hrun, Step.answer_of_run_error hl]
    rfl
  | ok _ s =>
    have hops : s.op n = .dropout rate l := ((evaluated_of_run_ok hl).1.op n).trans hop
    rw [EStateM.run_bind, hl] at hrun
    simp only [run_evaluateOne_of_rateOk_eq_false hops hrate] at hrun
    rw [Step.answer_of_run_error hrun, Step.answer_of_run_ok hl]
    rfl

end

/-! ## Dropout -/

/-- A reverse pass comes to a vertex after what stands behind it in the order. -/
theorem run_reverseAlong_append [Scalar K] [Arith E] [Laned K E] (root n : Node)
    (before after : List Node) (g : Graph K E) :
    (reverseAlong root (before ++ n :: after)).run g =
      (do reverseAlong root after; propagate n; before.reverse.forM propagate :
        Step (Graph K E) Unit).run g := by
  simp [reverseAlong, bind_assoc]

/-- What a pass along an order comes to is as the evaluation of the root left it, but for
gradients. -/
theorem quiet_of_reverseAlong [Scalar K] [Arith E] [Laned K E] {g t : Graph K E} {root : Node}
    {order : List Node} (h : (reverseAlong root order).run g = .ok () t) :
    ∃ e, (evaluate root).run g = .ok () e ∧ e.Quiet t := by
  have hsplit : (reverseAlong root order).run g =
      (do evaluate root; (do seed root; order.reverse.forM propagate)).run g := rfl
  rw [hsplit, EStateM.run_bind] at h
  cases hr : (evaluate root).run g with
  | error e s => rw [hr] at h; cases h
  | ok _ e =>
    rw [hr] at h
    exact ⟨e, rfl, quiet_of_moves ((quiet_sweep root order.reverse).moves h)⟩

/-- A dropout that a pass comes to has the value and the mask that it had before, or that the
evaluation of the root left. -/
theorem dropout_of_reverseAlong [Scalar K] [Arith E] [Laned K E] {g t : Graph K E}
    {root n l : Node} {order : List Node} {rate : K} (hop : g.op n = .dropout rate l)
    (ht : (reverseAlong root order).run g = .ok () t) :
    (g.hasValue n = true → t.hasValue n = true ∧ t.value n = g.value n ∧
      (t.cell n).mask = (g.cell n).mask) ∧
    (t.hasValue n = true → ∃ e, (evaluate root).run g = .ok () e ∧ e.hasValue n = true ∧
      t.value n = e.value n ∧ (t.cell n).mask = (e.cell n).mask) := by
  have hturns : Turns [] g t := (turns_reverseAlong _ _).moves ht
  have hlt := lt_size_of_dropout hop
  have hopt : t.op n = .dropout rate l := ((Turns.edits hturns).extends.op n hlt).trans hop
  refine ⟨fun hv => ?_, fun hvt => ?_⟩
  · obtain ⟨hvt, hvalue⟩ := Turns.kept hturns hlt hv
    rcases Turns.dropped hturns hopt with hr | ⟨hfalse, -⟩
    · exact ⟨hvt, hvalue, hr.mask⟩
    · rw [hasValue_of_dropout hop, hfalse] at hv
      cases hv
  · obtain ⟨e, he, hquiet⟩ := quiet_of_reverseAlong ht
    have hope : e.op n = .dropout rate l := ((evaluated_of_run_ok he).1.op n).trans hop
    have hcell := hquiet.cell n (isParameter_of_dropout hope)
    have hflag : (t.cell n).hasValue = true := by
      rwa [hasValue_of_dropout hopt] at hvt
    exact ⟨e, he, hasValue_of_cell (hcell.hasValue hflag), hcell.value, hcell.mask⟩

/-- **The mask of a dropout belongs to its value**, after any calls on a new graph and for all
samples.

* A dropout that has a value got it in one of the calls, which gave no other value to a vertex
  that had one; from then on value and mask stayed as they are.  The value is that of the operand
  after that call times the mask, the mask has its shape, and each of its lanes drops or scales.
  For a rate of zero the value is that of the operand.
* When a reverse pass comes to the dropout, value and mask are as the evaluation of the root left
  them, and as before the pass if there was a value.  The gradient times the mask is added to the
  gradient of the operand, and nothing else is changed.
* A rate that is not within the unit interval is refused, and the dropout is left as it was. -/
theorem dropout_masked [Arith E] [Laned Float32 E] [Laned.Lawful Float32 E]
    [Laned.Extensional Float32 E] (tag : Nat) (noise : Noise Float32) (cs : List (Call Float32 E))
    {n l : Node} {rate : Float32}
    (hop : (Call.runs cs (.empty tag noise : Graph Float32 E)).op n = .dropout rate l) :
    let after : List (Call Float32 E) → Graph Float32 E := fun cs =>
      Call.runs cs (.empty tag noise)
    let g := after cs
    (g.hasValue n = true →
      (∃ pre c post, cs = pre ++ c :: post ∧ ((after pre).cell n).hasValue = false ∧
        (∀ m < (after pre).size, (after pre).hasValue m = true →
          (after (pre ++ [c])).value m = (after pre).value m) ∧
        (∀ mid, mid <+: post → (after (pre ++ c :: mid)).hasValue n = true ∧
          (after (pre ++ c :: mid)).value n = g.value n ∧
          ((after (pre ++ c :: mid)).cell n).mask = (g.cell n).mask) ∧
        (after (pre ++ [c])).hasValue l = true ∧
        ((after (pre ++ [c])).value l).zipWith "dropout" (· * ·) (g.cell n).mask =
          .ok (g.value n) ∧
        (rate = 0 ∨ rate = -0 → noise.Nonneg → g.value n = (after (pre ++ [c])).value l)) ∧
      (g.cell n).mask.shape = (g.value n).shape ∧
      ∀ r < (g.value n).rows, ∀ c < (g.value n).cols, ∀ i < Laned.width E,
        Laned.lane ((g.cell n).mask.entry r c) i = 0 ∨
          Laned.lane ((g.cell n).mask.entry r c) i = 1 / (1 - rate)) ∧
    (∀ root before behind,
      (reverseAlong root (before ++ n :: behind)).run g =
        (do reverseAlong root behind; propagate n; before.reverse.forM propagate :
          Step (Graph Float32 E) Unit).run g ∧
      ∀ t, (reverseAlong root behind).run g = .ok () t →
        (g.hasValue n = true → t.hasValue n = true ∧ t.value n = g.value n ∧
          (t.cell n).mask = (g.cell n).mask) ∧
        (t.hasValue n = true →
          let e := after (cs ++ [.evaluate root])
          e.hasValue n = true ∧ t.value n = e.value n ∧ (t.cell n).mask = (e.cell n).mask ∧
          ∃ terms sum, (t.grad n).zipWith "dropout backward" (· * ·) (t.cell n).mask =
              .ok terms ∧
            (t.grad l).add terms = .ok sum ∧
            (propagate n).run t = .ok () (t.update l fun c => { c with grad := sum }))) ∧
    (¬ (0 ≤ rate ∧ rate < 1) →
      g.hasValue n = false ∧ (∀ root, ((evaluate root).final g).cell n = g.cell n) ∧
      (evaluateOne n).run g = .error (.rateOutside (Scalar.text rate)) g ∧
      (evaluate n).answer g =
        (evaluate l).answer g >>= fun _ => .error (.rateOutside (Scalar.text rate))) := by
  intro after g
  have hg : Reachable g := (Reachable.empty tag noise).runs cs
  refine ⟨fun hv => ?_, fun root before behind => ⟨run_reverseAlong_append root n before behind g,
    fun t ht => ?_⟩, fun hrate => ?_⟩
  · obtain ⟨pre, c, post, hcs, hfalse, hd, hkept, hstay⟩ := Call.exists_dropped tag noise cs hop hv
    obtain ⟨-, hvalue, hmask⟩ := hstay [] List.nil_prefix
    have hproduct := hd.product
    rw [hvalue, hmask] at hproduct
    obtain ⟨first, hdrawn⟩ := hd.drawn
    have hnoise : (Call.runs (pre ++ [c]) (.empty tag noise : Graph Float32 E)).noise = noise :=
      (Call.runs_edits (pre ++ [c]) _).extends.noise
    rw [hmask, hnoise] at hdrawn
    have hshape := Matrix.shape_of_zipWith hproduct
    refine ⟨⟨pre, c, post, hcs, hfalse, hkept, hstay, hd.operand, hproduct, fun hzero hn => ?_⟩,
      ?_, fun r hr col hc i hi => ?_⟩
    · rw [hdrawn, Op.product_of_zero hzero hn] at hproduct
      exact (Except.ok.inj hproduct).symm
    · exact (Matrix.shape_eq_of_zipWith hproduct).symm.trans hshape.symm
    · rw [hdrawn]
      refine Op.lane_drawMask ?_ ?_ hi
      · rw [← hshape]
        exact hr
      · rw [← hshape]
        exact hc
  · obtain ⟨hkept, hleft⟩ := dropout_of_reverseAlong hop ht
    refine ⟨hkept, fun hvt => ?_⟩
    obtain ⟨e, he, hve, hvalue, hmask⟩ := hleft hvt
    have hrun : after (cs ++ [.evaluate root]) = e :=
      (Call.runs_append cs [.evaluate root] _).trans (Step.final_of_run_ok he)
    have hedits : Edits [] g t := Turns.edits ((turns_reverseAlong _ _).moves ht)
    rw [hrun]
    exact ⟨hve, hvalue, hmask, (hedits.sized hg.sized).run_propagate
      ((hedits.extends.op n (lt_size_of_dropout hop)).trans hop) hvt⟩
  · have hfalse : Op.rateOk rate = false := by
      rw [← Op.rateOk_iff] at hrate
      simpa using hrate
    have hv : g.hasValue n = false := by
      by_contra hv
      obtain ⟨_, _, _, -, -, hd, -⟩ := Call.exists_dropped tag noise cs hop (by simpa using hv)
      rw [hd.rateOk] at hfalse
      cases hfalse
    exact ⟨hv, cell_of_rateOk_eq_false hop hfalse, run_evaluateOne_of_rateOk_eq_false hop hfalse,
      answer_of_rateOk_eq_false hop hfalse hv⟩

/-- Entries are dropped or doubled, also on the way back.  Two is no rate. -/
theorem dropout_masked_half :
    let begun : Float32 → Graph Float32 Float32 := fun rate =>
      Call.runs [.parameter (.filled 1 2 3), .record (.dropout rate 0)]
        (.empty 0 ⟨fun i => if i = 0 then 0.25 else 0.75, fun _ => 0⟩)
    let after := fun rate => (evaluate 1).final (begun rate)
    let g := after 0.5
    (∃ v : Matrix Float32, v.zipWith "dropout" (· * ·) (g.cell 1).mask = .ok (g.value 1)) ∧
    (g.cell 1).mask.shape = (g.value 1).shape ∧
    (∀ c < 2, Laned.lane ((g.cell 1).mask.entry 0 c) 0 = (0 : Float32) ∨
      Laned.lane ((g.cell 1).mask.entry 0 c) 0 = 1 / (1 - 0.5 : Float32)) ∧
    (∃ t terms sum, (reverseAlong 1 []).run g = .ok () t ∧
      (t.grad 1).zipWith "dropout backward" (· * ·) (t.cell 1).mask = .ok terms ∧
      (t.grad 0).add terms = .ok sum ∧
      (reverseAlong 1 [1]).run g = .ok () (t.update 0 fun c => { c with grad := sum })) ∧
    (after 2).hasValue 1 = false := by
  intro begun after g
  have hsize : ∀ rate, (begun rate).dag.size = 2 := fun _ => rfl
  have hop : ∀ rate, (after rate).op 1 = .dropout rate 0 := fun rate =>
    (Edits.extends ((Call.evaluate 1 : Call Float32 Float32).leads (begun rate))).op 1
      (by rw [Graph.size, hsize]; decide)
  have hmissing : ∀ rate, (begun rate).missing 1 = [1] := by
    intro rate
    have hops : (begun rate).dag.operands 1 = [0] := rfl
    have hv : ∀ n < 2, (begun rate).hasValue n = (n != 1) := by
      intro n hn
      interval_cases n <;> rfl
    simp [missing, Dag.traverse, Dag.visit, hsize, hops, hv]
  have hhalf : g = ([1].forM evaluateOne : Step (Graph Float32 Float32) Unit).final (begun 0.5) := by
    rw [show g = (evaluate 1).final (begun 0.5) from rfl, Step.final,
      run_evaluate_of_missing (hmissing 0.5)]
    rfl
  have hv : g.hasValue 1 = true := by
    rw [hhalf]
    decide +kernel
  have hrow : 0 < (g.value 1).rows ∧ 2 = (g.value 1).cols := by
    rw [hhalf]
    decide +kernel
  have hmasked := fun rate => dropout_masked (E := Float32) 0
    ⟨fun i => if i = 0 then 0.25 else 0.75, fun _ => 0⟩
    [.parameter (.filled 1 2 3), .record (.dropout rate 0), .evaluate 1] (hop rate)
  obtain ⟨⟨_, _, _, -, -, -, -, -, hproduct, -⟩, hshape, hlanes⟩ := (hmasked 0.5).1 hv
  obtain ⟨hsplit, hback⟩ := (hmasked 0.5).2.1 1 [] []
  obtain ⟨t, ht⟩ : ∃ t, (reverseAlong 1 []).run g = .ok () t := by
    refine ⟨(seed 1).final g, ?_⟩
    rw [reverseAlong, EStateM.run_bind, run_evaluate_of_hasValue hv]
    rfl
  obtain ⟨hkept, hpass⟩ := hback t ht
  obtain ⟨-, -, -, terms, sum, hterms, hsum, hpropagate⟩ := hpass (hkept hv).1
  refine ⟨⟨_, hproduct⟩, hshape, fun c hc => hlanes 0 hrow.1 c (hc.trans_eq hrow.2) 0 Nat.one_pos,
    ⟨t, terms, sum, ht, hterms, hsum, ?_⟩, ?_⟩
  · have hone : (reverseAlong 1 [1]).run g =
        (do reverseAlong 1 []; propagate 1; [].forM propagate :
          Step (Graph Float32 Float32) Unit).run g := hsplit
    rw [hone, EStateM.run_bind, ht]
    simp only [EStateM.run_bind, hpropagate]
    rfl
  · exact ((hmasked 2).2.2 fun h => absurd h.2 (by decide +kernel)).1

end Graph

end DiffGraph
