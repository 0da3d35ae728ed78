/-
  Trials of a gradient check.

  A check takes the sum of an expression for a loss, and tries what the loss is when one entry
  of a parameter is moved up and down.  After that the entry is set back.

  * `Graph.Builds`: a computation that may add vertices, but gives no value to one that was
    there before;
  * `Trying`: the state between two trials.  The parameters hold what they are said to hold,
    and nothing else is touched but what is below the loss;
  * `Judges`: a computation that does not fail, but may find a gradient wrong
    (`Trying.judges_entry`);
  * `run_checkGradients`: the stages of a check, `built`, `swept` and `trials`;
  * `Ending`: the ways in which a check ends (`ending_checkGradients`).
-/
import DiffGraph.FiniteDifference
import DiffGraph.Proofs.Denotation
import DiffGraph.Proofs.Reading

namespace DiffGraph

variable {K E α β : Type}

/-! ## Entries that are set back -/

namespace Matrix

/-- The last one of two entries that are set in one place stays. -/
theorem set_set (m : Matrix E) (r c : Nat) (x y : E) : (m.set r c x).set r c y = m.set r c y := by
  unfold set
  split <;> simp_all

/-- An entry that is set to what it is. -/
theorem set_entry [Zero E] (m : Matrix E) (r c : Nat) : m.set r c (m.entry r c) = m := by
  unfold set
  split
  · next h =>
    have hk : r * m.cols + c < m.data.size := (position_lt h.1 h.2).trans_eq m.size_data.symm
    have hself : m.data.setIfInBounds (r * m.cols + c) (m.entry r c) = m.data := by
      rw [Array.setIfInBounds_def, dif_pos hk, entry, Array.getD, dif_pos hk]
      exact Array.set_getElem_self hk
    simp only [hself]
  · rfl

/-- A position of the data is that of an entry. -/
theorem div_mod_lt {m : Matrix E} {k : Nat} (hk : k < m.size) :
    k / m.cols < m.rows ∧ k % m.cols < m.cols := by
  have hk : k < m.rows * m.cols := hk.trans_eq m.size_data
  have hpos : 0 < m.cols := Nat.pos_of_ne_zero fun h0 => by simp [h0] at hk
  exact ⟨(Nat.div_lt_iff_lt_mul hpos).2 hk, Nat.mod_lt k hpos⟩

end Matrix

/-! ## Adding vertices -/

namespace Graph

/-- Whether entries are dropped depends on the operations only. -/
theorem Keeps.of_dag [Scalar K] {g g' : Graph K E} {root : Node} (h : g.Keeps root)
    (hdag : g'.dag = g.dag) : g'.Keeps root := fun n hb => by
  rw [op_of_dag hdag]
  exact h n (hdag ▸ hb)

variable [Scalar K] [Arith E] [Laned K E]

/-- The computation may add vertices, but gives no value to one that was there before. -/
def Builds (x : Step (Graph K E) α) : Prop :=
  ∀ g, ∃ targets, (∀ n ∈ targets, g.size ≤ n) ∧ x.Leads (Edit targets) g

theorem Builds.of_turns {x : Step (Graph K E) α} (h : ∀ g, x.Leads (Turn []) g) : Builds x :=
  fun g => ⟨[], by simp, (h g).mono fun _ _ => .turn⟩

theorem Builds.record (op : Op K) : Builds (record op : Step (Graph K E) Node) :=
  .of_turns fun _ => turns_record op

theorem Builds.bind {x : Step (Graph K E) α} {f : α → Step (Graph K E) β} (hx : Builds x)
    (hf : ∀ a, Builds (f a)) : Builds (x >>= f) := by
  intro g
  obtain ⟨targets, ht, hl⟩ := hx g
  cases hr : x.run g with
  | error e s => exact ⟨targets, ht, hl.bind fun a s' h => by rw [hr] at h; cases h⟩
  | ok a s =>
    obtain ⟨targets', ht', hl'⟩ := hf a s
    have hs : Edits targets g s := hl.moves hr
    refine ⟨targets ++ targets', fun n hn => ?_, ?_⟩
    · exact (List.mem_append.1 hn).elim (ht n) fun hn => hs.extends.size.trans (ht' n hn)
    · have hfinal : (x >>= f).final g = (f a).final s := by
        rw [Step.final, EStateM.run_bind, hr]
        rfl
      rw [Step.Leads, hfinal]
      exact Edits.append hs hl'

end Graph

namespace FiniteDifference

open DiffGraph.Graph

variable {g s t : G} {root n : Node} {w : Node → Matrix Float32} {targets : List Node}

/-! ## The state between two trials -/

/-- The parameters have the values `w`.  Nothing else is touched but what is below the loss. -/
structure Trying (g : G) (root : Node) (w : Node → Matrix Float32) (s : G) : Prop where
  loss : s.Readable root
  dag : s.dag = g.dag
  noise : s.noise = g.noise
  value : ∀ n < g.size, g.isParameter n = true → s.value n = w n
  cell : ∀ n < g.size, ¬ g.dag.Below root n → s.cell n = { g.cell n with value := w n }

/-- The values `w`, with one entry of a vertex replaced. -/
def moved (w : Node → Matrix Float32) (n : Node) (r c : Nat) (x : Float32) :
    Node → Matrix Float32 :=
  Function.update w n ((w n).set r c x)

theorem moved_moved (w : Node → Matrix Float32) (n : Node) (r c : Nat) (x y : Float32) :
    moved (moved w n r c x) n r c y = moved w n r c y := by
  simp only [moved, Function.update_self, Function.update_idem, Matrix.set_set]

/-- **An entry is set back.** -/
theorem moved_entry (w : Node → Matrix Float32) (n : Node) (r c : Nat) :
    moved w n r c ((w n).entry r c) = w := by
  rw [moved, Matrix.set_entry, Function.update_eq_self]

theorem shape_moved (w : Node → Matrix Float32) (n : Node) (r c : Nat) (x : Float32) :
    (moved w n r c x n).shape = (w n).shape := by
  rw [moved, Function.update_self, shape_set]

/-- Before the first trial. -/
theorem Trying.start (h : g.Readable root) : Trying g root g.value g where
  loss := h
  dag := rfl
  noise := rfl
  value _ _ _ := rfl
  cell _ _ _ := rfl

theorem run_report_ok {x : Step G α} {cause : Failure → GradFailure} {a : α}
    (h : x.run g = .ok a s) : (report cause x).run g = .ok a s := by
  show report cause x g = _
  rw [report, h]

theorem run_report_error {x : Step G α} {cause : Failure → GradFailure} {e : Failure}
    (h : x.run g = .error e s) : (report cause x).run g = .error (cause e) s := by
  show report cause x g = _
  rw [report, h]

namespace Trying

theorem size (h : Trying g root w s) : s.size = g.size := size_of_dag h.dag

/-- A reset keeps the values of the parameters, and what is not below the loss. -/
theorem run_reset (h : Trying g root w s) :
    ∃ s', (reset (g.order root)).run s = .ok () s' ∧ Trying g root w s' ∧ s'.Unevaluated root := by
  obtain ⟨s', hr, hc⟩ := reset_run s (g.order root)
  have he : Edits [] s s' := (leads_reset _).moves hr
  have hroot : root < g.size := h.loss.lt.trans_eq h.size
  refine ⟨s', hr, ?_, ?_⟩
  · exact
      { loss := h.loss.of_edits he
        dag := hc.dag.trans h.dag
        noise := hc.noise.trans h.noise
        value := fun n hn hp => (hc.value (hn.trans_eq h.size.symm)).trans (h.value n hn hp)
        cell := fun n hn hb => by
          rw [hc.cell n (hn.trans_eq h.size.symm), if_neg fun hm => hb ((mem_order hroot).1 hm)]
          exact h.cell n hn hb }
  · rw [← order_of_dag h.dag] at hc
    exact hc.unevaluated h.loss.lt

/-- Two states of the same trial are copies of each other. -/
theorem copies {g' : G} {w' : Node → Matrix Float32} (h : Trying g root w s)
    (h' : Trying g' root w' t) (hdag : g'.dag = g.dag)
    (hw : ∀ n < g.size, g.isParameter n = true → w' n = w n) (hk : g.Keeps root)
    (hn : g.noise.Nonneg) (hn' : g'.noise.Nonneg) : s.Copies t root := by
  have hst : t.dag = s.dag := h'.dag.trans (hdag.trans h.dag.symm)
  exact
    { size := h.loss.lt
      size' := h'.loss.lt
      op := fun n _ => op_of_dag hst n
      value := fun n hb hp => by
        have hlt : n < g.size := hb.le.trans_lt (h.loss.lt.trans_eq h.size)
        have hp : g.isParameter n = true := (isParameter_of_dag h.dag n).symm.trans hp
        rw [h.value n hlt hp, h'.value n (hlt.trans_eq (size_of_dag hdag).symm)
          ((isParameter_of_dag hdag n).trans hp), hw n hlt hp]
      keeps := hk.of_dag h.dag
      nonneg := h.noise ▸ hn
      nonneg' := h'.noise ▸ hn' }

/-- **The loss can be read in every trial**, and everything below it was evaluated then.  What
is read is what the loss means, if nothing below it drops entries. -/
theorem run_loss (h : Trying g root w s) :
    ∃ x s', (FiniteDifference.loss root (g.order root)).run s = .ok x.toFloat s' ∧
      Trying g root w s' ∧ s'.Ready root ∧
      (g.Keeps root → g.noise.Nonneg → s.denote root = .ok (.scalar x)) := by
  obtain ⟨s₁, hr₁, h₁, hu⟩ := h.run_reset
  obtain ⟨s₂, he, hr₂, hx⟩ := h₁.loss.run_scalarOf fun _ hm => hu.fits hm
  obtain ⟨hev, ht⟩ := evaluated_of_run_ok he
  refine ⟨s₂.number root, s₂, ?_, ?_, hev.ready h₁.loss.lt hu.consistent, fun hk hn => ?_⟩
  · unfold FiniteDifference.loss
    rw [EStateM.run_bind, run_report_ok hr₁]
    dsimp only
    rw [EStateM.run_bind, run_report_ok hr₂]
    rfl
  · have hold : ∀ n, s₁.hasValue n = true → s₂.cell n = s₁.cell n := fun n hv =>
      hev.cell_of_hasValue (List.append_nil _).symm hv
    exact
      { loss := h₁.loss.of_edits ht.edits
        dag := hev.dag.trans h₁.dag
        noise := hev.noise.trans h₁.noise
        value := fun n hn hp => by
          have hv : s₁.hasValue n = true :=
            hasValue_of_isParameter ((isParameter_of_dag h₁.dag n).trans hp)
          exact (congrArg Cell.value (hold n hv)).trans (h₁.value n hn hp)
        cell := fun n hn hb => by
          have hm : n ∉ s₁.missing root := fun hm =>
            hb (h₁.dag ▸ below_of_mem_missing h₁.loss.lt hm)
          rw [hev.old n hm]
          exact h₁.cell n hn hb }
  · have hc : s.Copies s₁ root := h.copies h₁ rfl (fun _ _ _ => rfl) hk hn hn
    rw [← hc.denote (.refl _ _), ← answer_valueOf hu.fresh hc.size' hc.keeps' hc.nonneg',
      answer_valueOf_eq, Step.answer_of_run_ok he, Step.final_of_run_ok he, ← hx.value]
    rfl

/-- A parameter is read. -/
theorem run_valueOf (h : Trying g root w s) (hn : n < g.size) (hp : g.isParameter n = true) :
    (report .graph (valueOf n)).run s = .ok (w n) s := by
  have hv : s.hasValue n = true :=
    hasValue_of_isParameter ((isParameter_of_dag h.dag n).trans hp)
  refine run_report_ok ?_
  rw [valueOf, EStateM.run_bind, run_evaluate_of_hasValue hv, ← h.value n hn hp]
  rfl

/-- An entry of a parameter can be set. -/
theorem run_set (h : Trying g root w s) (hn : n < g.size) (hp : g.isParameter n = true) {r c : Nat}
    (hr : r < (w n).shape.1) (hc : c < (w n).shape.2) (x : Float32) :
    (setEntry n r c x).run s =
      .ok () (s.update n fun d => { d with value := (w n).set r c x }) := by
  have hset : (do checkIndex (s.value n) r c; return (s.value n).set r c x) =
      (.ok ((w n).set r c x) : Except Failure (Matrix Float32)) := by
    rw [h.value n hn hp, checkIndex, if_pos ⟨hr, hc⟩]
    rfl
  exact run_alter ((isParameter_of_dag h.dag n).trans hp) hset

/-- After an entry was set. -/
theorem run_setEntry (h : Trying g root w s) (hn : n < g.size) (hp : g.isParameter n = true)
    {r c : Nat} (hr : r < (w n).shape.1) (hc : c < (w n).shape.2) (x : Float32) :
    ∃ s', (report .graph (setEntry n r c x)).run s = .ok () s' ∧
      Trying g root (moved w n r c x) s' ∧
      ∃ v, s' = s.update n fun d => { d with value := v } := by
  have hrun := h.run_set hn hp hr hc x
  have hns : n < s.size := hn.trans_eq h.size.symm
  refine ⟨_, run_report_ok hrun, ?_, _, rfl⟩
  exact
    { loss := by
        have hl : (setEntry n r c x : Step G Unit).Leads (Turn [n]) s :=
          turns_setEntry (List.mem_singleton_self n) r c x
        exact h.loss.of_edits (Turns.edits (hl.moves hrun))
      dag := h.dag
      noise := h.noise
      value := fun m hm hpm => by
        rw [Graph.value, cell_update, moved]
        by_cases hmn : m = n
        · rw [if_pos ⟨hmn, hns⟩, hmn, Function.update_self]
        · rw [if_neg fun h => hmn h.1, Function.update_of_ne hmn]
          exact h.value m hm hpm
      cell := fun m hm hb => by
        rw [cell_update, moved]
        by_cases hmn : m = n
        · rw [if_pos ⟨hmn, hns⟩, hmn, Function.update_self, h.cell n hn (hmn ▸ hb)]
        · rw [if_neg fun h => hmn h.1, Function.update_of_ne hmn]
          exact h.cell m hm hb }

end Trying

/-! ## Verdicts -/

/-- A gradient was found wrong, or one of two numbers is none to compare. -/
def IsVerdict : GradFailure → Prop
  | .mismatch .. | .numericalNotFinite .. | .analyticalNotFinite .. => True
  | _ => False

/-- The computation gets through, which leaves a state that satisfies `P`, or it comes to a
verdict, which leaves one that satisfies `Q`. -/
def Judges (P Q : G → Prop) (x : Check α) (s : G) : Prop :=
  (∃ a s', x.run s = .ok a s' ∧ P s') ∨
    ∃ verdict s', x.run s = .error verdict s' ∧ IsVerdict verdict ∧ Q s'

section
variable {P Q : G → Prop} {verdict : GradFailure}

theorem Judges.pure (a : α) (h : P s) : Judges P Q (Pure.pure a : Check α) s :=
  .inl ⟨a, s, rfl, h⟩

theorem Judges.throw (hv : IsVerdict verdict) (h : Q s) :
    Judges P Q (MonadExcept.throw verdict : Check α) s := .inr ⟨verdict, s, rfl, hv, h⟩

theorem Judges.throw_bind {f : α → Check β} (hv : IsVerdict verdict) (h : Q s) :
    Judges P Q (MonadExcept.throw verdict >>= f) s := .inr ⟨verdict, s, rfl, hv, h⟩

/-- What comes after a computation that succeeds. -/
theorem Judges.of_run_ok {x : Check α} {f : α → Check β} {a : α} {s' : G}
    (hr : x.run s = .ok a s') (h : Judges P Q (f a) s') : Judges P Q (x >>= f) s := by
  have hb : (x >>= f).run s = (f a).run s' := by rw [EStateM.run_bind, hr]
  rwa [Judges, hb]

/-- A loop of such computations. -/
theorem Judges.forM {f : α → Check PUnit} {l : List α}
    (hf : ∀ x ∈ l, ∀ s, P s → Judges P Q (f x) s) (h : P s) : Judges P Q (l.forM f) s := by
  induction l generalizing s with
  | nil => exact .pure _ h
  | cons x l ih =>
    rw [List.forM_eq_forM, List.forM_cons]
    rcases hf x List.mem_cons_self s h with ⟨_, s', hr, hs'⟩ | ⟨verdict, s', hr, hv, hs'⟩
    · exact .of_run_ok hr (ih (fun y hy => hf y (List.mem_cons_of_mem _ hy)) hs')
    · exact .inr ⟨verdict, s', by rw [EStateM.run_bind, hr], hv, hs'⟩

end

/-- The entry is set back, but what is below the loss was evaluated with the entry lowered by
`ε`: if it is lowered once more, everything fits together. -/
def Lowered (root : Node) (ε : Float32) (n : Node) (u : G) : Prop :=
  ∃ r c t, r < (u.value n).rows ∧ c < (u.value n).cols ∧
    (setEntry n r c ((u.value n).entry r c - ε)).run u = .ok () t ∧ t.Ready root

section
variable {close : Float → Float → Float → Bool} {ε : Float32} {tolerance : Float} {i : Nat}
  {inputs : List Node}

/-- **A trial gets through or comes to a verdict.**  In both cases the entry is set back. -/
theorem Trying.judges_entry (h : Trying g root w s) (hn : n < g.size)
    (hp : g.isParameter n = true) {k : Nat} (hk : k < (w n).size) (analytical : Float) :
    Judges (Trying g root w) (fun u => Trying g root w u ∧ Lowered root ε n u)
      (entry close root (g.order root) ε tolerance i n (w n) analytical k) s := by
  obtain ⟨hr, hc⟩ := Matrix.div_mod_lt hk
  unfold entry
  dsimp only
  generalize k / (w n).cols = r at hr
  generalize k % (w n).cols = c at hc
  have hr' : ∀ x, r < (moved w n r c x n).shape.1 := fun x => by rwa [shape_moved]
  have hc' : ∀ x, c < (moved w n r c x n).shape.2 := fun x => by rwa [shape_moved]
  obtain ⟨s₁, hr₁, h₁, -⟩ := h.run_setEntry hn hp hr hc ((w n).entry r c + ε)
  obtain ⟨above, s₂, hr₂, h₂, -⟩ := h₁.run_loss
  obtain ⟨s₃, hr₃, h₃, -⟩ := h₂.run_setEntry hn hp (hr' _) (hc' _) ((w n).entry r c - ε)
  obtain ⟨below, s₄, hr₄, h₄, hready, -⟩ := h₃.run_loss
  rw [moved_moved] at h₄
  obtain ⟨s₅, hr₅, h₅, v, hs₅⟩ := h₄.run_setEntry hn hp (hr' _) (hc' _) ((w n).entry r c)
  rw [moved_moved, moved_entry] at h₅
  refine .of_run_ok hr₁ (.of_run_ok hr₂ (.of_run_ok hr₃ (.of_run_ok hr₄ (.of_run_ok hr₅ ?_))))
  -- the entry is as before, and what is below the loss is as in the second trial
  have hlowered : Trying g root w s₅ ∧ Lowered root ε n s₅ := by
    refine ⟨h₅, r, c, s₄, ?_⟩
    rw [h₅.value n hn hp]
    refine ⟨hr, hc, ?_, hready⟩
    have hcell : { s₄.cell n with value := (w n).set r c ((w n).entry r c - ε) } = s₄.cell n := by
      have hvalue := h₄.value n hn hp
      rw [moved, Function.update_self] at hvalue
      rw [← hvalue]
      rfl
    have hback : s₅.update n (fun d => { d with value := (w n).set r c ((w n).entry r c - ε) }) =
        s₄ := by
      rw [hs₅, update_update]
      exact (update_congr s₄ hcell).trans (update_cell s₄ n)
    rw [h₅.run_set hn hp hr hc, hback]
  split
  · exact .throw_bind trivial hlowered
  split
  · exact .throw_bind trivial hlowered
  split
  · exact .throw trivial hlowered
  · exact .pure _ h₅

/-- All entries of a parameter are tried. -/
theorem Trying.judges_input (h : Trying g root w s) (hn : n < g.size)
    (hp : g.isParameter n = true) (gradient : Matrix Float32) :
    Judges (Trying g root w) (fun u => Trying g root w u ∧ Lowered root ε n u)
      (input close root (g.order root) ε tolerance i n gradient) s := by
  refine .of_run_ok (h.run_valueOf hn hp) (.forM (fun k hk s' h' => ?_) h)
  exact h'.judges_entry hn hp (List.mem_range.1 hk) _

/-- All inputs are tried. -/
theorem Trying.judges_inputs (h : Trying g root w s)
    (hinputs : ∀ n ∈ inputs, n < g.size ∧ g.isParameter n = true) (grad : Node → Matrix Float32) :
    Judges (Trying g root w) (fun u => Trying g root w u ∧ ∃ n ∈ inputs, Lowered root ε n u)
      ((inputs.zipIdx.map fun (n, i) => (i, n, grad n)).forM fun (i, n, gradient) =>
        input close root (g.order root) ε tolerance i n gradient) s := by
  refine .forM (fun x hx u hu => ?_) h
  obtain ⟨⟨n, i⟩, hmem, rfl⟩ := List.mem_map.1 hx
  have hn : n ∈ inputs := List.mem_of_getElem? (List.mk_mem_zipIdx_iff_getElem?.1 hmem)
  exact (hu.judges_input (hinputs n hn).1 (hinputs n hn).2 _).imp_right
    fun ⟨verdict, v, hr, hv, ht, hl⟩ => ⟨verdict, v, hr, hv, ht, n, hn, hl⟩

end

/-! ## The end of a check -/

/-- The loss of an expression: the sum of its entries. -/
def built (build : List Node → Step G Node) (inputs : List Node) : Step G Node := do
  let expression ← build inputs
  record (.sum expression)

/-- The reverse pass that the trials are compared with. -/
def swept (root : Node) : Step G Unit := do
  let order := (← get).order root
  reset order
  reverseAlong root order

/-- The trials of all inputs, which are compared with the gradients given.  At the end the
values below the loss are forgotten. -/
def trials (close : Float → Float → Float → Bool) (root : Node) (order : List Node)
    (ε : Float32) (tolerance : Float) (inputs : List Node) (gradient : Node → Matrix Float32) :
    Check Unit := do
  (inputs.zipIdx.map fun (n, i) => (i, n, gradient n)).forM fun (i, n, gradient) =>
    input close root order ε tolerance i n gradient
  report .graph (reset order)

/-- What a check does once its loss is built. -/
def comparison (close : Float → Float → Float → Bool) (root : Node) (ε : Float32)
    (tolerance : Float) (inputs : List Node) : Check Unit := fun s =>
  match (swept root).run s with
  | .error cause t => .error (.backward cause) t
  | .ok _ t => (trials close root (s.order root) ε tolerance inputs t.grad).run t

/-- The ways in which a check ends, and what it leaves. -/
inductive Ending (build : List Node → Step G Node) (inputs : List Node) (ε : Float32) (g : G) :
    EStateM.Result GradFailure G Unit → Prop where
  | refused {n : Node} {i : Nat} (hn : inputs[i]? = some n) (hp : g.isParameter n = false) :
    Ending build inputs ε g (.error (.inputNotParameter i) g)
  | unbuilt {cause : Failure} {s : G} (hp : ∀ n ∈ inputs, g.isParameter n = true)
    (hb : (built build inputs).run g = .error cause s) :
    Ending build inputs ε g (.error (.graph cause) s)
  | unswept {root : Node} {cause : Failure} {s t : G}
    (hp : ∀ n ∈ inputs, g.isParameter n = true) (hb : (built build inputs).run g = .ok root s)
    (hs : (swept root).run s = .error cause t) :
    Ending build inputs ε g (.error (.backward cause) t)
  | judged {root : Node} {s t u : G} {verdict : GradFailure}
    (hp : ∀ n ∈ inputs, g.isParameter n = true) (hb : (built build inputs).run g = .ok root s)
    (hs : (swept root).run s = .ok () t) (hv : IsVerdict verdict)
    (hu : Trying t root t.value u) (hl : ∃ n ∈ inputs, Lowered root ε n u) :
    Ending build inputs ε g (.error verdict u)
  | confirmed {root : Node} {s t u : G} (hp : ∀ n ∈ inputs, g.isParameter n = true)
    (hb : (built build inputs).run g = .ok root s) (hs : (swept root).run s = .ok () t)
    (hu : Trying t root t.value u) (hv : u.Unevaluated root) : Ending build inputs ε g (.ok () u)

section
variable {close : Float → Float → Float → Bool} {build : List Node → Step G Node}
  {inputs : List Node}

/-- The sum of an expression is a vertex of its own. -/
theorem op_of_built (h : (built build inputs).run g = .ok root s) :
    root < s.size ∧ ∃ expression, s.op root = .sum expression := by
  unfold built at h
  rw [EStateM.run_bind] at h
  cases hb : (build inputs).run g with
  | error e s₀ => rw [hb] at h; cases h
  | ok expression s₀ =>
    simp only [hb, record, EStateM.run_bind, EStateM.run_get] at h
    split at h
    · cases h
      exact ⟨by simp, expression, by rw [op_push, if_pos rfl]⟩
    · cases h

/-- Building a loss writes to nothing that was there before. -/
theorem edits_of_built (hbuild : Builds (build inputs))
    (h : (built build inputs).run g = .ok root s) :
    ∃ targets, (∀ n ∈ targets, g.size ≤ n) ∧ Edits targets g s := by
  have hbuilt : Builds (built build inputs) := hbuild.bind fun e => .record (.sum e)
  obtain ⟨targets, ht, hl⟩ := hbuilt g
  exact ⟨targets, ht, hl.moves h⟩

theorem run_swept (h : (reset (s.order root)).run s = .ok () t) :
    (swept root).run s = (reverseAlong root (s.order root)).run t := by
  simp only [swept, EStateM.run_bind, EStateM.run_get, h]

theorem leads_swept (root : Node) (s : G) : (swept root).Leads (Edit []) s :=
  .get_bind (.bind (leads_reset _) fun _ _ _ => (turns_reverseAlong root _).mono fun _ _ => .turn)

/-- **A sum that has been through a reverse pass can be read.** -/
theorem readable_of_swept {expression : Node} (hroot : root < s.size)
    (hop : s.op root = .sum expression) (h : (swept root).run s = .ok () t) : t.Readable root := by
  obtain ⟨s₁, hr₁, hc⟩ := reset_run s (s.order root)
  have hroot₁ : root < s₁.size := hroot.trans_eq (size_of_dag hc.dag).symm
  have hu : s₁.Unevaluated root := hc.unevaluated hroot
  rw [run_swept hr₁, reverseAlong, EStateM.run_bind] at h
  cases hr₂ : (evaluate root).run s₁ with
  | error e s₂ => rw [hr₂] at h; cases h
  | ok _ s₂ =>
    rw [hr₂] at h
    obtain ⟨hev, ht⟩ := evaluated_of_run_ok hr₂
    have hread : s₂.Readable root :=
      { lt := hroot₁.trans_le ht.edits.extends.size
        shapes := by rw [shapes_eq, hev.op, hc.op, hop]; rfl
        evaluable := (ht.edits.fits hroot₁ (fun _ => hu.fits) root (.refl _ _)
          (hev.hasValue (hasValue_or_mem_missing hroot₁))).2 }
    have hl : (do seed root; (s.order root).reverse.forM propagate : Step G Unit).Leads
        (Turn []) s₂ :=
      .bind (turns_sum ⟨rfl, rfl, rfl, .inr rfl, .inl rfl, .inl rfl⟩) fun _ u _ =>
        .forM (fun n _ _ => turns_propagate n) u
    exact hread.of_edits (Turns.edits (hl.moves h))

/-- All inputs are parameters if none is found that is not. -/
theorem find?_eq_none_iff : (inputs.zipIdx.find? fun p => !g.isParameter p.1) = none ↔
    ∀ n ∈ inputs, g.isParameter n = true := by
  rw [List.find?_eq_none]
  constructor
  · intro h n hn
    obtain ⟨i, hi⟩ := List.mem_iff_getElem?.1 hn
    have hmem : (n, i) ∈ inputs.zipIdx := List.mk_mem_zipIdx_iff_getElem?.2 hi
    simpa using h (n, i) hmem
  · intro h p hp
    have hmem : p.1 ∈ inputs := List.mem_of_getElem? (List.mk_mem_zipIdx_iff_getElem?.1 hp)
    simpa using h p.1 hmem

/-- Inputs that are parameters stay so when vertices are added. -/
theorem parameters_of_extends (h : g.Extends s) (hinputs : ∀ n ∈ inputs, n < g.size)
    (hp : ∀ n ∈ inputs, g.isParameter n = true) :
    ∀ n ∈ inputs, n < s.size ∧ s.isParameter n = true := by
  intro n hn
  refine ⟨(hinputs n hn).trans_le h.size, ?_⟩
  rw [isParameter, h.op n (hinputs n hn)]
  exact hp n hn

/-- How a check ends once its loss has been through a reverse pass. -/
theorem ending_of_swept (hbuild : Builds (build inputs)) (hinputs : ∀ n ∈ inputs, n < g.size)
    (hp : ∀ n ∈ inputs, g.isParameter n = true) (hb : (built build inputs).run g = .ok root s)
    (hs : (swept root).run s = .ok () t) (ε : Float32) (tolerance : Float) :
    Ending build inputs ε g
      ((trials close root (s.order root) ε tolerance inputs t.grad).run t) := by
  obtain ⟨hroot, expression, hop⟩ := op_of_built hb
  obtain ⟨targets, -, he⟩ := edits_of_built hbuild hb
  have hst : Edits [] s t := (leads_swept root s).moves hs
  have hparam := parameters_of_extends (he.extends.trans hst.extends) hinputs hp
  rw [trials, EStateM.run_bind, ← hst.extends.order hroot]
  rcases (Trying.start (readable_of_swept hroot hop hs)).judges_inputs hparam t.grad with
    ⟨_, u, hr₁, hu⟩ | ⟨verdict, u, hr₁, hv, hu, hl⟩
  · obtain ⟨u', hr₂, hu', hun⟩ := hu.run_reset
    rw [hr₁]
    dsimp only
    rw [run_report_ok hr₂]
    exact .confirmed hp hb hs hu' hun
  · rw [hr₁]
    exact .judged hp hb hs hv hu hl

/-- An input that is no parameter is refused before anything is built. -/
theorem run_checkGradients_of_find?_eq_some {n : Node} {i : Nat}
    (h : (inputs.zipIdx.find? fun p => !g.isParameter p.1) = some (n, i)) (ε : Float32)
    (tolerance : Float) : (checkGradients close build inputs ε tolerance).run g =
      .error (.inputNotParameter i) g := by
  simp only [checkGradients, EStateM.run_bind, EStateM.run_get, h]
  rfl

theorem run_comparison_of_error {cause : Failure} (h : (swept root).run s = .error cause t)
    (ε : Float32) (tolerance : Float) :
    (comparison close root ε tolerance inputs).run s = .error (.backward cause) t := by
  show comparison close root ε tolerance inputs s = _
  rw [comparison, h]

theorem run_comparison (h : (swept root).run s = .ok () t) (ε : Float32) (tolerance : Float) :
    (comparison close root ε tolerance inputs).run s =
      (trials close root (s.order root) ε tolerance inputs t.grad).run t := by
  show comparison close root ε tolerance inputs s = _
  rw [comparison, h]

/-- **The stages of a check**: the loss is built, it goes through a reverse pass, and the
gradients that the pass leaves are compared with trials. -/
theorem run_checkGradients (h : (inputs.zipIdx.find? fun p => !g.isParameter p.1) = none)
    (ε : Float32) (tolerance : Float) : (checkGradients close build inputs ε tolerance).run g =
      match (built build inputs).run g with
      | .error cause s => .error (.graph cause) s
      | .ok root s => (comparison close root ε tolerance inputs).run s := by
  simp only [checkGradients, EStateM.run_bind, EStateM.run_get, h]
  cases hb : (built build inputs).run g with
  | error cause s =>
    have hr : (report .graph (do let e ← build inputs; record (.sum e))).run g =
        .error (.graph cause) s := run_report_error hb
    simp only [hr]
  | ok root s =>
    have hr : (report .graph (do let e ← build inputs; record (.sum e))).run g = .ok root s :=
      run_report_ok hb
    obtain ⟨s₁, hr₁, -⟩ := reset_run s (s.order root)
    simp only [hr, run_report_ok hr₁]
    cases hr₂ : (reverseAlong root (s.order root)).run s₁ with
    | error cause t =>
      rw [run_comparison_of_error ((run_swept hr₁).trans hr₂)]
      simp only [run_report_error hr₂]
    | ok _ t =>
      rw [run_comparison ((run_swept hr₁).trans hr₂)]
      simp only [run_report_ok hr₂, trials, EStateM.run_bind]

/-- **How a check ends.** -/
theorem ending_checkGradients (hbuild : Builds (build inputs)) (hinputs : ∀ n ∈ inputs, n < g.size)
    (ε : Float32) (tolerance : Float) :
    Ending build inputs ε g ((checkGradients close build inputs ε tolerance).run g) := by
  cases hfind : inputs.zipIdx.find? fun p => !g.isParameter p.1 with
  | some p =>
    have hp : (!g.isParameter p.1) = true := by simpa using List.find?_some hfind
    rw [run_checkGradients_of_find?_eq_some hfind]
    refine .refused (n := p.1) ?_ (by simpa using hp)
    exact List.mk_mem_zipIdx_iff_getElem?.1 (List.mem_of_find?_eq_some hfind)
  | none =>
    have hp := find?_eq_none_iff.1 hfind
    rw [run_checkGradients hfind]
    cases hb : (built build inputs).run g with
    | error cause s => exact .unbuilt hp hb
    | ok root s =>
      cases hs : (swept root).run s with
      | error cause t =>
        simp only [run_comparison_of_error hs]
        exact .unswept hp hb hs
      | ok _ t =>
        simp only [run_comparison hs]
        exact ending_of_swept hbuild hinputs hp hb hs ε tolerance

end

end FiniteDifference

end DiffGraph
