/-
  Computing along the operands.

  `Dag.recurse` computes something for a vertex by recursion: first for its
  operands, from left to right, then by the rule of the vertex.  The first
  failure ends the computation.  There is no memory: a shared vertex is computed
  again for each vertex that uses it.

  * `recurse_of_ok`: what is computed for a vertex whose operands do not fail;
  * `firstFailure_traverse`: the first failure among the vertices of a traversal
    is the failure of its root.
-/
import DiffGraph.Proofs.PostOrder

namespace DiffGraph

variable {K A : Type}

/-- The first failure among the vertices of a list. -/
def firstFailure (out : Node → Except Failure A) : List Node → Except Failure Unit
  | [] => .ok ()
  | n :: ns =>
    match out n with
    | .ok _ => firstFailure out ns
    | .error e => .error e

section
variable {out : Node → Except Failure A}

theorem firstFailure_eq_ok_iff {ns : List Node} :
    firstFailure out ns = .ok () ↔ ∀ n ∈ ns, ∃ a, out n = .ok a := by
  induction ns with
  | nil => simp [firstFailure]
  | cons n ns ih =>
    rw [firstFailure]
    cases h : out n with
    | ok a => simp [ih, h]
    | error e => simp [h]

theorem firstFailure_congr {out' : Node → Except Failure A} {ns : List Node}
    (h : ∀ n ∈ ns, out' n = out n) : firstFailure out' ns = firstFailure out ns := by
  induction ns with
  | nil => rfl
  | cons n ns ih =>
    rw [firstFailure, firstFailure, h n List.mem_cons_self,
      ih fun m hm => h m (List.mem_cons_of_mem _ hm)]

theorem firstFailure_append (ns ms : List Node) :
    firstFailure out (ns ++ ms) =
      match firstFailure out ns with
      | .ok _ => firstFailure out ms
      | .error e => .error e := by
  induction ns with
  | nil => rfl
  | cons n ns ih =>
    rw [List.cons_append, firstFailure, firstFailure]
    cases out n with
    | ok a => exact ih
    | error e => rfl

theorem firstFailure_append_of_ok {ns ms : List Node} (h : firstFailure out ns = .ok ()) :
    firstFailure out (ns ++ ms) = firstFailure out ms := by
  rw [firstFailure_append, h]

theorem firstFailure_append_of_error {ns ms : List Node} {e : Failure}
    (h : firstFailure out ns = .error e) : firstFailure out (ns ++ ms) = .error e := by
  rw [firstFailure_append, h]

/-- Computing something for each vertex of a list fails like the first of them. -/
theorem forM_discard (ns : List Node) :
    (forM ns fun n => discard (out n)) = firstFailure out ns := by
  induction ns with
  | nil => rfl
  | cons n ns ih =>
    rw [firstFailure, ← ih, List.forM_cons]
    cases out n <;> rfl

end

namespace Dag

variable [Inhabited A]

/-- What is computed for a vertex, by recursion on its operands. -/
def recurse (d : Dag K) (rule : Node → (Node → A) → Except Failure A) (n : Node) :
    Except Failure A := do
  (d.operands n).attach.forM fun c => discard (d.recurse rule c.1)
  rule n fun c => if c < n then (d.recurse rule c).toOption.getD default else default
termination_by n
decreasing_by
  · exact d.operands_lt_self c.2
  · assumption

/-- A rule looks at the operands of its vertex only. -/
def Local (d : Dag K) (rule : Node → (Node → A) → Except Failure A) : Prop :=
  ∀ n v w, (∀ c ∈ d.operands n, v c = w c) → rule n v = rule n w

section
variable {d : Dag K} {rule : Node → (Node → A) → Except Failure A}

theorem recurse_eq (n : Node) :
    d.recurse rule n =
      match firstFailure (d.recurse rule) (d.operands n) with
      | .ok _ => rule n fun c =>
          if c < n then (d.recurse rule c).toOption.getD default else default
      | .error e => .error e := by
  have hattach : (forM (d.operands n).attach fun c => discard (d.recurse rule c.1)) =
      firstFailure (d.recurse rule) (d.operands n) := by
    rw [← forM_discard]
    conv_rhs => rw [← List.attach_map_subtype_val (d.operands n), List.forM_map]
  rw [recurse, List.forM_eq_forM, hattach]
  cases firstFailure (d.recurse rule) (d.operands n) <;> rfl

variable (hr : d.Local rule)
include hr

/-- The operands are computed, and the rule sees what they give. -/
theorem recurse_of_ok {n : Node} {val : Node → A}
    (h : ∀ c ∈ d.operands n, d.recurse rule c = .ok (val c)) :
    d.recurse rule n = rule n val := by
  have hok : firstFailure (d.recurse rule) (d.operands n) = .ok () :=
    firstFailure_eq_ok_iff.2 fun c hc => ⟨_, h c hc⟩
  rw [recurse_eq, hok]
  refine hr n _ _ fun c hc => ?_
  rw [if_pos (d.operands_lt_self hc), h c hc]
  rfl

/-- What is computed for a vertex depends on the vertices below it only. -/
theorem recurse_congr {d' : Dag K} {rule' : Node → (Node → A) → Except Failure A} (n : Node) :
    (∀ m, d.Below n m → d'.operands m = d.operands m ∧ ∀ val, rule' m val = rule m val) →
      d'.recurse rule' n = d.recurse rule n := by
  induction n using Nat.strong_induction_on with
  | _ n ih =>
    intro h
    have hops : ∀ c ∈ d.operands n, d'.recurse rule' c = d.recurse rule c := fun c hc =>
      ih c (d.operands_lt_self hc) fun m hm => h m (((Below.refl d n).operand hc).trans hm)
    obtain ⟨ho, hn⟩ := h n (Below.refl d n)
    rw [recurse_eq, recurse_eq, ho, firstFailure_congr hops]
    cases firstFailure (d.recurse rule) (d.operands n) with
    | error e => rfl
    | ok => exact (hn _).trans (hr n _ _ fun c hc => by simp only [hops c hc])

omit hr in
/-- The first failure among the operands is the failure of the vertex. -/
theorem firstFailure_operands (n : Node) :
    firstFailure (d.recurse rule) (d.operands n ++ [n]) = firstFailure (d.recurse rule) [n] := by
  cases h : firstFailure (d.recurse rule) (d.operands n) with
  | ok => rw [firstFailure_append_of_ok h]
  | error e =>
    rw [firstFailure_append_of_error h, firstFailure, recurse_eq, h]

end

end Dag

/-! ## The first failure among the vertices of a traversal -/

namespace Dag

variable {d : Dag K} {descend : Node → Bool} {out : Node → Except Failure A}

/-- The searches below several vertices leave vertices that fail like the first of
these, if this is so for each of them alone. -/
theorem firstFailure_searchAll {ns : List Node}
    (hstop : ∀ n ∈ ns, ∀ k, d.Below n k → descend k = false → ∃ a, out k = .ok a)
    (h : ∀ n ∈ ns, ∀ s, (∀ k ∈ s.entered, d.Below n k → ∃ a, out k = .ok a) → ∀ new,
      (d.search descend n s).left = s.left ++ new → firstFailure out new = firstFailure out [n]) :
    ∀ s, (∀ n ∈ ns, ∀ k ∈ s.entered, d.Below n k → ∃ a, out k = .ok a) → ∀ new,
      (d.searchAll descend ns s).left = s.left ++ new →
        firstFailure out new = firstFailure out ns := by
  induction ns with
  | nil =>
    intro s _ new hleft
    rw [searchAll_nil, List.self_eq_append_right] at hleft
    rw [hleft]
  | cons n ns ih =>
    intro s hs new hleft
    obtain ⟨new₁, h₁⟩ := search_adds d descend n s
    obtain ⟨new₂, h₂⟩ := searchAll_adds d descend ns (d.search descend n s)
    have hnew : new = new₁ ++ new₂ := by
      rw [searchAll_cons, h₂.left, h₁.left, List.append_assoc] at hleft
      exact (List.append_cancel_left hleft).symm
    have hfirst := h n List.mem_cons_self s (hs n List.mem_cons_self) new₁ h₁.left
    rw [hnew, show n :: ns = [n] ++ ns from rfl, firstFailure_append, firstFailure_append, hfirst]
    cases hn : firstFailure out [n] with
    | error e => rfl
    | ok =>
      refine ih (fun m hm => hstop m (List.mem_cons_of_mem _ hm))
        (fun m hm => h m (List.mem_cons_of_mem _ hm)) _ (fun m hm k hk hb => ?_) new₂ h₂.left
      have hm' : m ∈ n :: ns := List.mem_cons_of_mem _ hm
      -- the first root is computed, so all that its search has left is
      rcases h₁.entered k hk with hk | hk | hk
      · exact hs m hm' k hk hb
      · exact firstFailure_eq_ok_iff.1 (hfirst.trans hn) k hk
      · exact hstop m hm' k hb hk

/-- The vertices that a search leaves fail like its root, if all that it does
not look at again is computed. -/
theorem firstFailure_search
    (hout : ∀ n, firstFailure out (d.operands n ++ [n]) = firstFailure out [n]) (n : Node) :
    (∀ k, d.Below n k → descend k = false → ∃ a, out k = .ok a) →
    ∀ s, (∀ k ∈ s.entered, d.Below n k → ∃ a, out k = .ok a) → ∀ new,
      (d.search descend n s).left = s.left ++ new →
      firstFailure out new = firstFailure out [n] := by
  induction n using Nat.strong_induction_on with
  | _ n ih =>
    intro hstop s hs new hleft
    have hself : d.Below n n := .refl d n
    have hcomputed : ∀ a, out n = .ok a → firstFailure out [n] = .ok () := fun a ha => by
      rw [firstFailure, ha, firstFailure]
    by_cases hmem : n ∈ s.entered
    · obtain ⟨a, ha⟩ := hs n hmem hself
      rw [search_of_mem hmem, List.self_eq_append_right] at hleft
      rw [hleft, hcomputed a ha, firstFailure]
    · cases hd : descend n with
      | false =>
        obtain ⟨a, ha⟩ := hstop n hself hd
        rw [search_of_not hmem hd, List.self_eq_append_right] at hleft
        rw [hleft, hcomputed a ha, firstFailure]
      | true =>
        have hbelow : ∀ c ∈ d.operands n, ∀ k, d.Below c k → d.Below n k := fun c hc k hk =>
          (hself.operand hc).trans hk
        obtain ⟨new', hnew'⟩ := searchAll_adds d descend (d.operands n) ⟨n :: s.entered, s.left⟩
        have hnew : new = new' ++ [n] := by
          rw [search_of_descend hmem hd, hnew'.left, List.append_assoc] at hleft
          exact (List.append_cancel_left hleft).symm
        have hall := firstFailure_searchAll (fun c hc k hk => hstop k (hbelow c hc k hk))
          (fun c hc => ih c (d.operands_lt_self hc) fun k hk => hstop k (hbelow c hc k hk))
          ⟨n :: s.entered, s.left⟩ (fun c hc k hk hkc => ?_) new' hnew'.left
        · rw [hnew, firstFailure_append, hall, ← firstFailure_append, hout]
        · -- what is below an operand is not `n`
          have hne : k ≠ n := (hkc.le.trans_lt (d.operands_lt_self hc)).ne
          exact hs k ((List.mem_cons.1 hk).resolve_left hne) (hbelow c hc k hkc)

/-- **The first failure among the vertices of a traversal is that of its root.** -/
theorem firstFailure_traverse {root : Node} (h : root < d.size)
    (hout : ∀ n, firstFailure out (d.operands n ++ [n]) = firstFailure out [n])
    (hstop : ∀ n, d.Below root n → descend n = false → ∃ a, out n = .ok a) :
    firstFailure out (d.traverse descend root) = firstFailure out [root] :=
  firstFailure_search hout root hstop ⟨[], []⟩ (by simp) _
    (by rw [traverse_eq h, List.nil_append])

end Dag

end DiffGraph
