/-
  The order of a graph, as a loop and as a recursion.

  `Dag.visit` takes one pending vertex after another from a list.  `Dag.round` is
  one such step, from one `Progress` to the next.

  * `rounds_finish`: the rounds come to an end, after at most one round for each
    pending vertex, each unmarked vertex and each operand of such a vertex;
  * `postOrder`: the post-order by recursion, skipping what is listed already;
  * `traverse_eq_postOrder`: the traversal lists that post-order;
  * `Graph.order_topological`: what the order of a graph is, and in how many rounds
    it is found.
-/
import DiffGraph.Graph.Eval
import DiffGraph.Proofs.PostOrder
import DiffGraph.Proofs.Runs
import Mathlib

namespace DiffGraph

namespace Dag

variable {K : Type} {d : Dag K} {descend : Node → Bool}

/-! ## Rounds -/

/-- How far the loop of a traversal has come: the pending vertices, the marks, and
the vertices emitted, the last one first. -/
structure Progress where
  pending : List (Node × Bool)
  seen : Array Bool
  sorted : List Node

/-- One round takes the first pending vertex from the list. -/
def round (d : Dag K) (descend : Node → Bool) (s : Progress) : Progress :=
  match s.pending with
  | [] => s
  | (n, true) :: rest => ⟨rest, s.seen, n :: s.sorted⟩
  | (n, false) :: rest =>
    if h : n < s.seen.size then
      if s.seen[n] = false then
        let seen := s.seen.set n true
        if descend n then
          let fresh := (d.operands n).filter fun c => seen[c]? = some false
          ⟨fresh.map (·, false) ++ (n, true) :: rest, seen, s.sorted⟩
        else ⟨rest, seen, s.sorted⟩
      else ⟨rest, s.seen, s.sorted⟩
    else ⟨rest, s.seen, s.sorted⟩

/-- The loop before its first round. -/
def start (d : Dag K) (root : Node) : Progress :=
  ⟨[(root, false)], Array.replicate d.size false, []⟩

/-- The traversal goes on from where a round has come. -/
theorem visit_round (s : Progress) :
    d.visit descend (d.round descend s).pending (d.round descend s).seen
      (d.round descend s).sorted = d.visit descend s.pending s.seen s.sorted := by
  obtain ⟨pending, seen, sorted⟩ := s
  match pending with
  | [] => rfl
  | (n, true) :: rest => rw [visit.eq_def d descend ((n, true) :: rest)]; rfl
  | (n, false) :: rest =>
    rw [visit.eq_def d descend ((n, false) :: rest)]
    dsimp only [round]
    split
    · split
      · split <;> rfl
      · rfl
    · rfl

/-- The vertices of a list that are not marked. -/
def unmarked (seen : Array Bool) (vs : List Node) : List Node :=
  vs.filter fun n => seen[n]? = some false

/-- How often a vertex and its operands can become pending: once for the vertex
itself, when it is entered, and once for each operand. -/
def weight (d : Dag K) (n : Node) : Nat := 1 + (d.operands n).length

/-- A bound for the rounds to come. -/
def cost (d : Dag K) (vs : List Node) (s : Progress) : Nat :=
  s.pending.length + ((unmarked s.seen vs).map d.weight).sum

/-- A mark takes the vertex off the unmarked ones. -/
theorem sum_unmarked_set {seen : Array Bool} {vs : List Node} {n : Node} (h : n < seen.size)
    (hn : seen[n] = false) (hmem : n ∈ vs) (hvs : vs.Nodup) :
    d.weight n + ((unmarked (seen.set n true) vs).map d.weight).sum =
      ((unmarked seen vs).map d.weight).sum := by
  have hset : unmarked (seen.set n true) vs = (unmarked seen vs).erase n := by
    have hnodup : (unmarked seen vs).Nodup := hvs.filter _
    rw [hnodup.erase_eq_filter, unmarked, unmarked, List.filter_filter]
    refine List.filter_congr fun m _ => ?_
    rw [Array.getElem?_set]
    by_cases hmn : n = m
    · simp [hmn]
    · simp [hmn, Ne.symm hmn]
  have hin : n ∈ unmarked seen vs :=
    List.mem_filter.2 ⟨hmem, by simp [Array.getElem?_eq_getElem h, hn]⟩
  rw [hset, List.sum_map_erase _ hin]

/-- **A round costs something**, and what becomes pending is on the list. -/
theorem round_lt {vs : List Node} (hvs : vs.Nodup)
    (hclosed : ∀ n ∈ vs, descend n = true → d.operands n ⊆ vs) {s : Progress}
    (hs : ∀ p ∈ s.pending, p.1 ∈ vs) (hne : s.pending ≠ []) :
    d.cost vs (d.round descend s) < d.cost vs s ∧
      ∀ p ∈ (d.round descend s).pending, p.1 ∈ vs := by
  obtain ⟨pending, seen, sorted⟩ := s
  have drop : ∀ {p : Node × Bool} {rest : List (Node × Bool)}, pending = p :: rest →
      d.cost vs ⟨rest, seen, sorted⟩ < d.cost vs ⟨pending, seen, sorted⟩ ∧
        ∀ p ∈ rest, p.1 ∈ vs := by
    rintro p rest rfl
    refine ⟨?_, fun q hq => hs q (List.mem_cons_of_mem _ hq)⟩
    simp only [cost, List.length_cons]
    omega
  match pending with
  | [] => exact absurd rfl hne
  | (n, true) :: rest => exact drop rfl
  | (n, false) :: rest =>
    dsimp only [round]
    split
    · next h =>
      split
      · next hn =>
        have hmem : n ∈ vs := hs (n, false) List.mem_cons_self
        have hsum := sum_unmarked_set (d := d) h hn hmem hvs
        split
        · next hd =>
          -- the weight of `n` pays for its second entry and for its operands
          have hlen := List.length_filter_le
            (fun c => decide ((seen.set n true)[c]? = some false)) (d.operands n)
          constructor
          · simp only [cost, List.length_append, List.length_map, List.length_cons]
            rw [weight] at hsum
            omega
          · intro p hp
            rcases List.mem_append.1 hp with hp | hp
            · obtain ⟨c, hc, rfl⟩ := List.mem_map.1 hp
              exact hclosed n hmem hd (List.mem_filter.1 hc).1
            · rcases List.mem_cons.1 hp with rfl | hp
              · exact hmem
              · exact (drop rfl).2 p hp
        · refine ⟨?_, (drop rfl).2⟩
          simp only [cost, List.length_cons]
          omega
      · exact drop rfl
    · exact drop rfl

/-- **The rounds come to an end**, with the list of the traversal. -/
theorem rounds_finish {vs : List Node} (hvs : vs.Nodup)
    (hclosed : ∀ n ∈ vs, descend n = true → d.operands n ⊆ vs) (s : Progress)
    (hs : ∀ p ∈ s.pending, p.1 ∈ vs) :
    ∃ k ≤ d.cost vs s, ∃ seen, (d.round descend)^[k] s =
      ⟨[], seen, (d.visit descend s.pending s.seen s.sorted).reverse⟩ := by
  induction hc : d.cost vs s using Nat.strong_induction_on generalizing s with
  | _ c ih =>
    subst hc
    by_cases hne : s.pending = []
    · refine ⟨0, Nat.zero_le _, s.seen, ?_⟩
      obtain ⟨pending, seen, sorted⟩ := s
      obtain rfl : pending = [] := hne
      rw [visit, List.reverse_reverse]
      rfl
    · obtain ⟨hlt, hs'⟩ := round_lt hvs hclosed hs hne
      obtain ⟨k, hk, seen, hrun⟩ := ih _ hlt (d.round descend s) hs' rfl
      rw [visit_round] at hrun
      exact ⟨k + 1, by omega, seen, hrun⟩

/-! ## The post-order by recursion -/

/-- The vertices below `n` in post-order, from left to right, after what is listed
already.  Listed vertices are skipped. -/
def postOrder (d : Dag K) (n : Node) (listed : List Node) : List Node :=
  if n ∈ listed then listed
  else (d.operands n).attach.foldl (fun l c => d.postOrder c.1 l) listed ++ [n]
termination_by n
decreasing_by exact d.operands_lt_self c.2

theorem postOrder_of_mem {n : Node} {listed : List Node} (h : n ∈ listed) :
    d.postOrder n listed = listed := by
  rw [postOrder, if_pos h]

theorem postOrder_of_not {n : Node} {listed : List Node} (h : n ∉ listed) :
    d.postOrder n listed = (d.operands n).foldl (fun l c => d.postOrder c l) listed ++ [n] := by
  rw [postOrder, if_neg h]
  simp only [List.foldl_subtype, List.unattach_attach]

/-- Of a vertex that was both entered and left, or neither, this stays true. -/
theorem Adds.agree {roots new : List Node} {s t : Search} {m : Node}
    (h : d.Adds (fun _ => true) roots s t new) (hm : m ∈ s.entered ↔ m ∈ s.left) :
    m ∈ t.entered ↔ m ∈ t.left := by
  rw [h.left, List.mem_append, ← hm]
  constructor
  · intro ht
    rcases h.entered m ht with hs | hnew | hfalse
    · exact Or.inl hs
    · exact Or.inr hnew
    · cases hfalse
  · rintro (hs | hnew)
    · exact h.kept hs
    · exact h.added hnew

/-- **The search leaves the vertices in post-order.**  It skips what was entered and
the post-order what is listed; this is the same, as only the vertices on the way down
were entered and not left, and they are no operands of later ones. -/
theorem left_search (n : Node) (s : Search) (hs : ∀ m ≤ n, m ∈ s.entered ↔ m ∈ s.left) :
    (d.search (fun _ => true) n s).left = d.postOrder n s.left := by
  induction n using Nat.strong_induction_on generalizing s with
  | _ n ih =>
    by_cases hmem : n ∈ s.entered
    · rw [search_of_mem hmem, postOrder_of_mem ((hs n le_rfl).1 hmem)]
    · have hall : ∀ (ns : List Node) (t : Search), (∀ c ∈ ns, c < n) →
          (∀ m < n, m ∈ t.entered ↔ m ∈ t.left) →
          (d.searchAll (fun _ => true) ns t).left =
            ns.foldl (fun l c => d.postOrder c l) t.left := by
        intro ns
        induction ns with
        | nil => exact fun t _ _ => rfl
        | cons c ns ihns =>
          intro t hns ht
          have hc : c < n := hns c List.mem_cons_self
          obtain ⟨new, hnew⟩ := search_adds d (fun _ => true) c t
          rw [searchAll_cons, ihns _ (fun m hm => hns m (List.mem_cons_of_mem _ hm))
            fun m hm => hnew.agree (ht m hm), List.foldl_cons,
            ih c hc t fun m hm => ht m (hm.trans_lt hc)]
      rw [search_of_descend hmem rfl, postOrder_of_not (mt (hs n le_rfl).2 hmem),
        hall _ _ (fun c hc => d.operands_lt_self hc)]
      intro m hm
      rw [List.mem_cons, or_iff_right hm.ne, hs m hm.le]

/-- **The traversal lists the post-order.** -/
theorem traverse_eq_postOrder {root : Node} (h : root < d.size) :
    d.traverse (fun _ => true) root = d.postOrder root [] := by
  rw [traverse_eq h, left_search _ _ fun _ _ => Iff.rfl]

/-- The rounds that a traversal takes. -/
theorem traverse_rounds {root : Node} (h : root < d.size) :
    ∃ k ≤ 1 + ((d.traverse (fun _ => true) root).map d.weight).sum, ∃ seen,
      (d.round fun _ => true)^[k] (d.start root) =
        ⟨[], seen, (d.traverse (fun _ => true) root).reverse⟩ := by
  have hmem : ∀ {m : Node}, m ∈ d.traverse (fun _ => true) root ↔ d.Below root m := fun {m} =>
    (mem_traverse h).trans (and_iff_right rfl)
  have hcost : d.cost (d.traverse (fun _ => true) root) (d.start root) =
      1 + ((d.traverse (fun _ => true) root).map d.weight).sum := by
    have hall : unmarked (Array.replicate d.size false) (d.traverse (fun _ => true) root) =
        d.traverse (fun _ => true) root := List.filter_eq_self.2 fun m hm => by
      have hlt : m < d.size := (hmem.1 hm).le.trans_lt h
      simp [hlt]
    rw [cost, start, hall]
    rfl
  rw [← hcost]
  refine rounds_finish (nodup_traverse root) (fun n hn _ c hc => ?_) _ fun p hp => ?_
  · exact hmem.2 ((hmem.1 hn).operand hc)
  · rw [List.mem_singleton.1 hp]
    exact hmem.2 (.refl d root)

end Dag

namespace Graph

variable {K E : Type}

/-- **The order of a graph.**  The loop that computes it ends, after at most one round
and, for each vertex below the root, one round for it and one for each of its operands.
The order has the vertices below the root, each one once, after all its operands, and
the root last; it is the post-order from left to right. -/
theorem order_topological (g : Graph K E) {root : Node} (h : root < g.size) :
    (∃ k ≤ 1 + ((g.order root).map fun n => 1 + (g.op n).operands.length).sum, ∃ seen,
        (g.dag.round fun _ => true)^[k] (g.dag.start root) =
          ⟨[], seen, (g.order root).reverse⟩) ∧
      (∀ n, n ∈ g.order root ↔ g.dag.Below root n) ∧ (g.order root).Nodup ∧
      (∀ pre n post, g.order root = pre ++ n :: post → ∀ c ∈ (g.op n).operands, c ∈ pre) ∧
      (∃ pre, g.order root = pre ++ [root]) ∧
      g.order root = g.dag.postOrder root [] := by
  refine ⟨Dag.traverse_rounds h, fun n => ?_, Dag.nodup_traverse root, fun pre n post hl c hc => ?_,
    Dag.traverse_eq_concat h rfl, Dag.traverse_eq_postOrder h⟩
  · exact (Dag.mem_traverse h).trans (and_iff_right rfl)
  · exact Dag.operand_before hl hc rfl

/-- A column with one member twice, windowed with one number as kernel and bias. -/
def windowed : Graph Int Int :=
  (do
    let a ← parameter (.zeros 2 2)
    let b ← parameter (.zeros 1 3)
    let column ← record (.flatten [b, a, b])
    let kernel ← scalar 1
    record (.convolution 1 column kernel kernel) : Step (Graph Int Int) Node).final
      (.empty 0 ⟨fun _ => 0, fun _ => 0⟩)

theorem order_windowed : 4 < windowed.size ∧ windowed.order 4 = [1, 0, 2, 3, 4] := by
  have hsize : 4 < windowed.size := by decide
  have hops : windowed.dag.operands 4 = [2, 3, 3] ∧ windowed.dag.operands 3 = [] ∧
      windowed.dag.operands 2 = [1, 0, 1] ∧ windowed.dag.operands 1 = [] ∧
      windowed.dag.operands 0 = [] := by decide
  obtain ⟨-, -, -, -, -, hpost⟩ := order_topological windowed hsize
  exact ⟨hsize, by rw [hpost]; simp [Dag.postOrder_of_not, Dag.postOrder_of_mem, hops]⟩

end Graph

end DiffGraph
