/-
  Lanes that are repeated, and lanes that are added up.

  An element is broadcast to a wider one by repeating its lanes, and a wide element is folded to
  a narrower one by adding up lanes.  In exact arithmetic the one is the transpose of the other.

  * `Laned.total_eq_sum`, `Laned.lane_fold_eq_sum`: the sum of all lanes and a lane of what was
    folded, as sums over lanes;
  * `Laned.sum_lane_fold_mul`: sums over the lanes of what was folded, each weighted, are sums
    over all lanes;
  * `Laned.Feeds`: where a lane goes when an element is folded;
  * `Laned.fold_transposes_broadcast`: the transposition.
-/
import Mathlib
import DiffGraph.Proofs.Folding
import DiffGraph.Proofs.Pairing

namespace DiffGraph

open Finset

namespace Laned

variable {K S T : Type} [Exact K] [Arith S] [Arith T] [Laned K S] [Laned K T] [Lawful K S]
  [Totals K T]

omit [Arith T] in
/-- The sum of all lanes. -/
theorem total_eq_sum (v : T) : total v = ∑ l ∈ range (width T), lane v l := by
  have hzero : ∀ x : K, -0 + x = x := fun x => by rw [neg_zero, zero_add]
  rw [Totals.total_eq hzero, List.foldl_map, Matrix.foldl_eq_sum, hzero]

omit [Arith T] in
/-- **A lane of what was folded** is the sum of the lanes that agree with it modulo the width. -/
theorem lane_fold_eq_sum (g : T) {j : Nat} (hj : j < width S) (hw : width S ≤ width T) :
    lane (fold g : S) j = ∑ l ∈ range (width T) with l % width S = j, lane g l := by
  have hzero : ∀ x : K, -0 + x = x := fun x => by rw [neg_zero, zero_add]
  have hlanes : (strideOf (width T) (width S) j).toFinset =
      {l ∈ range (width T) | l % width S = j} := Finset.ext fun l => by simp [mem_strideOf]
  have hnodup : (strideOf (width T) (width S) j).Nodup := List.nodup_range.filter _
  rw [lane_fold zero_add hzero g hj hw, DiffGraph.total, ← List.sum_eq_foldl, ← hlanes,
    List.sum_toFinset _ hnodup]

omit [Arith T] in
/-- **Every lane is added up once**: weights of the narrow lanes are weights of the wide ones. -/
theorem sum_lane_fold_mul (hS : 0 < width S) (hw : width S ≤ width T) (g : T) (w : Nat → K) :
    ∑ j ∈ range (width S), w j * lane (fold g : S) j =
      ∑ l ∈ range (width T), w (l % width S) * lane g l := by
  calc ∑ j ∈ range (width S), w j * lane (fold g : S) j
      = ∑ j ∈ range (width S), ∑ l ∈ range (width T) with l % width S = j,
          w (l % width S) * lane g l := by
        refine sum_congr rfl fun j hj => ?_
        rw [lane_fold_eq_sum g (mem_range.1 hj) hw, mul_sum]
        exact sum_congr rfl fun l hl => by rw [(mem_filter.1 hl).2]
    _ = ∑ l ∈ range (width T), w (l % width S) * lane g l :=
        sum_fiberwise_of_maps_to (fun l _ => mem_range.2 (Nat.mod_lt l hS)) _

/-- A change of lane `l` alone changes lane `j` of what is folded by as much, and no other. -/
def Feeds (S : Type) {T : Type} [Laned K S] [Laned K T] (l j : Nat) : Prop :=
  ∀ g g' : T, (∀ k < width T, k ≠ l → lane g' k = lane g k) → ∀ i < width S,
    lane (fold g' : S) i = lane (fold g : S) i + if i = j then lane g' l - lane g l else 0

variable [Lawful K T]

/-- **A lane goes to one lane** of what is folded. -/
theorem existsUnique_feeds (hS : 0 < width S) (hw : width S ≤ width T) {l : Nat}
    (hl : l < width T) : ∃! j, j < width S ∧ Feeds S (T := T) l j := by
  have hfeeds : Feeds S (T := T) l (l % width S) := by
    intro g g' hsame i hi
    -- the two sums differ in the term of lane `l`, if it is there
    have hdiff : ∀ k < width T, lane g' k - lane g k = if k = l then lane g' l - lane g l else 0 := by
      intro k hk
      split
      · next hkl => rw [hkl]
      · next hkl => rw [hsame k hk hkl, sub_self]
    rw [← sub_eq_iff_eq_add', lane_fold_eq_sum g' hi hw, lane_fold_eq_sum g hi hw,
      ← sum_sub_distrib, sum_congr rfl fun k hk => hdiff k (mem_range.1 (mem_filter.1 hk).1),
      sum_ite_eq']
    simp [hl, eq_comm]
  refine ⟨l % width S, ⟨Nat.mod_lt l hS, hfeeds⟩, fun j ⟨hj, hfeeds'⟩ => ?_⟩
  -- a one in lane `l` shows where it goes
  let g : T := ofLanes fun _ => 0
  let g' : T := ofLanes fun k => if k = l then 1 else 0
  have hg : ∀ k < width T, lane g k = 0 := fun k hk => Lawful.lane_ofLanes hk _
  have hg' : ∀ k < width T, lane g' k = if k = l then 1 else 0 := fun k hk =>
    Lawful.lane_ofLanes hk _
  have hsame : ∀ k < width T, k ≠ l → lane g' k = lane g k := fun k hk hkl => by
    rw [hg k hk, hg' k hk, if_neg hkl]
  have hone : lane g' l - lane g l = 1 := by rw [hg l hl, hg' l hl, if_pos rfl, sub_zero]
  have heq := (hfeeds' g g' hsame j hj).symm.trans (hfeeds g g' hsame j hj)
  rw [add_right_inj, if_pos rfl, hone] at heq
  by_contra hne
  rw [if_neg hne] at heq
  exact one_ne_zero heq

/-- **Folding is the transpose of broadcasting**, for all elements with a lane at least and
elements that are as wide or wider.  Sums over lanes of products are the same on both sides;
each lane goes to one lane of what is folded, so that the sum of all lanes stays; and what was
broadcast comes back. -/
theorem fold_transposes_broadcast [Totals K S] [Extensional K S] (hS : 0 < width S)
    (hw : width S ≤ width T) :
    (∀ (x : S) (g : T), total ((broadcast x : T) * g) = total (x * (fold g : S))) ∧
    (∀ l < width T, ∃! j, j < width S ∧ Feeds S (T := T) l j) ∧
    (∀ g : T, total (fold g : S) = total g) ∧
    ∀ x : S, (broadcast (broadcast x : T) : S) = x := by
  refine ⟨fun x g => ?_, fun l hl => existsUnique_feeds hS hw hl, fun g => ?_,
    broadcast_broadcast hw⟩
  · calc total ((broadcast x : T) * g)
        = ∑ l ∈ range (width T), lane x (l % width S) * lane g l := by
          rw [total_eq_sum]
          refine sum_congr rfl fun l hl => ?_
          have hlt : l < width T := mem_range.1 hl
          rw [(Lawful.preserves (K := K) hlt).mul, broadcast, Lawful.lane_ofLanes hlt]
      _ = ∑ j ∈ range (width S), lane x j * lane (fold g : S) j :=
          (sum_lane_fold_mul hS hw g (lane x)).symm
      _ = total (x * (fold g : S)) := by
          rw [total_eq_sum]
          refine sum_congr rfl fun j hj => ?_
          rw [(Lawful.preserves (K := K) (mem_range.1 hj)).mul]
  · have hweights := sum_lane_fold_mul hS hw g fun _ => (1 : K)
    simp only [one_mul] at hweights
    rw [total_eq_sum, total_eq_sum, hweights]

/-- Two lanes and five: neither width divides the other. -/
theorem fold_transposes_broadcast_five :
    let x : Lanes ℚ 2 := ⟨#v[1, 2]⟩
    let g : Lanes ℚ 5 := ⟨#v[1, 2, 3, 4, 5]⟩
    0 < width (Lanes ℚ 2) ∧ width (Lanes ℚ 2) ≤ width (Lanes ℚ 5) ∧
      total ((broadcast x : Lanes ℚ 5) * g) = total (x * (fold g : Lanes ℚ 2)) ∧
      total (x * (fold g : Lanes ℚ 2)) = 21 ∧ total (fold g : Lanes ℚ 2) = total g := by
  intro x g
  have hS : 0 < width (Lanes ℚ 2) := Nat.two_pos
  have hw : width (Lanes ℚ 2) ≤ width (Lanes ℚ 5) := (by decide : 2 ≤ 5)
  obtain ⟨htransposed, -, htotal, -⟩ :=
    fold_transposes_broadcast (S := Lanes ℚ 2) (T := Lanes ℚ 5) hS hw
  have hvalue : total (x * (fold g : Lanes ℚ 2)) = 21 := by decide +kernel
  exact ⟨hS, hw, htransposed x g, hvalue, htotal g⟩

end Laned

end DiffGraph
