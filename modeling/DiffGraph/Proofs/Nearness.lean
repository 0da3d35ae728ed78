/-
  Matrices that are near what is expected.

  A matrix is compared with expected numbers lane by lane, and refused at the first lane that is
  farther away than a tolerance.  What compares with nothing is not farther away.

  * `Matrix.Far`: a lane that is too far away;
  * `Matrix.mismatch_iff`: which matrices are accepted, and where the others are refused.
-/
import Mathlib
import DiffGraph.Matrix.Near
import DiffGraph.Proofs.Exponentials

namespace DiffGraph

/-! ## Lanes that are too far away -/

/-- The first member of a list for which something is found. -/
theorem findSome?_eq_some_iff_first {α β : Type} {f : α → Option β} {l : List α} {b : β} :
    l.findSome? f = some b ↔
      ∃ (i : Nat) (a : α), l[i]? = some a ∧ f a = some b ∧
        ∀ j < i, ∀ c, l[j]? = some c → f c = none := by
  rw [List.findSome?_eq_some_iff]
  constructor
  · rintro ⟨before, a, after, rfl, ha, hbefore⟩
    refine ⟨before.length, a, by simp, ha, fun j hj c hc => hbefore c ?_⟩
    rw [List.getElem?_append_left hj] at hc
    exact List.mem_of_getElem? hc
  · rintro ⟨i, a, hi, ha, hbefore⟩
    obtain ⟨hlt, rfl⟩ := List.getElem?_eq_some_iff.1 hi
    refine ⟨l.take i, l[i], l.drop (i + 1), ?_, ha, fun c hc => ?_⟩
    · rw [← List.drop_eq_getElem_cons hlt, List.take_append_drop]
    · obtain ⟨j, hj⟩ := List.mem_iff_getElem?.1 hc
      rw [List.getElem?_take] at hj
      split at hj
      · next hji => exact hbefore j hji c hj
      · cases hj

namespace Matrix

variable {E : Type} [Laned Float32 E]

/-- Lane `lane` of entry `i` holds `actual`, and `wanted` is expected of the entry. -/
structure Compares (m : Matrix E) (expected : List Float32) (i lane : Nat)
    (actual wanted : Float32) : Prop where
  actual : ∃ e, m.data[i]? = some e ∧ Laned.lane e lane = actual
  wanted : expected[i]? = some wanted
  lane : lane < Laned.width E

/-- A lane that is farther from what is expected than the tolerance. -/
def Far (m : Matrix E) (expected : List Float32) (tolerance : Float32) (i lane : Nat) : Prop :=
  ∃ a x, m.Compares expected i lane a x ∧ tolerance < (a - x).abs

theorem farLane?_eq_none_iff {e : E} {x tolerance : Float32} {i : Nat} :
    farLane? e x tolerance i = none ↔
      ∀ lane < Laned.width E, ¬ tolerance < (Laned.lane e lane - x).abs := by
  simp [farLane?]

/-- The lowest lane that is too far away. -/
theorem farLane?_eq_some_iff {e : E} {x tolerance : Float32} {i : Nat} {b : Mismatch} :
    farLane? e x tolerance i = some b ↔ ∃ lane < Laned.width E,
      tolerance < (Laned.lane e lane - x).abs ∧
      b = .entry i lane (Laned.lane e lane) x (Laned.lane e lane - x).abs tolerance ∧
      ∀ k < lane, ¬ tolerance < (Laned.lane e k - x).abs := by
  rw [farLane?, findSome?_eq_some_iff_first]
  constructor
  · rintro ⟨j, lane, hj, hb, hfirst⟩
    obtain ⟨hlt, rfl⟩ : j < Laned.width E ∧ lane = j := by
      obtain ⟨hlt, hget⟩ := List.getElem?_eq_some_iff.1 hj
      rw [List.getElem_range] at hget
      exact ⟨by simpa using hlt, hget.symm⟩
    dsimp only at hb
    split at hb
    · next hfar =>
      refine ⟨lane, hlt, hfar, (Option.some.inj hb).symm, fun k hk hfark => ?_⟩
      have hnone := hfirst k hk k (List.getElem?_range (hk.trans hlt))
      rw [if_pos hfark] at hnone
      cases hnone
    · cases hb
  · rintro ⟨lane, hlt, hfar, rfl, hfirst⟩
    refine ⟨lane, lane, List.getElem?_range hlt, if_pos hfar, fun k hk c hc => ?_⟩
    rw [List.getElem?_range (hk.trans hlt)] at hc
    obtain rfl := Option.some.inj hc
    exact if_neg (hfirst k hk)

variable {m : Matrix E} {expected : List Float32} {tolerance : Float32}

omit [Laned Float32 E] in
/-- The entries with what is expected of them. -/
theorem getElem?_pairs {i : Nat} {p : (E × Float32) × Nat} :
    (m.data.toList.zip expected).zipIdx[i]? = some p ↔
      m.data[i]? = some p.1.1 ∧ expected[i]? = some p.1.2 ∧ p.2 = i := by
  obtain ⟨⟨e, x⟩, k⟩ := p
  rw [List.getElem?_zipIdx, Option.map_eq_some_iff]
  constructor
  · rintro ⟨z, hz, heq⟩
    obtain ⟨rfl, rfl⟩ := Prod.mk.inj heq
    rw [List.getElem?_zip_eq_some, Array.getElem?_toList] at hz
    exact ⟨hz.1, hz.2, Nat.zero_add i⟩
  · rintro ⟨he, hx, rfl⟩
    refine ⟨(e, x), ?_, by rw [Nat.zero_add]⟩
    rw [List.getElem?_zip_eq_some, Array.getElem?_toList]
    exact ⟨he, hx⟩

/-- **No lane is found** if none is too far away. -/
theorem findSome?_farLane?_eq_none_iff :
    ((m.data.toList.zip expected).zipIdx.findSome? fun ((e, x), i) => farLane? e x tolerance i) =
      none ↔ ∀ i lane, ¬ m.Far expected tolerance i lane := by
  rw [List.findSome?_eq_none_iff]
  constructor
  · rintro hnone i lane ⟨a, x, ⟨⟨e, he, rfl⟩, hx, hlane⟩, hfar⟩
    have hmem : ((e, x), i) ∈ (m.data.toList.zip expected).zipIdx :=
      List.mem_of_getElem? (getElem?_pairs.2 ⟨he, hx, rfl⟩)
    exact farLane?_eq_none_iff.1 (hnone _ hmem) lane hlane hfar
  · intro hnone p hp
    obtain ⟨i, hi⟩ := List.mem_iff_getElem?.1 hp
    obtain ⟨he, hx, -⟩ := getElem?_pairs.1 hi
    exact farLane?_eq_none_iff.2 fun lane hlane hfar =>
      hnone i lane ⟨_, _, ⟨⟨_, he, rfl⟩, hx, hlane⟩, hfar⟩

/-- **The lane that is found** is the first one that is too far away: entries come in their order,
and the lanes of an entry in theirs. -/
theorem findSome?_farLane?_eq_some_iff {b : Mismatch} :
    ((m.data.toList.zip expected).zipIdx.findSome? fun ((e, x), i) => farLane? e x tolerance i) =
      some b ↔ ∃ i lane a x, m.Compares expected i lane a x ∧ tolerance < (a - x).abs ∧
        b = .entry i lane a x (a - x).abs tolerance ∧
        ∀ j k, j < i ∨ j = i ∧ k < lane → ¬ m.Far expected tolerance j k := by
  rw [findSome?_eq_some_iff_first]
  constructor
  · rintro ⟨i, ⟨⟨e, x⟩, k⟩, hi, hb, hfirst⟩
    obtain ⟨he, hx, rfl⟩ := getElem?_pairs.1 hi
    obtain ⟨lane, hlane, hfar, rfl, hlow⟩ := farLane?_eq_some_iff.1 hb
    refine ⟨k, lane, _, x, ⟨⟨e, he, rfl⟩, hx, hlane⟩, hfar, rfl, ?_⟩
    rintro j l hjl ⟨a', x', ⟨⟨e', he', rfl⟩, hx', hl⟩, hfar'⟩
    rcases hjl with hj | ⟨rfl, hl'⟩
    · have hnone := hfirst j hj ((e', x'), j) (getElem?_pairs.2 ⟨he', hx', rfl⟩)
      exact farLane?_eq_none_iff.1 hnone l hl hfar'
    · obtain rfl := Option.some.inj (he.symm.trans he')
      obtain rfl := Option.some.inj (hx.symm.trans hx')
      exact hlow l hl' hfar'
  · rintro ⟨i, lane, a, x, ⟨⟨e, he, rfl⟩, hx, hlane⟩, hfar, rfl, hfirst⟩
    refine ⟨i, ((e, x), i), getElem?_pairs.2 ⟨he, hx, rfl⟩, ?_, ?_⟩
    · exact farLane?_eq_some_iff.2 ⟨lane, hlane, hfar, rfl, fun k hk hfark =>
        hfirst i k (.inr ⟨rfl, hk⟩) ⟨_, x, ⟨⟨e, he, rfl⟩, hx, hk.trans hlane⟩, hfark⟩⟩
    · rintro j hj ⟨⟨e', x'⟩, k⟩ hget
      obtain ⟨he', hx', rfl⟩ := getElem?_pairs.1 hget
      exact farLane?_eq_none_iff.2 fun l hl hfar' =>
        hfirst k l (.inl hj) ⟨_, x', ⟨⟨e', he', rfl⟩, hx', hl⟩, hfar'⟩

/-- **Which matrices are accepted, and where the others are refused.**  The shape and the number of
entries have to be as expected, and each lane has to be within the tolerance or must not compare
with what is expected: the lane, the expected number or the tolerance is no number, or the first two
are the same infinity.  What is refused otherwise is the first lane beyond the tolerance, entries in
row-major order and then lanes in ascending order. -/
theorem mismatch_iff (m : Matrix E) (s : Shape) (expected : List Float32) (tolerance : Float32) :
    (m.mismatch? s expected tolerance = none ↔ m.shape = s ∧ m.size = expected.length ∧
      ∀ i lane a x, m.Compares expected i lane a x → (a - x).abs ≤ tolerance ∨
        a.isNaN = true ∨ x.isNaN = true ∨ tolerance.isNaN = true ∨ a = x ∧ a.isInf = true) ∧
    (m.mismatch? s expected tolerance = some .shape ↔ m.shape ≠ s) ∧
    (m.mismatch? s expected tolerance = some .length ↔
      m.shape = s ∧ m.size ≠ expected.length) ∧
    ∀ i lane a x difference bound,
      m.mismatch? s expected tolerance = some (.entry i lane a x difference bound) ↔
        m.shape = s ∧ m.size = expected.length ∧ m.Compares expected i lane a x ∧
        difference = (a - x).abs ∧ bound = tolerance ∧ tolerance < difference ∧
        ∀ j k, j < i ∨ j = i ∧ k < lane → ¬ m.Far expected tolerance j k := by
  have hnear : ∀ a x : Float32, ¬ tolerance < (a - x).abs ↔ (a - x).abs ≤ tolerance ∨
      a.isNaN = true ∨ x.isNaN = true ∨ tolerance.isNaN = true ∨ a = x ∧ a.isInf = true := by
    intro a x
    rw [Binary32.not_lt_iff, Binary32.isNaN_abs, Binary32.isNaN_sub_iff]
    tauto
  have hfar : (∀ i lane, ¬ m.Far expected tolerance i lane) ↔
      ∀ i lane a x, m.Compares expected i lane a x → ¬ tolerance < (a - x).abs :=
    ⟨fun h i lane a x hc hlt => h i lane ⟨a, x, hc, hlt⟩,
      fun h i lane ⟨a, x, hc, hlt⟩ => h i lane a x hc hlt⟩
  simp only [← hnear]
  unfold mismatch?
  by_cases hshape : m.shape = s
  · by_cases hlength : m.size = expected.length
    · simp only [hshape, hlength, ne_eq, not_true_eq_false, if_false, true_and,
        findSome?_farLane?_eq_none_iff, findSome?_farLane?_eq_some_iff, hfar]
      refine ⟨by simp, by simp, ?_⟩
      · intro i lane a x difference bound
        constructor
        · rintro ⟨_, _, _, _, hc, hlt, heq, hfirst⟩
          cases heq
          exact ⟨hc, rfl, rfl, hlt, hfirst⟩
        · rintro ⟨hc, rfl, rfl, hlt, hfirst⟩
          exact ⟨i, lane, a, x, hc, hlt, rfl, hfirst⟩
    · simp [hshape, hlength]
  · simp [hshape]

/-- What is no number is accepted. -/
example : (scalar (0 / 0 : Float32)).mismatch? (1, 1) [1] 0 = none := by decide +kernel

end Matrix

end DiffGraph
