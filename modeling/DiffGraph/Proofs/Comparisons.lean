/-
  Numbers that are compared.

  Maxima and masks come from comparisons.  What a comparison says of the numbers of a
  lane is the same in exact and in rounded arithmetic, if the numbers that compare with
  nothing are left out.

  * `Compared`: the numbers that can be compared have places in a linear order, on which
    the maximum and the mask of equal numbers depend; a finite number times one is
    itself, and times zero it adds nothing;
  * `Ordered`: a linearly ordered field is compared by its order;
  * single precision is compared by sign, exponent and mantissa (`Binary32.place`), but
    for what is not a number; both zeros have the same place;
  * `foldl_max`: the maximum of a list is one of its numbers, and bounds them.
-/
import DiffGraph.Proofs.Exact
import DiffGraph.Proofs.SinglePrecision
import Mathlib

open Float.Model (Format UnpackedFloat totalExponent)
open Float.Model.UnpackedFloat (ExtendedMantissa Sign roundWithAccuracy shiftToExponent
  shiftToTargetExponent unpackMantissa)

namespace DiffGraph

/-- The arithmetic of masks. -/
structure Masks (K : Type) [Arith K] : Prop where
  one_sub_zero : (1 - 0 : K) = 1
  one_sub_one : (1 - 1 : K) = 0
  one_mul_one : (1 * 1 : K) = 1
  one_mul_zero : (1 * 0 : K) = 0
  zero_mul_one : (0 * 1 : K) = 0
  zero_mul_zero : (0 * 0 : K) = 0
  zero_add_zero : (0 + 0 : K) = 0
  zero_add_one : (0 + 1 : K) = 1
  one_add_zero : (1 + 0 : K) = 1

/-- How the numbers of a lane are compared. -/
class Compared (K : Type) [Arith K] where
  Place : Type
  order : LinearOrder Place
  /-- where a number stands in the order -/
  place : K → Place
  /-- the number can be compared with others -/
  Comparable : K → Prop
  /-- the number can be masked -/
  IsFinite : K → Prop
  masks : Masks K
  max_choice : ∀ {a b : K}, Comparable a → Comparable b → Arith.max a b = a ∨ Arith.max a b = b
  place_max : ∀ {a b : K}, Comparable a → Comparable b →
    place (Arith.max a b) = max (place a) (place b)
  eqMask : ∀ {a b : K}, Comparable a → Comparable b →
    Arith.eqMask a b = if place a = place b then 1 else 0
  mul_one : ∀ {g : K}, IsFinite g → g * 1 = g
  add_mul_zero : ∀ {g : K}, IsFinite g → 0 + g * 0 = 0

instance {K : Type} [Arith K] [Compared K] : LinearOrder (Compared.Place K) := Compared.order

/-! ## Linearly ordered fields -/

/-- Elements that form a linearly ordered field and are compared by its order. -/
class Ordered (K : Type) [Exact K] [LinearOrder K] : Prop extends IsStrictOrderedRing K where
  arith_max : ∀ a b : K, Arith.max a b = max a b
  arith_eqMask : ∀ a b : K, Arith.eqMask a b = if a = b then 1 else 0

instance {K : Type} [Exact K] [LinearOrder K] [Ordered K] : Compared K where
  Place := K
  order := inferInstance
  place := id
  Comparable _ := True
  IsFinite _ := True
  masks := by constructor <;> simp
  max_choice {a b} _ _ := by
    rw [Ordered.arith_max]
    rcases le_total a b with h | h
    · exact Or.inr (max_eq_right h)
    · exact Or.inl (max_eq_left h)
  place_max {a b} _ _ := Ordered.arith_max a b
  eqMask {a b} _ _ := Ordered.arith_eqMask a b
  mul_one _ := mul_one _
  add_mul_zero _ := by simp

instance : Ordered ℚ where
  arith_max a b := by
    rw [max_def_lt]
    rfl
  arith_eqMask _ _ := rfl

instance : Ordered ℝ where
  arith_max _ _ := rfl
  arith_eqMask _ _ := rfl

/-! ## Single precision -/

namespace Binary32

/-- The sign of a number, and what decides between numbers of one sign. -/
def place : UnpackedFloat → ℤ ×ₗ ℤ ×ₗ ℤ
  | .infinity .positive => toLex (2, toLex (0, 0))
  | .infinity .negative => toLex (-2, toLex (0, 0))
  | .finite .positive m e _ => toLex (1, toLex (e, m))
  | .finite .negative m e _ => toLex (-1, toLex (-e, -m))
  | .zero _ | .notANumber => toLex (0, toLex (0, 0))

theorem cmp_toLex {α β : Type} [LinearOrder α] [LinearOrder β] (a c : α) (b d : β) :
    cmp (toLex (a, b)) (toLex (c, d)) = (cmp a c).then (cmp b d) := by
  rcases lt_trichotomy a c with h | rfl | h
  · have hlt : toLex (a, b) < toLex (c, d) := Prod.Lex.toLex_lt_toLex.2 (Or.inl h)
    rw [h.cmp_eq_lt, hlt.cmp_eq_lt]
    rfl
  · rw [cmp_self_eq_eq, Ordering.eq_then]
    rcases lt_trichotomy b d with h | rfl | h
    · have hlt : toLex (a, b) < toLex (a, d) := Prod.Lex.toLex_lt_toLex.2 (Or.inr ⟨rfl, h⟩)
      rw [h.cmp_eq_lt, hlt.cmp_eq_lt]
    · rw [cmp_self_eq_eq, cmp_self_eq_eq]
    · have hlt : toLex (a, d) < toLex (a, b) := Prod.Lex.toLex_lt_toLex.2 (Or.inr ⟨rfl, h⟩)
      rw [h.cmp_eq_gt, hlt.cmp_eq_gt]
  · have hlt : toLex (c, d) < toLex (a, b) := Prod.Lex.toLex_lt_toLex.2 (Or.inl h)
    rw [h.cmp_eq_gt, hlt.cmp_eq_gt]
    rfl

theorem cmp_neg_neg (a b : ℤ) : cmp (-a) (-b) = cmp b a := by
  rcases lt_trichotomy a b with h | rfl | h
  · rw [h.cmp_eq_gt, (neg_lt_neg h).cmp_eq_gt]
  · rw [cmp_self_eq_eq, cmp_self_eq_eq]
  · rw [h.cmp_eq_lt, (neg_lt_neg h).cmp_eq_lt]

/-- **Numbers are compared by their places.** -/
theorem compare_eq {u v : UnpackedFloat} (hu : u.isNaN = false) (hv : v.isNaN = false) :
    u.compare v = some (cmp (place u) (place v)) := by
  have hcast : ∀ m k : ℕ, cmp (m : ℤ) (k : ℤ) = cmp m k := Nat.strictMono_cast.cmp_map_eq
  cases u with
  | notANumber => cases hu
  | infinity s =>
    cases v with
    | notANumber => cases hv
    | infinity t | zero t => cases s <;> cases t <;> rfl
    | finite t k f hk => cases s <;> cases t <;> simp only [place, cmp_toLex] <;> rfl
  | zero s =>
    cases v with
    | notANumber => cases hv
    | infinity t | zero t => cases s <;> cases t <;> rfl
    | finite t k f hk => cases t <;> simp only [place, cmp_toLex] <;> rfl
  | finite s m e hm =>
    cases v with
    | notANumber => cases hv
    | infinity t | zero t => cases s <;> cases t <;> simp only [place, cmp_toLex] <;> rfl
    | finite t k f hk =>
      cases s <;> cases t <;> simp only [place, cmp_toLex]
      · rw [cmp_self_eq_eq, Ordering.eq_then, cmp_neg_neg, cmp_neg_neg, hcast]
        simp only [UnpackedFloat.compare, Ordering.swap_then, ← cmp_eq_compare, cmp_swap]
      · rfl
      · rfl
      · rw [cmp_self_eq_eq, Ordering.eq_then, hcast]
        simp only [UnpackedFloat.compare, ← cmp_eq_compare]

theorem lt_iff_place {x y : Float32} (hx : x.isNaN = false) (hy : y.isNaN = false) :
    x < y ↔ place x.toModel.unpack < place y.toModel.unpack := by
  have hlt : x < y ↔ (x.toModel.unpack.compare y.toModel.unpack == some .lt) = true :=
    decide_eq_true_iff (p := x.toModel < y.toModel)
  rw [hlt, compare_eq hx hy, beq_iff_eq, Option.some_inj, cmp_eq_lt_iff]

theorem beq_iff_place {x y : Float32} (hx : x.isNaN = false) (hy : y.isNaN = false) :
    (x == y) = true ↔ place x.toModel.unpack = place y.toModel.unpack := by
  have hbeq : (x == y) = (x.toModel.unpack.compare y.toModel.unpack == some .eq) := rfl
  rw [hbeq, compare_eq hx hy, beq_iff_eq, Option.some_inj, cmp_eq_eq_iff]

theorem compare_of_isNaN {u v : UnpackedFloat} (h : u.isNaN = true ∨ v.isNaN = true) :
    u.compare v = none := by
  cases u <;> cases v <;> simp_all [UnpackedFloat.compare, UnpackedFloat.isNaN]

theorem isNaN_of_lt {x y : Float32} (h : x < y) : x.isNaN = false ∧ y.isNaN = false := by
  have hlt : x < y ↔ (x.toModel.unpack.compare y.toModel.unpack == some .lt) = true :=
    decide_eq_true_iff (p := x.toModel < y.toModel)
  by_contra hnan
  have hnone : x.toModel.unpack.compare y.toModel.unpack = none := by
    refine compare_of_isNaN ?_
    by_contra hne
    rw [not_or, Bool.not_eq_true, Bool.not_eq_true] at hne
    exact hnan hne
  rw [hlt, hnone] at h
  cases h

/-- **When a number is not below another one.** -/
theorem not_lt_iff {x y : Float32} : ¬ x < y ↔ y ≤ x ∨ x.isNaN = true ∨ y.isNaN = true := by
  have hle : y ≤ x ↔ (y.toModel.unpack.compare x.toModel.unpack).any Ordering.isLE = true :=
    decide_eq_true_iff (p := y.toModel ≤ x.toModel)
  have hlt : x < y ↔ (x.toModel.unpack.compare y.toModel.unpack == some .lt) = true :=
    decide_eq_true_iff (p := x.toModel < y.toModel)
  by_cases h : x.isNaN = true ∨ y.isNaN = true
  · have hnone : ¬ x < y := by
      rw [hlt, compare_of_isNaN h]
      decide
    exact iff_of_true hnone (.inr h)
  · have hx : x.isNaN = false := by simpa using fun hx => h (.inl hx)
    have hy : y.isNaN = false := by simpa using fun hy => h (.inr hy)
    rw [or_iff_left h, lt_iff_place hx hy, hle, compare_eq hy hx, Option.any_some,
      Ordering.isLE_iff_ne_gt, cmp_eq_gt_iff]

/-! ### A number times one -/

/-- The bits that are shifted out are all zero. -/
theorem exact_shiftRight (m k : ℕ) :
    ExtendedMantissa.ofMantissaAndAccuracy (m * 2 ^ k) .exact >>> k =
      ExtendedMantissa.ofMantissaAndAccuracy m .exact := by
  induction k generalizing m with
  | zero => rw [pow_zero, Nat.mul_one]; rfl
  | succ k ih =>
    have hstep : ExtendedMantissa.ofMantissaAndAccuracy (m * 2 ^ (k + 1)) .exact >>> (k + 1) =
        (ExtendedMantissa.ofMantissaAndAccuracy (m * 2 ^ (k + 1)) .exact >>> k).shiftRightOne := rfl
    rw [hstep, pow_succ', ← Nat.mul_assoc, ih]
    simp [ExtendedMantissa.ofMantissaAndAccuracy, ExtendedMantissa.shiftRightOne]

/-- The mantissa of a number fits, and is full unless the exponent is the smallest one. -/
theorem mantissa_unpack {b : BitVec Format.binary32.numBits} {s : Sign} {m : ℕ} {e : ℤ} {h : 0 < m}
    (hb : UnpackedFloat.unpack .binary32 b = .finite s m e h) :
    m.log2 < 23 ∧ e = -149 ∨ m.log2 = 23 := by
  have hm : (unpackMantissa b).toNat < 2 ^ 23 := (unpackMantissa b).isLt
  have hbias : (Format.binary32.exponentBias + Format.binary32.mantissaBitsWithoutImplicit : Int) =
    150 := rfl
  simp only [UnpackedFloat.unpack, hbias] at hb
  split_ifs at hb with h₁ h₂ h₂ h₃
  · obtain ⟨-, rfl, he⟩ := UnpackedFloat.finite.inj hb
    refine Or.inl ⟨(Nat.log2_lt h.ne').2 hm, ?_⟩
    rw [← he, h₂]
    rfl
  · obtain ⟨-, rfl, -⟩ := UnpackedFloat.finite.inj hb
    have hfull : (1#1 ++ unpackMantissa b).toNat = 2 ^ 23 + (unpackMantissa b).toNat := by
      rw [BitVec.toNat_append]
      exact (Nat.two_pow_add_eq_or_of_lt hm 1).symm
    exact Or.inr ((Nat.log2_eq_iff (by omega)).2 ⟨by omega, by omega⟩)

/-- A number is rounded to its own exponent. -/
theorem targetExponent_unpack {x : Float32.Model} {s : Sign} {m : ℕ} {e : ℤ} {h : 0 < m}
    (hx : x.unpack = .finite s m e h) :
    Format.binary32.targetExponent (totalExponent m e) = e := by
  have he := exponent_ge hx
  rw [targetExponent_eq, totalExponent]
  rcases mantissa_unpack hx with h | h <;> omega

/-- A number is not changed by rounding, however many zeros are appended to its mantissa. -/
theorem roundWithAccuracy_unpack {x : Float32.Model} {s : Sign} {m : ℕ} {e : ℤ} {h : 0 < m}
    (hx : x.unpack = .finite s m e h) (k : ℕ) :
    roundWithAccuracy .binary32 s (m * 2 ^ k) (e - k) .exact = .finite s m e h := by
  have htarget := targetExponent_unpack hx
  have hlog : (m * 2 ^ k).log2 = m.log2 + k := by
    have hpos : 0 < 2 ^ k := Nat.two_pow_pos k
    have hle := Nat.mul_le_mul_right (2 ^ k) (Nat.log2_self_le h.ne')
    have hlt := Nat.mul_lt_mul_of_pos_right (Nat.lt_log2_self (n := m)) hpos
    rw [← Nat.pow_add] at hle hlt
    rw [Nat.log2_eq_iff (Nat.mul_pos h hpos).ne', Nat.add_right_comm]
    exact ⟨hle, hlt⟩
  have htotal : totalExponent (m * 2 ^ k) (e - k) = totalExponent m e := by
    simp only [totalExponent, hlog]
    push_cast
    omega
  have hshift : ∀ j : ℕ, totalExponent (m * 2 ^ j) (e - j) = totalExponent m e →
      shiftToTargetExponent .binary32 (m * 2 ^ j) (e - j) .exact =
        (ExtendedMantissa.ofMantissaAndAccuracy m .exact, e) := by
    intro j hj
    have hamount : (e - (e - j)).toNat = j := by omega
    simp only [shiftToTargetExponent, shiftToExponent, hj, htarget, hamount, exact_shiftRight,
      sub_add_cancel]
  have hself := hshift 0 (by simp)
  rw [pow_zero, Nat.mul_one, Nat.cast_zero, sub_zero] at hself
  have hrounded : (ExtendedMantissa.ofMantissaAndAccuracy m .exact).roundedMantissa = m := rfl
  simp only [roundWithAccuracy, hshift k htotal, hrounded, hself]
  exact dif_neg h.ne'

/-- **A finite number times one is itself.** -/
theorem mul_one_of_isFinite {x : Float32} (hx : x.isFinite = true) : x * 1 = x := by
  have hone : (1 : Float32).toModel.unpack = .finite .positive (2 ^ 23) (-23) (by decide) := rfl
  have hsign : ∀ s : Sign, s * .positive = s := fun s => by cases s <;> rfl
  have hproduct : UnpackedFloat.mul .binary32 x.toModel.unpack (1 : Float32).toModel.unpack =
      x.toModel.unpack := by
    rw [hone]
    have hfinite : x.toModel.unpack.isFinite = true := hx
    cases hu : x.toModel.unpack with
    | notANumber | infinity s => rw [hu] at hfinite; cases hfinite
    | zero s => rw [UnpackedFloat.mul, hsign]
    | finite s m e h =>
      rw [UnpackedFloat.mul, hsign]
      exact roundWithAccuracy_unpack hu 23
  refine eq_of_unpack ?_
  rw [mul_eq, hproduct, pack_unpack]

/-- **A finite number times zero adds nothing to zero.** -/
theorem add_mul_zero_of_isFinite {x : Float32} (hx : x.isFinite = true) : 0 + x * 0 = 0 := by
  have hfinite : x.toModel.unpack.isFinite = true := hx
  have hproduct : ∃ t, UnpackedFloat.mul .binary32 x.toModel.unpack (0 : Float32).toModel.unpack =
      .zero t := by
    rw [unpack_zero]
    cases hu : x.toModel.unpack with
    | notANumber | infinity s => rw [hu] at hfinite; cases hfinite
    | zero s | finite s m e h => exact ⟨_, rfl⟩
  obtain ⟨t, ht⟩ := hproduct
  refine eq_of_unpack ?_
  rw [add_eq, mul_eq, ht, unpack_pack_zero, unpack_zero]
  cases t <;> rfl

end Binary32

open Binary32

/-- Single precision; what is not a number cannot be compared. -/
instance : Compared Float32 where
  Place := ℤ ×ₗ ℤ ×ₗ ℤ
  order := inferInstance
  place x := place x.toModel.unpack
  Comparable x := x.isNaN = false
  IsFinite x := x.isFinite = true
  masks := by constructor <;> decide +kernel
  max_choice {a b} _ _ := by
    have hmax : Arith.max a b = if a < b then b else if a == a then a else b := rfl
    rw [hmax]
    split
    · exact Or.inr rfl
    · split
      · exact Or.inl rfl
      · exact Or.inr rfl
  place_max {a b} ha hb := by
    have hmax : Arith.max a b = if a < b then b else if a == a then a else b := rfl
    rw [hmax, if_pos ((beq_iff_place ha ha).2 rfl), max_def_lt]
    simp only [lt_iff_place ha hb]
    split <;> rfl
  eqMask {a b} ha hb := by
    have hmask : Arith.eqMask a b = if a == b then 1 else 0 := rfl
    rw [hmask]
    exact if_congr (beq_iff_place ha hb) rfl rfl
  mul_one := mul_one_of_isFinite
  add_mul_zero := add_mul_zero_of_isFinite

/-! ## Maxima -/

section
variable {K : Type} [Arith K] [Compared K]

open Compared

/-- **The maximum of a list is one of its numbers**, and no number of the list is larger. -/
theorem foldl_max {e : K} {es : List K} (h : ∀ x ∈ e :: es, Comparable x) :
    es.foldl Arith.max e ∈ e :: es ∧
      ∀ x ∈ e :: es, place x ≤ place (es.foldl Arith.max e) := by
  induction es generalizing e with
  | nil => exact ⟨List.mem_cons_self, fun x hx => (List.mem_singleton.1 hx ▸ le_rfl)⟩
  | cons y es ih =>
    have he : Comparable e := h e (by simp)
    have hy : Comparable y := h y (by simp)
    have hchoice : Arith.max e y = e ∨ Arith.max e y = y := max_choice he hy
    have hsub : ∀ x ∈ Arith.max e y :: es, x ∈ e :: y :: es := by
      intro x hx
      rcases List.mem_cons.1 hx with rfl | hx
      · rcases hchoice with hm | hm <;> simp [hm]
      · simp [hx]
    obtain ⟨hmem, hle⟩ := ih fun x hx => h x (hsub x hx)
    have hfirst := hle _ List.mem_cons_self
    rw [place_max he hy, max_le_iff] at hfirst
    refine ⟨hsub _ hmem, fun z hz => ?_⟩
    rcases List.mem_cons.1 hz with rfl | hz
    · exact hfirst.1
    · rcases List.mem_cons.1 hz with rfl | hz
      · exact hfirst.2
      · exact hle z (List.mem_cons_of_mem _ hz)

end

end DiffGraph
