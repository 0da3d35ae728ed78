/-
  Sums of exponentials in single precision.

  The exponential of a number is positive or zero, and one for the largest number if that is
  subtracted first.  So their sum is not zero, and its logarithm is the plain one.

  * `Binary32.sub_eq_add_neg`: a difference is the sum with the negative, to the bit;
  * `Binary32.add_pos_of_pos_of_nonneg`: rounding does not lose a positive number in a sum;
    `Binary32.foldl_add_pos`: nor do many sums;
  * `Binary32.isNaN_sub_iff`: when a difference is no number;
  * `Functions.Exponential`: what is known of an exponential function;
  * `Softens`: the laws on which the logarithm of a softmax depends.  Single precision obeys
    them (`Functions.Exponential.softens`), and sums of exponentials of finite numbers are
    positive (`Functions.Exponential.sum_pos`).
-/
import DiffGraph.Proofs.Comparisons
import DiffGraph.Proofs.SignedZeros

open Float.Model (Format UnpackedFloat)
open Float.Model.UnpackedFloat (Sign packComponents roundWithAccuracy)

namespace DiffGraph

namespace Binary32

/-! ## Differences -/

@[simp] theorem ofBitVec_toBitVec (s : Sign) : Sign.ofBitVec s.toBitVec = s := by
  cases s <;> rfl

/-- Only the sign bit depends on the sign. -/
theorem exists_packComponents {m : Nat} (e : Int) (h : 0 < m) :
    ∃ exponent mantissa, ∀ s, UnpackedFloat.pack .binary32 (.finite s m e h) =
      packComponents .binary32 s exponent mantissa := by
  simp only [pack_finite]
  split_ifs
  · exact ⟨_, _, fun _ => rfl⟩
  · exact ⟨_, _, fun _ => rfl⟩
  · exact ⟨_, _, fun _ => rfl⟩

/-- The other sign bit gives the negative. -/
theorem unpack_packComponents_neg (s : Sign) (e : BitVec Format.binary32.exponentBits)
    (m : BitVec Format.binary32.mantissaBitsWithoutImplicit) :
    UnpackedFloat.unpack .binary32 (packComponents .binary32 (-s) e m) =
      (UnpackedFloat.unpack .binary32 (packComponents .binary32 s e m)).neg := by
  simp only [UnpackedFloat.unpack, UnpackedFloat.unpackSign_packComponents,
    UnpackedFloat.unpackExponent_packComponents, UnpackedFloat.unpackMantissa_packComponents,
    ofBitVec_toBitVec]
  split_ifs <;> rfl

theorem unpack_neg (x : Float32) : (-x).toModel.unpack = x.toModel.unpack.neg := by
  rw [neg_eq]
  cases hx : x.toModel.unpack with
  | notANumber => rfl
  | infinity s => exact unpack_pack_infinity _
  | zero s => exact unpack_pack_zero _
  | finite s m e h =>
    obtain ⟨exponent, mantissa, hpack⟩ := exists_packComponents e h
    have hunpack : ∀ s, (Float32.Model.pack (.finite s m e h)).unpack =
        UnpackedFloat.unpack .binary32 (packComponents .binary32 s exponent mantissa) := fun s => by
      rw [← hpack]
      rfl
    have hself : (Float32.Model.pack (.finite s m e h)).unpack = .finite s m e h := by
      rw [← hx, pack_unpack]
    calc (Float32.Model.pack (UnpackedFloat.finite s m e h).neg).unpack
        = (Float32.Model.pack (.finite s m e h)).unpack.neg := by
          rw [UnpackedFloat.neg, hunpack, hunpack, unpack_packComponents_neg]
      _ = (UnpackedFloat.finite s m e h).neg := by rw [hself]

theorem sub_unpacked (u v : UnpackedFloat) :
    UnpackedFloat.sub .binary32 u v = UnpackedFloat.add .binary32 u v.neg := by
  have hneg : ∀ (s : Sign) (k : Int), (-s).apply k = -s.apply k := fun s k => by
    cases s
    · exact (Int.neg_neg k).symm
    · rfl
  cases u <;> cases v <;>
    simp [UnpackedFloat.sub, UnpackedFloat.add, UnpackedFloat.neg, hneg, sub_eq_add_neg]

/-- **A difference is the sum with the negative.** -/
theorem sub_eq_add_neg (x y : Float32) : x - y = x + -y := by
  have hsub : (x - y).toModel =
      .pack (UnpackedFloat.sub .binary32 x.toModel.unpack y.toModel.unpack) := rfl
  refine eq_of_unpack ?_
  rw [hsub, add_eq, unpack_neg, sub_unpacked]

theorem finite_cases {x : Float32} (hx : x.isFinite = true) :
    (∃ s, x.toModel.unpack = .zero s) ∨ ∃ s m e h, x.toModel.unpack = .finite s m e h := by
  have hfinite : x.toModel.unpack.isFinite = true := hx
  cases hu : x.toModel.unpack with
  | notANumber | infinity s => rw [hu] at hfinite; cases hfinite
  | zero s => exact .inl ⟨s, rfl⟩
  | finite s m e h => exact .inr ⟨s, m, e, h, rfl⟩

/-- A finite number less itself. -/
theorem sub_self_of_isFinite {x : Float32} (hx : x.isFinite = true) : x - x = 0 := by
  have hsub : (x - x).toModel =
      .pack (UnpackedFloat.sub .binary32 x.toModel.unpack x.toModel.unpack) := rfl
  refine eq_of_unpack ?_
  rw [hsub, unpack_zero]
  rcases finite_cases hx with ⟨s, hu⟩ | ⟨s, m, e, h, hu⟩ <;> rw [hu]
  · cases s <;> rfl
  · have hzero : UnpackedFloat.sub .binary32 (.finite s m e h) (.finite s m e h) =
        .zero .positive := by
      simp [UnpackedFloat.sub, UnpackedFloat.normalize]
    rw [hzero]
    exact unpack_pack_zero _

/-! ## Positive sums -/

/-- What a finite number can be packed into. -/
theorem unpack_pack_finite (s : Sign) {m : Nat} (e : Int) (h : 0 < m) :
    (Float32.Model.pack (.finite s m e h)).unpack = .infinity s ∨
      (Float32.Model.pack (.finite s m e h)).unpack = .zero s ∨
      ∃ m' e' h', (Float32.Model.pack (.finite s m e h)).unpack = .finite s m' e' h' := by
  have hunpack : (Float32.Model.pack (.finite s m e h)).unpack =
      UnpackedFloat.unpack .binary32 (UnpackedFloat.pack .binary32 (.finite s m e h)) := rfl
  have hparts : ∀ (e : BitVec Format.binary32.exponentBits)
      (m : BitVec Format.binary32.mantissaBitsWithoutImplicit), e ≠ -1#8 →
      UnpackedFloat.unpack .binary32 (packComponents .binary32 s e m) = .zero s ∨
        ∃ m' e' h', UnpackedFloat.unpack .binary32 (packComponents .binary32 s e m) =
          .finite s m' e' h' := by
    intro e m he
    simp only [UnpackedFloat.unpack, UnpackedFloat.unpackSign_packComponents,
      UnpackedFloat.unpackExponent_packComponents, UnpackedFloat.unpackMantissa_packComponents,
      ofBitVec_toBitVec]
    rw [if_neg he]
    split_ifs with h₁ h₂
    · exact .inl rfl
    · exact .inr ⟨_, _, Nat.pos_of_ne_zero fun h => h₂ (BitVec.eq_of_toNat_eq h), rfl⟩
    · have hfull : (1#1 ++ m).toNat = 2 ^ 23 + m.toNat := by
        rw [BitVec.toNat_append]
        exact (Nat.two_pow_add_eq_or_of_lt m.isLt 1).symm
      exact .inr ⟨_, _, by omega, rfl⟩
  rw [hunpack, pack_finite]
  split_ifs with h₁ h₂
  · exact .inl (unpack_pack_infinity s)
  · refine .inr (hparts _ _ fun hexp => ?_)
    have hmod : (e + 150).toNat % 2 ^ 8 = 255 := congrArg BitVec.toNat hexp
    omega
  · exact .inr (hparts _ _ (by decide))

/-- A positive number, or infinity. -/
def Positive : UnpackedFloat → Prop
  | .infinity .positive | .finite .positive _ _ _ => True
  | _ => False

theorem pos_iff {x : Float32} : 0 < x ↔ Positive x.toModel.unpack := by
  have hlt : 0 < x ↔
      ((0 : Float32).toModel.unpack.compare x.toModel.unpack == some .lt) = true :=
    decide_eq_true_iff (p := (0 : Float32).toModel < x.toModel)
  rw [hlt, unpack_zero]
  cases x.toModel.unpack with
  | notANumber => simp [UnpackedFloat.compare, Positive]
  | zero s => simp [UnpackedFloat.compare, Positive]
  | infinity s | finite s m e h => cases s <;> simp [UnpackedFloat.compare, Positive]

theorem nonneg_iff {x : Float32} :
    0 ≤ x ↔ Positive x.toModel.unpack ∨ ∃ s, x.toModel.unpack = .zero s := by
  have hle : 0 ≤ x ↔
      ((0 : Float32).toModel.unpack.compare x.toModel.unpack).any Ordering.isLE = true :=
    decide_eq_true_iff (p := (0 : Float32).toModel ≤ x.toModel)
  rw [hle, unpack_zero]
  cases x.toModel.unpack with
  | notANumber => simp [UnpackedFloat.compare, Positive]
  | zero s => simp [UnpackedFloat.compare]
  | infinity s | finite s m e h => cases s <;> simp [UnpackedFloat.compare, Positive]

theorem nonneg_of_pos {x : Float32} (h : 0 < x) : 0 ≤ x := nonneg_iff.2 (.inl (pos_iff.1 h))

theorem positive_cases {u : UnpackedFloat} (h : Positive u) :
    u = .infinity .positive ∨ ∃ m e hm, u = .finite .positive m e hm := by
  cases u with
  | notANumber | zero s => cases h
  | infinity s =>
    cases s with
    | negative => cases h
    | positive => exact .inl rfl
  | finite s m e hm =>
    cases s with
    | negative => cases h
    | positive => exact .inr ⟨m, e, hm, rfl⟩

/-- A sum of two positive finite numbers, rounded. -/
theorem positive_add_finite {m k : Nat} {e f : Int} (hm : 0 < m) (hk : 0 < k) (he : -149 ≤ e)
    (hf : -149 ≤ f) : Positive (Float32.Model.pack (UnpackedFloat.add .binary32
      (.finite .positive m e hm) (.finite .positive k f hk))).unpack := by
  obtain ⟨j, hj, hadd⟩ : ∃ j : Nat, 0 < j ∧ UnpackedFloat.add .binary32
      (.finite .positive m e hm) (.finite .positive k f hk) =
        .round .binary32 .positive j (min e f) := by
    refine ⟨m <<< (e - min e f).toNat + k <<< (f - min e f).toNat, ?_, ?_⟩
    · rw [Nat.shiftLeft_eq]
      exact Nat.add_pos_left (Nat.mul_pos hm (Nat.two_pow_pos _)) _
    · have hpos : (0 : Int) < (m <<< (e - min e f).toNat : Nat) +
          (k <<< (f - min e f).toNat : Nat) := by
        rw [Nat.shiftLeft_eq, Nat.shiftLeft_eq]
        have := Nat.mul_pos hm (Nat.two_pow_pos (e - min e f).toNat)
        omega
      simp only [UnpackedFloat.add, UnpackedFloat.decreaseExponent, Sign.apply,
        UnpackedFloat.normalize, Int.compare_eq_gt.2 hpos]
      congr 1
  obtain ⟨m', e', h, hround, hm', he'⟩ := round_bounds .positive hj (le_min he hf)
  rw [hadd, hround]
  rcases unpack_pack_finite .positive e' h with hu | hu | ⟨m'', e'', h', hu⟩
  · rw [hu]
    trivial
  · exact absurd hu (unpack_pack_finite_ne_zero _ _ h hm' he')
  · rw [hu]
    trivial

/-- **Rounding does not lose a positive number.** -/
theorem add_pos_of_pos_of_nonneg {x y : Float32} (hx : 0 < x) (hy : 0 ≤ y) : 0 < x + y := by
  rw [pos_iff, add_eq]
  have hself : Positive (Float32.Model.pack x.toModel.unpack).unpack := by
    rw [pack_unpack]
    exact pos_iff.1 hx
  rcases nonneg_iff.1 hy with hy | ⟨s, hs⟩
  · rcases positive_cases (pos_iff.1 hx) with hux | ⟨m, e, hm, hux⟩ <;>
      rcases positive_cases hy with huy | ⟨k, f, hk, huy⟩ <;> rw [hux, huy]
    · simp [UnpackedFloat.add, Positive]
    · simp [UnpackedFloat.add, Positive]
    · simp [UnpackedFloat.add, Positive]
    · exact positive_add_finite hm hk (exponent_ge hux) (exponent_ge huy)
  · -- a zero does not change the number
    rcases positive_cases (pos_iff.1 hx) with hux | ⟨m, e, hm, hux⟩ <;>
      · rw [hs, hux]
        rw [hux] at hself
        exact hself

theorem add_comm_float32 (x y : Float32) : x + y = y + x := by
  have hcomm : ∀ u v, UnpackedFloat.add .binary32 u v = UnpackedFloat.add .binary32 v u := by
    intro u v
    cases u with
    | notANumber | finite s m e h =>
      cases v <;> simp [UnpackedFloat.add, min_comm, add_comm]
    | infinity s => cases v with
      | infinity t => cases s <;> cases t <;> rfl
      | notANumber | zero t | finite t k f hk => rfl
    | zero s => cases v with
      | zero t => cases s <;> cases t <;> rfl
      | notANumber | infinity t | finite t k f hk => rfl
  exact eq_of_unpack (by rw [add_eq, add_eq, hcomm])

theorem add_pos_of_nonneg_of_pos {x y : Float32} (hx : 0 ≤ x) (hy : 0 < y) : 0 < x + y := by
  rw [add_comm_float32]
  exact add_pos_of_pos_of_nonneg hy hx

theorem add_nonneg {x y : Float32} (hx : 0 ≤ x) (hy : 0 ≤ y) : 0 ≤ x + y := by
  rcases nonneg_iff.1 hx with hpos | ⟨s, hs⟩
  · exact nonneg_of_pos (add_pos_of_pos_of_nonneg (pos_iff.2 hpos) hy)
  · rcases nonneg_iff.1 hy with hpos | ⟨t, ht⟩
    · exact nonneg_of_pos (add_pos_of_nonneg_of_pos hx (pos_iff.2 hpos))
    · refine nonneg_iff.2 (.inr ?_)
      rw [add_eq, hs, ht]
      cases s <;> cases t <;> exact ⟨_, rfl⟩

/-- **A sum with a positive number is positive**, if no number is negative. -/
theorem foldl_add_pos {e : Float32} {es : List Float32} (h : ∀ x ∈ e :: es, 0 ≤ x)
    (hpos : ∃ x ∈ e :: es, 0 < x) : 0 < es.foldl (· + ·) e := by
  induction es generalizing e with
  | nil =>
    obtain ⟨x, hx, hpos⟩ := hpos
    rwa [List.mem_singleton.1 hx] at hpos
  | cons y es ih =>
    have he : 0 ≤ e := h e (by simp)
    have hy : 0 ≤ y := h y (by simp)
    refine ih (fun x hx => ?_) ?_
    · rcases List.mem_cons.1 hx with rfl | hx
      · exact add_nonneg he hy
      · exact h x (by simp [hx])
    · obtain ⟨x, hx, hpos⟩ := hpos
      rcases List.mem_cons.1 hx with rfl | hx
      · exact ⟨_, List.mem_cons_self, add_pos_of_pos_of_nonneg hpos hy⟩
      · rcases List.mem_cons.1 hx with rfl | hx
        · exact ⟨e + x, List.mem_cons_self, add_pos_of_nonneg_of_pos he hpos⟩
        · exact ⟨x, List.mem_cons_of_mem _ hx, hpos⟩

/-! ## The logarithm -/

/-- Any number times one is itself. -/
theorem mul_one_float32 (x : Float32) : x * 1 = x := by
  by_cases hx : x.isFinite = true
  · exact mul_one_of_isFinite hx
  · refine eq_of_unpack ?_
    rw [mul_eq]
    have hfinite : ¬ x.toModel.unpack.isFinite = true := hx
    cases hu : x.toModel.unpack with
    | notANumber => rfl
    | infinity s => cases s <;> rfl
    | zero s | finite s m e h => rw [hu] at hfinite; exact absurd rfl hfinite

/-- Negative zero is neutral. -/
theorem add_negativeZero (x : Float32) : x + -0 = x := by
  refine eq_of_unpack ?_
  have hself : (Float32.Model.pack x.toModel.unpack).unpack = x.toModel.unpack := by
    rw [pack_unpack]
  have hzero : (-0 : Float32).toModel.unpack = .zero .negative := rfl
  rw [add_eq, hzero]
  cases hu : x.toModel.unpack with
  | notANumber | infinity s | finite s m e h => rwa [hu] at hself
  | zero s => cases s <;> rfl

/-- **A function that is cut off at zero** is the function elsewhere. -/
theorem cut_off (f : Float32 → Float32) {x : Float32} (h : Arith.eqMask x 0 = 0) :
    f (x + 0) * (1 - 0) + 0 * -Unary.eighty = f x := by
  have hne : x ≠ -0 := by
    rintro rfl
    have hmask : Arith.eqMask (-0 : Float32) 0 ≠ 0 := by decide +kernel
    exact hmask h
  have hself : x + 0 = x := (add_comm_float32 x 0).trans (kept_iff.2 hne)
  have hcut : (0 * -Unary.eighty : Float32) = -0 := by decide +kernel
  have hone : (1 - 0 : Float32) = 1 := by decide +kernel
  rw [hself, hone, hcut, mul_one_float32, add_negativeZero]

theorem eqMask_of_pos {x : Float32} (h : 0 < x) : Arith.eqMask x 0 = 0 := by
  have hmask : Arith.eqMask x 0 = if x == 0 then 1 else 0 := rfl
  rw [hmask, if_neg]
  intro hzero
  obtain ⟨s, hs⟩ := unpack_of_beq_zero hzero
  rw [pos_iff, hs] at h
  exact h

theorem isFinite_normalize (m e : Int) (s : Sign) :
    (UnpackedFloat.normalize .binary32 m e s).isFinite = true := by
  have hround : ∀ s k, (UnpackedFloat.round .binary32 s k e).isFinite = true := by
    intro s k
    simp only [UnpackedFloat.round, roundWithAccuracy]
    split <;> rfl
  unfold UnpackedFloat.normalize
  split
  · exact hround _ _
  · rfl
  · exact hround _ _

theorem isNaN_of_isFinite {x : Float32} (hx : x.isFinite = true) : x.isNaN = false := by
  have hnan : x.isNaN = x.toModel.unpack.isNaN := rfl
  rw [hnan]
  rcases finite_cases hx with ⟨s, hu⟩ | ⟨s, m, e, h, hu⟩ <;> rw [hu] <;> rfl

/-- Packing makes numbers of numbers. -/
theorem isNaN_pack (u : UnpackedFloat) : (Float32.Model.pack u).unpack.isNaN = u.isNaN := by
  cases u with
  | notANumber => rfl
  | infinity s => rw [unpack_pack_infinity]
  | zero s => rw [unpack_pack_zero]
  | finite s m e h =>
    rcases unpack_pack_finite s e h with hu | hu | ⟨_, _, _, hu⟩ <;> rw [hu] <;> rfl

theorem isNaN_abs (x : Float32) : x.abs.isNaN = x.isNaN := by
  have habs : x.abs.isNaN = x.toModel.unpack.abs.isNaN := isNaN_pack _
  have hself : x.isNaN = x.toModel.unpack.isNaN := rfl
  rw [habs, hself]
  cases x.toModel.unpack <;> rfl

theorem isNaN_sub_unpacked (u v : UnpackedFloat) :
    (UnpackedFloat.sub .binary32 u v).isNaN = true ↔
      u.isNaN = true ∨ v.isNaN = true ∨ u = v ∧ u.isInf = true := by
  cases u with
  | notANumber => exact ⟨fun _ => .inl rfl, fun _ => rfl⟩
  | infinity s =>
    cases v with
    | infinity t => cases s <;> cases t <;> simp [UnpackedFloat.sub, UnpackedFloat.isNaN] <;> rfl
    | notANumber | zero t | finite t k f hk => simp [UnpackedFloat.sub, UnpackedFloat.isNaN]
  | zero s =>
    cases v with
    | zero t => cases s <;> cases t <;> simp [UnpackedFloat.sub, UnpackedFloat.isNaN] <;> rfl
    | notANumber | infinity t | finite t k f hk =>
      simp [UnpackedFloat.sub, UnpackedFloat.isNaN, UnpackedFloat.isInf]
  | finite s m e h =>
    cases v with
    | finite t k f hk =>
      have hfinite := isFinite_normalize (s.apply (UnpackedFloat.decreaseExponent m e (min e f)).1 -
        t.apply (UnpackedFloat.decreaseExponent k f (min e f)).1) (min e f) .positive
      simp only [UnpackedFloat.sub]
      generalize UnpackedFloat.normalize _ _ _ _ = w at hfinite ⊢
      cases w with
      | notANumber | infinity => cases hfinite
      | zero | finite => simp [UnpackedFloat.isNaN, UnpackedFloat.isInf]
    | notANumber | infinity t | zero t =>
      simp [UnpackedFloat.sub, UnpackedFloat.isNaN, UnpackedFloat.isInf]

/-- **When a difference is no number**: if one of the two is none, or for two equal infinities. -/
theorem isNaN_sub_iff {x y : Float32} : (x - y).isNaN = true ↔
    x.isNaN = true ∨ y.isNaN = true ∨ x = y ∧ x.isInf = true := by
  have hsub : (x - y).isNaN =
      (UnpackedFloat.sub .binary32 x.toModel.unpack y.toModel.unpack).isNaN := isNaN_pack _
  have heq : x = y ↔ x.toModel.unpack = y.toModel.unpack := ⟨fun h => h ▸ rfl, eq_of_unpack⟩
  rw [hsub, heq]
  exact isNaN_sub_unpacked _ _

/-- A difference of finite numbers is a number. -/
theorem isNaN_sub {x y : Float32} (hx : x.isFinite = true) (hy : y.isFinite = true) :
    (x - y).isNaN = false := by
  have hinf : x.isInf = false := by
    have hself : x.isInf = x.toModel.unpack.isInf := rfl
    rw [hself]
    rcases finite_cases hx with ⟨s, hu⟩ | ⟨s, m, e, h, hu⟩ <;> rw [hu] <;> rfl
  rw [Bool.eq_false_iff, ne_eq, isNaN_sub_iff, isNaN_of_isFinite hx, isNaN_of_isFinite hy, hinf]
  simp

end Binary32

open Binary32

/-! ## Exponential functions -/

/-- What is known of an exponential function.  Only what is not a number may be mapped to what is
not a number. -/
structure Functions.Exponential (F : Functions) : Prop where
  zero : F.exp 0 = 1
  ne_negativeZero : ∀ x, F.exp x ≠ -0
  nonneg : ∀ x, x.isNaN = false → 0 ≤ F.exp x

/-- The laws on which the logarithm of a softmax depends: differences are sums, exponentials can be
added to zero, and the logarithm that is cut off at zero is the logarithm elsewhere. -/
structure Softens (K : Type) [Arith K] : Prop where
  sub_eq : ∀ x y : K, x - y = x + -y
  zero_add_exp : ∀ x : K, 0 + Arith.exp x = Arith.exp x
  log : ∀ x : K, Arith.eqMask x 0 = 0 → Unary.log.apply x = Arith.log x

namespace Functions.Exponential

variable {F : Functions}

/-- **The logarithm of a positive number is not cut off.** -/
theorem softens (hF : F.Exponential) : Softens (Single F) where
  sub_eq := sub_eq_add_neg
  zero_add_exp x := kept_iff.2 (hF.ne_negativeZero x)
  log x h := by
    simp only [Unary.apply, h]
    exact cut_off F.log h

/-- **The sum of the exponentials** of finite numbers less the largest one is positive. -/
theorem sum_pos (hF : F.Exponential) {x : Float32} {xs : List Float32}
    (h : ∀ y ∈ x :: xs, y.isFinite = true) :
    let e y := F.exp (y - xs.foldl Arith.max x)
    0 < (xs.map e).foldl (· + ·) (e x) := by
  intro e
  have hcomparable : ∀ y ∈ x :: xs, Compared.Comparable y := fun y hy =>
    isNaN_of_isFinite (h y hy)
  obtain ⟨hmem, -⟩ := foldl_max hcomparable
  have hmax := h _ hmem
  refine foldl_add_pos ?_ ?_
  · rw [← List.map_cons (f := e)]
    intro z hz
    obtain ⟨y, hy, rfl⟩ := List.mem_map.1 hz
    exact hF.nonneg _ (isNaN_sub (h y hy) hmax)
  · -- the largest number itself
    refine ⟨1, ?_, by decide +kernel⟩
    rw [← List.map_cons (f := e), List.mem_map]
    exact ⟨_, hmem, by rw [← hF.zero, ← sub_self_of_isFinite hmax]⟩

end Functions.Exponential

end DiffGraph
