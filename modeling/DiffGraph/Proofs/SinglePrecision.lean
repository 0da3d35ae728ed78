/-
  Zeros of single precision.

  Only one number is changed when it is added to zero: negative zero, which becomes
  positive zero.  Everything that a sum loses by starting from zero follows from this.

  * `Binary32.round_bounds`: what is a multiple of the smallest positive number is
    never rounded to zero, so the sum of two numbers is negative zero only if both
    are (`Binary32.add_ne_negativeZero`);
  * `Binary32.pack_unpack`: the bits of a number are those of its sign, mantissa and
    exponent;
  * `kept_iff`: a number that is not negative zero can be added to zero;
    `rounds_float32`: single precision obeys `Rounds`;
  * `SameNumber`: numbers that are the same up to the sign of a zero.  All operations
    respect it but division, which can show the sign of a divisor
    (`Agreement.upToZeros`).
-/
import DiffGraph.Proofs.Numeric
import Mathlib

open Float.Model (Format UnpackedFloat totalExponent)
open Float.Model.UnpackedFloat (Accuracy ExtendedMantissa Sign packComponents unpackExponent
  unpackMantissa unpackSign decreaseExponent roundWithAccuracy shiftToExponent
  shiftToTargetExponent)

namespace DiffGraph

namespace Binary32

/-! ## Rounding -/

theorem shiftRight_mantissa (em : ExtendedMantissa) (k : Nat) :
    (em >>> k).mantissa = em.mantissa / 2 ^ k := by
  induction k with
  | zero => simp [HShiftRight.hShiftRight, Nat.repeat]
  | succ k ih =>
    have hstep : (em >>> (k + 1)).mantissa = (em >>> k).mantissa / 2 := rfl
    rw [hstep, ih, Nat.div_div_eq_div_mul, Nat.pow_succ]

theorem mantissa_le_rounded (em : ExtendedMantissa) : em.mantissa ≤ em.roundedMantissa := by
  obtain ⟨m, r, s⟩ := em
  cases r <;> cases s <;>
    simp [ExtendedMantissa.roundedMantissa, ExtendedMantissa.accuracy, Accuracy.roundToNearestEven]

theorem targetExponent_eq (t : Int) :
    Format.binary32.targetExponent t = max (t - 24) (-149) := rfl

/-- The shift to its target exponent keeps a mantissa positive and makes it fit. -/
theorem shift_bounds {m : Nat} (hm : 0 < m) {e : Int} (he : -149 ≤ e) :
    0 < (shiftToTargetExponent .binary32 m e .exact).1.mantissa ∧
      (shiftToTargetExponent .binary32 m e .exact).1.mantissa < 2 ^ 24 ∧
      -149 ≤ (shiftToTargetExponent .binary32 m e .exact).2 := by
  have hlog := Nat.log2_self_le hm.ne'
  have hlog' := Nat.lt_log2_self (n := m)
  have hself : (ExtendedMantissa.ofMantissaAndAccuracy m .exact).mantissa = m := rfl
  simp only [shiftToTargetExponent, shiftToExponent, shiftRight_mantissa, hself,
    targetExponent_eq, totalExponent]
  generalize m.log2 = l at hlog hlog' ⊢
  rcases Nat.lt_or_ge l 23 with hl | hl
  · have hk : (max ((l : Int) + 1 + e - 24) (-149) - e).toNat = 0 := by omega
    have hpow : 2 ^ (l + 1) ≤ 2 ^ 24 := Nat.pow_le_pow_right (by decide) (by omega)
    rw [hk]
    omega
  · have hk : (max ((l : Int) + 1 + e - 24) (-149) - e).toNat = l - 23 := by omega
    have hpow : 2 ^ l = 2 ^ 23 * 2 ^ (l - 23) := by
      rw [← Nat.pow_add, Nat.add_sub_cancel' hl]
    rw [Nat.pow_succ, hpow] at hlog'
    rw [hpow] at hlog
    have hpos := Nat.two_pow_pos (l - 23)
    rw [hk, Nat.div_lt_iff_lt_mul hpos]
    exact ⟨Nat.div_pos (by omega) hpos, by omega, by omega⟩

/-- **A multiple of the smallest positive number is not rounded to zero.** -/
theorem round_bounds (s : Sign) {m : Nat} (hm : 0 < m) {e : Int} (he : -149 ≤ e) :
    ∃ m' e' h, UnpackedFloat.round .binary32 s m e = .finite s m' e' h ∧ m' < 2 ^ 24 ∧
      -149 ≤ e' := by
  obtain ⟨m₁, e₁, hd, hm₁, he₁⟩ : ∃ m₁ e₁, decreaseExponent m e
      (Format.binary32.targetExponent (totalExponent m e)) = (m₁, e₁) ∧ 0 < m₁ ∧ -149 ≤ e₁ := by
    refine ⟨_, _, rfl, ?_, ?_⟩
    · rw [Nat.shiftLeft_eq]
      exact Nat.mul_pos hm (Nat.two_pow_pos _)
    · rw [targetExponent_eq]
      omega
  -- the mantissa is shifted, rounded, and shifted again if that made it too long
  obtain ⟨hm₂, -, he₂⟩ := shift_bounds hm₁ he₁
  obtain ⟨hm₃, hlt, he₃⟩ := shift_bounds (hm₂.trans_le (mantissa_le_rounded _)) he₂
  simp only [UnpackedFloat.round, hd, roundWithAccuracy]
  exact ⟨_, _, hm₃, dif_neg hm₃.ne', hlt, he₃⟩

/-! ## Bits -/

@[simp] theorem toBitVec_ofBitVec (s : BitVec 1) : (Sign.ofBitVec s).toBitVec = s := by
  revert s
  decide

theorem packComponents_unpack (b : BitVec Format.binary32.numBits) :
    packComponents .binary32 (Sign.ofBitVec (unpackSign b)) (unpackExponent b)
      (unpackMantissa b) = b := by
  rw [packComponents, toBitVec_ofBitVec]
  have hhead : (b.extractLsb' 31 1 ++ b.extractLsb' 23 8 : BitVec 9) = b.extractLsb' 23 9 :=
    BitVec.extractLsb'_append_extractLsb'_eq_extractLsb' rfl
  have hall : (b.extractLsb' 23 9 ++ b.extractLsb' 0 23 : BitVec 32) = b.extractLsb' 0 32 :=
    BitVec.extractLsb'_append_extractLsb'_eq_extractLsb' rfl
  have hself : b.extractLsb' 0 32 = b := BitVec.extractLsb'_eq_self
  rw [← hhead, hself] at hall
  exact hall

/-- How a finite number is packed: as infinity, as a normal or as a subnormal number. -/
theorem pack_finite (s : Sign) (m : Nat) (e : Int) (h : 0 < m) :
    UnpackedFloat.pack .binary32 (.finite s m e h) =
      if 256 ≤ (e + 150).toNat + 1 then UnpackedFloat.packedInfinity .binary32 s
      else if m.log2 + 1 = 24 then
        packComponents .binary32 s (BitVec.ofNat 8 (e + 150).toNat) (BitVec.ofNat 23 m)
      else packComponents .binary32 s 0 (BitVec.ofNat 23 m) := by
  have hbias : e + 150 = e + 127 + 23 := by omega
  rw [hbias]
  rfl

/-- **The parts of a number give back its bits.** -/
theorem pack_unpack_bits {b : BitVec Format.binary32.numBits} (hb : Format.binary32.Valid b) :
    UnpackedFloat.pack .binary32 (UnpackedFloat.unpack .binary32 b) = b := by
  have hself := packComponents_unpack b
  have hm : (unpackMantissa b).toNat < 2 ^ 23 := (unpackMantissa b).isLt
  have hbias : (Format.binary32.exponentBias + Format.binary32.mantissaBitsWithoutImplicit : Int) =
    150 := rfl
  simp only [UnpackedFloat.unpack, hbias]
  split_ifs with h₁ h₂ h₂ h₃
  · rw [h₁, h₂] at hself
    exact hself
  · exact (hb.eq_packedNaN h₁ h₂).symm
  · rw [h₂, h₃] at hself
    exact hself
  · have hexp : ((unpackExponent b).toNat : Int) - 150 + 1 = -149 := by
      rw [h₂]
      rfl
    simp only [hexp]
    rw [h₂] at hself
    have hpos : 0 < (unpackMantissa b).toNat :=
      Nat.pos_of_ne_zero fun h => h₃ (BitVec.eq_of_toNat_eq h)
    have hlog : (unpackMantissa b).toNat.log2 < 23 := (Nat.log2_lt hpos.ne').2 hm
    rw [pack_finite, if_neg (by decide), if_neg (by omega), BitVec.ofNat_toNat, BitVec.setWidth_eq]
    exact hself
  · have hfull : (1#1 ++ unpackMantissa b).toNat = 2 ^ 23 + (unpackMantissa b).toNat := by
      rw [BitVec.toNat_append]
      exact (Nat.two_pow_add_eq_or_of_lt hm 1).symm
    have hexp : (unpackExponent b).toNat < 255 := by
      have hlt : (unpackExponent b).toNat < 256 := (unpackExponent b).isLt
      have hne : (unpackExponent b).toNat ≠ 255 := fun h => h₁ (BitVec.eq_of_toNat_eq h)
      omega
    have hlog : (1#1 ++ unpackMantissa b).toNat.log2 = 23 :=
      (Nat.log2_eq_iff (by omega)).2 ⟨by omega, by omega⟩
    have hbiased : (((unpackExponent b).toNat : Int) - 150 + 150).toNat =
        (unpackExponent b).toNat := by
      omega
    rw [pack_finite, hbiased, if_neg (by omega), if_pos (by rw [hlog]), BitVec.ofNat_toNat,
      BitVec.setWidth_eq, hfull]
    have hmant : BitVec.ofNat 23 (2 ^ 23 + (unpackMantissa b).toNat) = unpackMantissa b :=
      BitVec.eq_of_toNat_eq (by rw [BitVec.toNat_ofNat, Nat.add_mod_left, Nat.mod_eq_of_lt hm])
    rw [hmant]
    exact hself

theorem pack_unpack (x : Float32.Model) : Float32.Model.pack x.unpack = x := by
  obtain ⟨bits, hbits⟩ := x
  simp only [Float32.Model.pack, Float32.Model.unpack, pack_unpack_bits hbits]

/-- The exponent of a number. -/
theorem exponent_ge {x : Float32.Model} {s : Sign} {m : Nat} {e : Int} {h : 0 < m}
    (hx : x.unpack = .finite s m e h) : -149 ≤ e := by
  rw [Float32.Model.unpack] at hx
  generalize x.toBits.toBitVec = b at hx
  have hbias : (Format.binary32.exponentBias + Format.binary32.mantissaBitsWithoutImplicit : Int) =
    150 := rfl
  simp only [UnpackedFloat.unpack, hbias] at hx
  split_ifs at hx with h₁ h₂ h₂ h₃
  · cases hx
    omega
  · cases hx
    have hne : _ ≠ 0 := fun h => h₂ (BitVec.eq_of_toNat_eq h)
    omega

@[simp] theorem unpack_pack_notANumber :
    (Float32.Model.pack .notANumber).unpack = .notANumber := rfl

@[simp] theorem unpack_pack_infinity (s : Sign) :
    (Float32.Model.pack (.infinity s)).unpack = .infinity s := by
  cases s <;> rfl

@[simp] theorem unpack_pack_zero (s : Sign) : (Float32.Model.pack (.zero s)).unpack = .zero s := by
  cases s <;> rfl

/-- The bits of a number that is zero. -/
theorem eq_packedZero {x : UnpackedFloat} {s : Sign}
    (h : (Float32.Model.pack x).unpack = .zero s) :
    UnpackedFloat.pack .binary32 x = UnpackedFloat.packedZero .binary32 s := by
  have hx : Float32.Model.pack x = Float32.Model.pack (.zero s) := by
    rw [← pack_unpack (.pack x), h]
  exact congrArg (fun y : Float32.Model => y.toBits.toBitVec) hx

/-- A number that fits is not packed into a zero. -/
theorem unpack_pack_finite_ne_zero (s s' : Sign) {m : Nat} {e : Int} (h : 0 < m) (hm : m < 2 ^ 24)
    (he : -149 ≤ e) : (Float32.Model.pack (.finite s m e h)).unpack ≠ .zero s' := by
  intro hzero
  have hbits := eq_packedZero hzero
  rw [pack_finite] at hbits
  have hexp := congrArg unpackExponent hbits
  have hmant := congrArg unpackMantissa hbits
  split_ifs at hexp hmant with h₁ h₂
  · simp [UnpackedFloat.packedInfinity, UnpackedFloat.packedZero] at hexp
  · simp only [UnpackedFloat.packedZero, UnpackedFloat.unpackExponent_packComponents] at hexp
    have hmod : (e + 150).toNat % 2 ^ 8 = 0 := congrArg BitVec.toNat hexp
    omega
  · simp only [UnpackedFloat.packedZero, UnpackedFloat.unpackMantissa_packComponents] at hmant
    have hmod : m % 2 ^ 23 = 0 := congrArg BitVec.toNat hmant
    have hlog : m.log2 < 24 := (Nat.log2_lt h.ne').2 hm
    have hlt : m < 2 ^ 23 := (Nat.log2_lt h.ne').1 (by omega)
    omega

/-! ## Sums -/

/-- Zero is added to everything but negative zero without a change. -/
theorem zero_add_unpacked {x : UnpackedFloat} (hx : x ≠ .zero .negative) :
    UnpackedFloat.add .binary32 (.zero .positive) x = x := by
  cases x with
  | notANumber | infinity s | finite s m e h => rfl
  | zero s =>
    cases s with
    | positive => rfl
    | negative => exact absurd rfl hx

/-- Which zero is added does not matter, except to negative zero. -/
theorem add_zero_unpacked {x : UnpackedFloat} (hx : x ≠ .zero .negative) (s s' : Sign) :
    UnpackedFloat.add .binary32 x (.zero s) = UnpackedFloat.add .binary32 x (.zero s') := by
  cases x with
  | notANumber | infinity t | finite t m e h => rfl
  | zero t =>
    cases t with
    | positive => cases s <;> cases s' <;> rfl
    | negative => exact absurd rfl hx

/-- A sum of multiples of the smallest positive number, rounded. -/
theorem normalize_ne_negativeZero (m : Int) {e : Int} (he : -149 ≤ e) :
    (Float32.Model.pack (UnpackedFloat.normalize .binary32 m e .positive)).unpack ≠
      .zero .negative := by
  have hround : ∀ (s : Sign) (k : Nat), 0 < k →
      (Float32.Model.pack (UnpackedFloat.round .binary32 s k e)).unpack ≠ .zero .negative := by
    intro s k hk
    obtain ⟨m', e', h, heq, hm', he'⟩ := round_bounds s hk he
    rw [heq]
    exact unpack_pack_finite_ne_zero s _ h hm' he'
  unfold UnpackedFloat.normalize
  split
  · next hlt =>
    have := Int.compare_eq_lt.1 hlt
    exact hround _ _ (by omega)
  · simp
  · next hgt =>
    have := Int.compare_eq_gt.1 hgt
    exact hround _ _ (by omega)

/-- **A sum is negative zero only if both numbers are.** -/
theorem add_ne_negativeZero {x : Float32.Model} (hx : x.unpack ≠ .zero .negative)
    (y : Float32.Model) : (x + y).unpack ≠ .zero .negative := by
  have hsum : x + y = .pack (UnpackedFloat.add .binary32 x.unpack y.unpack) := rfl
  rw [hsum]
  cases hux : x.unpack with
  | notANumber => simp [UnpackedFloat.add]
  | infinity s =>
    cases y.unpack with
    | infinity t =>
      simp only [UnpackedFloat.add]
      split <;> simp
    | notANumber | zero t | finite t m e h => simp [UnpackedFloat.add]
  | zero s =>
    obtain rfl : s = .positive := by
      cases s with
      | positive => rfl
      | negative => exact absurd hux hx
    by_cases hy : y.unpack = .zero .negative
    · rw [hy]
      simp [UnpackedFloat.add]
    · rwa [zero_add_unpacked hy, pack_unpack]
  | finite s m e h =>
    cases huy : y.unpack with
    | notANumber | infinity t => simp [UnpackedFloat.add]
    | zero t =>
      have hself : UnpackedFloat.add .binary32 (.finite s m e h) (.zero t) = x.unpack := hux.symm
      rwa [hself, pack_unpack]
    | finite t k f hk =>
      exact normalize_ne_negativeZero _ (le_min (exponent_ge hux) (exponent_ge huy))

theorem add_eq (x y : Float32) : (x + y).toModel =
    .pack (UnpackedFloat.add .binary32 x.toModel.unpack y.toModel.unpack) := rfl

theorem mul_eq (x y : Float32) : (x * y).toModel =
    .pack (UnpackedFloat.mul .binary32 x.toModel.unpack y.toModel.unpack) := rfl

theorem div_eq (x y : Float32) : (x / y).toModel =
    .pack (UnpackedFloat.div .binary32 x.toModel.unpack y.toModel.unpack) := rfl

theorem neg_eq (x : Float32) : (-x).toModel = .pack x.toModel.unpack.neg := rfl

theorem unpack_zero : (0 : Float32).toModel.unpack = .zero .positive := rfl

theorem eq_of_unpack {x y : Float32} (h : x.toModel.unpack = y.toModel.unpack) : x = y := by
  have hmodel := congrArg Float32.Model.pack h
  rw [pack_unpack, pack_unpack] at hmodel
  exact congrArg Float32.ofModel hmodel

theorem mul_comm_unpacked (u v : UnpackedFloat) :
    UnpackedFloat.mul .binary32 u v = UnpackedFloat.mul .binary32 v u := by
  have hsign : ∀ s t : Sign, s * t = t * s := fun s t => by cases s <;> cases t <;> rfl
  cases u <;> cases v <;> simp [UnpackedFloat.mul, hsign, Nat.mul_comm, Int.add_comm]

theorem eq_zero_or {x : Float32} {s : Sign} (h : x.toModel.unpack = .zero s) :
    x = 0 ∨ x = -0 := by
  cases s with
  | positive => exact Or.inl (eq_of_unpack h)
  | negative => exact Or.inr (eq_of_unpack h)

/-- Products do not depend on the order of their factors. -/
theorem mul_comm_float32 (x y : Float32) : x * y = y * x :=
  eq_of_unpack (by rw [mul_eq, mul_eq, mul_comm_unpacked])

/-! ## Zeros

Which zero an operation is given can be seen from its result only if that is a zero. -/

/-- The same, or two zeros. -/
def SameButZero (u v : UnpackedFloat) : Prop := u = v ∨ ∃ s t, u = .zero s ∧ v = .zero t

theorem zero_add_sameButZero (s : Sign) (u : UnpackedFloat) :
    SameButZero (UnpackedFloat.add .binary32 (.zero s) u) u := by
  cases u with
  | notANumber | infinity t | finite t m e h => exact Or.inl rfl
  | zero t => cases s <;> cases t <;> exact Or.inr ⟨_, _, rfl, rfl⟩

theorem add_zero_sameButZero (s : Sign) (u : UnpackedFloat) :
    SameButZero (UnpackedFloat.add .binary32 u (.zero s)) u := by
  cases u with
  | notANumber | infinity t | finite t m e h => exact Or.inl rfl
  | zero t => cases s <;> cases t <;> exact Or.inr ⟨_, _, rfl, rfl⟩

theorem zero_mul_sameButZero (s t : Sign) (u : UnpackedFloat) :
    SameButZero (UnpackedFloat.mul .binary32 (.zero s) u)
      (UnpackedFloat.mul .binary32 (.zero t) u) := by
  cases u with
  | notANumber | infinity r => exact Or.inl rfl
  | zero r | finite r m e h => exact Or.inr ⟨_, _, rfl, rfl⟩

theorem zero_div_sameButZero (s t : Sign) (u : UnpackedFloat) :
    SameButZero (UnpackedFloat.div .binary32 (.zero s) u)
      (UnpackedFloat.div .binary32 (.zero t) u) := by
  cases u with
  | notANumber | zero r => exact Or.inl rfl
  | infinity r | finite r m e h => exact Or.inr ⟨_, _, rfl, rfl⟩

theorem compare_zeros (s t : Sign) (u : UnpackedFloat) :
    UnpackedFloat.compare (.zero s) u = UnpackedFloat.compare (.zero t) u ∧
      UnpackedFloat.compare u (.zero s) = UnpackedFloat.compare u (.zero t) := by
  cases u with
  | notANumber | zero r => exact ⟨rfl, rfl⟩
  | infinity r | finite r m e h => cases r <;> exact ⟨rfl, rfl⟩

/-- Comparisons do not see the sign of a zero. -/
theorem compare_congr {u u' v v' : UnpackedFloat} (hu : SameButZero u u') (hv : SameButZero v v') :
    u.compare v = u'.compare v' := by
  have hleft : u.compare v = u'.compare v := by
    rcases hu with rfl | ⟨s, t, rfl, rfl⟩
    · rfl
    · exact (compare_zeros s t v).1
  rw [hleft]
  rcases hv with rfl | ⟨s, t, rfl, rfl⟩
  · rfl
  · exact (compare_zeros s t u').2

/-- Only zeros compare equal and are not the same. -/
theorem sameButZero_of_compare {u v : UnpackedFloat} (h : u.compare v = some .eq) :
    SameButZero u v := by
  cases u with
  | notANumber => cases h
  | infinity s =>
    cases v with
    | infinity t => cases s <;> cases t <;> first | exact Or.inl rfl | cases h
    | notANumber | zero t | finite t k f hk => cases s <;> cases h
  | zero s =>
    cases v with
    | zero t => exact Or.inr ⟨s, t, rfl, rfl⟩
    | notANumber => cases h
    | infinity t | finite t k f hk => cases t <;> cases h
  | finite s m e hm =>
    cases v with
    | notANumber => cases h
    | infinity t | zero t => cases s <;> cases t <;> cases h
    | finite t k f hk =>
      obtain ⟨rfl, rfl, rfl⟩ : s = t ∧ e = f ∧ m = k := by
        cases s <;> cases t <;> first
          | cases h
          | simpa [UnpackedFloat.compare, Ordering.then_eq_eq] using h
      exact Or.inl rfl

end Binary32

open Binary32

/-- **Adding to zero changes negative zero only.** -/
theorem kept_iff_unpack {x : Float32} : Kept x ↔ x.toModel.unpack ≠ .zero .negative := by
  constructor
  · intro h hx
    have hzero := congrArg (fun y : Float32 => y.toModel.unpack) h
    simp only [add_eq, unpack_zero, hx] at hzero
    cases hzero
  · intro h
    refine eq_of_unpack ?_
    rw [add_eq, unpack_zero, zero_add_unpacked h, pack_unpack]

theorem kept_iff {x : Float32} : Kept x ↔ x ≠ -0 :=
  kept_iff_unpack.trans (not_congr ⟨fun h => eq_of_unpack h, fun h => h ▸ rfl⟩)

/-! ## Numbers up to the sign of a zero -/

/-- The same number, or numbers that compare equal. -/
def SameNumber (x y : Float32) : Prop := x = y ∨ (x == y) = true

theorem sameNumber_iff_unpack {x y : Float32} :
    SameNumber x y ↔ SameButZero x.toModel.unpack y.toModel.unpack := by
  constructor
  · rintro (rfl | h)
    · exact Or.inl rfl
    · exact sameButZero_of_compare (eq_of_beq h)
  · rintro (h | ⟨s, t, hs, ht⟩)
    · exact Or.inl (eq_of_unpack h)
    · refine Or.inr ?_
      have hbeq : (x == y) = x.toModel.unpack.beq y.toModel.unpack := rfl
      rw [hbeq, hs, ht]
      rfl

namespace SameNumber

variable {x y z x' y' z' : Float32}

theorem refl (x : Float32) : SameNumber x x := Or.inl rfl

theorem symm (h : SameNumber x y) : SameNumber y x := by
  rw [sameNumber_iff_unpack] at h ⊢
  rcases h with h | ⟨s, t, hs, ht⟩
  · exact Or.inl h.symm
  · exact Or.inr ⟨t, s, ht, hs⟩

theorem trans (h : SameNumber x y) (h' : SameNumber y z) : SameNumber x z := by
  rw [sameNumber_iff_unpack] at h h' ⊢
  rcases h with h | ⟨s, t, hs, ht⟩
  · exact h ▸ h'
  · rcases h' with h' | ⟨s', t', hs', ht'⟩
    · exact Or.inr ⟨s, t, hs, h' ▸ ht⟩
    · exact Or.inr ⟨s, t', hs, ht'⟩

/-- Results of operations whose exact results differ by the sign of a zero at most. -/
theorem of_pack {u v : UnpackedFloat} (hu : x.toModel = .pack u) (hv : y.toModel = .pack v)
    (h : SameButZero u v) : SameNumber x y := by
  rw [sameNumber_iff_unpack, hu, hv]
  rcases h with rfl | ⟨s, t, rfl, rfl⟩
  · exact Or.inl rfl
  · exact Or.inr ⟨s, t, unpack_pack_zero s, unpack_pack_zero t⟩

theorem add (hx : SameNumber x x') (hy : SameNumber y y') : SameNumber (x + y) (x' + y') := by
  -- a zero can be left out of a sum
  have hleft : ∀ {x y : Float32} {s}, x.toModel.unpack = .zero s → SameNumber (x + y) y :=
    fun {x y s} hs => of_pack (hs ▸ add_eq x y) (pack_unpack _).symm (zero_add_sameButZero s _)
  have hright : ∀ {x y : Float32} {s}, y.toModel.unpack = .zero s → SameNumber (x + y) x :=
    fun {x y s} hs => of_pack (hs ▸ add_eq x y) (pack_unpack _).symm (add_zero_sameButZero s _)
  rcases sameNumber_iff_unpack.1 hx with hx' | ⟨s, t, hs, ht⟩
  · obtain rfl := eq_of_unpack hx'
    rcases sameNumber_iff_unpack.1 hy with hy' | ⟨s, t, hs, ht⟩
    · rw [eq_of_unpack hy']
      exact .refl _
    · exact (hright hs).trans (hright ht).symm
  · exact (hleft hs).trans (hy.trans (hleft ht).symm)

theorem mul (hx : SameNumber x x') (hy : SameNumber y y') : SameNumber (x * y) (x' * y') := by
  have hleft : ∀ {x x' y : Float32}, SameNumber x x' → SameNumber (x * y) (x' * y) := by
    intro x x' y h
    rcases sameNumber_iff_unpack.1 h with h | ⟨s, t, hs, ht⟩
    · rw [eq_of_unpack h]
      exact .refl _
    · exact of_pack (hs ▸ mul_eq x y) (ht ▸ mul_eq x' y) (zero_mul_sameButZero s t _)
  have hright : SameNumber (x' * y) (x' * y') := by
    rw [mul_comm_float32 x' y, mul_comm_float32 x' y']
    exact hleft hy
  exact (hleft hx).trans hright

/-- Divisors have to be the same. -/
theorem div (hx : SameNumber x x') (y : Float32) : SameNumber (x / y) (x' / y) := by
  rcases sameNumber_iff_unpack.1 hx with h | ⟨s, t, hs, ht⟩
  · rw [eq_of_unpack h]
    exact .refl _
  · exact of_pack (hs ▸ div_eq x y) (ht ▸ div_eq x' y) (zero_div_sameButZero s t _)

theorem neg (hx : SameNumber x x') : SameNumber (-x) (-x') := by
  rcases sameNumber_iff_unpack.1 hx with h | ⟨s, t, hs, ht⟩
  · rw [eq_of_unpack h]
    exact .refl _
  · have hneg : SameButZero (UnpackedFloat.neg (.zero s)) (UnpackedFloat.neg (.zero t)) :=
      Or.inr ⟨_, _, rfl, rfl⟩
    exact of_pack (hs ▸ neg_eq x) (ht ▸ neg_eq x') hneg

theorem lt_iff (hx : SameNumber x x') (hy : SameNumber y y') : x < y ↔ x' < y' := by
  have hlt : ∀ x y : Float32,
      x < y ↔ (x.toModel.unpack.compare y.toModel.unpack == some .lt) = true := fun x y =>
    decide_eq_true_iff (p := x.toModel < y.toModel)
  rw [hlt, hlt, compare_congr (sameNumber_iff_unpack.1 hx) (sameNumber_iff_unpack.1 hy)]

theorem beq_eq (hx : SameNumber x x') (hy : SameNumber y y') : (x == y) = (x' == y') := by
  have hbeq : ∀ x y : Float32,
      (x == y) = (x.toModel.unpack.compare y.toModel.unpack == some .eq) := fun _ _ => rfl
  rw [hbeq, hbeq, compare_congr (sameNumber_iff_unpack.1 hx) (sameNumber_iff_unpack.1 hy)]

theorem ltMask_eq (hx : SameNumber x x') (hy : SameNumber y y') :
    Arith.ltMask x y = Arith.ltMask x' y' := by
  have hmask : ∀ x y : Float32, Arith.ltMask x y = if x < y then 1 else 0 := fun _ _ => rfl
  rw [hmask, hmask]
  exact if_congr (lt_iff hx hy) rfl rfl

theorem max (hx : SameNumber x x') (hy : SameNumber y y') :
    SameNumber (Arith.max x y) (Arith.max x' y') := by
  have hmax : ∀ x y : Float32, Arith.max x y = if x < y then y else if x == x then x else y :=
    fun _ _ => rfl
  rw [hmax, hmax, beq_eq hx hx]
  simp only [lt_iff hx hy]
  split
  · exact hy
  · split
    · exact hx
    · exact hy

/-- Adding to zero can only change the sign of a zero. -/
theorem zero_add (x : Float32) : SameNumber (0 + x) x :=
  of_pack (add_eq 0 x) (pack_unpack _).symm (zero_add_sameButZero _ _)

/-- A number that is not zero is the same as itself only. -/
theorem eq_of_ne_zero (h : SameNumber x y) (hx : (x == 0) = false) : x = y := by
  rcases sameNumber_iff_unpack.1 h with h | ⟨s, t, hs, -⟩
  · exact eq_of_unpack h
  · have hzero : SameNumber x 0 := sameNumber_iff_unpack.2 (Or.inr ⟨s, _, hs, unpack_zero⟩)
    rw [beq_eq hzero (refl 0)] at hx
    cases hx

/-- Arguments of a function that does not tell the zeros apart. -/
theorem congr {f : Float32 → Float32} (h : SameNumber x y)
    (hf : (x == 0) = true → SameNumber (f 0) (f (-0))) : SameNumber (f x) (f y) := by
  by_cases hx : (x == 0) = true
  · have hzeros : ∀ {z : Float32}, SameNumber z 0 → SameNumber (f z) (f 0) := by
      intro z hz
      rcases sameNumber_iff_unpack.1 hz with hz | ⟨s, -, hs, -⟩
      · rw [eq_of_unpack hz]
        exact .refl _
      · rcases eq_zero_or hs with rfl | rfl
        · exact .refl _
        · exact (hf hx).symm
    exact (hzeros (Or.inr hx)).trans (hzeros (h.symm.trans (Or.inr hx))).symm
  · rw [h.eq_of_ne_zero (by simpa using hx)]
    exact .refl _

end SameNumber

/-- What is added to a number that is kept may be a zero of any sign. -/
theorem Kept.add_eq {x y z : Float32} (hx : Kept x) (h : SameNumber y z) : x + y = x + z := by
  rcases sameNumber_iff_unpack.1 h with h | ⟨s, t, hs, ht⟩
  · rw [eq_of_unpack h]
  · refine congrArg Float32.ofModel (congrArg Float32.Model.pack ?_)
    rw [hs, ht]
    exact add_zero_unpacked (kept_iff_unpack.1 hx) s t

/-- **Single precision loses negative zeros in sums.** -/
theorem rounds_float32 : Rounds Float32 where
  mul_comm := mul_comm_float32
  zero := rfl
  one := rfl
  add hx y := kept_iff_unpack.2 (add_ne_negativeZero (kept_iff_unpack.1 hx) y.toModel)
  absorb hx y := hx.add_eq (.zero_add y)
  absorb_div hx y z := hx.add_eq ((SameNumber.zero_add y).div z)

/-! ## Agreement up to the sign of a zero -/

/-- A function and its derivative do not tell the zeros apart. -/
structure Unary.Steady (f : Unary) : Prop where
  apply : SameNumber (f.apply 0) (f.apply (-0))
  derivative : SameNumber (f.derivative 0) (f.derivative (-0))

/-- No function tells the zeros apart if the exponential and the hyperbolic tangent
do not. -/
theorem Unary.steady (hexp : Float32.exp 0 = Float32.exp (-0))
    (htanh : SameNumber (Float32.tanh 0) (Float32.tanh (-0))) (f : Unary) : f.Steady := by
  have hexp' : (Arith.exp (-0) : Float32) = Arith.exp 0 := hexp.symm
  have htanh' : SameNumber (Arith.tanh 0) (Arith.tanh (-0)) := htanh
  have hneg : (- -0 : Float32) = 0 := by decide +kernel
  cases f with
  | sigmoid =>
    have hsame : Unary.logistic (-0 : Float32) = Unary.logistic 0 := by
      rw [Unary.logistic, Unary.logistic, hneg, hexp']
    exact ⟨Or.inl hsame.symm, Or.inl (by simp only [Unary.derivative, hsame])⟩
  | relu => exact ⟨Or.inr (by decide +kernel), Or.inl (by decide +kernel)⟩
  | exp => exact ⟨Or.inl hexp, Or.inl hexp⟩
  | log =>
    have hmask : Arith.eqMask (-0 : Float32) 0 = Arith.eqMask 0 0 := by decide +kernel
    have hsum : (-0 + Arith.eqMask 0 0 : Float32) = 0 + Arith.eqMask 0 0 := by decide +kernel
    exact ⟨Or.inl (by simp only [Unary.apply, hmask, hsum]),
      Or.inl (by simp only [Unary.derivative, hmask, hsum])⟩
  | tanh =>
    have hsquare : ∀ {x : Float32} {s}, x.toModel.unpack = .zero s → 1 - x * x = 1 := by
      intro x s hs
      rcases eq_zero_or hs with rfl | rfl <;> decide +kernel
    refine ⟨htanh, Or.inl ?_⟩
    simp only [Unary.derivative]
    rcases sameNumber_iff_unpack.1 htanh' with h | ⟨s, t, hs, ht⟩
    · rw [eq_of_unpack h]
    · rw [hsquare hs, hsquare ht]
  | square => exact ⟨Or.inr (by decide +kernel), Or.inr (by decide +kernel)⟩

/-- Division by zero shows which zero it was, so it is excluded. -/
def Agreement.upToZeros : Agreement Float32 where
  value := SameNumber
  grad := SameNumber
  Fine i y :=
    match i with
    | .div _ r => (y r == 0) = false
    | .func f l => (y l == 0) = true → f.Steady
    | _ => True
  same := .refl
  zero := .refl 0
  one := .refl 1
  left _ := .refl _
  compute {i y x} hf hx hp := by
    cases i with
    | parameter => cases hp
    | neg l => exact ⟨_, _, rfl, rfl, (hx l (by simp [Instr.operands])).neg⟩
    | func f l =>
      exact ⟨_, _, rfl, rfl, (hx l (by simp [Instr.operands])).congr fun h => (hf h).apply⟩
    | add l r =>
      have hl := hx l (by simp [Instr.operands])
      exact ⟨_, _, rfl, rfl, hl.add (hx r (by simp [Instr.operands]))⟩
    | mul l r =>
      have hl := hx l (by simp [Instr.operands])
      exact ⟨_, _, rfl, rfl, (SameNumber.zero_add _).trans
        (hl.mul (hx r (by simp [Instr.operands])))⟩
    | div l r =>
      have hr : y r = x r := (hx r (by simp [Instr.operands])).eq_of_ne_zero hf
      exact ⟨_, _, rfl, rfl, hr ▸ (hx l (by simp [Instr.operands])).div (y r)⟩
    | max l r =>
      have hl := hx l (by simp [Instr.operands])
      exact ⟨_, _, rfl, rfl, hl.max (hx r (by simp [Instr.operands]))⟩
  pushes {i y x g h} hf hx hg := by
    have hterm : ∀ {t u : Float32}, SameNumber t u →
        ∀ {a b : Float32}, SameNumber a b → SameNumber (a + t) (b + u) := fun htu _ _ hab =>
      hab.add htu
    cases i with
    | parameter => exact .nil
    | neg l => exact .cons ⟨rfl, hterm hg.neg⟩ .nil
    | func f l =>
      exact .cons ⟨rfl, hterm (hg.mul
        ((hx l (by simp [Instr.operands])).congr fun h => (hf h).derivative))⟩ .nil
    | add l r => exact .cons ⟨rfl, hterm hg⟩ (.cons ⟨rfl, hterm hg⟩ .nil)
    | mul l r =>
      have hl := hx l (by simp [Instr.operands])
      have hr := hx r (by simp [Instr.operands])
      refine .cons ⟨rfl, hterm ((SameNumber.zero_add _).trans (hg.mul hr))⟩
        (.cons ⟨rfl, hterm ((SameNumber.zero_add _).trans ?_)⟩ .nil)
      rw [mul_comm_float32]
      exact hg.mul hl
    | div l r =>
      have hl := hx l (by simp [Instr.operands])
      have hr : y r = x r := (hx r (by simp [Instr.operands])).eq_of_ne_zero hf
      rw [Instr.summedPushes, Instr.pushes, hr]
      exact .cons ⟨rfl, hterm (hg.div _)⟩
        (.cons ⟨rfl, hterm (((SameNumber.zero_add _).trans (hg.neg.mul hl)).div _)⟩ .nil)
    | max l r =>
      have hmask : Arith.ltMask (y r) (y l) = Arith.ltMask (x r) (x l) :=
        (hx r (by simp [Instr.operands])).ltMask_eq (hx l (by simp [Instr.operands]))
      simp only [Instr.summedPushes, Instr.pushes, hmask]
      exact .cons ⟨rfl, hterm (hg.mul (.refl _))⟩ (.cons ⟨rfl, hterm (hg.mul (.refl _))⟩ .nil)

end DiffGraph
