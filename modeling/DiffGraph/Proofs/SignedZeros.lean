/-
  The sign of a zero in a compiled program.

  A product of vertices is a sum that starts from zero, so it is never negative zero, as
  a product of items may be.  In single precision a program can therefore differ from
  its graph, but in the sign of zeros only, until one of them becomes the divisor of a
  number that is not zero.

  * `Single`: single precision with any exponential function, logarithm and hyperbolic
    tangent, of which nothing is known but their values at zero (`Functions.AtZero`);
  * `Program.compute_forward`: after an evaluation each item has the value that its
    instruction gives for the values of the items;
  * `sameNumber_compute`: what one instruction makes of numbers with other zeros.  A
    vertex and its item are the same number (`Stands.sameNumber`), and the same to the
    bit if no product below was negative zero;
  * `result_sameNumber`: so it is for the root, and for the result of the program.
-/
import Mathlib
import DiffGraph.Proofs.Rounds

namespace DiffGraph

open Binary32

/-! ## Functions that arithmetic does not define -/

/-- An exponential function, a logarithm and a hyperbolic tangent. -/
structure Functions where
  exp : Float32 → Float32
  log : Float32 → Float32
  tanh : Float32 → Float32

/-- Their values at the two zeros. -/
structure Functions.AtZero (F : Functions) : Prop where
  exp : F.exp 0 = 1
  exp_neg : F.exp (-0) = 1
  tanh : F.tanh 0 = 0
  tanh_neg : F.tanh (-0) = -0

/-- Single precision with given functions. -/
def Single (_ : Functions) : Type := Float32

instance (F : Functions) : DecidableEq (Single F) := inferInstanceAs (DecidableEq Float32)

instance (F : Functions) : Scalar (Single F) where
  __ := (inferInstance : Scalar Float32)
  exp := F.exp
  log := F.log
  tanh := F.tanh

/-- Single precision as it is. -/
theorem scalar_single : (inferInstance : Scalar (Single ⟨Float32.exp, Float32.log, Float32.tanh⟩)) =
    (inferInstance : Scalar Float32) :=
  rfl

variable {F : Functions}

theorem rounds_single (F : Functions) : Rounds (Single F) where
  mul_comm := rounds_float32.mul_comm
  zero := rounds_float32.zero
  one := rounds_float32.one
  add := rounds_float32.add
  absorb := rounds_float32.absorb
  absorb_div := rounds_float32.absorb_div

/-- No function tells the zeros apart. -/
theorem Functions.AtZero.apply (hF : F.AtZero) (f : Unary) :
    SameNumber (Unary.apply (E := Single F) f 0) (Unary.apply (E := Single F) f (-0)) := by
  have hneg : (- -0 : Float32) = 0 := by decide +kernel
  have hexp : (Arith.exp (-0) : Single F) = Arith.exp 0 := hF.exp_neg.trans hF.exp.symm
  cases f with
  | sigmoid =>
    have hneg' : (- -0 : Single F) = 0 := hneg
    have hsame : Unary.logistic (-0 : Single F) = Unary.logistic 0 := by
      rw [Unary.logistic, Unary.logistic, hneg', hexp]
    exact Or.inl hsame.symm
  | relu =>
    have h : SameNumber (Unary.relu.apply (0 : Float32)) (Unary.relu.apply (-0)) :=
      Or.inr (by decide +kernel)
    exact h
  | exp => exact Or.inl hexp.symm
  | log =>
    have hmask : (Arith.eqMask (-0) 0 : Float32) = Arith.eqMask 0 0 := by decide +kernel
    have hsum : (-0 + Arith.eqMask 0 0 : Float32) = 0 + Arith.eqMask 0 0 := by decide +kernel
    have hmask' : (Arith.eqMask (-0) 0 : Single F) = Arith.eqMask 0 0 := hmask
    have hsum' : (-0 + Arith.eqMask 0 0 : Single F) = 0 + Arith.eqMask 0 0 := hsum
    have hsame : Unary.log.apply (-0 : Single F) = Unary.log.apply 0 := by
      simp only [Unary.apply, hmask', hsum']
    exact Or.inl hsame.symm
  | tanh =>
    have h : SameNumber (F.tanh 0) (F.tanh (-0)) := by
      rw [hF.tanh, hF.tanh_neg]
      exact Or.inr (by decide +kernel)
    exact h
  | square =>
    have h : SameNumber (Unary.square.apply (0 : Float32)) (Unary.square.apply (-0)) :=
      Or.inr (by decide +kernel)
    exact h

/-! ## One instruction -/

/-- A number is no NaN if it equals itself. -/
theorem unpack_of_not_beq_self {x : Float32} (h : (x == x) = false) :
    x.toModel.unpack = .notANumber := by
  have hbeq : (x == x) = (x.toModel.unpack.compare x.toModel.unpack == some .eq) := rfl
  rw [hbeq] at h
  cases hx : x.toModel.unpack with
  | notANumber => rfl
  | infinity s => rw [hx] at h; cases s <;> cases h
  | zero s => rw [hx] at h; cases h
  | finite s m e hm =>
    rw [hx] at h
    cases s <;> simp [Float.Model.UnpackedFloat.compare] at h

theorem unpack_of_beq_zero {x : Float32} (h : (x == 0) = true) :
    ∃ s, x.toModel.unpack = .zero s := by
  rcases sameNumber_iff_unpack.1 (Or.inr h : SameNumber x 0) with hx | ⟨s, -, hs, -⟩
  · exact ⟨_, hx⟩
  · exact ⟨s, hs⟩

/-- A quotient by zero is no number if the dividend is zero or no number, whichever zeros
they are. -/
theorem SameNumber.div_zero {x x' y y' : Float32} (hx : SameNumber x x') (hy : SameNumber y y')
    (hzero : (y == 0) = true) (h : (x == 0) = true ∨ (x == x) = false) :
    SameNumber (x / y) (x' / y') := by
  obtain ⟨s, hs⟩ := unpack_of_beq_zero hzero
  obtain ⟨s', hs'⟩ := unpack_of_beq_zero ((beq_eq hy (refl 0)).symm.trans hzero)
  refine of_pack (div_eq x y) (div_eq x' y') (Or.inl ?_)
  rw [hs, hs']
  rcases h with h | h
  · obtain ⟨t, ht⟩ := unpack_of_beq_zero h
    obtain ⟨t', ht'⟩ := unpack_of_beq_zero ((beq_eq hx (refl 0)).symm.trans h)
    rw [ht, ht']
    rfl
  · rw [unpack_of_not_beq_self h, unpack_of_not_beq_self ((beq_eq hx hx).symm.trans h)]
    rfl

/-- **What an instruction makes of numbers with other zeros**: numbers that differ in the
sign of a zero at most, unless a number is divided by another zero. -/
theorem sameNumber_compute (hF : F.AtZero) {i : Instr} {y x : Nat → Single F}
    (hx : ∀ c ∈ i.operands, SameNumber (y c) (x c))
    (hdiv : ∀ a b, i = .div a b → (y b == 0) = true →
      (y a == 0) = true ∨ (y a == y a) = false ∨ y b = x b) {w v : Single F}
    (hw : i.summedValue y = some w) (hv : i.compute x = some v) : SameNumber w v := by
  cases i with
  | parameter => cases hv
  | neg l =>
    cases hw
    cases hv
    exact (hx l (by simp [Instr.operands])).neg
  | func f l =>
    cases hw
    cases hv
    have hsame := (hx l (by simp [Instr.operands])).congr
      (f := fun z => Unary.apply (E := Single F) f z) fun _ => hF.apply f
    exact hsame
  | add l r =>
    cases hw
    cases hv
    exact (hx l (by simp [Instr.operands])).add (hx r (by simp [Instr.operands]))
  | mul l r =>
    cases hw
    cases hv
    have hprod := (hx l (by simp [Instr.operands])).mul (hx r (by simp [Instr.operands]))
    exact (SameNumber.zero_add _).trans hprod
  | div l r =>
    cases hw
    cases hv
    have hl := hx l (by simp [Instr.operands])
    have hr := hx r (by simp [Instr.operands])
    cases hzero : (y r == 0) with
    | false =>
      have heq : y r = x r := hr.eq_of_ne_zero hzero
      exact heq ▸ hl.div (y r)
    | true =>
      rcases hdiv l r rfl hzero with h | h | heq
      · exact hl.div_zero hr hzero (Or.inl h)
      · exact hl.div_zero hr hzero (Or.inr h)
      · exact heq ▸ hl.div (y r)
  | max l r =>
    cases hw
    cases hv
    exact (hx l (by simp [Instr.operands])).max (hx r (by simp [Instr.operands]))

/-! ## All instructions -/

namespace Program

variable {T : Type} [Arith T]

/-- The items before `k` have the values that their instructions give. -/
structure Computed (p : Program T) (k : Nat) (q : Program T) : Prop where
  code : q.code = p.code
  size : q.values.size = p.values.size
  item : ∀ i < k, ∀ v, (p.code.instr i).compute q.value = some v → q.value i = v

theorem Computed.forwardItem {p q : Program T} {k : Nat} (h : Computed p k q)
    (hk : k < p.values.size) : Computed p (k + 1) (q.forwardItem k) := by
  unfold Program.forwardItem
  rw [h.code]
  cases hv : (p.code.instr k).compute q.value with
  | none =>
    refine ⟨h.code, h.size, fun i hi v hiv => ?_⟩
    rcases Nat.lt_succ_iff_lt_or_eq.1 hi with hi | rfl
    · exact h.item i hi v hiv
    · rw [hv] at hiv
      cases hiv
  | some u =>
    refine ⟨h.code, by simpa [setValue] using h.size, fun i hi v hiv => ?_⟩
    -- an item reads earlier items only, so the new value is not among its operands
    have hread : (p.code.instr i).compute q.value = some v := by
      rw [← hiv]
      refine Instr.compute_congr fun c hc => (value_setValue_of_ne _ ?_ _).symm
      exact (p.code.operands_lt_self hc |>.trans_le (Nat.lt_succ_iff.1 hi)).ne'
    rcases Nat.lt_succ_iff_lt_or_eq.1 hi with hi | rfl
    · rw [value_setValue_of_ne _ hi.ne']
      exact h.item i hi v hread
    · rw [value_setValue_self _ (h.size ▸ hk)]
      exact Option.some.inj (hv.symm.trans hread)

/-- **After an evaluation each item has the value that its instruction gives.** -/
theorem compute_forward {p : Program T} (hsize : p.values.size = p.size) {i : Nat}
    (hi : i < p.size) {v : T} (hv : (p.code.instr i).compute p.forward.value = some v) :
    p.forward.value i = v := by
  have hitems : ∀ k ≤ p.size, Computed p k ((List.range k).foldl forwardItem p) := by
    intro k
    induction k with
    | zero => exact fun _ => ⟨rfl, rfl, fun i hi => absurd hi (Nat.not_lt_zero i)⟩
    | succ k ih =>
      intro hk
      rw [List.range_succ, List.foldl_append]
      exact (ih (Nat.le_of_succ_le hk)).forwardItem (hsize ▸ hk)
  exact (hitems p.size le_rfl).item i hi v hv

end Program

namespace Graph

/-- No product at a vertex or below it is negative zero. -/
def SignsKept (d : Dag (Single F)) (y : Node → Single F) (n : Node) : Prop :=
  ∀ m, d.Below n m → ∀ a b, d.op m = .mul a b → y a * y b ≠ -0

theorem SignsKept.operand {d : Dag (Single F)} {y : Node → Single F} {n c : Node}
    (h : SignsKept d y n) (hc : c ∈ d.operands n) : SignsKept d y c :=
  fun m hm => h m (((Dag.Below.refl d n).operand hc).trans hm)

/-- What an operation and its item do, side by side. -/
theorem Stands.item {K E : Type} [Scalar K] [Arith E] [Laned K E] {d : Dag K} {order : List Node}
    {code : Code} {s : Graph K E} {y : Node → E} {n : Node} {i : Nat} {p : Program E}
    (h : Stands d order code) (hi : order[i]? = some n) (hd : s.dag = d)
    (hy : ∀ n ∈ order, s.value n = .scalar (y n)) (hs : s.Settled n)
    (hn : s.isParameter n = false) (hcode : p.code = code) (hsize : p.values.size = p.size) :
    ∃ ins, (d.op n).Does ins ∧ ins.summedValue y = some (y n) ∧
      ins.compute (fun c => p.forward.value (order.idxOf c)) = some (p.forward.value i) := by
  subst hd
  have hmem := List.mem_of_getElem? hi
  have hlt : i < p.size := by
    rw [Program.size, hcode, h.size]
    exact (List.getElem?_eq_some_iff.1 hi).1
  obtain ⟨ins, hins, hinstr⟩ := h.instr i n hi
  obtain ⟨w, hw, hvalue⟩ := hins.value (fun c hc =>
    hy c (List.mem_of_getElem? (h.operand i n hi c hc).1)) hn (s.value n) (s.cell n).mask
  have hyn : y n = w := Matrix.scalar_injective <|
    (hy n hmem).symm.trans (Except.ok.inj (hs.symm.trans hvalue))
  obtain ⟨-, v, -, hv, -⟩ := (Agreement.anything (E := E)).compute (i := ins) (y := y)
    (x := p.forward.value ∘ order.idxOf) True.intro (fun _ _ => True.intro)
    (hins.isParameter.trans hn)
  have hitem : (p.code.instr i).compute p.forward.value = some v := by
    rw [hcode, hinstr, Instr.compute_rename]
    exact hv
  refine ⟨ins, hins, hyn ▸ hw, ?_⟩
  rw [p.compute_forward hsize hlt hitem]
  exact hv

/-- **A vertex and its item are the same number** up to the sign of a zero, and the same
to the bit if no product below is negative zero. -/
theorem Stands.sameNumber (hF : F.AtZero) {d : Dag (Single F)} {order : List Node} {code : Code}
    {s : Graph (Single F) (Single F)} {y : Node → Single F} {p : Program (Single F)}
    (h : Stands d order code) (hd : s.dag = d) (hy : ∀ n ∈ order, s.value n = .scalar (y n))
    (hs : ∀ n ∈ order, s.Settled n) (hcode : p.code = code) (hsize : p.values.size = p.size)
    (hparam : ∀ i n, order[i]? = some n → s.isParameter n = true → y n = p.value i)
    (hdiv : ∀ n ∈ order, ∀ a b, d.op n = .div a b → (y b == 0) = true →
      (y a == 0) = true ∨ (y a == y a) = false ∨ SignsKept d y b)
    {i : Nat} {n : Node} (hi : order[i]? = some n) :
    SameNumber (y n) (p.forward.value i) ∧ (SignsKept d y n → y n = p.forward.value i) := by
  induction n using Nat.strong_induction_on generalizing i with
  | _ n ih =>
    obtain ⟨ins₀, hins₀, hinstr⟩ := h.instr i n hi
    cases hn : s.isParameter n with
    | true =>
      have hitem : (p.code.instr i).isParameter = true := by
        rw [hcode, hinstr, hins₀.eq_parameter (by rwa [isParameter, op, hd] at hn)]
        rfl
      have heq : y n = p.forward.value i :=
        (hparam i n hi hn).trans ((Program.reran_forward p).value i hitem).symm
      exact ⟨Or.inl heq, fun _ => heq⟩
    | false =>
      have hmem := List.mem_of_getElem? hi
      obtain ⟨ins, hins, hw, hv⟩ := h.item hi hd hy (hs n hmem) hn hcode hsize
      have hoperands : ∀ c ∈ ins.operands, c ∈ d.operands n := fun c hc =>
        hins.operands.subst hc
      have hop := fun c hc => ih c (d.operands_lt_self (hoperands c hc))
        (h.operand i n hi c (hoperands c hc)).1
      refine ⟨sameNumber_compute hF (fun c hc => (hop c hc).1) ?_ hw hv, fun hkept => ?_⟩
      · rintro a b rfl hzero
        obtain ⟨op, hdop⟩ : ∃ op, d.op n = op := ⟨_, rfl⟩
        rw [hdop] at hins
        cases hins with
        | div =>
          refine (hdiv n hmem a b hdop hzero).imp_right (Or.imp_right fun hkept => ?_)
          exact (hop b (by simp [Instr.operands])).2 hkept
      · have hfine : (Agreement.exact (rounds_single F)).Fine ins y := by
          rintro a b rfl
          obtain ⟨op, hdop⟩ : ∃ op, d.op n = op := ⟨_, rfl⟩
          rw [hdop] at hins
          cases hins with
          | mul => exact kept_iff.2 (hkept n (Dag.Below.refl d n) a b hdop)
        obtain ⟨w, v, hw', hv', hwv⟩ := (Agreement.exact (rounds_single F)).compute hfine
          (fun c hc => (hop c hc).2 (hkept.operand (hoperands c hc)))
          (hins.isParameter.trans (by rwa [isParameter, op, hd] at hn))
        rw [Option.some.inj (hw.symm.trans hw'), Option.some.inj (hv.symm.trans hv')]
        exact hwv

/-- **A compiled program gives the number that its graph gives.**  Let the values that are
there below `root` be up to date with each other.  Where a vertex is divided by a zero, let
it be a zero or a NaN itself, or let no product at the divisor or below be negative zero.
Then the result of the program and the value of `root` compare equal, or are both NaN. -/
theorem result_sameNumber (hF : F.AtZero) {g : Graph (Single F) (Single F)} {root : Node}
    (hroot : root < g.size) {p : Program (Single F)} (hp : g.compile (g.order root) = .ok p)
    (hc : g.Consistent root) :
    let y := ((evaluate root).final g).number
    (∀ n, g.dag.Below root n → ∀ a b, g.op n = .div a b → (y b == 0) = true →
      (y a == 0) = true ∨ (y a == y a) = false ∨ SignsKept g.dag y b) →
    ∃ v w, Program.result.answer p = .ok v ∧ (scalarOf root).answer g = .ok w ∧
      SameNumber w v := by
  intro y hdiv
  obtain ⟨hn, hcomp⟩ := numeric_of_compile hroot hp
  obtain ⟨g', hrun, heval, hn', hready⟩ := evaluate_numeric hn hc hroot
  have hfinal : (evaluate root).final g = g' := Step.final_of_run_ok hrun
  have hbelow : ∀ {n}, n ∈ g.order root → g'.dag.Below root n := fun hm =>
    heval.dag ▸ (mem_order hroot).1 hm
  have hy : ∀ n ∈ g.order root, g'.value n = .scalar (y n) := fun n hm =>
    hfinal ▸ hready.number hn' (hbelow hm)
  have hstands := hcomp.stands
  obtain ⟨-, -, -, v, hresult, hanswer, -⟩ := hstands.result (A := .anything) hroot hrun hready hn'
    (fun _ _ _ _ => True.intro) rfl hcomp.size_values fun _ _ _ _ => True.intro
  have hlast := getElem?_order_last hroot
  have hsize : p.forward.size = (g.order root).length := by
    rw [Program.size, (Program.reran_forward p).code, hcomp.size]
  have hpos := (Nat.zero_le _).trans_lt (List.getElem?_eq_some_iff.1 hlast).1
  have hv : v = p.forward.value ((g.order root).length - 1) := by
    rw [p.run_result, hsize, if_neg hpos.ne'] at hresult
    cases hresult
    rfl
  refine ⟨v, _, Step.answer_of_run_ok hresult, hanswer, ?_⟩
  have hsame := hstands.sameNumber hF heval.dag hy (fun n hm => hready.settled n (hbelow hm)) rfl
    (hcomp.size_values.trans hcomp.size.symm) ?_ (fun n hm => ?_) hlast
  · rw [hv, ← hfinal]
    exact hsame.1
  · intro i n hi hpn
    have hpn' : g.isParameter n = true := by rwa [isParameter, heval.op] at hpn
    have hvalue := (heval.value_parameter hpn').trans (hcomp.value i n hi hpn')
    exact Matrix.scalar_injective ((hy n (List.mem_of_getElem? hi)).symm.trans hvalue)
  · exact hdiv n ((mem_order hroot).1 hm)

/-- An exponential function and a hyperbolic tangent with the right values at zero. -/
def elementary : Functions where
  exp x := if x == 0 then 1 else Float32.exp x
  log := Float32.log
  tanh x := if x == 0 then x else Float32.tanh x

/-- A quotient of quotients, `(tanh z / exp z) / (a / b)` for `z = a * b`, where `a` is
minus one and `b` is zero. -/
def quotients : Graph (Single elementary) (Single elementary) :=
  Call.runs [.parameter (.scalar (-1)), .parameter (.scalar 0), .record (.mul 0 1),
    .record (.func .tanh 2), .record (.func .exp 2), .record (.div 3 4), .record (.div 0 1),
    .record (.div 5 6)]
    (.empty 0 ⟨fun _ => 0, fun _ => 0⟩)

theorem order_quotients : quotients.order 7 = [0, 1, 2, 3, 4, 5, 6, 7] := by
  have hsize : quotients.dag.size = 8 := by decide +kernel
  have hops : quotients.dag.operands 7 = [5, 6] ∧ quotients.dag.operands 6 = [0, 1] ∧
      quotients.dag.operands 5 = [3, 4] ∧ quotients.dag.operands 4 = [2] ∧
      quotients.dag.operands 3 = [2] ∧ quotients.dag.operands 2 = [0, 1] ∧
      quotients.dag.operands 1 = [] ∧ quotients.dag.operands 0 = [] := by
    decide +kernel
  simp [order, Dag.traverse, Dag.visit, hsize, hops]

theorem missing_quotients : quotients.missing 7 = [2, 3, 4, 5, 6, 7] := by
  have hsize : quotients.dag.size = 8 := by decide +kernel
  have hops : quotients.dag.operands 7 = [5, 6] ∧ quotients.dag.operands 6 = [0, 1] ∧
      quotients.dag.operands 5 = [3, 4] ∧ quotients.dag.operands 4 = [2] ∧
      quotients.dag.operands 3 = [2] ∧ quotients.dag.operands 2 = [0, 1] := by
    decide +kernel
  have hv : ∀ n < 8, quotients.hasValue n = decide (n < 2) := by decide +kernel
  simp [missing, Dag.traverse, Dag.visit, hsize, hops, hv]

/-- The product is negative zero in the program and zero in the graph.  It shows in the
sign of the quotient only, although one divisor is zero. -/
theorem result_sameNumber_quotients :
    elementary.AtZero ∧ 7 < quotients.size ∧ quotients.Consistent 7 ∧
      ∃ p v w, quotients.compile (quotients.order 7) = .ok p ∧
        Program.result.answer p = .ok v ∧ (scalarOf 7).answer quotients = .ok w ∧
        SameNumber w v ∧ v = 0 ∧ w = -0 := by
  have hF : elementary.AtZero :=
    ⟨by decide +kernel, by decide +kernel, by decide +kernel, by decide +kernel⟩
  have hroot : 7 < quotients.size := by decide +kernel
  have hv : ∀ n < 8, quotients.hasValue n = quotients.isParameter n := by decide +kernel
  have hc : quotients.Consistent 7 := fun n hb hvn hp => by
    rw [hv n (Nat.lt_succ_of_le hb.le), hp] at hvn
    cases hvn
  have hresult : (quotients.compile (quotients.order 7) >>= Program.result.answer) = .ok 0 := by
    rw [order_quotients]
    decide +kernel
  obtain ⟨p, hp, hv0⟩ := bind_eq_ok.1 hresult
  have hvalue : (scalarOf 7).answer quotients = .ok (-0) := by
    rw [Step.answer, scalarOf, EStateM.run_bind, run_evaluate_of_missing missing_quotients]
    decide +kernel
  have hdivisors : (((evaluate 7).final quotients).number 4 == 0) = false ∧
      (((evaluate 7).final quotients).number 6 == 0) = false := by
    rw [Step.final, run_evaluate_of_missing missing_quotients]
    decide +kernel
  have hop : quotients.op 0 = .parameter ∧ quotients.op 1 = .parameter ∧
      quotients.op 2 = .mul 0 1 ∧ quotients.op 3 = .func .tanh 2 ∧
      quotients.op 4 = .func .exp 2 ∧ quotients.op 5 = .div 3 4 ∧ quotients.op 6 = .div 0 1 ∧
      quotients.op 7 = .div 5 6 :=
    ⟨rfl, rfl, rfl, rfl, rfl, rfl, rfl, rfl⟩
  obtain ⟨v, w, hv', hw, hsame⟩ := result_sameNumber hF hroot hp hc fun n hb a b hdiv hzero => by
    have hn : n < 8 := Nat.lt_succ_of_le hb.le
    interval_cases n <;> simp only [hop, reduceCtorEq, Op.div.injEq] at hdiv
    · obtain ⟨-, rfl⟩ := hdiv
      rw [hdivisors.1] at hzero
      cases hzero
    · obtain ⟨-, rfl⟩ := hdiv
      -- the zero that is a divisor is a parameter
      refine Or.inr (Or.inr fun m hm a b hmul => ?_)
      have hparameter : quotients.op m = .parameter := by
        rcases Nat.le_one_iff_eq_zero_or_eq_one.1 hm.le with rfl | rfl
        · exact hop.1
        · exact hop.2.1
      cases hparameter.symm.trans hmul
    · obtain ⟨-, rfl⟩ := hdiv
      rw [hdivisors.2] at hzero
      cases hzero
  rw [hv0] at hv'
  rw [hvalue] at hw
  cases hv'
  cases hw
  exact ⟨hF, hroot, hc, p, 0, -0, hp, hv0, hvalue, hsame, rfl, rfl⟩

/-- One divided by the product of minus one and zero. -/
def zeroQuotient : Graph Float32 Float32 :=
  Call.runs [.parameter (.scalar (-1)), .parameter (.scalar 0), .record (.mul 0 1),
    .parameter (.scalar 1), .record (.div 3 2)]
    (.empty 0 ⟨fun _ => 0, fun _ => 0⟩)

/-- The square of two. -/
def power : Graph Float32 Float32 :=
  Call.runs [.parameter (.scalar 2), .record (.mul 0 0)] (.empty 0 ⟨fun _ => 0, fun _ => 0⟩)

/-- The same after an evaluation, and with the two replaced by a three. -/
def stalePower : Graph Float32 Float32 := Call.runs [.evaluate 1, .assign 0 3] power

theorem stalePower_eq : stalePower = (assign 0 3).final ((evaluateOne 1).final power) := by
  have hsize : power.dag.size = 2 := by decide +kernel
  have hops : power.dag.operands 1 = [0, 0] := by decide +kernel
  have hv : power.hasValue 1 = false ∧ power.hasValue 0 = true := by decide +kernel
  have hmissing : power.missing 1 = [1] := by
    simp [missing, Dag.traverse, Dag.visit, hsize, hops, hv]
  have hrun : (evaluate 1).run power = (evaluateOne 1).run power := by
    rw [run_evaluate_of_missing hmissing, List.forM_eq_forM, List.forM_cons, List.forM_nil,
      EStateM.run_bind]
    cases (evaluateOne 1).run power <;> rfl
  have hfinal : (evaluate 1).final power = (evaluateOne 1).final power := by
    rw [Step.final, hrun, Step.final]
  exact congrArg (assign 0 3).final hfinal

theorem order_stalePower : stalePower.order 1 = [0, 1] := by
  have hsize : stalePower.dag.size = 2 := by
    rw [stalePower_eq]
    decide +kernel
  have hops : stalePower.dag.operands 1 = [0, 0] ∧ stalePower.dag.operands 0 = [] := by
    rw [stalePower_eq]
    decide +kernel
  simp [order, Dag.traverse, Dag.visit, hsize, hops]

theorem order_zeroQuotient : zeroQuotient.order 4 = [3, 0, 1, 2, 4] := by
  have hsize : zeroQuotient.dag.size = 5 := by decide +kernel
  have hops : zeroQuotient.dag.operands 4 = [3, 2] ∧ zeroQuotient.dag.operands 3 = [] ∧
      zeroQuotient.dag.operands 2 = [0, 1] ∧ zeroQuotient.dag.operands 1 = [] ∧
      zeroQuotient.dag.operands 0 = [] := by
    decide +kernel
  simp [order, Dag.traverse, Dag.visit, hsize, hops]

/-- Numbers that differ in more than the sign of a zero. -/
theorem not_sameNumber {x y : Float32} (hne : x ≠ y) (h : (x == y) = false) : ¬ SameNumber x y := by
  rintro (rfl | heq)
  · exact hne rfl
  · rw [h] at heq
    cases heq

/-- **A division by zero shows the difference**: the program divides by negative zero and
the graph by zero, and they give infinities of different signs.  Values that are not up to
date differ in any case. -/
theorem result_zeroQuotient :
    (∃ p, zeroQuotient.compile (zeroQuotient.order 4) = .ok p ∧
      Program.result.answer p = .ok (-(1 / 0)) ∧
      (scalarOf 4).answer zeroQuotient = .ok (1 / 0) ∧ ¬ SameNumber (1 / 0) (-(1 / 0))) ∧
    ∃ p, stalePower.compile (stalePower.order 1) = .ok p ∧
      Program.result.answer p = .ok 9 ∧ (scalarOf 1).answer stalePower = .ok 4 ∧
      ¬ SameNumber 4 9 := by
  constructor
  · have hresult : (zeroQuotient.compile (zeroQuotient.order 4) >>= Program.result.answer) =
        .ok (-(1 / 0)) := by
      rw [order_zeroQuotient]
      decide +kernel
    obtain ⟨p, hp, hanswer⟩ := bind_eq_ok.1 hresult
    have hmissing : zeroQuotient.missing 4 = [2, 4] := by
      have hsize : zeroQuotient.dag.size = 5 := by decide +kernel
      have hops : zeroQuotient.dag.operands 4 = [3, 2] ∧
          zeroQuotient.dag.operands 2 = [0, 1] := by decide +kernel
      have hv : ∀ n < 5, zeroQuotient.hasValue n = (n != 2 && n != 4) := by decide +kernel
      simp [missing, Dag.traverse, Dag.visit, hsize, hops, hv]
    refine ⟨p, hp, hanswer, ?_, not_sameNumber (by decide +kernel) (by decide +kernel)⟩
    rw [Step.answer, scalarOf, EStateM.run_bind, run_evaluate_of_missing hmissing]
    decide +kernel
  · have hresult : (stalePower.compile (stalePower.order 1) >>= Program.result.answer) =
        .ok 9 := by
      rw [order_stalePower, stalePower_eq]
      decide +kernel
    obtain ⟨p, hp, hanswer⟩ := bind_eq_ok.1 hresult
    have hv : stalePower.hasValue 1 = true ∧ (stalePower.value 1).toScalar = .ok 4 := by
      rw [stalePower_eq]
      decide +kernel
    refine ⟨p, hp, hanswer, ?_, not_sameNumber (by decide +kernel) (by decide +kernel)⟩
    rw [Step.answer, scalarOf, EStateM.run_bind, run_evaluate_of_hasValue hv.1]
    simp only [EStateM.run_bind, EStateM.run_get, hv.2]
    rfl

end Graph

end DiffGraph
