/-
  The lanes of a compiled program do not influence each other.

  * `Preserves`: a map of elements that keeps every operation.  A lane of a vector
    is one (`Lanes.preserves_lane`), because nothing in `Arith` mixes lanes;
  * `Program.map`: the same program over the images of its values and gradients.
    Evaluation, reverse pass and clearing commute with it (`Program.run_map`), and
    so does every run of calls (`Program.runs_map`).

  So a lane of a converted program is the program itself, run on that lane of the
  parameters.
-/
import DiffGraph.Program.Compile
import DiffGraph.Proofs.Instructions

namespace DiffGraph

variable {K E F : Type}

/-- A map of elements that keeps every operation. -/
structure Preserves [Arith E] [Arith F] (φ : E → F) : Prop where
  zero : φ 0 = 0
  one : φ 1 = 1
  natCast : ∀ n : Nat, φ n = n
  add : ∀ x y, φ (x + y) = φ x + φ y
  sub : ∀ x y, φ (x - y) = φ x - φ y
  mul : ∀ x y, φ (x * y) = φ x * φ y
  div : ∀ x y, φ (x / y) = φ x / φ y
  neg : ∀ x, φ (-x) = -φ x
  ltMask : ∀ x y, φ (Arith.ltMask x y) = Arith.ltMask (φ x) (φ y)
  eqMask : ∀ x y, φ (Arith.eqMask x y) = Arith.eqMask (φ x) (φ y)
  max : ∀ x y, φ (Arith.max x y) = Arith.max (φ x) (φ y)
  exp : ∀ x, φ (Arith.exp x) = Arith.exp (φ x)
  log : ∀ x, φ (Arith.log x) = Arith.log (φ x)
  tanh : ∀ x, φ (Arith.tanh x) = Arith.tanh (φ x)
  sqrt : ∀ x, φ (Arith.sqrt x) = Arith.sqrt (φ x)

namespace Preserves

variable [Arith E] [Arith F] {φ : E → F}

theorem logistic (h : Preserves φ) (x : E) : φ (Unary.logistic x) = Unary.logistic (φ x) := by
  rw [Unary.logistic, h.div, h.one, h.add, h.one, h.exp, h.neg]
  rfl

theorem eighty (h : Preserves φ) : φ Unary.eighty = Unary.eighty := h.natCast 80

/-- The functions keep to their lanes. -/
theorem apply (h : Preserves φ) (f : Unary) (x : E) : φ (f.apply x) = f.apply (φ x) := by
  cases f with
  | sigmoid => exact h.logistic x
  | relu => simp only [Unary.apply, h.mul, h.ltMask, h.zero]
  | exp => exact h.exp x
  | log => simp only [Unary.apply, h.add, h.mul, h.sub, h.neg, h.log, h.eqMask, h.zero, h.one,
      h.eighty]
  | tanh => exact h.tanh x
  | square => exact h.mul x x

/-- So do their derivatives. -/
theorem derivative (h : Preserves φ) (f : Unary) (x : E) :
    φ (f.derivative x) = f.derivative (φ x) := by
  cases f with
  | sigmoid => simp only [Unary.derivative, h.mul, h.sub, h.one, h.logistic]
  | relu => simp only [Unary.derivative, h.sub, h.one, h.ltMask, h.zero]
  | exp => exact h.exp x
  | log => simp only [Unary.derivative, h.add, h.mul, h.sub, h.div, h.eqMask, h.zero, h.one,
      h.eighty]
  | tanh => simp only [Unary.derivative, h.sub, h.mul, h.tanh, h.one]
  | square => simp only [Unary.derivative, h.mul, h.natCast]

/-- The value of an item. -/
theorem compute (h : Preserves φ) (i : Instr) (val : Nat → E) :
    (i.compute val).map φ = i.compute (φ ∘ val) := by
  cases i with
  | parameter => rfl
  | add l r => exact congrArg some (h.add _ _)
  | neg l => exact congrArg some (h.neg _)
  | mul l r => exact congrArg some (h.mul _ _)
  | div l r => exact congrArg some (h.div _ _)
  | func f l => exact congrArg some (h.apply f _)
  | max l r => exact congrArg some (h.max _ _)

/-- The contributions of an item. -/
theorem pushes (h : Preserves φ) (i : Instr) (val : Nat → E) (g : E) :
    (i.pushes val g).map (fun t => (t.1, φ t.2)) = i.pushes (φ ∘ val) (φ g) := by
  cases i with
  | parameter => rfl
  | add l r => rfl
  | neg l => simp only [Instr.pushes, List.map_cons, List.map_nil, h.neg]
  | mul l r => simp only [Instr.pushes, List.map_cons, List.map_nil, h.mul, Function.comp_apply]
  | div l r => simp only [Instr.pushes, List.map_cons, List.map_nil, h.div, h.mul, h.neg,
      Function.comp_apply]
  | func f l => simp only [Instr.pushes, List.map_cons, List.map_nil, h.mul, h.derivative,
      Function.comp_apply]
  | max l r => simp only [Instr.pushes, List.map_cons, List.map_nil, h.mul, h.sub, h.one,
      h.ltMask, Function.comp_apply]

end Preserves

namespace Program

/-- The same program over the images of its values and gradients. -/
def map (φ : E → F) (p : Program E) : Program F where
  code := p.code
  fingerprint := p.fingerprint
  values := p.values.map φ
  grads := p.grads.map φ

section
variable [Arith E] [Arith F] {φ : E → F}

theorem getD_map (h : Preserves φ) (a : Array E) (i : Nat) :
    (a.map φ).getD i 0 = φ (a.getD i 0) := by
  rw [Array.getD_eq_getD_getElem?, Array.getD_eq_getD_getElem?, Array.getElem?_map]
  cases a[i]? with
  | none => exact h.zero.symm
  | some x => rfl

theorem value_map (h : Preserves φ) (p : Program E) (i : Nat) :
    (p.map φ).value i = φ (p.value i) :=
  getD_map h p.values i

theorem grad_map (h : Preserves φ) (p : Program E) (i : Nat) : (p.map φ).grad i = φ (p.grad i) :=
  getD_map h p.grads i

omit [Arith E] [Arith F] in
theorem setValue_map (p : Program E) (i : Nat) (x : E) :
    (p.map φ).setValue i (φ x) = (p.setValue i x).map φ := by
  simp [setValue, map, Array.map_setIfInBounds]

theorem forwardItem_map (h : Preserves φ) (p : Program E) (i : Nat) :
    (p.map φ).forwardItem i = (p.forwardItem i).map φ := by
  have hval : (p.map φ).value = φ ∘ p.value := funext (value_map h p)
  have hcode : (p.map φ).code = p.code := rfl
  rw [forwardItem, forwardItem, hcode, hval, ← h.compute]
  cases (p.code.instr i).compute p.value with
  | none => rfl
  | some v => exact setValue_map p i v

/-- **Evaluation commutes with a map that keeps every operation.** -/
theorem forward_map (h : Preserves φ) (p : Program E) : (p.map φ).forward = p.forward.map φ := by
  have key : ∀ (is : List Nat) (p : Program E),
      is.foldl forwardItem (p.map φ) = (is.foldl forwardItem p).map φ := by
    intro is
    induction is with
    | nil => exact fun _ => rfl
    | cons i is ih => exact fun p => by rw [List.foldl_cons, List.foldl_cons, forwardItem_map h, ih]
  exact key _ p

theorem receive_map (h : Preserves φ) (p : Program E) (t : Nat × E) :
    (p.map φ).receive (t.1, φ t.2) = (p.receive t).map φ := by
  have hcode : (p.map φ).code = p.code := rfl
  rw [receive, receive, hcode]
  split
  · have hgrads : (p.grads.map φ).modify t.1 (· + φ t.2) =
        (p.grads.modify t.1 (· + t.2)).map φ := by
      refine Array.ext (by simp) fun i hi hi' => ?_
      simp only [Array.getElem_modify, Array.getElem_map]
      split
      · exact (h.add _ _).symm
      · rfl
    simp only [map, hgrads]
  · rfl

theorem reverseItem_map (h : Preserves φ) (p : Program E) (i : Nat) :
    (p.map φ).reverseItem i = (p.reverseItem i).map φ := by
  have key : ∀ (ts : List (Nat × E)) (p : Program E),
      (ts.map fun t => (t.1, φ t.2)).foldl receive (p.map φ) = (ts.foldl receive p).map φ := by
    intro ts
    induction ts with
    | nil => exact fun _ => rfl
    | cons t ts ih =>
      exact fun p => by rw [List.map_cons, List.foldl_cons, List.foldl_cons, receive_map h, ih]
  have hval : (p.map φ).value = φ ∘ p.value := funext (value_map h p)
  have hcode : (p.map φ).code = p.code := rfl
  rw [reverseItem, reverseItem, hcode]
  split
  · rw [hval, grad_map h, ← h.pushes, key]
  · rfl

/-- **A reverse pass commutes with a map that keeps every operation.** -/
theorem reverse_map (h : Preserves φ) (p : Program E) : (p.map φ).reverse = p.reverse.map φ := by
  have key : ∀ (is : List Nat) (p : Program E),
      is.foldl reverseItem (p.map φ) = (is.foldl reverseItem p).map φ := by
    intro is
    induction is with
    | nil => exact fun _ => rfl
    | cons i is ih => exact fun p => by rw [List.foldl_cons, List.foldl_cons, reverseItem_map h, ih]
  rw [reverse, reverse, ← key]
  simp only [map, size, Array.map_setIfInBounds, h.one]

theorem clearGrads_map (h : Preserves φ) (p : Program E) :
    (p.map φ).clearGrads = p.clearGrads.map φ := by
  simp [clearGrads, map, Function.comp_def, h.zero]

end

/-! ## Runs -/

/-- What a user of a program can do with it. -/
inductive Call where
  | result
  | clearGrads
  | reversePass
deriving DecidableEq, Repr

section
variable [Arith E] [Arith F]

/-- A call; only an evaluation gives an element. -/
def Call.run : Call → Step (Program E) (Option E)
  | result => do return some (← Program.result)
  | clearGrads => do
    modify Program.clearGrads
    return none
  | reversePass => do
    Program.reversePass
    return none

/-- The answers to calls one after another, and the program they leave. -/
def runs : List Call → Program E → List (Except Failure (Option E)) × Program E
  | [], p => ([], p)
  | c :: cs, p =>
    let (answers, q) := runs cs (c.run.final p)
    (c.run.answer p :: answers, q)

variable {φ : E → F}

/-- One call. -/
theorem run_map (h : Preserves φ) (c : Call) (p : Program E) :
    c.run.answer (p.map φ) = (c.run.answer p).map (Option.map φ) ∧
      c.run.final (p.map φ) = (c.run.final p).map φ := by
  have hsize : ∀ p : Program E, (p.map φ).size = p.size := fun _ => rfl
  cases c with
  | result =>
    simp only [Step.answer, Step.final, Call.run, EStateM.run_bind, run_result, forward_map h,
      hsize, value_map h]
    by_cases h0 : p.forward.size = 0
    · rw [if_pos h0, if_pos h0]
      exact ⟨rfl, rfl⟩
    · rw [if_neg h0, if_neg h0]
      exact ⟨rfl, rfl⟩
  | clearGrads => exact ⟨rfl, clearGrads_map h p⟩
  | reversePass =>
    simp only [Step.answer, Step.final, Call.run, EStateM.run_bind, run_reversePass, reverse_map h,
      hsize]
    by_cases h0 : p.size = 0
    · rw [if_pos h0, if_pos h0]
      exact ⟨rfl, rfl⟩
    · rw [if_neg h0, if_neg h0]
      exact ⟨rfl, rfl⟩

/-- **A run of calls** commutes with a map that keeps every operation. -/
theorem runs_map (h : Preserves φ) (cs : List Call) (p : Program E) :
    runs cs (p.map φ) =
      ((runs cs p).1.map (Except.map (Option.map φ)), (runs cs p).2.map φ) := by
  induction cs generalizing p with
  | nil => rfl
  | cons c cs ih =>
    obtain ⟨hanswer, hfinal⟩ := run_map h c p
    simp only [runs, hanswer, hfinal, ih, List.map_cons]

end

end Program

/-! ## Lanes -/

/-- **A lane keeps every operation.** -/
theorem Lanes.preserves_lane [Arith K] {W l : Nat} (hl : l < W) :
    Preserves fun v : Lanes K W => Laned.lane v l := by
  have hlane : ∀ v : Lanes K W, Laned.lane v l = v.lanes[l] := fun v => by
    simp [Laned.lane, Laned.lane?, hl]
  have hfill : ∀ k : K, Laned.lane (Lanes.fill k : Lanes K W) l = k := fun k => by
    rw [hlane]
    simp [Lanes.fill]
  have hmap : ∀ (f : K → K) (v : Lanes K W), Laned.lane (v.map f) l = f (Laned.lane v l) :=
    fun f v => by
      rw [hlane, hlane]
      simp [Lanes.map]
  have hzip : ∀ (f : K → K → K) (v w : Lanes K W),
      Laned.lane (Lanes.zipWith f v w) l = f (Laned.lane v l) (Laned.lane w l) := fun f v w => by
    rw [hlane, hlane, hlane]
    simp [Lanes.zipWith]
  exact ⟨hfill 0, hfill 1, fun n => hfill n, hzip _, hzip _, hzip _, hzip _, hmap _, hzip _, hzip _,
    hzip _, hmap _, hmap _, hmap _, hmap _⟩

/-- Elements whose lanes hold what they are made of, and keep every operation. -/
class Laned.Lawful (K T : Type) [Arith K] [Arith T] [Laned K T] : Prop where
  preserves : ∀ {l : Nat}, l < Laned.width T → Preserves fun v : T => Laned.lane v l
  lane_ofLanes : ∀ {l : Nat}, l < Laned.width T → ∀ f : Nat → K,
    Laned.lane (Laned.ofLanes f : T) l = f l

instance [Scalar K] : Laned.Lawful K K where
  preserves _ := ⟨rfl, rfl, fun _ => rfl, fun _ _ => rfl, fun _ _ => rfl, fun _ _ => rfl,
    fun _ _ => rfl, fun _ => rfl, fun _ _ => rfl, fun _ _ => rfl, fun _ _ => rfl, fun _ => rfl,
    fun _ => rfl, fun _ => rfl, fun _ => rfl⟩
  lane_ofLanes hl f := congrArg f (Nat.lt_one_iff.1 hl).symm

instance [Arith K] {W : Nat} : Laned.Lawful K (Lanes K W) where
  preserves hl := Lanes.preserves_lane hl
  lane_ofLanes {l} hl f := by
    have hl' : l < W := hl
    simp [Laned.lane, Laned.lane?, Laned.ofLanes, Lanes.ofFn, hl']

/-- Elements that are told apart by their lanes. -/
class Laned.Extensional (K T : Type) [Zero K] [Laned K T] : Prop where
  ext : ∀ {v w : T}, (∀ l < Laned.width T, Laned.lane v l = Laned.lane w l) → v = w

instance [Scalar K] : Laned.Extensional K K where
  ext h := h 0 Nat.one_pos

instance [Arith K] {W : Nat} : Laned.Extensional K (Lanes K W) where
  ext {v w} h := by
    have hlanes : v.lanes = w.lanes := Vector.ext fun l hl => by
      simpa [Laned.lane, Laned.lane?, hl] using h l hl
    cases v
    cases w
    exact congrArg Lanes.mk hlanes

namespace Laned

variable {S T : Type} [Arith K] [Arith S] [Arith T] [Laned K S] [Laned K T] [Lawful K S]
  [Extensional K S]

/-- **What was moved into wider elements comes back** as it was. -/
theorem broadcast_broadcast [Lawful K T] (hw : width S ≤ width T) (v : S) :
    (broadcast (broadcast v : T) : S) = v := by
  refine Extensional.ext (K := K) fun l hl => ?_
  have hlT : l < width T := Nat.lt_of_lt_of_le hl hw
  rw [broadcast, Lawful.lane_ofLanes hl, Nat.mod_eq_of_lt hlT, broadcast,
    Lawful.lane_ofLanes hlT, Nat.mod_eq_of_lt hl]

omit [Arith T] [Laned K T] in
/-- What is moved into elements of its own type stays. -/
theorem broadcast_self (v : S) : (broadcast v : S) = v := by
  refine Extensional.ext (K := K) fun l hl => ?_
  rw [broadcast, Lawful.lane_ofLanes hl, Nat.mod_eq_of_lt hl]

end Laned

namespace Program

/-- The program with other values of its parameters. -/
def setParameters (p : Program E) (x : Nat → E) : Program E :=
  { p with values := p.values.mapIdx fun i v => if (p.code.instr i).isParameter then x i else v }

theorem setParameters_map (φ : E → F) (p : Program E) (x : Nat → E) :
    (p.setParameters x).map φ = (p.map φ).setParameters fun i => φ (x i) := by
  have hvalues : ((p.setParameters x).map φ).values =
      ((p.map φ).setParameters fun i => φ (x i)).values := by
    refine Array.ext (by simp [map, setParameters]) fun i hi hi' => ?_
    simp only [map, setParameters, Array.getElem_map, Array.getElem_mapIdx]
    split <;> rfl
  exact congrArg (Program.mk p.code p.fingerprint · (p.grads.map φ)) hvalues

section
variable [Scalar K]

/-- A lane of what was broadcast from a number is the number. -/
theorem lane_broadcast {T : Type} [Arith T] [Laned K T] [Laned.Lawful K T] {l : Nat}
    (hl : l < Laned.width T) (k : K) : Laned.lane (Laned.broadcast k : T) l = k :=
  Laned.Lawful.lane_ofLanes hl _

/-- Every lane of a converted program is the program with its gradients cleared. -/
theorem convert_map {T : Type} [Arith T] [Laned K T] [Laned.Lawful K T] {l : Nat}
    (hl : l < Laned.width T) (p : Program K) (hsize : p.grads = .replicate p.size 0) :
    (p.convert (T := T)).map (fun v => Laned.lane v l) = p := by
  have hvalues : (p.values.map (Laned.broadcast (T := T))).map (fun v => Laned.lane v l) =
      p.values := by
    simp [Function.comp_def, lane_broadcast hl]
  have hgrads : (Array.replicate p.size (0 : T)).map (fun v => Laned.lane v l) = p.grads := by
    rw [hsize, Array.map_replicate, (Laned.Lawful.preserves hl).zero]
  simp only [map, convert, hvalues, hgrads]

omit [Scalar K] in
theorem grads_of_compile [Arith E] {g : Graph K E} {order : List Node} {p : Program E}
    (h : g.compile order = .ok p) : p.grads = .replicate p.size 0 := by
  obtain ⟨⟨code, values⟩, -, hp⟩ := bind_eq_ok.1 h
  cases hp
  rfl

/-- **A lane of a converted program is the program on that lane.**  Let a program be
compiled and converted to vectors of `W` lanes, and let its parameters be set to any
vectors `x`.  Whatever is done with it, lane `l` of the answers, of the values and of
the gradients is what the program gives with its parameters set to lane `l` of `x`:
the other lanes do not matter. -/
theorem lane_runs {g : Graph K K} {order : List Node} {p : Program K}
    (hp : g.compile order = .ok p) {W l : Nat} (hl : l < W) (x : Nat → Lanes K W)
    (cs : List Call) :
    let wide := runs cs ((p.convert (T := Lanes K W)).setParameters x)
    let single := runs cs (p.setParameters fun i => Laned.lane (x i) l)
    wide.1.map (Except.map (Option.map fun v => Laned.lane v l)) = single.1 ∧
      ∀ i, Laned.lane (wide.2.value i) l = single.2.value i ∧
        Laned.lane (wide.2.grad i) l = single.2.grad i := by
  intro wide single
  have hlane : Preserves fun v : Lanes K W => Laned.lane v l := Lanes.preserves_lane hl
  have hstart : ((p.convert (T := Lanes K W)).setParameters x).map (fun v => Laned.lane v l) =
      p.setParameters fun i => Laned.lane (x i) l := by
    rw [setParameters_map, convert_map (T := Lanes K W) hl p (grads_of_compile hp)]
  have hruns : single = (wide.1.map (Except.map (Option.map fun v => Laned.lane v l)),
      wide.2.map fun v => Laned.lane v l) :=
    (congrArg (runs cs) hstart).symm.trans (runs_map hlane cs _)
  rw [hruns]
  exact ⟨rfl, fun i => ⟨(value_map hlane _ i).symm, (grad_map hlane _ i).symm⟩⟩

end

/-- The square of two. -/
def squared : Graph Float32 Float32 :=
  (Graph.parameter (.scalar 2) >>= fun n => Graph.record (.func .square n) :
    Step (Graph Float32 Float32) Node).final (.empty 0 ⟨fun _ => 0, fun _ => 0⟩)

/-- Three lanes of it; the second one is the square of five. -/
theorem lane_runs_squared :
    ∃ p, squared.compile [0, 1] = .ok p ∧
      let wide := runs [.result, .reversePass]
        (p.convert.setParameters fun _ => (⟨#v[2, 5, 7]⟩ : Lanes Float32 3))
      let single := runs [.result, .reversePass] (p.setParameters fun _ => 5)
      wide.1.map (Except.map (Option.map fun v => Laned.lane v 1)) = single.1 ∧
        Laned.lane (wide.2.grad 0) 1 = single.2.grad 0 := by
  have hok : (squared.compile [0, 1]).toBool = true := by decide +kernel
  cases hp : squared.compile [0, 1] with
  | error e =>
    rw [hp] at hok
    cases hok
  | ok p =>
    have h := lane_runs hp (by decide : 1 < 3) (fun _ => ⟨#v[2, 5, 7]⟩) [.result, .reversePass]
    exact ⟨p, rfl, h.1, (h.2 0).2⟩

end Program

end DiffGraph
