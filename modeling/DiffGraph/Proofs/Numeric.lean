/-
  Operations on numbers.

  * `Op.Does`: an operation that can be compiled, and the instruction that it is
    compiled to, over the vertices themselves; `Does.instr?` renames them;
  * `Does.value`, `Does.pushes`: what the operation computes and contributes on
    matrices with one entry.  It is what the instruction does on their entries, but a
    product of matrices is a sum that starts from zero;
  * `Agreement`: two kinds of numbers that stay close to each other when the one is
    computed with such sums and the other without.

  In rounded arithmetic a sum that starts from zero may differ from one that does not:
  adding negative zero to zero changes it.  `Rounds` says that such a number is lost in
  every other sum, so only the value of a product can show where its sum started.
-/
import DiffGraph.Op.Adjoint
import DiffGraph.Program.Compile
import DiffGraph.Proofs.Entries
import DiffGraph.Proofs.Instructions

namespace DiffGraph

variable {K E : Type}

/-- The kinds that can be compiled. -/
def Kind.compiled : List Kind := [parameter, add, neg, mul, div, func, max]

/-- Adding a number to zero does not change it. -/
def Kept [Zero E] [Add E] (x : E) : Prop := 0 + x = x

/-- Laws of an arithmetic that may round.  A number that is not kept is lost in
every sum with one that is. -/
structure Rounds (E : Type) [Arith E] : Prop where
  mul_comm : ∀ x y : E, x * y = y * x
  zero : Kept (0 : E)
  one : Kept (1 : E)
  add : ∀ {x : E}, Kept x → ∀ y, Kept (x + y)
  absorb : ∀ {x : E}, Kept x → ∀ y, x + (0 + y) = x + y
  absorb_div : ∀ {x : E}, Kept x → ∀ y z, x + (0 + y) / z = x + y / z

/-- Arithmetic in which every number is kept. -/
theorem Rounds.of_zero_add [Arith E] (hzero : ∀ x : E, 0 + x = x)
    (hcomm : ∀ x y : E, x * y = y * x) : Rounds E where
  mul_comm := hcomm
  zero := hzero 0
  one := hzero 1
  add _ y := hzero _
  absorb _ y := by rw [hzero]
  absorb_div _ y z := by rw [hzero]

namespace Instr

variable [Arith E]

/-- The value of an item if a product is a sum that starts from zero. -/
def summedValue (val : Nat → E) : Instr → Option E
  | mul l r => some (0 + val l * val r)
  | i => i.compute val

/-- What an item contributes if products are sums that start from zero. -/
def summedPushes (val : Nat → E) (g : E) : Instr → List (Nat × E)
  | mul l r => [(l, 0 + g * val r), (r, 0 + val l * g)]
  | div l r => [(l, g / val r), (r, (0 + -g * val l) / (val r * val r))]
  | i => i.pushes val g

end Instr

namespace Op

/-- What an operation on numbers does, as an instruction over the vertices. -/
inductive Does : Op K → Instr → Prop where
  | parameter : Does .parameter .parameter
  | add (l r : Node) : Does (.add l r) (.add l r)
  | neg (l : Node) : Does (.neg l) (.neg l)
  | mul (l r : Node) : Does (.mul l r) (.mul l r)
  | div (l r : Node) : Does (.div l r) (.div l r)
  | func (f : Unary) (l : Node) : Does (.func f l) (.func f l)
  | max (l r : Node) : Does (.max l r) (.max l r)

theorem exists_does {op : Op K} (h : op.kind ∈ Kind.compiled) : ∃ i, op.Does i := by
  cases op with
  | parameter => exact ⟨_, .parameter⟩
  | add l r => exact ⟨_, .add l r⟩
  | neg l => exact ⟨_, .neg l⟩
  | mul l r => exact ⟨_, .mul l r⟩
  | div l r => exact ⟨_, .div l r⟩
  | func f l => exact ⟨_, .func f l⟩
  | max l r => exact ⟨_, .max l r⟩
  | _ => simp [Op.kind, Kind.compiled] at h

namespace Does

variable {op : Op K} {i : Instr}

theorem operands (h : op.Does i) : i.operands = op.operands := by
  cases h <;> rfl

theorem isParameter (h : op.Does i) : i.isParameter = op.isParameter := by
  cases h <;> rfl

theorem eq_parameter (h : op.Does i) (hp : op.isParameter = true) : i = .parameter := by
  cases h with
  | parameter => rfl
  | _ => cases hp

/-- No operation on numbers has a mask. -/
theorem freshMask [Scalar K] [Laned K E] (h : op.Does i) (draw : Nat → K)
    (val : Node → Matrix E) : op.freshMask draw val = .ok .empty := by
  cases h <;> rfl

/-- The instruction for operands that are found at other places. -/
theorem instr? (h : op.Does i) {position : Node → Except Failure Nat} {f : Node → Nat}
    (hf : ∀ c ∈ op.operands, position c = .ok (f c)) :
    op.instr? position = .ok (i.rename f) := by
  cases h with
  | parameter => rfl
  | neg l | func _ l => rw [Op.instr?, hf l (by simp [Op.operands])]; rfl
  | add l r | mul l r | div l r | max l r =>
    rw [Op.instr?, hf l (by simp [Op.operands]), hf r (by simp [Op.operands])]; rfl

variable [Arith E]

/-- **On numbers an operation computes what its instruction computes** with sums. -/
theorem value (h : op.Does i) {val : Node → Matrix E} {y : Node → E}
    (hy : ∀ c ∈ op.operands, val c = .scalar (y c)) (hp : op.isParameter = false)
    (own mask : Matrix E) :
    ∃ v, i.summedValue y = some v ∧ op.value own mask val = .ok (.scalar v) := by
  cases h with
  | parameter => cases hp
  | neg l | func _ l => exact ⟨_, rfl, by simp [Op.value, hy l (by simp [Op.operands])]⟩
  | add l r | mul l r | div l r | max l r =>
    refine ⟨_, rfl, ?_⟩
    simp [Op.value, hy l (by simp [Op.operands]), hy r (by simp [Op.operands])]

/-- **On numbers an operation contributes what its instruction contributes** with sums. -/
theorem pushes (h : op.Does i) {val : Node → Matrix E} {y : Node → E}
    (hy : ∀ c ∈ op.operands, val c = .scalar (y c)) (own mask : Matrix E) (g : E) :
    op.pushes own mask (.scalar g) val =
      .ok ((i.summedPushes y g).map fun t => (t.1, .whole (.scalar t.2))) := by
  cases h with
  | parameter | add l r => rfl
  | neg l => simp [Op.pushes, Instr.summedPushes, Instr.pushes]
  | func f l =>
    simp [Op.pushes, Instr.summedPushes, Instr.pushes, hy l (by simp [Op.operands])]
  | mul l r | div l r | max l r =>
    simp [Op.pushes, Instr.summedPushes, Instr.pushes, hy l (by simp [Op.operands]),
      hy r (by simp [Op.operands])]

end Does

end Op

/-! ## Agreement -/

/-- How the numbers `y` that are computed with sums may differ from the numbers `x` that
are computed without, if the former are fine for each instruction. -/
structure Agreement (E : Type) [Arith E] where
  /-- values that may stand for each other -/
  value : E → E → Prop
  /-- gradients that may stand for each other -/
  grad : E → E → Prop
  /-- operands for which an instruction may be computed -/
  Fine : Instr → (Nat → E) → Prop
  same : ∀ a, value a a
  zero : grad 0 0
  one : grad 1 1
  left : ∀ {a b}, grad a b → grad a a
  compute : ∀ {i y x}, Fine i y → (∀ c ∈ i.operands, value (y c) (x c)) →
    i.isParameter = false → ∃ w v, i.summedValue y = some w ∧ i.compute x = some v ∧ value w v
  pushes : ∀ {i y x g h}, Fine i y → (∀ c ∈ i.operands, value (y c) (x c)) → grad g h →
    List.Forall₂ (fun t u => t.1 = u.1 ∧ ∀ {a b}, grad a b → grad (a + t.2) (b + u.2))
      (i.summedPushes y g) (i.pushes x h)

namespace Agreement

variable [Arith E]

/-- Anything goes.  This is enough to see that nothing fails. -/
def anything : Agreement E where
  value _ _ := True
  grad _ _ := True
  Fine _ _ := True
  same _ := True.intro
  zero := True.intro
  one := True.intro
  left _ := True.intro
  compute {i _ _} _ _ hp := by
    cases i with
    | parameter => cases hp
    | _ => exact ⟨_, _, rfl, rfl, True.intro⟩
  pushes {i _ _ _ _} _ _ _ := by
    cases i <;> simp [Instr.summedPushes, Instr.pushes]

/-- The same numbers, as long as no product is changed by adding it to zero. -/
def exact (hr : Rounds E) : Agreement E where
  value y x := y = x
  grad a b := a = b ∧ Kept a
  Fine i y := ∀ l r, i = .mul l r → Kept (y l * y r)
  same _ := rfl
  zero := ⟨rfl, hr.zero⟩
  one := ⟨rfl, hr.one⟩
  left h := ⟨rfl, h.2⟩
  compute {i y x} hk hx hp := by
    cases i with
    | parameter => cases hp
    | mul l r =>
      refine ⟨_, _, rfl, rfl, ?_⟩
      rw [← hx l (by simp [Instr.operands]), ← hx r (by simp [Instr.operands])]
      exact hk l r rfl
    | neg l | func f l =>
      exact ⟨_, _, rfl, rfl, by rw [hx l (by simp [Instr.operands])]⟩
    | add l r | div l r | max l r =>
      refine ⟨_, _, rfl, rfl, ?_⟩
      rw [hx l (by simp [Instr.operands]), hx r (by simp [Instr.operands])]
  pushes {i y x g h} _ hx hg := by
    obtain ⟨rfl, -⟩ := hg
    have hterm : ∀ {t u : E}, (∀ a, Kept a → a + t = a + u) →
        ∀ {a b : E}, a = b ∧ Kept a → a + t = b + u ∧ Kept (a + t) := by
      rintro t u htu a _ ⟨rfl, ha⟩
      exact ⟨htu a ha, hr.add ha t⟩
    cases i with
    | parameter => exact .nil
    | neg l => exact .cons ⟨rfl, hterm fun _ _ => rfl⟩ .nil
    | func f l =>
      exact .cons ⟨rfl, hterm fun a _ => by rw [hx l (by simp [Instr.operands])]⟩ .nil
    | add l r => exact .cons ⟨rfl, hterm fun _ _ => rfl⟩ (.cons ⟨rfl, hterm fun _ _ => rfl⟩ .nil)
    | mul l r =>
      have hl := hx l (by simp [Instr.operands])
      have hr' := hx r (by simp [Instr.operands])
      refine .cons ⟨rfl, hterm fun a ha => ?_⟩ (.cons ⟨rfl, hterm fun a ha => ?_⟩ .nil)
      · rw [hr.absorb ha, hr']
      · rw [hr.absorb ha, hr.mul_comm, hl]
    | div l r =>
      have hl := hx l (by simp [Instr.operands])
      have hr' := hx r (by simp [Instr.operands])
      refine .cons ⟨rfl, hterm fun a _ => ?_⟩ (.cons ⟨rfl, hterm fun a ha => ?_⟩ .nil)
      · rw [hr']
      · rw [hr.absorb_div ha, hl, hr']
    | max l r =>
      have hl := hx l (by simp [Instr.operands])
      have hr' := hx r (by simp [Instr.operands])
      refine .cons ⟨rfl, hterm fun a _ => ?_⟩ (.cons ⟨rfl, hterm fun a _ => ?_⟩ .nil) <;>
        rw [hl, hr']

end Agreement

end DiffGraph
