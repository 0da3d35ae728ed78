/-
  Instructions, and the programs that are made of them.

  * `Instr.rename`: an instruction over other operands computes and contributes
    the same from renamed values;
  * `Program.receive_of_tracked`, `receive_of_untracked`: what a contribution does
    to a program;
  * `Program.run_result`, `run_reversePass`: an evaluation and a reverse pass fail
    only on the program without items.
-/
import DiffGraph.Program.Run
import DiffGraph.Proofs.Runs

namespace DiffGraph

variable {E : Type}

namespace Instr

/-- Renames the operands of an instruction. -/
def rename (f : Nat → Nat) : Instr → Instr
  | parameter => parameter
  | add l r => add (f l) (f r)
  | neg l => neg (f l)
  | mul l r => mul (f l) (f r)
  | div l r => div (f l) (f r)
  | func h l => func h (f l)
  | max l r => max (f l) (f r)

@[simp] theorem operands_rename (f : Nat → Nat) (i : Instr) :
    (i.rename f).operands = i.operands.map f := by
  cases i <;> rfl

section
variable [Arith E]

@[simp] theorem compute_rename (f : Nat → Nat) (i : Instr) (val : Nat → E) :
    (i.rename f).compute val = i.compute (val ∘ f) := by
  cases i <;> rfl

@[simp] theorem pushes_rename (f : Nat → Nat) (i : Instr) (val : Nat → E) (g : E) :
    (i.rename f).pushes val g = (i.pushes (val ∘ f) g).map fun t => (f t.1, t.2) := by
  cases i <;> rfl

/-- An item adds to the gradients of its operands only. -/
theorem map_fst_pushes (i : Instr) (val : Nat → E) (g : E) :
    (i.pushes val g).map Prod.fst = i.operands := by
  cases i <;> rfl

end

end Instr

namespace Program

variable [Arith E]

theorem receive_of_untracked {p : Program E} {i : Nat} (h : p.code.tracked i = false) (t : E) :
    p.receive (i, t) = p := by
  simp [receive, h]

theorem receive_of_tracked {p : Program E} {i : Nat} (h : p.code.tracked i = true) (t : E) :
    p.receive (i, t) = { p with grads := p.grads.modify i (· + t) } := by
  simp [receive, h]

/-- Contributions to items without gradients are dropped. -/
theorem foldl_receive_of_untracked {p : Program E} {ts : List (Nat × E)}
    (h : ∀ t ∈ ts, p.code.tracked t.1 = false) : ts.foldl receive p = p := by
  induction ts with
  | nil => rfl
  | cons t ts ih =>
    rw [List.foldl_cons, receive_of_untracked (h t List.mem_cons_self),
      ih fun u hu => h u (List.mem_cons_of_mem _ hu)]

theorem grad_modify_self {p : Program E} {i : Nat} (h : i < p.grads.size) (t : E) :
    ({ p with grads := p.grads.modify i (· + t) } : Program E).grad i = p.grad i + t := by
  simp [grad, Array.getD, h, Array.getElem_modify]

theorem grad_modify_of_ne {p : Program E} {i j : Nat} (h : j ≠ i) (t : E) :
    ({ p with grads := p.grads.modify i (· + t) } : Program E).grad j = p.grad j := by
  simp [grad, Array.getD_eq_getD_getElem?, Array.getElem?_modify, Ne.symm h]

theorem run_result (p : Program E) : result.run p =
    if p.forward.size = 0 then .error .empty p.forward
    else .ok (p.forward.value (p.forward.size - 1)) p.forward := by
  by_cases h : p.forward.size = 0
  · simp only [result, EStateM.run_bind, EStateM.run_modify, EStateM.run_get, if_pos h]
    rfl
  · simp only [result, EStateM.run_bind, EStateM.run_modify, EStateM.run_get, if_neg h]
    rfl

theorem run_reversePass (p : Program E) : reversePass.run p =
    if p.size = 0 then .error .empty p else .ok () p.reverse := by
  by_cases h : p.size = 0
  · simp only [reversePass, EStateM.run_bind, EStateM.run_get, if_pos h]
    rfl
  · simp only [reversePass, EStateM.run_bind, EStateM.run_get, if_neg h]
    rfl

end Program

end DiffGraph
