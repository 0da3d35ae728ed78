/-
  Runs of computations that may fail half way.

  * `Step.final` is the state a computation leaves, whether it fails or not;
    `Step.Leads` says that it gets there by moves of a given kind.
  * `Alike` compares two computations: they answer alike, or fail for the same
    reason, and leave related states.
  * `run_forM_ok` and `Alike.forM` are the rules for a loop, and `answer_forM_of_bad` is
    the one for a loop that fails.
-/
import DiffGraph.Step
import Mathlib.Logic.Relation

namespace DiffGraph

open Relation

variable {σ τ α β γ : Type}

@[simp] theorem ok_bind (a : α) (f : α → Except Failure β) : Except.ok a >>= f = f a := rfl

/-- A chain of two computations succeeds if both do. -/
theorem bind_eq_ok {x : Except Failure α} {f : α → Except Failure β} {b : β} :
    x >>= f = .ok b ↔ ∃ a, x = .ok a ∧ f a = .ok b := by
  cases x with
  | ok a => exact ⟨fun h => ⟨a, rfl, h⟩, by rintro ⟨a', h, hf⟩; cases h; exact hf⟩
  | error e => exact ⟨fun h => (by cases h), by rintro ⟨a', h, -⟩; cases h⟩

/-- A fold whose steps succeed and keep an invariant succeeds. -/
theorem exists_foldlM {P : β → Prop} {f : β → α → Except Failure β} {l : List α}
    (hf : ∀ x ∈ l, ∀ b, P b → ∃ b', f b x = .ok b' ∧ P b') {b : β} (hb : P b) :
    ∃ b', l.foldlM f b = .ok b' ∧ P b' := by
  induction l generalizing b with
  | nil => exact ⟨b, rfl, hb⟩
  | cons x l ih =>
    obtain ⟨b₁, hx, hb₁⟩ := hf x List.mem_cons_self b hb
    obtain ⟨b₂, hl, hb₂⟩ := ih (fun y hy => hf y (List.mem_cons_of_mem _ hy)) hb₁
    refine ⟨b₂, ?_, hb₂⟩
    rw [List.foldlM_cons, hx]
    exact hl

/-- The same for a counting loop, whose invariant may speak of the count. -/
theorem exists_foldlM_range {P : Nat → β → Prop} {f : β → Nat → Except Failure β} {n : Nat}
    (hf : ∀ k < n, ∀ b, P k b → ∃ b', f b k = .ok b' ∧ P (k + 1) b') {b : β} (hb : P 0 b) :
    ∃ b', (List.range n).foldlM f b = .ok b' ∧ P n b' := by
  induction n with
  | zero => exact ⟨b, rfl, hb⟩
  | succ n ih =>
    obtain ⟨b₁, hrun, hb₁⟩ := ih fun k hk => hf k (Nat.lt_succ_of_lt hk)
    obtain ⟨b₂, hlast, hb₂⟩ := hf n n.lt_succ_self b₁ hb₁
    refine ⟨b₂, ?_, hb₂⟩
    rw [List.range_succ, List.foldlM_append, hrun, ok_bind, List.foldlM_cons, hlast]
    rfl

namespace Step

/-- What a computation answers. -/
def answer (x : Step σ α) (s : σ) : Except Failure α :=
  match x.run s with
  | .ok a _ => .ok a
  | .error e _ => .error e

/-- The state that a computation leaves, also when it fails. -/
def final (x : Step σ α) (s : σ) : σ :=
  match x.run s with
  | .ok _ s => s
  | .error _ s => s

theorem answer_of_run_ok {x : Step σ α} {s s' : σ} {a : α} (h : x.run s = .ok a s') :
    x.answer s = .ok a := by
  rw [answer, h]

theorem final_of_run_ok {x : Step σ α} {s s' : σ} {a : α} (h : x.run s = .ok a s') :
    x.final s = s' := by
  rw [final, h]

theorem answer_of_run_error {x : Step σ α} {s s' : σ} {e : Failure} (h : x.run s = .error e s') :
    x.answer s = .error e := by
  rw [answer, h]

theorem final_of_run_error {x : Step σ α} {s s' : σ} {e : Failure} (h : x.run s = .error e s') :
    x.final s = s' := by
  rw [final, h]

theorem run_of_answer_ok {x : Step σ α} {s : σ} {a : α} (h : x.answer s = .ok a) :
    x.run s = .ok a (x.final s) := by
  unfold answer at h
  unfold final
  cases hx : x.run s with
  | ok b s' => rw [hx] at h; cases h; rfl
  | error e s' => rw [hx] at h; cases h

theorem run_of_answer_error {x : Step σ α} {s : σ} {e : Failure} (h : x.answer s = .error e) :
    x.run s = .error e (x.final s) := by
  unfold answer at h
  unfold final
  cases hx : x.run s with
  | ok b s' => rw [hx] at h; cases h
  | error e' s' => rw [hx] at h; cases h; rfl

theorem run_discard {x : Step σ α} {s s' : σ} {a : α} (h : x.run s = .ok a s') :
    (discard x).run s = .ok () s' := by
  have hx : x s = .ok a s' := h
  have hmap : EStateM.map (fun _ => ()) x s = .ok () s' := by rw [EStateM.map, hx]
  exact hmap

theorem run_onFirst (x : Step σ α) (s : σ) (t : τ) :
    (onFirst x).run (s, t) =
      match x.run s with
      | .ok a s' => .ok a (s', t)
      | .error e s' => .error e (s', t) :=
  rfl

/-- The part of a computation that concerns the first part of its state. -/
def beside (x : Step (σ × τ) α) (t : τ) : Step σ α := fun s =>
  match x.run (s, t) with
  | .ok a s => .ok a s.1
  | .error e s => .error e s.1

theorem final_beside (x : Step (σ × τ) α) (s : σ) (t : τ) :
    (x.beside t).final s = (x.final (s, t)).1 := by
  have hrun : (x.beside t).run s =
      match x.run (s, t) with
      | .ok a s => .ok a s.1
      | .error e s => .error e s.1 := rfl
  unfold final
  rw [hrun]
  cases x.run (s, t) <;> rfl

/-- Does the same thing several times. -/
def times (x : Step σ Unit) : Nat → Step σ Unit
  | 0 => pure ()
  | k + 1 => do
    times x k
    x

theorem run_times_succ_congr {x : Step σ Unit} {s t : σ} (h : x.run s = x.run t) (k : Nat) :
    (times x (k + 1)).run s = (times x (k + 1)).run t := by
  induction k with
  | zero => exact h
  | succ k ih => rw [times, EStateM.run_bind, EStateM.run_bind, ih]

/-! ## Loops -/

theorem run_forM_cons {α : Type*} {f : α → Step σ PUnit} {x : α} {l : List α} {s s' : σ}
    (h : (f x).run s = .ok ⟨⟩ s') : ((x :: l).forM f).run s = (l.forM f).run s' := by
  rw [List.forM_eq_forM, List.forM_cons, EStateM.run_bind, h]

/-- A turn and what follows it. -/
theorem run_forM_cons_ok {α : Type*} {f : α → Step σ PUnit} {x : α} {l : List α} {s s' t : σ}
    (h : (f x).run s = .ok ⟨⟩ s') (h' : (l.forM f).run s' = .ok ⟨⟩ t) :
    ((x :: l).forM f).run s = .ok ⟨⟩ t := (run_forM_cons h).trans h'

theorem run_forM_append {α : Type*} {f : α → Step σ PUnit} {l l' : List α} {s s' : σ}
    (h : (l.forM f).run s = .ok ⟨⟩ s') : ((l ++ l').forM f).run s = (l'.forM f).run s' := by
  rw [List.forM_eq_forM, List.forM_append, EStateM.run_bind, ← List.forM_eq_forM, h]

/-- The first turn of a loop that succeeds. -/
theorem exists_run_of_forM_cons {α : Type*} {f : α → Step σ PUnit} {x : α} {l : List α} {s t : σ}
    (h : ((x :: l).forM f).run s = .ok ⟨⟩ t) :
    ∃ s', (f x).run s = .ok ⟨⟩ s' ∧ (l.forM f).run s' = .ok ⟨⟩ t := by
  rw [List.forM_eq_forM, List.forM_cons, EStateM.run_bind] at h
  cases hx : (f x).run s with
  | ok _ s' => rw [hx] at h; exact ⟨s', rfl, h⟩
  | error e s' => rw [hx] at h; cases h

/-- A loop whose body keeps an invariant, or fails and changes nothing, keeps the
invariant up to the first failure.  The invariant may speak of the part of the
list that is done. -/
theorem run_forM_cases {α : Type*} {f : α → Step σ PUnit} {l : List α} (I : List α → σ → Prop)
    (hf : ∀ pre x post s, l = pre ++ x :: post → I pre s →
      (∃ s', (f x).run s = .ok ⟨⟩ s' ∧ I (pre ++ [x]) s') ∨ ∃ e, (f x).run s = .error e s)
    {s : σ} (hs : I [] s) :
    (∃ s', (l.forM f).run s = .ok ⟨⟩ s' ∧ I l s') ∨
      ∃ pre x post e s', l = pre ++ x :: post ∧ I pre s' ∧ (f x).run s' = .error e s' ∧
        (l.forM f).run s = .error e s' := by
  have key : ∀ (post pre : List α) (s : σ), l = pre ++ post → I pre s →
      (∃ s', (post.forM f).run s = .ok ⟨⟩ s' ∧ I l s') ∨
        ∃ pre x rest e s', l = pre ++ x :: rest ∧ I pre s' ∧ (f x).run s' = .error e s' ∧
          (post.forM f).run s = .error e s' := by
    intro post
    induction post with
    | nil =>
      intro pre s hl hs
      exact Or.inl ⟨s, rfl, by simpa [hl] using hs⟩
    | cons x post ih =>
      intro pre s hl hs
      simp only [List.forM_eq_forM, List.forM_cons, EStateM.run_bind] at ih ⊢
      rcases hf pre x post s hl hs with ⟨s₁, hx, hs₁⟩ | ⟨e, hx⟩
      · rw [hx]
        exact ih (pre ++ [x]) s₁ (by simpa using hl) hs₁
      · rw [hx]
        exact Or.inr ⟨pre, x, post, e, s, hl, hs, hx, rfl⟩
  exact key l [] s rfl hs

/-- A loop whose body keeps an invariant succeeds. -/
theorem run_forM_ok {α : Type*} {f : α → Step σ PUnit} {l : List α} (I : List α → σ → Prop)
    (hf : ∀ pre x post s, l = pre ++ x :: post → I pre s →
      ∃ s', (f x).run s = .ok ⟨⟩ s' ∧ I (pre ++ [x]) s') {s : σ} (hs : I [] s) :
    ∃ s', (l.forM f).run s = .ok ⟨⟩ s' ∧ I l s' := by
  rcases run_forM_cases I (fun pre x post s hl hs => Or.inl (hf pre x post s hl hs)) hs with
    h | ⟨pre, x, post, e, s', hl, hs', hx, -⟩
  · exact h
  · obtain ⟨s'', hx', -⟩ := hf pre x post s' hl hs'
    rw [hx] at hx'
    cases hx'

/-- A loop in which some turns fail and the others keep an invariant fails at the first one
that does. -/
theorem answer_forM_of_bad {f : α → Step σ PUnit} {l : List α}
    {P : α → Prop} {failure : α → Failure} (I : σ → Prop)
    (hgood : ∀ x ∈ l, ¬ P x → ∀ s, I s → ∃ s', (f x).run s = .ok ⟨⟩ s' ∧ I s')
    (hbad : ∀ x ∈ l, P x → ∀ s, I s → (f x).run s = .error (failure x) s)
    {s : σ} (hs : I s) (h : ∃ x ∈ l, P x) :
    ∃ x ∈ l, P x ∧ (l.forM f).answer s = .error (failure x) := by
  obtain ⟨y, hy, hby⟩ := h
  have hstep : ∀ pre x post s, l = pre ++ x :: post → (I s ∧ ∀ z ∈ pre, ¬ P z) →
      (∃ s', (f x).run s = .ok ⟨⟩ s' ∧ I s' ∧ ∀ z ∈ pre ++ [x], ¬ P z) ∨
        ∃ e, (f x).run s = .error e s := by
    rintro pre x post s rfl ⟨hs, hpre⟩
    have hx : x ∈ pre ++ x :: post := List.mem_append_right _ List.mem_cons_self
    by_cases hb : P x
    · exact .inr ⟨_, hbad x hx hb s hs⟩
    · obtain ⟨s', hr, hs'⟩ := hgood x hx hb s hs
      refine .inl ⟨s', hr, hs', fun z hz => ?_⟩
      rcases List.mem_append.1 hz with hz | hz
      · exact hpre z hz
      · exact List.mem_singleton.1 hz ▸ hb
  rcases run_forM_cases (fun pre s => I s ∧ ∀ z ∈ pre, ¬ P z) hstep ⟨hs, by simp⟩ with
    ⟨s', -, -, hall⟩ | ⟨pre, x, post, e, s', hl, ⟨hs', -⟩, hx, hr⟩
  · exact absurd hby (hall y hy)
  · have hmem : x ∈ l := hl ▸ List.mem_append_right _ List.mem_cons_self
    by_cases hb : P x
    · rw [hbad x hmem hb s' hs'] at hx
      obtain ⟨rfl, -⟩ := EStateM.Result.error.inj hx
      exact ⟨x, hmem, hb, answer_of_run_error hr⟩
    · obtain ⟨s'', hx', -⟩ := hgood x hmem hb s' hs'
      rw [hx] at hx'
      cases hx'

/-! ## Moves -/

variable {Move : σ → σ → Prop}

/-- A computation gets to the state it leaves by moves of a given kind. -/
def Leads (Move : σ → σ → Prop) (x : Step σ α) (s : σ) : Prop := ReflTransGen Move s (x.final s)

theorem Leads.of_run_ok {x : Step σ α} {s s' : σ} {a : α} (h : x.run s = .ok a s')
    (hm : ReflTransGen Move s s') : x.Leads Move s := by
  rw [Leads, final_of_run_ok h]; exact hm

theorem Leads.of_run_error {x : Step σ α} {s : σ} {e : Failure} (h : x.run s = .error e s) :
    x.Leads Move s := by
  rw [Leads, final_of_run_error h]

theorem Leads.moves {x : Step σ α} {s s' : σ} {a : α} (h : x.Leads Move s)
    (hr : x.run s = .ok a s') : ReflTransGen Move s s' := by
  rwa [Leads, final_of_run_ok hr] at h

theorem Leads.moves_of_error {x : Step σ α} {s s' : σ} {e : Failure} (h : x.Leads Move s)
    (hr : x.run s = .error e s') : ReflTransGen Move s s' := by
  rwa [Leads, final_of_run_error hr] at h

theorem Leads.pure (a : α) (s : σ) : (Pure.pure a : Step σ α).Leads Move s := .of_run_ok rfl .refl

theorem Leads.throw (e : Failure) (s : σ) : (MonadExcept.throw e : Step σ α).Leads Move s :=
  .of_run_error rfl

theorem Leads.ofExcept (x : Except Failure α) (s : σ) : (ofExcept x).Leads Move s := by
  cases x with
  | ok a => exact .of_run_ok rfl .refl
  | error e => exact .of_run_error rfl

theorem Leads.of_modify {f : σ → σ} {s : σ} (h : ReflTransGen Move s (f s)) :
    (modify f : Step σ PUnit).Leads Move s :=
  .of_run_ok rfl h

theorem Leads.bind {x : Step σ α} {f : α → Step σ β} {s : σ} (hx : x.Leads Move s)
    (hf : ∀ a s', x.run s = .ok a s' → (f a).Leads Move s') : (x >>= f).Leads Move s := by
  unfold Leads final at hx
  cases h : x.run s with
  | ok a s' =>
    rw [h] at hx
    have hb : (x >>= f).final s = (f a).final s' := by rw [final, EStateM.run_bind, h]; rfl
    rw [Leads, hb]
    exact hx.trans (hf a s' h)
  | error e s' =>
    rw [h] at hx
    have hb : (x >>= f).final s = s' := by rw [final, EStateM.run_bind, h]
    rw [Leads, hb]
    exact hx

theorem Leads.get_bind {f : σ → Step σ β} {s : σ} (hf : (f s).Leads Move s) :
    (get >>= f).Leads Move s :=
  .bind (.of_run_ok rfl .refl) fun a s' h => by cases h; exact hf

theorem Leads.ofExcept_bind {x : Except Failure α} {f : α → Step σ β} {s : σ}
    (hf : ∀ a, x = .ok a → (f a).Leads Move s) : (Step.ofExcept x >>= f).Leads Move s := by
  cases x with
  | ok a => exact .bind (.of_run_ok rfl .refl) fun a s' h => by cases h; exact hf a rfl
  | error e => exact .of_run_error rfl

theorem Leads.set {s s' : σ} (h : ReflTransGen Move s s') :
    (MonadStateOf.set s' : Step σ PUnit).Leads Move s :=
  .of_run_ok rfl h

theorem Leads.mono {Move' : σ → σ → Prop} {x : Step σ α} {s : σ}
    (h : ∀ s s', Move s s' → Move' s s') (hx : x.Leads Move s) : x.Leads Move' s :=
  ReflTransGen.mono h s _ hx

/-- What each move keeps is kept by all. -/
theorem keeps_of_moves {I : σ → Prop} (hI : ∀ s s', Move s s' → I s → I s') {s s' : σ}
    (h : ReflTransGen Move s s') (hs : I s) : I s' := by
  induction h with
  | refl => exact hs
  | tail _ hm ih => exact hI _ _ hm ih

/-- A loop whose body needs something that the moves keep. -/
theorem Leads.forM_of_kept {α : Type*} {f : α → Step σ PUnit} {l : List α} {I : σ → Prop}
    (hI : ∀ s s', Move s s' → I s → I s') (h : ∀ x ∈ l, ∀ s, I s → (f x).Leads Move s) {s : σ}
    (hs : I s) : (l.forM f).Leads Move s := by
  induction l generalizing s with
  | nil => exact .pure _ s
  | cons x l ih =>
    rw [List.forM_eq_forM, List.forM_cons]
    have hx := h x List.mem_cons_self s hs
    refine .bind hx fun _ s' hr => ih (fun y hy => h y (List.mem_cons_of_mem _ hy)) ?_
    rw [Leads, final_of_run_ok hr] at hx
    exact keeps_of_moves hI hx hs

theorem Leads.forM {α : Type*} {f : α → Step σ PUnit} {l : List α}
    (h : ∀ x ∈ l, ∀ s, (f x).Leads Move s) (s : σ) : (l.forM f).Leads Move s :=
  .forM_of_kept (I := fun _ => True) (fun _ _ _ h => h) (fun x hx s _ => h x hx s) trivial

theorem Leads.foldl {f : σ → α → σ} {l : List α} (h : ∀ x ∈ l, ∀ s, ReflTransGen Move s (f s x))
    (s : σ) : ReflTransGen Move s (l.foldl f s) := by
  induction l generalizing s with
  | nil => exact .refl
  | cons x l ih =>
    exact (h x List.mem_cons_self s).trans (ih (fun y hy => h y (List.mem_cons_of_mem _ hy)) _)

end Step

/-! ## Comparing two runs -/

/-- Two runs answer alike, or fail for the same reason, and leave related
states. -/
inductive Alike (A : α → β → Prop) (R : σ → τ → Prop) :
    EStateM.Result Failure σ α → EStateM.Result Failure τ β → Prop where
  | ok {a b s t} : A a b → R s t → Alike A R (.ok a s) (.ok b t)
  | error {e s t} : R s t → Alike A R (.error e s) (.error e t)

namespace Alike

variable {A : α → β → Prop} {R : σ → τ → Prop}

theorem bind {α' β' : Type} {A' : α' → β' → Prop} {x : Step σ α} {y : Step τ β}
    {f : α → Step σ α'} {g : β → Step τ β'} {s : σ} {t : τ}
    (hxy : Alike A R (x.run s) (y.run t))
    (hfg : ∀ a b s t, A a b → R s t → Alike A' R ((f a).run s) ((g b).run t)) :
    Alike A' R ((x >>= f).run s) ((y >>= g).run t) := by
  rw [EStateM.run_bind, EStateM.run_bind]
  cases hx : x.run s with
  | ok a s' =>
    rw [hx] at hxy
    cases hy : y.run t with
    | ok b t' => rw [hy] at hxy; cases hxy with | ok hab hst => exact hfg a b s' t' hab hst
    | error e t' => rw [hy] at hxy; cases hxy
  | error e s' =>
    rw [hx] at hxy
    cases hy : y.run t with
    | ok b t' => rw [hy] at hxy; cases hxy
    | error e' t' => rw [hy] at hxy; cases hxy with | error hst => exact .error hst

theorem answer {A : Unit → Unit → Prop} {x : Step σ Unit} {y : Step τ Unit} {s : σ} {t : τ}
    (h : Alike A R (x.run s) (y.run t)) : x.answer s = y.answer t := by
  unfold Step.answer
  generalize x.run s = r at h ⊢
  generalize y.run t = r' at h ⊢
  cases h with
  | ok | error => rfl

theorem final {x : Step σ α} {y : Step τ β} {s : σ} {t : τ}
    (h : Alike A R (x.run s) (y.run t)) : R (x.final s) (y.final t) := by
  unfold Step.final
  generalize x.run s = r at h ⊢
  generalize y.run t = r' at h ⊢
  cases h with
  | ok _ h => exact h
  | error h => exact h

theorem ofExcept_bind {α' β' : Type} {A' : α' → β' → Prop} {x : Except Failure α}
    {f : α → Step σ α'} {g : α → Step τ β'} {s : σ} {t : τ} (hst : R s t)
    (hfg : ∀ a, x = .ok a → Alike A' R ((f a).run s) ((g a).run t)) :
    Alike A' R ((Step.ofExcept x >>= f).run s) ((Step.ofExcept x >>= g).run t) := by
  cases x with
  | ok a => exact hfg a rfl
  | error e => exact .error hst

/-- The same, where the second run works on the image of the result. -/
theorem ofExcept_map_bind {α' β' : Type} {A' : α' → β' → Prop} {x : Except Failure α}
    {y : Except Failure β} {u : α → β} {f : α → Step σ α'} {g : β → Step τ β'} {s : σ} {t : τ}
    (hy : y = x.map u) (hst : R s t)
    (hfg : ∀ a, x = .ok a → Alike A' R ((f a).run s) ((g (u a)).run t)) :
    Alike A' R ((Step.ofExcept x >>= f).run s) ((Step.ofExcept y >>= g).run t) := by
  subst hy
  cases x with
  | ok a => exact hfg a rfl
  | error e => exact .error hst

/-- Loops over a list and over its image. -/
theorem forM_map {δ : Type} {u : γ → δ} {f : γ → Step σ PUnit} {g : δ → Step τ PUnit} {l : List γ}
    (h : ∀ x ∈ l, ∀ s t, R s t → Alike (fun _ _ => True) R ((f x).run s) ((g (u x)).run t))
    {s : σ} {t : τ} (hst : R s t) :
    Alike (fun _ _ => True) R ((l.forM f).run s) (((l.map u).forM g).run t) := by
  induction l generalizing s t with
  | nil => exact .ok trivial hst
  | cons x l ih =>
    rw [List.map_cons, List.forM_eq_forM, List.forM_cons, List.forM_eq_forM, List.forM_cons]
    exact (h x List.mem_cons_self s t hst).bind fun _ _ s t _ hst =>
      ih (fun y hy => h y (List.mem_cons_of_mem _ hy)) hst

theorem forM {f : γ → Step σ PUnit} {g : γ → Step τ PUnit} {l : List γ}
    (h : ∀ x ∈ l, ∀ s t, R s t → Alike (fun _ _ => True) R ((f x).run s) ((g x).run t))
    {s : σ} {t : τ} (hst : R s t) :
    Alike (fun _ _ => True) R ((l.forM f).run s) ((l.forM g).run t) := by
  have hmap := forM_map (u := id) h hst
  rwa [List.map_id] at hmap

end Alike

end DiffGraph
