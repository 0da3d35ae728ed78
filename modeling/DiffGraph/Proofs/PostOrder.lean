/-
  The traversal as a recursion.

  `Dag.visit` keeps its pending vertices on a list.  `Dag.search` is the same
  depth-first search by recursion on the operands, from left to right; it skips
  what was entered before, does not look below a vertex at which `descend` is
  false, and leaves a vertex after its operands.

  * `traverse_eq`: the traversal lists the vertices in the order in which the
    search leaves them;
  * `mem_traverse`: these are the vertices to be looked below that are reached
    from the root through such vertices;
  * `nodup_traverse`, `operand_before`, `traverse_eq_concat`: each one once,
    after its operands, and the root last.
-/
import DiffGraph.Dag
import Mathlib.Data.List.Nodup
import Mathlib.Logic.Relation
import Mathlib.Order.Nat

namespace DiffGraph.Dag

open Relation

variable {K : Type}

/-- `b` is an operand of `a`, and the traversal looks below `a`. -/
def Descends (d : Dag K) (descend : Node → Bool) (a b : Node) : Prop :=
  descend a = true ∧ b ∈ d.operands a

/-- `b` is reached from `a` through vertices that the traversal looks below. -/
def Reaches (d : Dag K) (descend : Node → Bool) : Node → Node → Prop :=
  ReflTransGen (d.Descends descend)

/-- `b` is `a` or one of the vertices that `a` is computed from. -/
def Below (d : Dag K) : Node → Node → Prop := d.Reaches fun _ => true

theorem Reaches.le {d : Dag K} {descend : Node → Bool} {a b : Node}
    (h : d.Reaches descend a b) : b ≤ a := by
  induction h with
  | refl => exact le_rfl
  | tail _ hbc ih => exact (d.operands_lt_self hbc.2).le.trans ih

theorem Reaches.below {d : Dag K} {descend : Node → Bool} {a b : Node}
    (h : d.Reaches descend a b) : d.Below a b := by
  induction h with
  | refl => exact ReflTransGen.refl
  | tail _ hbc ih => exact ih.tail ⟨rfl, hbc.2⟩

theorem Below.refl (d : Dag K) (a : Node) : d.Below a a := ReflTransGen.refl

theorem Below.le {d : Dag K} {a b : Node} (h : d.Below a b) : b ≤ a := Reaches.le h

theorem Below.operand {d : Dag K} {a b c : Node} (h : d.Below a b) (hc : c ∈ d.operands b) :
    d.Below a c :=
  ReflTransGen.tail h ⟨rfl, hc⟩

theorem Below.trans {d : Dag K} {a b c : Node} (h : d.Below a b) (h' : d.Below b c) :
    d.Below a c :=
  ReflTransGen.trans h h'

/-- What is below a vertex depends on the vertices up to it only. -/
theorem below_congr {d d' : Dag K} {a b : Node} (h : ∀ m ≤ a, d'.operands m = d.operands m) :
    d'.Below a b ↔ d.Below a b := by
  have key : ∀ {e e' : Dag K}, (∀ m ≤ a, e'.operands m = e.operands m) →
      e.Below a b → e'.Below a b := by
    intro e e' he hb
    induction hb with
    | refl => exact Below.refl e' a
    | tail hab hbc ih => exact ih.operand (by rw [he _ (Below.le hab)]; exact hbc.2)
  exact ⟨key fun m hm => (h m hm).symm, key h⟩

/-! ## The search -/

/-- How far a search has come: the vertices it has entered, and those it has
left, in this order. -/
structure Search where
  entered : List Node
  left : List Node

/-- Searches below a vertex, unless it was entered before. -/
def search (d : Dag K) (descend : Node → Bool) (n : Node) (s : Search) : Search :=
  if n ∈ s.entered then s
  else if descend n then
    let t := (d.operands n).attach.foldl (fun t c => d.search descend c.1 t)
      ⟨n :: s.entered, s.left⟩
    ⟨t.entered, t.left ++ [n]⟩
  else ⟨n :: s.entered, s.left⟩
termination_by n
decreasing_by exact d.operands_lt_self c.2

/-- Searches below several vertices, from left to right. -/
def searchAll (d : Dag K) (descend : Node → Bool) (ns : List Node) (s : Search) : Search :=
  ns.foldl (fun t c => d.search descend c t) s

section
variable {d : Dag K} {descend : Node → Bool} {n : Node} {s : Search}

@[simp] theorem searchAll_nil : d.searchAll descend [] s = s := rfl

@[simp] theorem searchAll_cons {ns : List Node} :
    d.searchAll descend (n :: ns) s = d.searchAll descend ns (d.search descend n s) := rfl

theorem search_of_mem (h : n ∈ s.entered) : d.search descend n s = s := by
  rw [search, if_pos h]

theorem search_of_not (h : n ∉ s.entered) (hn : descend n = false) :
    d.search descend n s = ⟨n :: s.entered, s.left⟩ := by
  rw [search, if_neg h, if_neg (by simp [hn])]

theorem search_of_descend (h : n ∉ s.entered) (hn : descend n = true) :
    d.search descend n s =
      ⟨(d.searchAll descend (d.operands n) ⟨n :: s.entered, s.left⟩).entered,
        (d.searchAll descend (d.operands n) ⟨n :: s.entered, s.left⟩).left ++ [n]⟩ := by
  rw [search, if_neg h, if_pos hn]
  simp only [searchAll, List.foldl_subtype, List.unattach_attach]

end

theorem searchAll_congr {d d' : Dag K} {descend descend' : Node → Bool} {ns : List Node}
    (h : ∀ n ∈ ns, ∀ s, d'.search descend' n s = d.search descend n s) (s : Search) :
    d'.searchAll descend' ns s = d.searchAll descend ns s := by
  induction ns generalizing s with
  | nil => rfl
  | cons n ns ih =>
    rw [searchAll_cons, searchAll_cons, h n List.mem_cons_self,
      ih fun m hm => h m (List.mem_cons_of_mem _ hm)]

/-- A search looks at the vertices up to its root only. -/
theorem search_congr {d d' : Dag K} {descend descend' : Node → Bool} (n : Node) :
    (∀ m ≤ n, d'.operands m = d.operands m ∧ descend' m = descend m) → ∀ s,
      d'.search descend' n s = d.search descend n s := by
  induction n using Nat.strong_induction_on with
  | _ n ih =>
    intro h s
    by_cases hmem : n ∈ s.entered
    · rw [search_of_mem hmem, search_of_mem hmem]
    · obtain ⟨ho, hd⟩ := h n le_rfl
      cases hdn : descend n with
      | false => rw [search_of_not hmem hdn, search_of_not hmem (hd.trans hdn)]
      | true =>
        have hall : ∀ t, d'.searchAll descend' (d.operands n) t =
            d.searchAll descend (d.operands n) t := searchAll_congr fun c hc =>
          have hlt : c < n := d.operands_lt_self hc
          ih c hlt fun m hm => h m (hm.trans hlt.le)
        rw [search_of_descend hmem hdn, search_of_descend hmem (hd.trans hdn), ho, hall]

/-! ## What a search adds -/

/-- A search below `roots` that starts at `s` and ends at `t` has left the
vertices `new`. -/
structure Adds (d : Dag K) (descend : Node → Bool) (roots : List Node) (s t : Search)
    (new : List Node) : Prop where
  left : t.left = s.left ++ new
  kept : s.entered ⊆ t.entered
  added : new ⊆ t.entered
  covered : roots ⊆ t.entered
  entered : ∀ m ∈ t.entered, m ∈ s.entered ∨ m ∈ new ∨ descend m = false
  fresh : ∀ m ∈ new, m ∉ s.entered
  nodup : new.Nodup
  reached : ∀ m ∈ new, descend m = true ∧ ∃ r ∈ roots, d.Reaches descend r m
  /-- the operands were left before, or entered by an earlier search, or the
  search does not look below them -/
  before : ∀ pre m post, new = pre ++ m :: post → ∀ c ∈ d.operands m,
    c ∈ pre ∨ c ∈ s.entered ∨ descend c = false

namespace Adds

variable {d : Dag K} {descend : Node → Bool} {s t u : Search}

theorem none (d : Dag K) (descend : Node → Bool) (s : Search) : d.Adds descend [] s s [] where
  left := by simp
  kept := fun _ h => h
  added := by simp
  covered := by simp
  entered := fun _ h => Or.inl h
  fresh := by simp
  nodup := List.nodup_nil
  reached := by simp
  before := by simp

theorem trans {rs rs' new new' : List Node} (h : d.Adds descend rs s t new)
    (h' : d.Adds descend rs' t u new') : d.Adds descend (rs ++ rs') s u (new ++ new') where
  left := by rw [h'.left, h.left, List.append_assoc]
  kept := List.Subset.trans h.kept h'.kept
  added := List.append_subset.2 ⟨List.Subset.trans h.added h'.kept, h'.added⟩
  covered := List.append_subset.2 ⟨List.Subset.trans h.covered h'.kept, h'.covered⟩
  entered m hm := by
    rcases h'.entered m hm with hm | hm | hm
    · rcases h.entered m hm with hm | hm | hm
      · exact Or.inl hm
      · exact Or.inr (Or.inl (List.mem_append_left _ hm))
      · exact Or.inr (Or.inr hm)
    · exact Or.inr (Or.inl (List.mem_append_right _ hm))
    · exact Or.inr (Or.inr hm)
  fresh m hm := by
    rcases List.mem_append.1 hm with hm | hm
    · exact h.fresh m hm
    · exact fun hs => h'.fresh m hm (h.kept hs)
  nodup := by
    refine List.nodup_append.2 ⟨h.nodup, h'.nodup, fun a ha b hb hab => ?_⟩
    exact h'.fresh b hb (hab ▸ h.added ha)
  reached m hm := by
    rcases List.mem_append.1 hm with hm | hm
    · obtain ⟨hd, r, hr, hrm⟩ := h.reached m hm
      exact ⟨hd, r, List.mem_append_left _ hr, hrm⟩
    · obtain ⟨hd, r, hr, hrm⟩ := h'.reached m hm
      exact ⟨hd, r, List.mem_append_right _ hr, hrm⟩
  before pre m post hnew c hc := by
    rcases List.append_eq_append_iff.1 hnew with ⟨mid, rfl, hpost⟩ | ⟨mid, hnew, hpost⟩
    · -- `m` was left by the second search
      rcases h'.before mid m post hpost c hc with hm | hm | hm
      · exact Or.inl (List.mem_append_right _ hm)
      · rcases h.entered c hm with hm | hm | hm
        · exact Or.inr (Or.inl hm)
        · exact Or.inl (List.mem_append_left _ hm)
        · exact Or.inr (Or.inr hm)
      · exact Or.inr (Or.inr hm)
    · cases mid with
      | nil =>
        rcases h'.before [] m post (by simpa using hpost.symm) c hc with hm | hm | hm
        · simp at hm
        · rcases h.entered c hm with hm | hm | hm
          · exact Or.inr (Or.inl hm)
          · rw [List.append_nil] at hnew
            exact Or.inl (hnew ▸ hm)
          · exact Or.inr (Or.inr hm)
        · exact Or.inr (Or.inr hm)
      | cons m' mid =>
        obtain ⟨rfl, -⟩ := List.cons.inj hpost
        exact h.before pre m mid hnew c hc

theorem leave {n : Node} {new : List Node} (hn : n ∉ s.entered) (hd : descend n = true)
    (h : d.Adds descend (d.operands n) ⟨n :: s.entered, s.left⟩ t new) :
    d.Adds descend [n] s ⟨t.entered, t.left ++ [n]⟩ (new ++ [n]) where
  left := by simp [h.left]
  kept := fun m hm => h.kept (List.mem_cons_of_mem _ hm)
  added := List.append_subset.2 ⟨h.added, by simpa using h.kept List.mem_cons_self⟩
  covered := by simpa using h.kept List.mem_cons_self
  entered m hm := by
    rcases h.entered m hm with hm | hm | hm
    · rcases List.mem_cons.1 hm with rfl | hm
      · exact Or.inr (Or.inl (by simp))
      · exact Or.inl hm
    · exact Or.inr (Or.inl (List.mem_append_left _ hm))
    · exact Or.inr (Or.inr hm)
  fresh m hm := by
    rcases List.mem_append.1 hm with hm | hm
    · exact fun hs => h.fresh m hm (List.mem_cons_of_mem _ hs)
    · rw [List.mem_singleton.1 hm]; exact hn
  nodup := by
    refine List.nodup_append.2 ⟨h.nodup, List.nodup_singleton n, fun a ha b hb hab => ?_⟩
    rw [List.mem_singleton.1 hb] at hab
    exact h.fresh a ha (by simp [hab])
  reached m hm := by
    refine ⟨?_, n, List.mem_singleton_self n, ?_⟩
    · rcases List.mem_append.1 hm with hm | hm
      · exact (h.reached m hm).1
      · rw [List.mem_singleton.1 hm]; exact hd
    · rcases List.mem_append.1 hm with hm | hm
      · obtain ⟨-, r, hr, hrm⟩ := h.reached m hm
        exact ReflTransGen.head ⟨hd, hr⟩ hrm
      · rw [List.mem_singleton.1 hm]; exact ReflTransGen.refl
  before pre m post hnew c hc := by
    -- an operand of a vertex below `n` is smaller than `n`, so it was not entered as `n`
    have hmem : c ∈ n :: s.entered → c ≠ n → c ∈ s.entered := fun h hcn =>
      (List.mem_cons.1 h).resolve_left hcn
    rcases List.eq_nil_or_concat post with rfl | ⟨post, x, rfl⟩
    · obtain ⟨rfl, hm⟩ := List.append_inj_left' hnew rfl, List.append_inj_right' hnew rfl
      obtain rfl : n = m := by simpa using hm
      rcases h.entered c (h.covered hc) with hc' | hc' | hc'
      · exact Or.inr (Or.inl (hmem hc' (d.operands_lt_self hc).ne))
      · exact Or.inl hc'
      · exact Or.inr (Or.inr hc')
    · have hnew' : new = pre ++ m :: post := by
        have : new ++ [n] = (pre ++ m :: post) ++ [x] := by simpa using hnew
        exact List.append_inj_left' this rfl
      rcases h.before pre m post hnew' c hc with hc' | hc' | hc'
      · exact Or.inl hc'
      · obtain ⟨-, r, hr, hrm⟩ := h.reached m (by simp [hnew'])
        have hcn : c < n := (d.operands_lt_self hc).trans (hrm.le.trans_lt (d.operands_lt_self hr))
        exact Or.inr (Or.inl (hmem hc' hcn.ne))
      · exact Or.inr (Or.inr hc')

end Adds

section
variable {d : Dag K} {descend : Node → Bool}

/-- A list of searches adds what its members add. -/
theorem Adds.searchAll {ns : List Node}
    (h : ∀ n ∈ ns, ∀ s, ∃ new, d.Adds descend [n] s (d.search descend n s) new) (s : Search) :
    ∃ new, d.Adds descend ns s (d.searchAll descend ns s) new := by
  induction ns generalizing s with
  | nil => exact ⟨[], Adds.none d descend s⟩
  | cons n ns ih =>
    obtain ⟨new, hnew⟩ := h n List.mem_cons_self s
    obtain ⟨new', hnew'⟩ := ih (fun m hm => h m (List.mem_cons_of_mem _ hm)) (d.search descend n s)
    exact ⟨new ++ new', hnew.trans hnew'⟩

/-- **What a search adds.** -/
theorem search_adds (d : Dag K) (descend : Node → Bool) (n : Node) :
    ∀ s, ∃ new, d.Adds descend [n] s (d.search descend n s) new := by
  induction n using Nat.strong_induction_on with
  | _ n ih =>
    intro s
    by_cases hmem : n ∈ s.entered
    · refine ⟨[], ?_⟩
      rw [search_of_mem hmem]
      exact { Adds.none d descend s with
        covered := by simpa using hmem
        reached := by simp }
    · cases hd : descend n with
      | false =>
        refine ⟨[], ?_⟩
        rw [search_of_not hmem hd]
        exact
          { left := by simp
            kept := fun m hm => List.mem_cons_of_mem _ hm
            added := by simp
            covered := by simp
            entered := fun m hm => (List.mem_cons.1 hm).elim
              (fun h => Or.inr (Or.inr (h ▸ hd))) Or.inl
            fresh := by simp
            nodup := List.nodup_nil
            reached := by simp
            before := by simp }
      | true =>
        obtain ⟨new, hnew⟩ := Adds.searchAll (fun c hc => ih c (d.operands_lt_self hc))
          ⟨n :: s.entered, s.left⟩
        exact ⟨new ++ [n], by rw [search_of_descend hmem hd]; exact Adds.leave hmem hd hnew⟩

theorem searchAll_adds (d : Dag K) (descend : Node → Bool) (ns : List Node) (s : Search) :
    ∃ new, d.Adds descend ns s (d.searchAll descend ns s) new :=
  Adds.searchAll (fun n _ => search_adds d descend n) s

theorem entered_search (n : Node) (s : Search) : s.entered ⊆ (d.search descend n s).entered := by
  obtain ⟨new, h⟩ := search_adds d descend n s
  exact h.kept

end

/-! ## The list of pending vertices is the call stack of the search -/

/-- The marks of a traversal say which vertices were entered. -/
structure Marks (d : Dag K) (seen : Array Bool) (entered : List Node) : Prop where
  size : seen.size = d.size
  mark : ∀ m (h : m < seen.size), seen[m] = decide (m ∈ entered)

theorem Marks.enter {d : Dag K} {seen : Array Bool} {entered : List Node} (h : d.Marks seen entered)
    {n : Node} (hn : n < seen.size) : d.Marks (seen.set n true) (n :: entered) := by
  refine ⟨by simp [h.size], fun m hm => ?_⟩
  rw [Array.size_set] at hm
  rw [Array.getElem_set]
  split
  · next hnm => simp [hnm]
  · next hnm => simp [h.mark m hm, Ne.symm hnm]

section
variable {d : Dag K} {descend : Node → Bool}

theorem operands_lt_size {n c : Node} (hc : c ∈ d.operands n) : c < d.size := by
  have h := d.operands_lt_self hc
  by_cases hn : n < d.size
  · exact h.trans hn
  · have hn' : ¬ n < d.ops.size := hn
    simp [operands, op, Array.getD, hn', Op.operands] at hc

/-- Popping the vertex from the pending ones runs the search below it. -/
def Pops (d : Dag K) (descend : Node → Bool) (n : Node) : Prop :=
  ∀ (stack : List (Node × Bool)) (seen : Array Bool) (s : Search), d.Marks seen s.entered →
    ∃ seen', d.Marks seen' (d.search descend n s).entered ∧
      d.visit descend ((n, false) :: stack) seen s.left.reverse =
        d.visit descend stack seen' (d.search descend n s).left.reverse

/-- The pending vertices go through the list one after another.  Those that are not
put there were entered before. -/
theorem Pops.visit_all {pending : Node → Bool} {ns : List Node} (h : ∀ n ∈ ns, d.Pops descend n)
    (stack : List (Node × Bool)) (seen : Array Bool) (s : Search) (hm : d.Marks seen s.entered)
    (hold : ∀ n ∈ ns, pending n = false → n ∈ s.entered) :
    ∃ seen', d.Marks seen' (d.searchAll descend ns s).entered ∧
      d.visit descend ((ns.filter pending).map (·, false) ++ stack) seen s.left.reverse =
        d.visit descend stack seen' (d.searchAll descend ns s).left.reverse := by
  induction ns generalizing seen s with
  | nil => exact ⟨seen, hm, rfl⟩
  | cons n ns ih =>
    have h' : ∀ m ∈ ns, d.Pops descend m := fun m hm => h m (List.mem_cons_of_mem _ hm)
    cases hn : pending n with
    | true =>
      obtain ⟨seen₁, hm₁, hv₁⟩ := h n List.mem_cons_self
        ((ns.filter pending).map (·, false) ++ stack) seen s hm
      obtain ⟨seen₂, hm₂, hv₂⟩ := ih h' seen₁ (d.search descend n s) hm₁ fun m hmem hp =>
        entered_search n s (hold m (List.mem_cons_of_mem _ hmem) hp)
      refine ⟨seen₂, hm₂, ?_⟩
      rw [List.filter_cons_of_pos hn]
      exact hv₁.trans hv₂
    | false =>
      have hmem : n ∈ s.entered := hold n List.mem_cons_self hn
      rw [List.filter_cons_of_neg (by simp [hn]), searchAll_cons, search_of_mem hmem]
      exact ih h' seen s hm fun m hmem => hold m (List.mem_cons_of_mem _ hmem)

/-- **Popping a pending vertex runs the search below it.** -/
theorem pops (descend : Node → Bool) (n : Node) : n < d.size → d.Pops descend n := by
  induction n using Nat.strong_induction_on with
  | _ n ih =>
    intro hn stack seen s hm
    have hn' : n < seen.size := hm.size ▸ hn
    by_cases hmem : n ∈ s.entered
    · refine ⟨seen, by rwa [search_of_mem hmem], ?_⟩
      rw [visit, dif_pos hn', dif_neg (by simp [hm.mark n hn', hmem]), search_of_mem hmem]
    · have hfalse : seen[n] = false := by simp [hm.mark n hn', hmem]
      rw [visit, dif_pos hn', dif_pos hfalse]
      cases hd : descend n with
      | false =>
        refine ⟨seen.set n true, ?_, ?_⟩
        · rw [search_of_not hmem hd]; exact hm.enter hn'
        · simp [search_of_not hmem hd]
      | true =>
        have hold : ∀ c ∈ d.operands n, decide ((seen.set n true)[c]? = some false) = false →
            c ∈ n :: s.entered := by
          intro c hc hpend
          have hsize : c < (seen.set n true).size := by
            rw [Array.size_set, hm.size]
            exact operands_lt_size hc
          have hmark := (hm.enter hn').mark c hsize
          by_contra hnot
          simp [Array.getElem?_eq_getElem hsize, hmark, hnot] at hpend
        obtain ⟨seen₁, hm₁, hv⟩ := Pops.visit_all
          (fun c hc => ih c (d.operands_lt_self hc) (operands_lt_size hc)) ((n, true) :: stack)
          (seen.set n true) ⟨n :: s.entered, s.left⟩ (hm.enter hn') hold
        rw [if_pos rfl, search_of_descend hmem hd]
        refine ⟨seen₁, hm₁, hv.trans ?_⟩
        rw [visit, List.reverse_append]
        rfl

/-- **The traversal lists the vertices in the order in which the search leaves them.** -/
theorem traverse_eq {root : Node} (h : root < d.size) :
    d.traverse descend root = (d.search descend root ⟨[], []⟩).left := by
  have hm : d.Marks (Array.replicate d.size false) [] := ⟨by simp, fun m hm => by simp⟩
  obtain ⟨seen, -, hv⟩ := pops descend root h [] _ ⟨[], []⟩ hm
  rw [List.reverse_nil] at hv
  rw [traverse, hv, visit, List.reverse_reverse]

/-- A vertex that is not in the graph has no vertices below it. -/
theorem traverse_of_size_le {root : Node} (h : d.size ≤ root) : d.traverse descend root = [] := by
  rw [traverse, visit, dif_neg (by simpa using h), visit, List.reverse_nil]

/-- The traversal looks at the vertices up to its root only. -/
theorem traverse_congr {d' : Dag K} {descend' : Node → Bool} {root : Node} (hd : root < d.size)
    (hd' : root < d'.size)
    (h : ∀ m ≤ root, d'.operands m = d.operands m ∧ descend' m = descend m) :
    d'.traverse descend' root = d.traverse descend root := by
  rw [traverse_eq hd, traverse_eq hd', search_congr root h]

/-! ## The list -/

theorem traverse_adds {root : Node} (h : root < d.size) :
    d.Adds descend [root] ⟨[], []⟩ (d.search descend root ⟨[], []⟩) (d.traverse descend root) := by
  obtain ⟨new, hnew⟩ := search_adds d descend root ⟨[], []⟩
  have : d.traverse descend root = new := by rw [traverse_eq h, hnew.left, List.nil_append]
  exact this ▸ hnew

/-- **Each vertex is listed once.** -/
theorem nodup_traverse (root : Node) : (d.traverse descend root).Nodup := by
  by_cases h : root < d.size
  · exact (traverse_adds h).nodup
  · rw [traverse_of_size_le (not_lt.1 h)]; exact List.nodup_nil

/-- **Operands are listed before the vertices that use them.** -/
theorem operand_before {root m c : Node} {pre post : List Node}
    (h : d.traverse descend root = pre ++ m :: post) (hc : c ∈ d.operands m)
    (hd : descend c = true) : c ∈ pre := by
  have hroot : root < d.size := by
    by_contra hr
    rw [traverse_of_size_le (not_lt.1 hr)] at h
    simp at h
  rcases (traverse_adds hroot).before pre m post h c hc with hm | hm | hm
  · exact hm
  · simp at hm
  · simp [hd] at hm

/-- **The vertices that the traversal lists.** -/
theorem mem_traverse {root : Node} (h : root < d.size) {m : Node} :
    m ∈ d.traverse descend root ↔ descend m = true ∧ d.Reaches descend root m := by
  constructor
  · intro hm
    obtain ⟨hd, r, hr, hrm⟩ := (traverse_adds h).reached m hm
    exact ⟨hd, List.mem_singleton.1 hr ▸ hrm⟩
  · rintro ⟨hd, hr⟩
    induction hr with
    | refl =>
      rcases (traverse_adds h).entered root ((traverse_adds h).covered (by simp)) with hm | hm | hm
      · simp at hm
      · exact hm
      · simp [hd] at hm
    | tail hra hab ih =>
      obtain ⟨pre, post, hl⟩ := List.append_of_mem (ih hab.1)
      rw [hl]
      exact List.mem_append_left _ (operand_before hl hab.2 hd)

/-- The root is listed last. -/
theorem traverse_eq_concat {root : Node} (h : root < d.size) (hd : descend root = true) :
    ∃ pre, d.traverse descend root = pre ++ [root] := by
  rw [traverse_eq h, search_of_descend (by simp) hd]
  exact ⟨_, rfl⟩

end

end DiffGraph.Dag
