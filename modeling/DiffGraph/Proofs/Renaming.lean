/-
  Graphs under other names.

  What stands below a root may be built again under any names, in any order and among any
  other vertices.

  * `Dag.Renamed`: below two roots stand the same operations over the same operands, up
    to names;
  * `Dag.Renamed.search`: two searches enter and leave their vertices in the same order;
    so one traversal is the other one under the new names (`Dag.Renamed.traverse`);
  * `Graph.alike_of_renamed`: the two orders are replicas of each other, and compile to
    the same instructions.
-/
import DiffGraph.Graph.Replica
import DiffGraph.Proofs.Compilation
import DiffGraph.Proofs.History
import DiffGraph.Proofs.Shapes
import Mathlib.Data.Set.Function

namespace DiffGraph

open Relation

variable {K E E' : Type}

namespace Op

@[simp] theorem operands_rename (f : Node → Node) (op : Op K) :
    (op.rename f).operands = op.operands.map f := by
  cases op <;> rfl

@[simp] theorem kind_rename (f : Node → Node) (op : Op K) : (op.rename f).kind = op.kind := by
  cases op <;> rfl

/-- The instruction of a renamed operation is renamed. -/
@[simp] theorem rename_id (op : Op K) : op.rename (fun n => n) = op := by
  cases op with
  | flatten members => rw [rename, List.map_id']
  | _ => rfl

theorem Does.rename {op : Op K} {i : Instr} (h : op.Does i) (f : Node → Node) :
    (op.rename f).Does (i.rename f) := by
  cases h <;> constructor

theorem Does.unique {op : Op K} {i j : Instr} (h : op.Does i) (h' : op.Does j) : i = j := by
  cases h <;> cases h' <;> rfl

end Op

theorem Instr.rename_rename (f f' : Nat → Nat) (i : Instr) :
    (i.rename f).rename f' = i.rename (f' ∘ f) := by
  cases i <;> rfl

namespace Dag

/-- Below `root'` in `d'` stands what stands below `root` in `d`; the vertex `n` is called
`f n` there. -/
structure Renamed (d d' : Dag K) (root root' : Node) (f : Node → Node) : Prop where
  map_root : f root = root'
  injective : Set.InjOn f {n | d.Below root n}
  op : ∀ n, d.Below root n → d'.op (f n) = (d.op n).rename f

namespace Renamed

variable {d d' : Dag K} {root root' n : Node} {f : Node → Node}

theorem refl (d : Dag K) (root : Node) : d.Renamed d root root fun n => n :=
  ⟨rfl, fun _ _ _ _ h => h, fun n _ => (Op.rename_id (d.op n)).symm⟩

theorem operands (h : d.Renamed d' root root' f) (hn : d.Below root n) :
    d'.operands (f n) = (d.operands n).map f := by
  rw [Dag.operands, h.op n hn, Op.operands_rename]
  rfl

theorem below (h : d.Renamed d' root root' f) (hn : d.Below root n) : d'.Below root' (f n) := by
  induction hn with
  | refl =>
    rw [h.map_root]
    exact Below.refl d' root'
  | @tail b c hb hbc ih =>
    refine ih.operand ?_
    rw [h.operands hb]
    exact List.mem_map_of_mem hbc.2

theorem exists_of_below (h : d.Renamed d' root root' f) {n' : Node} (hn : d'.Below root' n') :
    ∃ n, d.Below root n ∧ f n = n' := by
  induction hn with
  | refl => exact ⟨root, Below.refl d root, h.map_root⟩
  | @tail b' c' _ hbc ih =>
    obtain ⟨b, hb, rfl⟩ := ih
    have hc := hbc.2
    rw [h.operands hb, List.mem_map] at hc
    obtain ⟨c, hc, rfl⟩ := hc
    exact ⟨c, hb.operand hc, rfl⟩

theorem mem_map_iff (h : d.Renamed d' root root' f) {l : List Node}
    (hl : ∀ m ∈ l, d.Below root m) (hn : d.Below root n) : f n ∈ l.map f ↔ n ∈ l := by
  constructor
  · intro hmem
    obtain ⟨m, hm, hfm⟩ := List.mem_map.1 hmem
    rwa [h.injective (hl m hm) hn hfm] at hm
  · exact List.mem_map_of_mem

/-- A vertex stands at the same place in a list under its new name. -/
theorem idxOf_map (h : d.Renamed d' root root' f) {l : List Node}
    (hl : ∀ m ∈ l, d.Below root m) (hn : d.Below root n) : (l.map f).idxOf (f n) = l.idxOf n := by
  induction l with
  | nil => rfl
  | cons m l ih =>
    have hm : d.Below root m := hl m List.mem_cons_self
    rw [List.map_cons, List.idxOf_cons, List.idxOf_cons,
      ih fun k hk => hl k (List.mem_cons_of_mem _ hk)]
    by_cases hmn : m = n
    · rw [hmn, beq_self_eq_true, beq_self_eq_true]
    · have hf : f m ≠ f n := fun hf => hmn (h.injective hm hn hf)
      rw [beq_false_of_ne hmn, beq_false_of_ne hf]

end Renamed

/-! ## Searches under other names -/

/-- A search that has entered vertices below `root` only. -/
def Search.Within (d : Dag K) (root : Node) (s : Search) : Prop :=
  ∀ m ∈ s.entered, d.Below root m

/-- The search under other names. -/
def Search.rename (f : Node → Node) (s : Search) : Search := ⟨s.entered.map f, s.left.map f⟩

section
variable {d d' : Dag K} {descend descend' : Node → Bool} {root root' n : Node} {f : Node → Node}
  {s : Search}

theorem Search.Within.cons (h : s.Within d root) (hn : d.Below root n) (left : List Node) :
    Search.Within d root ⟨n :: s.entered, left⟩ :=
  List.forall_mem_cons.2 ⟨hn, h⟩

theorem within_searchAll {ns : List Node}
    (h : ∀ n ∈ ns, ∀ s : Search, s.Within d root → (d.search descend n s).Within d root)
    {s : Search} (hs : s.Within d root) : (d.searchAll descend ns s).Within d root := by
  induction ns generalizing s with
  | nil => exact hs
  | cons n ns ih =>
    rw [searchAll_cons]
    exact ih (fun m hm => h m (List.mem_cons_of_mem _ hm)) (h n List.mem_cons_self s hs)

/-- A search stays below its root. -/
theorem within_search (n : Node) :
    d.Below root n → ∀ s : Search, s.Within d root → (d.search descend n s).Within d root := by
  induction n using Nat.strong_induction_on with
  | _ n ih =>
    intro hn s hs
    by_cases hmem : n ∈ s.entered
    · rwa [search_of_mem hmem]
    · cases hd : descend n with
      | false =>
        rw [search_of_not hmem hd]
        exact hs.cons hn _
      | true =>
        rw [search_of_descend hmem hd]
        exact within_searchAll (fun c hc => ih c (d.operands_lt_self hc) (hn.operand hc))
          (hs.cons hn _)

namespace Renamed

theorem searchAll {ns : List Node} (hns : ∀ n ∈ ns, d.Below root n)
    (h : ∀ n ∈ ns, ∀ s : Search, s.Within d root →
      d'.search descend' (f n) (s.rename f) = (d.search descend n s).rename f)
    {s : Search} (hs : s.Within d root) :
    d'.searchAll descend' (ns.map f) (s.rename f) = (d.searchAll descend ns s).rename f := by
  induction ns generalizing s with
  | nil => rfl
  | cons n ns ih =>
    have hn : d.Below root n := hns n List.mem_cons_self
    rw [List.map_cons, searchAll_cons, searchAll_cons, h n List.mem_cons_self s hs]
    exact ih (fun m hm => hns m (List.mem_cons_of_mem _ hm))
      (fun m hm => h m (List.mem_cons_of_mem _ hm)) (within_search n hn s hs)

/-- **A search under other names** enters and leaves the same vertices, in the same
order. -/
theorem search (h : d.Renamed d' root root' f)
    (hd : ∀ n, d.Below root n → descend' (f n) = descend n) (n : Node) :
    d.Below root n → ∀ s : Search, s.Within d root →
      d'.search descend' (f n) (s.rename f) = (d.search descend n s).rename f := by
  induction n using Nat.strong_induction_on with
  | _ n ih =>
    intro hn s hs
    have hentered : f n ∈ (s.rename f).entered ↔ n ∈ s.entered := h.mem_map_iff hs hn
    by_cases hmem : n ∈ s.entered
    · rw [search_of_mem hmem, search_of_mem (hentered.2 hmem)]
    · have hmem' : f n ∉ (s.rename f).entered := fun hm => hmem (hentered.1 hm)
      cases hdn : descend n with
      | false =>
        rw [search_of_not hmem hdn, search_of_not hmem' ((hd n hn).trans hdn)]
        rfl
      | true =>
        have hall := searchAll (fun c hc => hn.operand hc)
          (fun c hc => ih c (d.operands_lt_self hc) (hn.operand hc)) (hs.cons hn s.left)
        rw [search_of_descend hmem hdn, search_of_descend hmem' ((hd n hn).trans hdn),
          h.operands hn]
        show (⟨(d'.searchAll descend' _ (Search.rename f ⟨n :: s.entered, s.left⟩)).entered,
          (d'.searchAll descend' _ (Search.rename f ⟨n :: s.entered, s.left⟩)).left ++ [f n]⟩ :
            Search) = _
        rw [hall]
        simp only [Search.rename, List.map_append, List.map_cons, List.map_nil]

/-- **One traversal is the other under the new names.** -/
theorem traverse (h : d.Renamed d' root root' f) (hroot : root < d.size) (hroot' : root' < d'.size)
    (hd : ∀ n, d.Below root n → descend' (f n) = descend n) :
    d'.traverse descend' root' = (d.traverse descend root).map f := by
  have hs := h.search hd root (Below.refl d root) ⟨[], []⟩ (by simp [Search.Within])
  rw [h.map_root] at hs
  rw [traverse_eq hroot', traverse_eq hroot]
  exact congrArg Search.left hs

end Renamed

end

end Dag

namespace Graph

variable {g : Graph K E} {g' : Graph K E'} {root root' : Node} {f : Node → Node}

/-- The orders of two roots pair the vertices that stand for each other. -/
theorem order_of_renamed (h : g.dag.Renamed g'.dag root root' f) (hroot : root < g.size)
    (hroot' : root' < g'.size) : g'.order root' = (g.order root).map f :=
  h.traverse hroot hroot' fun _ _ => rfl

theorem kind_of_renamed (h : g.dag.Renamed g'.dag root root' f) {n : Node}
    (hn : g.dag.Below root n) : g'.kind (f n) = g.kind n := by
  have hop : g'.op (f n) = (g.op n).rename f := h.op n hn
  rw [kind, hop, Op.kind_rename]
  rfl

theorem isParameter_of_renamed (h : g.dag.Renamed g'.dag root root' f) {n : Node}
    (hn : g.dag.Below root n) : g'.isParameter (f n) = g.isParameter n :=
  congrArg (fun k => decide (k = Kind.parameter)) (kind_of_renamed h hn)

/-- Orders that pair vertices of the same kinds are replicas of each other. -/
theorem checkAlike_map {order : List Node} (h : ∀ n ∈ order, g.kind (f n) = g.kind n) :
    g.checkAlike order (order.map f) = .ok () := by
  have hnone : g.unlike? order (order.map f) = none := by
    rw [unlike?, Option.map_eq_none_iff, List.find?_eq_none]
    rintro ⟨⟨x, y⟩, i⟩ hmem
    have hzip : (x, y) ∈ order.zip (order.map f) :=
      List.mem_of_getElem? (List.mem_zipIdx_iff_getElem?.1 hmem)
    rw [← List.map_prod_left_eq_zip, List.mem_map] at hzip
    obtain ⟨n, hn, hxy⟩ := hzip
    obtain ⟨rfl, rfl⟩ := Prod.mk.inj hxy
    simp [h n hn]
  rw [checkAlike, if_neg (by simp), hnone]

section
variable [Arith E] [Arith E']

/-- Compiled under other names, a vertex has the same instruction. -/
theorem Compiled.instr_of_renamed (h : g.dag.Renamed g'.dag root root' f)
    (hroot : root < g.size) {code code' : Code} {values : Array E} {values' : Array E'}
    (hc : Compiled g (g.order root) code values)
    (hc' : Compiled g' ((g.order root).map f) code' values') {i : Nat} {n : Node}
    (hn : (g.order root)[i]? = some n) : code'.instr i = code.instr i := by
  have hbelow : ∀ m ∈ g.order root, g.dag.Below root m := fun m hm => (mem_order hroot).1 hm
  have hnb : g.dag.Below root n := hbelow n (List.mem_of_getElem? hn)
  have hop : g'.op (f n) = (g.op n).rename f := h.op n hnb
  obtain ⟨ins, hins, hcode⟩ := hc.instr i n hn
  obtain ⟨ins', hins', hcode'⟩ := hc'.instr i (f n) (by rw [List.getElem?_map, hn]; rfl)
  rw [hop] at hins'
  rw [hcode, hcode', hins'.unique (hins.rename f), Instr.rename_rename]
  refine Instr.rename_congr fun c hc => ?_
  rw [hins.operands] at hc
  exact h.idxOf_map hbelow (hnb.operand hc)

end

end Graph

/-- A code is a list of instructions, apart from its marks. -/
theorem Code.map_instr {code code' : Code} (hsize : code'.size = code.size)
    (h : ∀ i < code.size, code'.instr i = code.instr i) :
    code'.items.map Item.instr = code.items.map Item.instr := by
  refine Array.ext ?_ fun i hi hi' => ?_
  · rw [Array.size_map, Array.size_map]
    exact hsize
  · rw [Array.size_map] at hi hi'
    have hinstr := h i hi'
    simpa [Code.instr, Array.getD, hi, hi'] using hinstr

/-- The fingerprint is made of the instructions. -/
theorem Code.fingerprint_congr {code code' : Code}
    (h : code'.items.map Item.instr = code.items.map Item.instr) :
    code'.fingerprint = code.fingerprint := by
  have hsize : code'.size = code.size := by
    have hmap := congrArg Array.size h
    rwa [Array.size_map, Array.size_map] at hmap
  have hencode : ∀ c : Code, (c.items.toList.flatMap fun item => item.instr.encode) =
      (c.items.map Item.instr).toList.flatMap Instr.encode := by
    intro c
    rw [Array.toList_map, List.flatMap_map]
  rw [Code.fingerprint, Code.fingerprint, hencode, hencode, h, hsize]

namespace Graph

variable [Arith E] [Arith E'] {g : Graph K E} {g' : Graph K E'} {root root' : Node}
  {f : Node → Node}

omit [Arith E'] in
theorem fingerprint_of_compile {order : List Node} {p : Program E}
    (h : g.compile order = .ok p) : p.fingerprint = p.code.fingerprint := by
  obtain ⟨r, -, hr⟩ := bind_eq_ok.1 h
  cases hr
  rfl

/-- **A compiled graph compiles under other names**, to the same instructions. -/
theorem compile_of_renamed (h : g.dag.Renamed g'.dag root root' f) (hroot : root < g.size)
    (hroot' : root' < g'.size) {p : Program E} (hp : g.compile (g.order root) = .ok p)
    (hs : ∀ n, g'.dag.Below root' n → g'.isParameter n = true → (g'.value n).isScalar = true) :
    ∃ p', g'.compile (g'.order root') = .ok p' ∧
      p'.code.items.map Item.instr = p.code.items.map Item.instr ∧
      p'.fingerprint = p.fingerprint := by
  obtain ⟨⟨code, values⟩, hrest, hcompile⟩ := bind_eq_ok.1 hp
  have hkind := kind_of_compileRest hrest
  obtain ⟨q, hq, hc, -⟩ := compile_order hroot
    (fun n hn => (hkind n ((mem_order hroot).2 hn)).1)
    (fun n hn => (hkind n ((mem_order hroot).2 hn)).2)
  obtain rfl : q = p := Except.ok.inj (hq.symm.trans hp)
  obtain ⟨p', hp', hc', -⟩ := compile_order hroot' (fun n' hn' => by
    obtain ⟨n, hn, rfl⟩ := h.exists_of_below hn'
    rw [kind_of_renamed h hn]
    exact (hkind n ((mem_order hroot).2 hn)).1) hs
  rw [order_of_renamed h hroot hroot'] at hc'
  have hsize : p'.code.size = q.code.size := by
    rw [hc'.size, hc.size, List.length_map]
  have hinstr : p'.code.items.map Item.instr = q.code.items.map Item.instr := by
    refine Code.map_instr hsize fun i hi => ?_
    rw [hc.size] at hi
    exact Compiled.instr_of_renamed h hroot hc hc' (List.getElem?_eq_getElem hi)
  refine ⟨p', hp', hinstr, ?_⟩
  rw [fingerprint_of_compile hp', fingerprint_of_compile hp, Code.fingerprint_congr hinstr]

/-- **Graphs that are the same up to names are ordered and compiled alike.**  Below `root`
in `g` and below `root'` in `g'` let the same operations stand over the same operands, up
to the names `f`, whatever else stands there and in whatever order it was made.

* The two orders are equally long, and at each place stand vertices that answer to each
  other;
* if both stand in one store, they are replicas of each other;
* if the one compiles, and the parameters of the other are numbers too, the other
  compiles to the same instructions and the same fingerprint. -/
theorem alike_of_renamed (h : g.dag.Renamed g'.dag root root' f) (hroot : root < g.size)
    (hroot' : root' < g'.size) :
    g'.order root' = (g.order root).map f ∧
    (g'.dag = g.dag → g.checkAlike (g.order root) (g'.order root') = .ok ()) ∧
    ∀ p, g.compile (g.order root) = .ok p →
      (∀ n, g'.dag.Below root' n → g'.isParameter n = true → (g'.value n).isScalar = true) →
      ∃ p', g'.compile (g'.order root') = .ok p' ∧
        p'.code.items.map Item.instr = p.code.items.map Item.instr ∧
        p'.fingerprint = p.fingerprint := by
  have horder := order_of_renamed h hroot hroot'
  refine ⟨horder, ?_, fun p hp hs => compile_of_renamed h hroot hroot' hp hs⟩
  intro hdag
  rw [horder]
  refine checkAlike_map fun n hn => ?_
  rw [← kind_of_renamed h ((mem_order hroot).1 hn), kind, kind, op, op, hdag]

/-- `a * b - a` over `b` and `a`, next to the same graph made from the other end. -/
theorem alike_of_renamed_product :
    let g : Graph Float32 Float32 := Call.runs
      [.parameter (.scalar 2), .parameter (.scalar 3), .record (.mul 0 1), .record (.neg 0),
        .record (.add 2 3), .parameter (.scalar 5), .parameter (.scalar 7), .record (.neg 6),
        .record (.mul 6 5), .record (.add 8 7)] (.empty 0 ⟨fun _ => 0, fun _ => 0⟩)
    ∃ p p', g.order 9 = (g.order 4).map (fun n => [6, 5, 8, 7, 9].getD n 0) ∧
      g.checkAlike (g.order 4) (g.order 9) = .ok () ∧
      g.compile (g.order 4) = .ok p ∧ g.compile (g.order 9) = .ok p' ∧
      p'.code.items.map Item.instr = p.code.items.map Item.instr ∧
      p'.fingerprint = p.fingerprint := by
  intro g
  have hops : g.dag.ops = #[.parameter, .parameter, .mul 0 1, .neg 0, .add 2 3, .parameter,
      .parameter, .neg 6, .mul 6 5, .add 8 7] := rfl
  have hop : ∀ n, g.dag.op n = #[.parameter, .parameter, .mul 0 1, .neg 0, .add 2 3, .parameter,
      .parameter, .neg 6, .mul 6 5, .add 8 7].getD n .parameter := fun n => by rw [Dag.op, hops]
  have hscalar : ∀ n < 10, g.isParameter n = true → (g.value n).isScalar = true := by decide
  have hkind : ∀ n < 10, g.kind n ∈ Kind.compiled := by decide
  have hinj : ∀ n ≤ 4, ∀ m ≤ 4, [6, 5, 8, 7, 9].getD n 0 = [6, 5, 8, 7, 9].getD m 0 → n = m := by
    decide
  have h : g.dag.Renamed g.dag 4 9 fun n => [6, 5, 8, 7, 9].getD n 0 :=
    { map_root := rfl
      injective := fun n hn m hm => hinj n (Dag.Below.le hn) m (Dag.Below.le hm)
      op := by
        intro n hn
        have hle : n ≤ 4 := hn.le
        rw [hop, hop]
        interval_cases n <;> rfl }
  have hroot : 4 < g.size := by decide
  obtain ⟨p, hp, -⟩ := compile_order hroot
    (fun n hn => hkind n (hn.le.trans_lt (by decide)))
    fun n hn => hscalar n (hn.le.trans_lt (by decide))
  obtain ⟨horder, halike, hcompile⟩ := alike_of_renamed h (by decide) (by decide)
  obtain ⟨p', hp', hinstr, hprint⟩ := hcompile p hp fun n hn =>
    hscalar n (hn.le.trans_lt (by decide))
  exact ⟨p, p', horder, halike rfl, hp, hp', hinstr, hprint⟩

end Graph

end DiffGraph
