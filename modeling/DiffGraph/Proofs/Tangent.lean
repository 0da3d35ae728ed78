/-
  Tangents, and their transposes.

  * `Op.tangent`: how the value of an operation changes, to first order, when its
    operands change along given tangents;
  * `Push.terms`: what a contribution adds to a gradient, as a matrix;
  * `Op.transposes`: the contributions of a vertex are the transpose of its tangent.
    Whatever the tangents of the operands are, the gradient paired with the tangent
    of the vertex is the sum of the contributions paired with the tangents of the
    operands.  An operand that is used twice receives two contributions.
-/
import Mathlib
import DiffGraph.Op.Adjoint
import DiffGraph.Proofs.Pairing
import DiffGraph.Proofs.Pushes

namespace DiffGraph

open Finset

variable {K E : Type}

/-- The kinds that have a tangent here. -/
def Kind.tangible : List Kind :=
  [parameter, add, neg, mul, div, dot, sum, slice, flatten, func, max, dropout]

namespace Op

/-- The tangent of a vertex from the values and the tangents of its operands.  A
parameter moves in the direction `own`. -/
def tangent [Arith E] (own mask : Matrix E) (val tan : Node → Matrix E) :
    Op K → Except Failure (Matrix E)
  | parameter => .ok own
  | add l r => (tan l).add (tan r)
  | neg l => .ok ((tan l).map (- ·))
  | mul l r => do
    let left ← (tan l).mul (val r)
    let right ← (val l).mul (tan r)
    left.add right
  | div l r => do
    let d ← (val r).toScalar
    let e ← (tan r).toScalar
    (tan l).zipWith "div" (fun t x => t / d - x * e / (d * d)) (val l)
  | dot l r => do
    let left ← (val r).zipWith "dot" (fun y t => t * y) (tan l)
    let right ← (val l).zipWith "dot" (· * ·) (tan r)
    left.add right
  | func f l => (val l).zipWith "func" (fun x t => f.derivative x * t) (tan l)
  | max l r => do
    let mask ← (val r).zipWith "max" Arith.ltMask (val l)
    let left ← mask.zipWith "max" (· * ·) (tan l)
    let right ← mask.zipWith "max" (fun m t => (1 - m) * t) (tan r)
    left.add right
  | sum l => .ok (.scalar (tan l).sum)
  | slice rect l => (tan l).block rect
  | flatten members => .ok (.flatten (members.map tan))
  | dropout _ l => mask.zipWith "dropout" (· * ·) (tan l)
  | op => .error (.notCompilable op.kind)

end Op

variable [Exact E]

/-! ## Contributions as matrices -/

namespace Push

/-- What a contribution adds to a gradient of shape `s`. -/
def terms (s : Shape) : Push E → Matrix E
  | whole terms => terms
  | each term => .ofFn s.1 s.2 fun _ _ => term
  | block row col terms =>
    let rect : Rect := ⟨row, col, terms.rows, terms.cols⟩
    .added s (fun k => rect.position s (k / terms.cols) (k % terms.cols)) (terms.data.getD · 0)
      terms.size
  | stretch start terms => .ofFn s.1 s.2 fun r c => terms.data.getD (start + (c * s.1 + r)) 0

theorem shape_terms {p : Push E} {s : Shape} (h : p.Fits s) : (p.terms s).shape = s := by
  cases p with
  | whole terms => exact h
  | each | block | stretch => rfl

/-- **A contribution adds a matrix.** -/
theorem apply_eq_add {p : Push E} {m : Matrix E} (h : p.Fits m.shape) :
    p.apply m = m.add (p.terms m.shape) := by
  cases p with
  | whole terms => rfl
  | each term =>
    refine Eq.trans ?_ (Matrix.add_ofFn m _).symm
    exact congrArg Except.ok (Matrix.map_eq _ m)
  | block row col terms => exact (Matrix.addBlock_ok h).trans (Matrix.addAll_eq_add m _ _ _)
  | stretch start terms =>
    refine Eq.trans ?_ (Matrix.add_ofFn m _).symm
    have hsize : m.size = m.shape.area := m.size_data
    have hfits : start + m.shape.area ≤ terms.size := h
    rw [apply, Matrix.unflatten, if_neg fun hs => absurd hs.2 (by rw [hsize]; exact not_lt.2 hfits)]
    rfl

/-- Contributions to vertices with the values `val`, paired with tangents. -/
def paired (val tan : Node → Matrix E) (ps : List (Node × Push E)) : E :=
  (ps.map fun t => Matrix.pairing (t.2.terms (val t.1).shape) (tan t.1)).sum

end Push

/-! ## Transposes -/

namespace Op

variable {op : Op K} {own mask v grad : Matrix E} {val : Node → Matrix E} {l r : Node}

/-- Contributions are the transpose of a tangent. -/
structure Transposed (op : Op K) (mask v grad : Matrix E) (val : Node → Matrix E)
    (ps : List (Node × Push E)) : Prop where
  fits : ∀ t ∈ ps, t.2.Fits (val t.1).shape
  pairing : ∀ own tan, (∀ c ∈ op.operands, (tan c).shape = (val c).shape) →
    ∃ t, op.tangent own mask val tan = .ok t ∧ t.shape = v.shape ∧
      Matrix.pairing grad t = Push.paired val tan ps

/-- Two operands whose tangents act in turn. -/
theorem transposed_pair {L R : Matrix E → Except Failure (Matrix E)} {dl dr : Matrix E}
    (hops : op.operands = [l, r]) (hg : grad.shape = v.shape)
    (hl : Matrix.Pullback L (val l).shape grad dl) (hr : Matrix.Pullback R (val r).shape grad dr)
    (h : ∀ own tan, (tan l).shape = (val l).shape → (tan r).shape = (val r).shape →
      op.tangent own mask val tan = (do
        let left ← L (tan l)
        let right ← R (tan r)
        left.add right)) :
    op.Transposed mask v grad val [(l, .whole dl), (r, .whole dr)] := by
  refine ⟨?_, fun own tan htan => ?_⟩
  · intro t ht
    rcases List.mem_cons.1 ht with rfl | ht
    · exact hl.shape
    · rw [List.mem_singleton.1 ht]
      exact hr.shape
  · have htl := htan l (by simp [hops])
    have htr := htan r (by simp [hops])
    obtain ⟨left, hleft, hls, hpairl⟩ := hl.pairing (tan l) htl
    obtain ⟨right, hright, hrs, hpairr⟩ := hr.pairing (tan r) htr
    obtain ⟨t, ht, hs, -, hadd⟩ := Matrix.exists_add (hls.trans hrs.symm)
    refine ⟨t, ?_, hs.trans (hls.trans hg), ?_⟩
    · rw [h own tan htl htr, hleft, ok_bind, hright, ok_bind, ht]
    · rw [hadd grad hls.symm, hpairl, hpairr]
      simp [Push.paired, Push.terms]

/-- A single operand. -/
theorem transposed_one {L : Matrix E → Except Failure (Matrix E)} {p : Push E}
    (hops : op.operands = [l]) (hg : grad.shape = v.shape) (hp : p.Fits (val l).shape)
    (hl : Matrix.Pullback L (val l).shape grad (p.terms (val l).shape))
    (h : ∀ own tan, op.tangent own mask val tan = L (tan l)) :
    op.Transposed mask v grad val [(l, p)] := by
  refine ⟨fun t ht => ?_, fun own tan htan => ?_⟩
  · rw [List.mem_singleton.1 ht]
    exact hp
  · obtain ⟨t, ht, hs, hpair⟩ := hl.pairing (tan l) (htan l (by simp [hops]))
    refine ⟨t, (h own tan).trans ht, hs.trans hg, hpair.trans ?_⟩
    simp [Push.paired]

theorem transposes_add (hv : (add l r : Op K).value own mask val = .ok v)
    (hg : grad.shape = v.shape) :
    ∃ ps, (add l r : Op K).pushes v mask grad val = .ok ps ∧
      (add l r : Op K).Transposed mask v grad val ps := by
  have hgl : grad.shape = (val l).shape := hg.trans (Matrix.shape_of_zipWith hv)
  have hgr : grad.shape = (val r).shape := hgl.trans (Matrix.shape_eq_of_zipWith hv)
  exact ⟨_, rfl, transposed_pair rfl hg (Matrix.pullback_self hgl) (Matrix.pullback_self hgr)
    fun _ _ _ _ => rfl⟩

theorem transposes_mul (hv : (mul l r : Op K).value own mask val = .ok v)
    (hg : grad.shape = v.shape) :
    ∃ ps, (mul l r : Op K).pushes v mask grad val = .ok ps ∧
      (mul l r : Op K).Transposed mask v grad val ps := by
  obtain ⟨hab, hvs⟩ := Matrix.shape_of_mul hv
  obtain ⟨dl, hdl, hl⟩ := Matrix.pullback_mul_left (hg.trans hvs)
  obtain ⟨dr, hdr, hr⟩ := Matrix.pullback_mul_right (hg.trans hvs)
  have hls : ((val l).rows, (val r).rows) = (val l).shape := congrArg ((val l).rows, ·) hab.symm
  have hrs : ((val l).cols, (val r).cols) = (val r).shape := congrArg (·, (val r).cols) hab
  refine ⟨[(l, .whole dl), (r, .whole dr)], ?_, transposed_pair rfl hg (hls ▸ hl) (hrs ▸ hr)
    fun _ _ _ _ => rfl⟩
  simp only [pushes, hdl, hdr, ok_bind]
  rfl

theorem transposes_neg (hv : (neg l : Op K).value own mask val = .ok v)
    (hg : grad.shape = v.shape) :
    ∃ ps, (neg l : Op K).pushes v mask grad val = .ok ps ∧
      (neg l : Op K).Transposed mask v grad val ps := by
  have hgl : grad.shape = (val l).shape := by
    rw [hg, ← Except.ok.inj hv]
    rfl
  have hl : Matrix.Pullback (fun x => .ok (x.map (- ·))) (val l).shape grad (grad.map (- ·)) :=
    Matrix.pullback_map hgl fun u y => by ring
  exact ⟨_, rfl, transposed_one rfl hg hgl hl fun _ _ => rfl⟩

theorem transposes_dot (hv : (dot l r : Op K).value own mask val = .ok v)
    (hg : grad.shape = v.shape) :
    ∃ ps, (dot l r : Op K).pushes v mask grad val = .ok ps ∧
      (dot l r : Op K).Transposed mask v grad val ps := by
  have hshape : (val l).shape = (val r).shape := Matrix.shape_eq_of_zipWith hv
  have hgl : grad.shape = (val l).shape := hg.trans (Matrix.shape_of_zipWith hv)
  obtain ⟨dl, hdl, hl⟩ := Matrix.pullback_zipWith (o := "dot") (p := "dot backward")
    (f := fun y t => t * y) (h := (· * ·)) (hgl.trans hshape) fun u y t => by ring
  obtain ⟨dr, hdr, hr⟩ := Matrix.pullback_zipWith (o := "dot") (p := "dot backward")
    (f := (· * ·)) (h := (· * ·)) hgl fun u x t => by ring
  refine ⟨[(l, .whole dl), (r, .whole dr)], ?_, transposed_pair rfl hg (hshape ▸ hl) (hshape ▸ hr)
    fun _ _ _ _ => rfl⟩
  simp only [pushes, hdl, hdr, ok_bind]
  rfl

theorem transposes_func {f : Unary} (hv : (func f l : Op K).value own mask val = .ok v)
    (hg : grad.shape = v.shape) :
    ∃ ps, (func f l : Op K).pushes v mask grad val = .ok ps ∧
      (func f l : Op K).Transposed mask v grad val ps := by
  have hgl : grad.shape = (val l).shape := by
    rw [hg, ← Except.ok.inj hv]
    rfl
  obtain ⟨dl, hdl, hl⟩ := Matrix.pullback_zipWith (o := "func") (p := "func backward")
    (f := fun x t => f.derivative x * t) (h := fun g x => g * f.derivative x) hgl
    fun u x t => by ring
  refine ⟨[(l, .whole dl)], ?_, transposed_one rfl hg hl.shape hl fun _ _ => rfl⟩
  simp only [pushes, hdl, ok_bind]
  rfl

theorem transposes_max (hv : (max l r : Op K).value own mask val = .ok v)
    (hg : grad.shape = v.shape) :
    ∃ ps, (max l r : Op K).pushes v mask grad val = .ok ps ∧
      (max l r : Op K).Transposed mask v grad val ps := by
  have hshape : (val l).shape = (val r).shape := Matrix.shape_eq_of_zipWith hv
  have hgl : grad.shape = (val l).shape := hg.trans (Matrix.shape_of_zipWith hv)
  obtain ⟨m, hmask, hms⟩ : ∃ m : Matrix E,
      (∀ o, (val r).zipWith o Arith.ltMask (val l) = .ok m) ∧ m.shape = (val r).shape :=
    ⟨_, fun _ => Matrix.zipWith_eq hshape.symm, rfl⟩
  have hgm : grad.shape = m.shape := hgl.trans (hshape.trans hms.symm)
  obtain ⟨dl, hdl, hl⟩ := Matrix.pullback_zipWith (o := "max") (p := "max backward")
    (f := (· * ·)) (h := (· * ·)) hgm fun u m t => by ring
  obtain ⟨dr, hdr, hr⟩ := Matrix.pullback_zipWith (o := "max") (p := "max backward")
    (f := fun m t => (1 - m) * t) (h := fun g m => g * (1 - m)) hgm fun u m t => by ring
  rw [hms] at hl hr
  refine ⟨[(l, .whole dl), (r, .whole dr)], ?_, transposed_pair rfl hg (hshape ▸ hl) hr
    fun _ _ _ _ => ?_⟩
  · simp only [pushes, hmask, hdl, hdr, ok_bind]
    rfl
  · rw [tangent, hmask, ok_bind]

theorem transposes_dropout {rate : K} (hv : (dropout rate l : Op K).value own mask val = .ok v)
    (hg : grad.shape = v.shape) :
    ∃ ps, (dropout rate l : Op K).pushes v mask grad val = .ok ps ∧
      (dropout rate l : Op K).Transposed mask v grad val ps := by
  have hshape : (val l).shape = mask.shape := Matrix.shape_eq_of_zipWith hv
  have hgl : grad.shape = (val l).shape := hg.trans (Matrix.shape_of_zipWith hv)
  obtain ⟨dl, hdl, hl⟩ := Matrix.pullback_zipWith (o := "dropout") (p := "dropout backward")
    (f := (· * ·)) (h := (· * ·)) (hgl.trans hshape) fun u m t => by ring
  rw [← hshape] at hl
  refine ⟨[(l, .whole dl)], ?_, transposed_one rfl hg hl.shape hl fun _ _ => rfl⟩
  simp only [pushes, hdl, ok_bind]
  rfl

theorem transposes_sum (hv : (sum l : Op K).value own mask val = .ok v)
    (hg : grad.shape = v.shape) :
    ∃ ps, (sum l : Op K).pushes v mask grad val = .ok ps ∧
      (sum l : Op K).Transposed mask v grad val ps := by
  have hgs : grad.shape = (1, 1) := hg.trans (congrArg Matrix.shape (Except.ok.inj hv).symm)
  obtain ⟨e, rfl⟩ : ∃ e, grad = .scalar e := ⟨_, Matrix.eq_scalar_of_shape hgs⟩
  exact ⟨_, rfl, transposed_one rfl hg trivial (Matrix.pullback_sum e _) fun _ _ => rfl⟩

theorem transposes_slice {rect : Rect} (hv : (slice rect l : Op K).value own mask val = .ok v)
    (hg : grad.shape = v.shape) :
    ∃ ps, (slice rect l : Op K).pushes v mask grad val = .ok ps ∧
      (slice rect l : Op K).Transposed mask v grad val ps := by
  obtain ⟨hrect, hvs⟩ := Matrix.shape_of_block hv
  obtain ⟨hrows, hcols⟩ := Prod.mk.inj (hg.trans hvs)
  have hself : Rect.mk rect.row rect.col grad.rows grad.cols = rect := by rw [hrows, hcols]
  have hsize : grad.size = rect.shape.area :=
    grad.size_eq_area.trans (congrArg Shape.area (hg.trans hvs))
  have hl : Matrix.Pullback (·.block rect) (val l).shape grad
      ((Push.block rect.row rect.col grad).terms (val l).shape) := by
    rw [Push.terms, hself, hcols, hsize]
    exact Matrix.pullback_block hrect (hg.trans hvs)
  have hfits : (Push.block rect.row rect.col grad).Fits (val l).shape := by
    rw [Push.Fits, hself]
    exact hrect
  exact ⟨_, rfl, transposed_one rfl hg hfits hl fun _ _ => rfl⟩

theorem transposes_div (hv : (div l r : Op K).value own mask val = .ok v)
    (hg : grad.shape = v.shape) :
    ∃ ps, (div l r : Op K).pushes v mask grad val = .ok ps ∧
      (div l r : Op K).Transposed mask v grad val ps := by
  by_cases hs : (val r).isScalar = true
  · obtain ⟨d, hd⟩ : ∃ d, val r = .scalar d := ⟨_, Matrix.eq_scalar hs⟩
    have hgl : grad.shape = (val l).shape := by
      rw [hg, ← Except.ok.inj ((if_pos hs).symm.trans hv)]
      rfl
    obtain ⟨terms, hterms⟩ : ∃ terms, grad.zipWith "div backward" (fun g x => -g * x) (val l) =
        .ok terms := ⟨_, Matrix.zipWith_eq hgl⟩
    have hl : Matrix.Pullback (fun x => .ok (x.map (· / d))) (val l).shape grad
        (grad.map (· / d)) := Matrix.pullback_map hgl fun u y => by ring
    have hr := Matrix.pullback_divisor (d := d) hgl hterms
    have hshape : (val r).shape = (1, 1) := by rw [hd]; rfl
    refine ⟨[(l, .whole (grad.map (· / d))), (r, .whole (.scalar (terms.sum / (d * d))))], ?_,
      transposed_pair rfl hg hl (hshape ▸ hr) fun own tan htl htr => ?_⟩
    · simp only [pushes, hd, Matrix.toScalar_scalar, hterms, ok_bind]
      rfl
    · have htan : (tan r).toScalar = .ok ((tan r).entry 0 0) := by
        conv_lhs => rw [Matrix.eq_scalar_of_shape (htr.trans hshape)]
        rfl
      obtain ⟨hrows, hcols⟩ := Prod.mk.inj htl
      simp only [tangent, hd, Matrix.toScalar_scalar, htan, ok_bind]
      rw [Matrix.zipWith_eq htl, Matrix.map_eq, Matrix.map_eq, hrows, hcols]
      refine Eq.trans ?_ (Matrix.add_ofFn (.ofFn (val l).rows (val l).cols _) _).symm
      refine congrArg Except.ok (Matrix.ofFn_congr fun i hi j hj => ?_)
      rw [Matrix.entry_ofFn hi hj]
      ring
  · rw [value, if_neg hs] at hv
    cases hv

/-- The parts of a flattening, from a position on. -/
theorem paired_stretches {tan : Node → Matrix E} {members : List Node}
    (h : ∀ c ∈ members, (tan c).shape = (val c).shape) (start : Nat) :
    Push.paired val tan (stretches val grad start members) =
      ∑ k ∈ range ((members.map tan).flatMap Matrix.byColumns).length,
        grad.data.getD (start + k) 0 * ((members.map tan).flatMap Matrix.byColumns).getD k 0 := by
  induction members generalizing start with
  | nil => simp [Push.paired, stretches]
  | cons l ls ih =>
    have hl := h l List.mem_cons_self
    have hlength : (tan l).byColumns.length = (val l).size := by
      rw [Matrix.length_byColumns, Matrix.size_eq_area, hl, Matrix.size_eq_area]
    have hfirst := Matrix.pairing_stretch hl (fun k => grad.data.getD k 0) start
    have hrange : (val l).shape.1 * (val l).shape.2 = (tan l).byColumns.length :=
      hlength.trans (val l).size_data |>.symm
    rw [hrange] at hfirst
    rw [List.map_cons, List.flatMap_cons, Matrix.sum_append fun k => grad.data.getD (start + k) 0,
      ← hfirst, hlength]
    have hrest := ih (fun c hc => h c (List.mem_cons_of_mem _ hc)) (start + (val l).size)
    simp only [Nat.add_assoc] at hrest
    rw [← hrest]
    rfl

theorem transposes_flatten {members : List Node}
    (hv : (flatten members : Op K).value own mask val = .ok v) (hg : grad.shape = v.shape) :
    (flatten members : Op K).Transposed mask v grad val (stretches val grad 0 members) := by
  have hlength : ∀ tan : Node → Matrix E, (∀ c ∈ members, (tan c).shape = (val c).shape) →
      ((members.map tan).flatMap Matrix.byColumns).length =
        (members.map fun c => (val c).size).sum := by
    intro tan htan
    rw [List.length_flatMap, List.map_map]
    refine congrArg List.sum (List.map_congr_left fun c hc => ?_)
    rw [Function.comp_apply, Matrix.length_byColumns, Matrix.size_eq_area, htan c hc,
      Matrix.size_eq_area]
  have hvs : v.shape = ((members.map fun c => (val c).size).sum, 1) := by
    rw [← Except.ok.inj hv, ← hlength val fun _ _ => rfl]
    rfl
  refine ⟨fits_stretches ?_, fun own tan htan => ⟨_, rfl, ?_, ?_⟩⟩
  · obtain ⟨hrows, hcols⟩ := Prod.mk.inj (hg.trans hvs)
    rw [Matrix.size, grad.size_data, hrows, hcols]
    omega
  · rw [hvs, ← hlength tan htan]
    rfl
  · have hmembers : ∀ c ∈ members, (tan c).shape = (val c).shape := htan
    have hpaired : Push.paired val tan (stretches val grad 0 members) = _ :=
      paired_stretches hmembers 0
    simp only [Nat.zero_add] at hpaired
    rw [hpaired, Matrix.flatten, Matrix.pairing_column]
    rw [hg, hvs, hlength tan htan]

/-- **The contributions of a vertex are the transpose of its tangent.** -/
theorem transposes (hk : op.kind ∈ Kind.tangible) (hp : op.isParameter = false)
    (hv : op.value own mask val = .ok v) (hg : grad.shape = v.shape) :
    ∃ ps, op.pushes v mask grad val = .ok ps ∧ op.Transposed mask v grad val ps := by
  cases op with
  | parameter => cases hp
  | add l r => exact transposes_add hv hg
  | mul l r => exact transposes_mul hv hg
  | div l r => exact transposes_div hv hg
  | neg l => exact transposes_neg hv hg
  | dot l r => exact transposes_dot hv hg
  | func f l => exact transposes_func hv hg
  | max l r => exact transposes_max hv hg
  | sum l => exact transposes_sum hv hg
  | slice rect l => exact transposes_slice hv hg
  | flatten members => exact ⟨_, rfl, transposes_flatten hv hg⟩
  | dropout rate l => exact transposes_dropout hv hg
  | convolution | maxPool | logSoftmax => simp [kind, Kind.tangible] at hk

end Op

end DiffGraph
