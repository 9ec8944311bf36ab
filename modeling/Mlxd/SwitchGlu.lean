import Mlxd.Lib.Tensor

/-!
# Expert dispatch

The gated projections of the experts that the router chose. With many pairs of a position and an
expert the pairs are sorted by expert first, so that the gathered products run over each expert
once, and the results go back by the inverse order.
-/
namespace Mlxd.SwitchGlu

open Mlxd.Lib

/-- A stack of expert matrices; the quantised ones are stored transposed. -/
structure WeightTriplet (R : Type) where
  quantized : Bool
  inDim : Nat
  outDim : Nat
  weight : Nat → Nat → Nat → R

inductive HiddenAct where
  | silu | geluApprox
  deriving DecidableEq, Repr

/-- Functions and constants of the element type. -/
structure Scalars (R : Type) where
  bf16 : R → R
  sigmoid : R → R
  tanh : R → R
  sqrt2OverPi : R
  coeff : R
  half : R

section Dispatch

variable {R : Type} [Semiring R]

/-- The matrix of an expert, from inputs to outputs. -/
def WeightTriplet.matrix (tri : WeightTriplet R) (e i o : Nat) : R :=
  if tri.quantized then tri.weight e o i else tri.weight e i o

/-- The indices ascend, as the sorted kernel expects. -/
def Ascending (inds : Tensor Nat) : Prop := ∀ j < inds.size, ∀ i ≤ j, inds.data i ≤ inds.data j

instance (inds : Tensor Nat) : Decidable (Ascending inds) :=
  inferInstanceAs (Decidable (∀ j < inds.size, ∀ i ≤ j, inds.data i ≤ inds.data j))

/-- The rows of `x` times the gathered experts. Only the quantised product is told that the indices
are sorted, and it is not defined when they are not. -/
def fwdGatherExpertLinear (s : Scalars R) (x : Tensor R) (inds : Tensor Nat)
    (tri : WeightTriplet R) (sorted : Bool) : Option (Tensor R) :=
  if tri.quantized ∧ sorted ∧ ¬ Ascending inds then none
  else (x.gatherMm inds tri.matrix tri.inDim tri.outDim).map fun result => result.map s.bf16

def fwdGeluApprox (s : Scalars R) (x : R) : R :=
  let g3 := x * x * x
  let scaled := s.sqrt2OverPi * (x + s.coeff * g3)
  s.half * x * (1 + s.tanh scaled)

/-- The activation of a gate. -/
def activate (s : Scalars R) (act : HiddenAct) (gate : R) : R :=
  match act with
  | .geluApprox => fwdGeluApprox s gate
  | .silu => gate * s.sigmoid gate

def fwdExpertAct (s : Scalars R) (act : HiddenAct) (gate up : Tensor R) : Option (Tensor R) :=
  (gate.map (activate s act)).zipWith (· * ·) up

/-- The three projections, as both paths make them. -/
def switchExperts (s : Scalars R) (act : HiddenAct) (x : Tensor R) (inds : Tensor Nat)
    (gate up down : WeightTriplet R) (sorted : Bool) : Option (Tensor R) := do
  let gateG ← fwdGatherExpertLinear s x inds gate sorted
  let upG ← fwdGatherExpertLinear s x inds up sorted
  let gateOut ← gateG.squeezeAxis 2
  let upOut ← upG.squeezeAxis 2
  let activated ← fwdExpertAct s act gateOut upOut
  let actExp ← activated.expandDims 2
  let downG ← fwdGatherExpertLinear s actExp inds down sorted
  downG.squeezeAxis 2

/-- The path through the sorted pairs. Their number `B * S * K` is an `int` in the source, so it
stands for the code while the number is below `2 ^ 31`. -/
def sortedPath (argsort : (Nat → Nat) → Nat → Nat → Nat) (s : Scalars R) (act : HiddenAct)
    (x : Tensor R) (inds : Tensor Nat) (gate up down : WeightTriplet R) (B S H K : Nat) :
    Option (Tensor R) := do
  let totalInds := B * S * K
  let flatInds ← inds.reshape [totalInds]
  let order : Tensor Nat := ⟨[totalInds], argsort flatInds.data totalInds⟩
  let invOrder : Tensor Nat := ⟨[totalInds], argsort order.data totalInds⟩
  let sortedInds ← flatInds.take order
  let lhsIdx := order.map (· / K)
  let xFlat ← x.reshape [B * S, H]
  let xGathered ← xFlat.take lhsIdx
  let xRep ← xGathered.reshape [totalInds, 1, H]
  let downSqueezed ← switchExperts s act xRep sortedInds gate up down true
  let downUnsorted ← downSqueezed.take invOrder
  downUnsorted.reshape [B, S, K, downUnsorted.dim 1]

/-- The path that gathers the experts where they stand. -/
def directPath (s : Scalars R) (act : HiddenAct) (x : Tensor R) (inds : Tensor Nat)
    (gate up down : WeightTriplet R) (B S H : Nat) : Option (Tensor R) := do
  let xExp ← x.reshape [B, S, 1, 1, H]
  switchExperts s act xExp inds gate up down false

/-- The pairs are sorted with several positions or many indices. -/
def doSort (B S K : Nat) : Prop := 1 < S ∨ 64 ≤ B * S * K

instance (B S K : Nat) : Decidable (doSort B S K) := inferInstanceAs (Decidable (_ ∨ _))

def fwdSwitchGlu (argsort : (Nat → Nat) → Nat → Nat → Nat) (s : Scalars R) (act : HiddenAct)
    (x : Tensor R) (inds : Tensor Nat) (gate up down : Option (WeightTriplet R)) :
    Option (Tensor R) := do
  let gate ← gate
  let up ← up
  let down ← down
  match x.shape, inds.shape with
  | [B, S, H], [bInds, sInds, K] =>
    if bInds = B ∧ sInds = S ∧ 1 ≤ K then
      if doSort B S K then sortedPath argsort s act x inds gate up down B S H K
      else directPath s act x inds gate up down B S H
    else none
  | _, _ => none

/-! ## One expert -/

/-- The row `x` times a matrix. -/
def linear (s : Scalars R) (tri : WeightTriplet R) (e : Nat) (x : Nat → R) (o : Nat) : R :=
  s.bf16 ((List.range tri.inDim).map fun i => x i * tri.matrix e i o).sum

/-- An expert applied to a row. -/
def expert (s : Scalars R) (act : HiddenAct) (gate up down : WeightTriplet R) (e : Nat)
    (x : Nat → R) (o : Nat) : R :=
  linear s down e (fun i => activate s act (linear s gate e x i) * linear s up e x i) o

/-- The projections fit each other and rows of `H` entries. -/
structure Fits (gate up down : WeightTriplet R) (H : Nat) : Prop where
  gateIn : gate.inDim = H
  upIn : up.inDim = H
  gateDown : gate.outDim = down.inDim
  upDown : up.outDim = down.inDim

/-- Every output row is that of its index's expert applied to its position's row. -/
def Dispatched (s : Scalars R) (act : HiddenAct) (x : Tensor R) (inds : Tensor Nat)
    (gate up down : WeightTriplet R) (B S K : Nat) (out : Tensor R) : Prop :=
  out.shape = [B, S, K, down.outDim] ∧
    ∀ b < B, ∀ p < S, ∀ k < K, ∀ o < down.outDim, out.entry [b, p, k, o] =
      expert s act gate up down (inds.entry [b, p, k]) (fun h => x.entry [b, p, h]) o

variable {s : Scalars R} {act : HiddenAct} {gate up down : WeightTriplet R}

/-! ## The projections -/

theorem gather_rows {x : Tensor R} {inds : Tensor Nat} {tri : WeightTriplet R} {sorted : Bool}
    {batch : List Nat} (hx : x.shape = batch ++ [1, tri.inDim])
    (hshape : Tensor.broadcast batch inds.shape = some inds.shape)
    (hsorted : sorted = true → Ascending inds) :
    ∃ out, fwdGatherExpertLinear s x inds tri sorted = some out ∧
      out.shape = inds.shape ++ [1, tri.outDim] ∧
      ∀ j < inds.size, ∀ o < tri.outDim, out.data (j * tri.outDim + o) =
        linear s tri (inds.data j)
          (fun i => x.data (Tensor.stretched batch inds.shape j * tri.inDim + i)) o := by
  have hdefined : ¬ (tri.quantized = true ∧ sorted = true ∧ ¬ Ascending inds) := by
    rintro ⟨-, hs, hnot⟩
    exact hnot (hsorted hs)
  obtain ⟨product, hproduct, hpshape, hrows⟩ :=
    @Tensor.gatherMm_rows R _ x inds tri.matrix batch inds.shape tri.inDim tri.outDim hx hshape
  refine ⟨product.map s.bf16, ?_, hpshape, fun j hj o ho => ?_⟩
  · rw [fwdGatherExpertLinear, if_neg hdefined, hproduct, Option.map_some]
  · change s.bf16 (product.data _) = _
    rw [hrows j o ho, Tensor.stretched_self hj]
    rfl

/-- Both paths apply each index's expert to the row that broadcasting gives it. -/
theorem experts_rows {x : Tensor R} {inds : Tensor Nat} {sorted : Bool} {batch : List Nat} {H : Nat}
    (hfits : Fits gate up down H) (hx : x.shape = batch ++ [1, H])
    (hshape : Tensor.broadcast batch inds.shape = some inds.shape)
    (hsorted : sorted = true → Ascending inds) :
    ∃ out, switchExperts s act x inds gate up down sorted = some out ∧
      out.shape = inds.shape ++ [down.outDim] ∧
      ∀ j < inds.size, ∀ o < down.outDim, out.data (j * down.outDim + o) =
        expert s act gate up down (inds.data j)
          (fun h => x.data (Tensor.stretched batch inds.shape j * H + h)) o := by
  obtain ⟨hgate, hup, hgd, hud⟩ := hfits
  obtain ⟨gateG, hgateG, hgshape, hgrows⟩ :=
    @gather_rows R _ s x inds gate sorted batch (by rw [hgate]; exact hx) hshape hsorted
  obtain ⟨upG, hupG, hushape, hurows⟩ :=
    @gather_rows R _ s x inds up sorted batch (by rw [hup]; exact hx) hshape hsorted
  have hgsq := Tensor.squeezeAxis_rows hgshape
  have husq := Tensor.squeezeAxis_rows hushape
  rw [hgd] at hgsq hgrows
  rw [hud] at husq hurows
  obtain ⟨activated, hact, hashape, harows⟩ := @Tensor.zipWith_same R R R (· * ·)
    (Tensor.map (activate s act) ⟨inds.shape ++ [down.inDim], gateG.data⟩)
    ⟨inds.shape ++ [down.inDim], upG.data⟩ rfl
  obtain ⟨downG, hdownG, hdshape, hdrows⟩ :=
    @gather_rows R _ s ⟨inds.shape ++ [1, down.inDim], activated.data⟩ inds down sorted inds.shape
      rfl (Tensor.broadcast_self _) hsorted
  refine ⟨⟨inds.shape ++ [down.outDim], downG.data⟩, ?_, rfl, ?_⟩
  · simp only [switchExperts, hgateG, hupG, hgsq, husq, fwdExpertAct, hact, Option.bind_eq_bind,
      Option.bind_some, Tensor.expandDims_rows hashape, hdownG, Tensor.squeezeAxis_rows hdshape]
  · intro j hj o ho
    rw [hdrows j hj o ho, Tensor.stretched_self hj, expert, linear, linear]
    congr 2
    apply List.map_congr_left
    intro i hi
    rw [List.mem_range] at hi
    have hpos : j * down.inDim + i < (inds.shape ++ [down.inDim]).prod := by
      rw [List.prod_append, List.prod_singleton]
      exact Tensor.row_lt hj hi
    have hentry := harows _ hpos
    simp only [Tensor.map] at hentry
    rw [hentry, hgrows j hj i hi, hurows j hj i hi, hgate, hup]

/-! ## The two paths -/

variable {x : Tensor R} {inds : Tensor Nat} {B S H K : Nat}

omit [Semiring R] in
theorem entry_row (hx : x.shape = [B, S, H]) (b p h : Nat) :
    x.entry [b, p, h] = x.data ((b * S + p) * H + h) := by
  rw [Tensor.entry, hx]
  simp only [Tensor.offset, List.prod_cons, List.prod_nil]
  ring_nf

omit [Semiring R] in
theorem entry_out {out : Tensor R} {D : Nat} (hout : out.shape = [B, S, K, D]) (b p k o : Nat) :
    out.entry [b, p, k, o] = out.data (((b * S + p) * K + k) * D + o) := by
  rw [Tensor.entry, hout]
  simp only [Tensor.offset, List.prod_cons, List.prod_nil]
  ring_nf

theorem entry_ind (hinds : inds.shape = [B, S, K]) (b p k : Nat) :
    inds.entry [b, p, k] = inds.data ((b * S + p) * K + k) := by
  rw [Tensor.entry, hinds]
  simp only [Tensor.offset, List.prod_cons, List.prod_nil]
  ring_nf

/-- An expert reads the first `H` entries of its row. -/
theorem expert_congr (hfits : Fits gate up down H) {row row' : Nat → R}
    (hrow : ∀ h < H, row h = row' h) {e o : Nat} :
    expert s act gate up down e row o = expert s act gate up down e row' o := by
  have hlinear : ∀ tri : WeightTriplet R, tri.inDim = H → ∀ i,
      linear s tri e row i = linear s tri e row' i := by
    intro tri hin i
    rw [linear, linear]
    congr 2
    apply List.map_congr_left
    intro h hh
    rw [List.mem_range, hin] at hh
    rw [hrow h hh]
  rw [expert, expert]
  simp only [hlinear gate hfits.gateIn, hlinear up hfits.upIn]

/-- An output whose rows are those of the flattened pairs is the dispatched one. -/
theorem dispatched_of_rows {out : Tensor R} (hx : x.shape = [B, S, H]) (hinds : inds.shape = [B, S, K])
    (hout : out.shape = [B, S, K, down.outDim])
    (hrows : ∀ j < B * S * K, ∀ o < down.outDim, out.data (j * down.outDim + o) =
      expert s act gate up down (inds.data j) (fun h => x.data (j / K * H + h)) o) :
    Dispatched s act x inds gate up down B S K out := by
  refine ⟨hout, fun b hb p hp k hk o ho => ?_⟩
  have hj : (b * S + p) * K + k < B * S * K := Tensor.row_lt (Tensor.row_lt hb hp) hk
  rw [entry_out hout, entry_ind hinds, hrows _ hj o ho, Tensor.div_row hk]
  simp only [entry_row hx]

/-- The path that gathers the experts where they stand. -/
theorem direct_dispatched (hfits : Fits gate up down H) (hx : x.shape = [B, S, H])
    (hinds : inds.shape = [B, S, K]) :
    ∃ out, directPath s act x inds gate up down B S H = some out ∧
      Dispatched s act x inds gate up down B S K out := by
  have hreshape : x.reshape [B, S, 1, 1, H] = some ⟨[B, S, 1, 1, H], x.data⟩ := by
    rw [Tensor.reshape, if_pos]
    simp [Tensor.size, hx]
  have hbroadcast : Tensor.broadcast [B, S, 1] inds.shape = some inds.shape := by
    rw [hinds]
    exact Tensor.broadcast_last [B, S] K
  obtain ⟨out, hout, hshape, hrows⟩ := @experts_rows R _ s act gate up down ⟨[B, S, 1, 1, H], x.data⟩
    inds false [B, S, 1] H hfits rfl hbroadcast (by simp)
  have hsize : inds.size = B * S * K := by
    simp only [Tensor.size, hinds, List.prod_cons, List.prod_nil]
    ring
  refine ⟨out, ?_, dispatched_of_rows hx hinds (by rw [hshape, hinds]; rfl) fun j hj o ho => ?_⟩
  · simp only [directPath, hreshape, Option.bind_eq_bind, Option.bind_some, hout]
  · have hpos : j < ([B, S] ++ [K]).prod := by
      rw [← hsize, Tensor.size, hinds] at hj
      exact hj
    rw [hrows j (hsize ▸ hj) o ho, hinds]
    have hst : Tensor.stretched [B, S, 1] [B, S, K] j = j / K := Tensor.stretched_last hpos
    rw [hst]

/-- The indices in their sorted order. -/
theorem sorted_inds {data order : Nat → Nat} {n : Nat} (horder : Argsort data n order) :
    ∃ sortedInds, Tensor.take ⟨[n], data⟩ ⟨[n], order⟩ = some sortedInds ∧
      sortedInds.shape = [n] ∧ (∀ j, sortedInds.data j = data (order j)) ∧
      Ascending sortedInds := by
  have hsize : Tensor.size ⟨[n], order⟩ = n := Nat.mul_one n
  obtain ⟨sortedInds, htake, hshape, hrows⟩ := @Tensor.take_rows Nat ⟨[n], data⟩ n [] rfl
    ⟨[n], order⟩ (fun i hi => horder.lt i (hsize ▸ hi))
  have hkey : ∀ j, sortedInds.data j = data (order j) := by
    intro j
    have hrow := hrows j 0 (by simp)
    simpa using hrow
  refine ⟨sortedInds, htake, hshape, hkey, fun j hj i hij => ?_⟩
  rw [Tensor.size, hshape] at hj
  rw [hkey, hkey]
  exact horder.mono i j hij (by simpa using hj)

omit [Semiring R] in
/-- Each sorted pair with the row of its position. -/
theorem sorted_rows (data : Nat → R) (H : Nat) {keys order : Nat → Nat}
    (horder : Argsort keys (B * S * K) order) :
    ∃ rows, Tensor.take ⟨[B * S, H], data⟩ (Tensor.map (· / K) ⟨[B * S * K], order⟩) = some rows ∧
      rows.shape = [B * S * K, H] ∧
      ∀ j, ∀ h < H, rows.data (j * H + h) = data (order j / K * H + h) := by
  have hsize : Tensor.size ⟨[B * S * K], order⟩ = B * S * K := Nat.mul_one _
  have hpair : ∀ i < B * S * K, order i / K < B * S := fun i hi =>
    Nat.div_lt_of_lt_mul (by rw [Nat.mul_comm]; exact horder.lt i hi)
  obtain ⟨rows, htake, hshape, hrows⟩ := @Tensor.take_rows R ⟨[B * S, H], data⟩ (B * S) [H]
    rfl (Tensor.map (· / K) ⟨[B * S * K], order⟩) (fun i hi => hpair i (hsize ▸ hi))
  refine ⟨rows, htake, hshape, fun j h hh => ?_⟩
  have hrow := hrows j h (by simpa using hh)
  simpa only [List.prod_singleton, Tensor.map] using hrow

/-- The path through the sorted pairs: the inverse order undoes the sort. -/
theorem sorted_dispatched {argsort : (Nat → Nat) → Nat → Nat → Nat}
    (hsort : ∀ keys n, Argsort keys n (argsort keys n)) (hfits : Fits gate up down H)
    (hx : x.shape = [B, S, H]) (hinds : inds.shape = [B, S, K]) :
    ∃ out, sortedPath argsort s act x inds gate up down B S H K = some out ∧
      Dispatched s act x inds gate up down B S K out := by
  let n := B * S * K
  let order := argsort inds.data n
  let inv := argsort order n
  have horder : Argsort inds.data n order := hsort inds.data n
  have hinv : Argsort order n inv := hsort order n
  have hn : ∀ α, ∀ data : Nat → α, Tensor.size ⟨[n], data⟩ = n := fun _ _ => Nat.mul_one n
  have hflat : inds.reshape [n] = some ⟨[n], inds.data⟩ := by
    rw [Tensor.reshape, if_pos]
    simp only [Tensor.size, hinds, List.prod_cons, List.prod_nil, n]
    ring
  have hxflat : x.reshape [B * S, H] = some ⟨[B * S, H], x.data⟩ := by
    rw [Tensor.reshape, if_pos]
    simp only [Tensor.size, hx, List.prod_cons, List.prod_nil]
    ring
  obtain ⟨sortedInds, hsinds, hsshape, hskey, hsorted⟩ := sorted_inds horder
  obtain ⟨xGathered, hxg, hxgshape, hxgrows⟩ := sorted_rows x.data H horder
  change Tensor.take _ (Tensor.map _ ⟨[n], order⟩) = _ at hxg
  have hxrep : xGathered.reshape [n, 1, H] = some ⟨[n, 1, H], xGathered.data⟩ := by
    rw [Tensor.reshape, if_pos]
    simp [Tensor.size, hxgshape, n]
  obtain ⟨experts, hexperts, heshape, herows⟩ := @experts_rows R _ s act gate up down
    ⟨[n, 1, H], xGathered.data⟩ sortedInds true [n] H hfits rfl
    (by rw [hsshape]; exact Tensor.broadcast_self _) (fun _ => hsorted)
  rw [hsshape] at heshape
  obtain ⟨back, hback, hbshape, hbrows⟩ := @Tensor.take_rows R experts n [down.outDim] heshape
    ⟨[n], inv⟩ (fun i hi => hinv.lt i (hn _ inv ▸ hi))
  have hdim : back.dim 1 = down.outDim := by simp [Tensor.dim, hbshape]
  have hout : back.reshape [B, S, K, down.outDim] = some ⟨[B, S, K, down.outDim], back.data⟩ := by
    rw [Tensor.reshape, if_pos]
    simp only [Tensor.size, hbshape, List.prod_cons, List.prod_nil, List.cons_append,
      List.nil_append, n]
    ring
  refine ⟨⟨[B, S, K, down.outDim], back.data⟩, ?_, dispatched_of_rows hx hinds rfl fun j hj o ho => ?_⟩
  · have htotal : B * S * K = n := rfl
    have hfirst : argsort inds.data n = order := rfl
    have hsecond : argsort order n = inv := rfl
    simp only [sortedPath, Option.bind_eq_bind, Option.bind_some, htotal, hflat, hfirst, hsecond,
      hsinds, hxflat, hxg, hxrep, hexperts, hback, hdim, hout]
  · have hjn : j < n := hj
    have hinvj := hinv.lt j hjn
    have hsize : sortedInds.size = n := by simp [Tensor.size, hsshape]
    have hrow := hbrows j o (by simpa using ho)
    simp only [List.prod_singleton] at hrow
    have hgather : ∀ h < H, xGathered.data
        (Tensor.stretched [n] sortedInds.shape (inv j) * H + h) = x.data (j / K * H + h) := by
      intro h hh
      have hst : Tensor.stretched [n] sortedInds.shape (inv j) = inv j := by
        rw [hsshape]
        exact Tensor.stretched_self (by simpa using hinvj)
      rw [hst, hxgrows (inv j) h hh, horder.inverse hinv j hjn]
    rw [hrow, herows (inv j) (hsize ▸ hinvj) o ho, hskey, horder.inverse hinv j hjn]
    exact expert_congr hfits hgather

/-! ## The dispatch -/

/-- Both paths, and so the dispatch on either side of the threshold, apply to every position the
experts of its indices. -/
theorem switch_glu_dispatches {argsort : (Nat → Nat) → Nat → Nat → Nat}
    (hsort : ∀ keys n, Argsort keys n (argsort keys n)) (s : Scalars R) (act : HiddenAct)
    (hfits : Fits gate up down H) (hx : x.shape = [B, S, H]) (hinds : inds.shape = [B, S, K])
    (hK : 1 ≤ K) :
    ∃ viaSort direct, sortedPath argsort s act x inds gate up down B S H K = some viaSort ∧
      directPath s act x inds gate up down B S H = some direct ∧
      Dispatched s act x inds gate up down B S K viaSort ∧
      Dispatched s act x inds gate up down B S K direct ∧
      fwdSwitchGlu argsort s act x inds (some gate) (some up) (some down) =
        some (if doSort B S K then viaSort else direct) := by
  obtain ⟨viaSort, hsortRun, hsorted⟩ := sorted_dispatched hsort hfits hx hinds
  obtain ⟨direct, hdirectRun, hdirect⟩ := direct_dispatched hfits hx hinds
  refine ⟨viaSort, direct, hsortRun, hdirectRun, hsorted, hdirect, ?_⟩
  simp only [fwdSwitchGlu, hx, hinds, Option.bind_eq_bind, Option.bind_some, true_and, if_pos hK,
    hsortRun, hdirectRun]
  split <;> rfl

end Dispatch

/-! ## Two positions and two experts -/

def plainScalars : Scalars ℤ := ⟨id, fun _ => 1, id, 1, 1, 1⟩

/-- One entry for each expert. -/
def unitWeights : WeightTriplet ℤ := ⟨true, 1, 1, fun e _ _ => e + 1⟩

def twoPositions : Tensor ℤ := ⟨[1, 2, 1], fun i => i + 1⟩

/-- The first position goes to the second expert, the second to the first. -/
def crossed : Tensor Nat := ⟨[1, 2, 1], fun i => 1 - i⟩

theorem switch_glu_dispatches_crossed :
    ∃ out, fwdSwitchGlu stableOrder plainScalars .silu twoPositions crossed (some unitWeights)
        (some unitWeights) (some unitWeights) = some out ∧
      out.entry [0, 0, 0, 0] = 8 ∧ out.entry [0, 1, 0, 0] = 4 := by
  obtain ⟨viaSort, direct, -, -, hsorted, hdirect, hrun⟩ := switch_glu_dispatches stableOrder_argsort
    plainScalars .silu (⟨rfl, rfl, rfl, rfl⟩ : Fits unitWeights unitWeights unitWeights 1)
    (rfl : twoPositions.shape = [1, 2, 1]) (rfl : crossed.shape = [1, 2, 1]) (Nat.le_refl 1)
  rw [if_pos (by decide)] at hrun
  refine ⟨viaSort, hrun, ?_, ?_⟩
  · rw [hsorted.2 0 (by decide) 0 (by decide) 0 (by decide) 0 (by decide)]
    decide
  · rw [hsorted.2 0 (by decide) 1 (by decide) 0 (by decide) 0 (by decide)]
    decide

end Mlxd.SwitchGlu
