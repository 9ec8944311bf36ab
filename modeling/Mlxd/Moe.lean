import Mathlib.Algebra.Order.Field.Basic
import Mathlib.Algebra.BigOperators.Field
import Mathlib.Algebra.Order.BigOperators.Group.Finset
import Mathlib.Algebra.Order.BigOperators.Group.List
import Mathlib.Algebra.Field.Rat
import Mathlib.Algebra.Order.Ring.Rat
import Mathlib.Analysis.Complex.Exponential
import Mlxd.Lib.ArgPartition
import Mlxd.SwitchGlu

/-!
# The block of experts

Router, expert dispatch and the weighted sum in one block. For every position the block adds up the
experts with the greatest logits, each with its softmax weight, and the shared expert if there is
one; which order the partial sort leaves and which path the dispatch takes do not matter.
-/
namespace Mlxd.Moe

open Mlxd.Lib Mlxd.SwitchGlu

/-- A matrix of `outDim` rows. -/
structure Dense (R : Type) where
  inDim : Nat
  outDim : Nat
  weight : Nat → Nat → R

/-- The weights of a block; the shared expert and its gate are optional. -/
structure MoeWeights (R : Type) where
  router : Option (Dense R)
  switchGate : Option (WeightTriplet R)
  switchUp : Option (WeightTriplet R)
  switchDown : Option (WeightTriplet R)
  hasShared : Bool
  sharedGate : Option (Dense R)
  sharedUp : Option (Dense R)
  sharedDown : Option (Dense R)
  hasSharedExpertGate : Bool
  sharedExpertGate : Option (Dense R)

structure MoeParams where
  numExperts : Nat
  topK : Nat
  normTopkProb : Bool

/-- The two sorts of the array library: of all keys, and of a row around a position. -/
structure Sorting (R : Type) where
  argsort : (Nat → Nat) → Nat → Nat → Nat
  argpartition : Nat → (Nat → R) → Nat → Nat → List Nat

section Block

variable {R : Type} [Field R] (s : Scalars R) (act : HiddenAct)

def fwdLinear (x : Tensor R) (tri : Dense R) : Option (Tensor R) :=
  (x.matmulT tri.weight tri.inDim tri.outDim).map fun result => result.map s.bf16

/-! ## The router -/

def softmax (exp : R → R) (row : Nat → R) (n e : Nat) : R :=
  exp (row e) / ((List.range n).map fun i => exp (row i)).sum

/-- The experts of every row and their weights. -/
def fwdMoeRouteSoftmax (exp : R → R) (sorting : Sorting R) (routerLogits : Tensor R) (topK : Nat)
    (normTopkProb : Bool) : Option (Tensor Nat × Tensor R) :=
  let ndim := routerLogits.shape.length
  let E := routerLogits.dim (ndim - 1)
  if 1 ≤ topK ∧ 1 ≤ ndim ∧ topK ≤ E ∧ ndim ≤ 8 then
    let shape := routerLogits.shape.take (ndim - 1) ++ [topK]
    let inds : Tensor Nat := ⟨shape, fun i =>
      (sorting.argpartition (i / topK) (fun e => -routerLogits.row E (i / topK) e) E (topK - 1)).getD
        (i % topK) 0⟩
    let topW : Tensor R := ⟨shape, fun i =>
      softmax exp (routerLogits.row E (i / topK)) E (inds.data i)⟩
    let scores : Tensor R :=
      if normTopkProb then
        ⟨shape, fun i => topW.data i /
          ((List.range topK).map fun k => topW.data (i / topK * topK + k)).sum⟩
      else topW
    some (inds, scores)
  else none

/-! ## The sum -/

def fwdSwigluTriplets (x : Tensor R) (gateTri upTri downTri : Option (Dense R)) :
    Option (Tensor R) := do
  let gateTri ← gateTri
  let upTri ← upTri
  let downTri ← downTri
  let gate ← fwdLinear s x gateTri
  let up ← fwdLinear s x upTri
  let downIn ← (gate.map (activate s act)).zipWith (· * ·) up
  fwdLinear s downIn downTri

/-- A gate goes with a shared expert, and what is announced is there. -/
def fwdMoeValidateWeights (mw : MoeWeights R) : Bool :=
  !(mw.hasSharedExpertGate && !mw.hasShared) &&
    (!mw.hasShared || (mw.sharedGate.isSome && mw.sharedUp.isSome && mw.sharedDown.isSome &&
      (!mw.hasSharedExpertGate || mw.sharedExpertGate.isSome)))

def fwdMoeCombine (yExp scores x : Tensor R) (mw : MoeWeights R) : Option (Tensor R) :=
  if fwdMoeValidateWeights mw then do
    let scoresExp ← scores.expandDims 1
    let weighted ← yExp.zipWith (· * ·) scoresExp
    let routed ← weighted.sumRows
    if !mw.hasShared then return routed
    else
      let shared ← fwdSwigluTriplets s act x mw.sharedGate mw.sharedUp mw.sharedDown
      if mw.hasSharedExpertGate then
        let gateTri ← mw.sharedExpertGate
        let gateLogit ← fwdLinear s x gateTri
        let sharedGated ← (gateLogit.map s.sigmoid).zipWith (· * ·) shared
        routed.zipWith (· + ·) sharedGated
      else routed.zipWith (· + ·) shared
  else none

def fwdMoe (exp : R → R) (sorting : Sorting R) (x : Tensor R) (mw : MoeWeights R) (p : MoeParams) :
    Option (Tensor R) :=
  if 1 ≤ p.topK ∧ 1 ≤ p.numExperts ∧ p.topK ≤ p.numExperts ∧ mw.switchGate.isSome ∧
      mw.switchUp.isSome ∧ mw.switchDown.isSome ∧ fwdMoeValidateWeights mw then do
    let router ← mw.router
    let logits ← fwdLinear s x router
    if 1 ≤ logits.shape.length ∧ logits.dim (logits.shape.length - 1) = p.numExperts then
      let routed ← fwdMoeRouteSoftmax exp sorting logits p.topK p.normTopkProb
      let yExp ← fwdSwitchGlu sorting.argsort s act x routed.1 mw.switchGate mw.switchUp mw.switchDown
      fwdMoeCombine s act yExp routed.2 x mw
    else none
  else none

/-! ## One position -/

def denseRow (tri : Dense R) (row : Nat → R) (o : Nat) : R :=
  s.bf16 ((List.range tri.inDim).map fun c => row c * tri.weight o c).sum

/-- The shared expert on a row. -/
def sharedRow (gate up down : Dense R) (row : Nat → R) (o : Nat) : R :=
  denseRow s down (fun i => activate s act (denseRow s gate row i) * denseRow s up row i) o

/-- What the shared expert adds. -/
def sharedPart (mw : MoeWeights R) (row : Nat → R) (o : Nat) : R :=
  match mw.hasShared, mw.sharedGate, mw.sharedUp, mw.sharedDown with
  | true, some gate, some up, some down =>
    match mw.hasSharedExpertGate, mw.sharedExpertGate with
    | true, some gateTri => s.sigmoid (denseRow s gateTri row 0) * sharedRow s act gate up down row o
    | _, _ => sharedRow s act gate up down row o
  | _, _, _, _ => 0

variable {s act} {x : Tensor R} {batch : List Nat} {H : Nat}

theorem denseRow_congr {tri : Dense R} {row row' : Nat → R} (h : ∀ c < tri.inDim, row c = row' c)
    (o : Nat) : denseRow s tri row o = denseRow s tri row' o := by
  rw [denseRow, denseRow]
  congr 2
  apply List.map_congr_left
  intro c hc
  rw [h c (List.mem_range.mp hc)]

theorem fwdLinear_rows {tri : Dense R} (hx : x.shape = batch ++ [tri.inDim]) :
    ∃ out, fwdLinear s x tri = some out ∧ out.shape = batch ++ [tri.outDim] ∧
      ∀ j, ∀ o < tri.outDim, out.data (j * tri.outDim + o) = denseRow s tri (x.row tri.inDim j) o := by
  obtain ⟨out, hout, hshape, hrows⟩ := Tensor.matmulT_rows hx tri.weight tri.outDim
  refine ⟨out.map s.bf16, by rw [fwdLinear, hout, Option.map_some], hshape, fun j o ho => ?_⟩
  exact congrArg s.bf16 (hrows j o ho)

/-- The projections of a shared expert fit each other and rows of `H` entries. -/
structure DenseFits (gate up down : Dense R) (H : Nat) : Prop where
  gateIn : gate.inDim = H
  upIn : up.inDim = H
  gateDown : gate.outDim = down.inDim
  upDown : up.outDim = down.inDim

theorem swiglu_rows {gate up down : Dense R} (hfits : DenseFits gate up down H)
    (hx : x.shape = batch ++ [H]) :
    ∃ out, fwdSwigluTriplets s act x (some gate) (some up) (some down) = some out ∧
      out.shape = batch ++ [down.outDim] ∧ ∀ j < batch.prod, ∀ o < down.outDim,
        out.data (j * down.outDim + o) = sharedRow s act gate up down (x.row H j) o := by
  obtain ⟨rfl, hup, hgd, hud⟩ := hfits
  obtain ⟨g, hg, hgshape, hgrows⟩ := fwdLinear_rows (s := s) hx
  rw [← hup] at hx
  obtain ⟨u, hu, hushape, hurows⟩ := fwdLinear_rows (s := s) hx
  rw [hgd] at hgshape hgrows
  rw [hud] at hushape hurows
  obtain ⟨d, hd, hdshape, hdrows⟩ := Tensor.zipWith_same (· * ·)
    (a := g.map (activate s act)) (b := u) (hgshape.trans hushape.symm)
  obtain ⟨out, hout, hshape, hrows⟩ := fwdLinear_rows (s := s) (hdshape.trans hushape)
  refine ⟨out, ?_, hshape, fun j hj o ho => ?_⟩
  · simp only [fwdSwigluTriplets, Option.bind_eq_bind, Option.bind_some, hg, hu, hd, hout]
  · rw [hrows j o ho, sharedRow]
    apply denseRow_congr
    intro c hc
    have hpos : j * down.inDim + c < u.size := by
      rw [Tensor.size, hushape, List.prod_append, List.prod_singleton]
      exact Tensor.row_lt hj hc
    rw [Tensor.row, hdrows _ hpos, hurows j c hc, hup]
    exact congrArg (activate s act · * denseRow s up (x.row gate.inDim j) c) (hgrows j c hc)

/-! ## The experts of a position -/

/-- What the router chose at a position. -/
def chosen (sorting : Sorting R) (logits : Tensor R) (E K j : Nat) : List Nat :=
  sorting.argpartition j (fun e => -logits.row E j e) E (K - 1)

theorem route_rows (exp : R → R) (sorting : Sorting R) {logits : Tensor R} {E K : Nat}
    (hlogits : logits.shape = batch ++ [E]) (hrank : batch.length ≤ 7) (hK : 1 ≤ K) (hE : K ≤ E)
    (norm : Bool) :
    ∃ inds scores, fwdMoeRouteSoftmax exp sorting logits K norm = some (inds, scores) ∧
      inds.shape = batch ++ [K] ∧ scores.shape = batch ++ [K] ∧ ∀ j, ∀ k < K,
        inds.data (j * K + k) = (chosen sorting logits E K j).getD k 0 ∧
        scores.data (j * K + k) =
          let top := fun k => softmax exp (logits.row E j) E ((chosen sorting logits E K j).getD k 0)
          if norm then top k / ((List.range K).map top).sum else top k := by
  have hlen : logits.shape.length = batch.length + 1 := by simp [hlogits]
  have hdim : logits.dim (logits.shape.length - 1) = E := by simp [Tensor.dim, hlogits]
  have htake : logits.shape.take (logits.shape.length - 1) = batch := by
    rw [hlen, Nat.add_sub_cancel, hlogits, List.take_left]
  rw [fwdMoeRouteSoftmax]
  simp only [hdim, htake]
  rw [if_pos ⟨hK, by omega, hE, by omega⟩]
  refine ⟨_, _, rfl, rfl, ?_, fun j k hk => ⟨?_, ?_⟩⟩
  · cases norm <;> rfl
  · simp only [Tensor.div_row hk, Tensor.mod_row hk, chosen]
  · have htop : ∀ k' < K, softmax exp (logits.row E ((j * K + k') / K)) E
        ((sorting.argpartition ((j * K + k') / K) (fun e => -logits.row E ((j * K + k') / K) e) E
          (K - 1)).getD ((j * K + k') % K) 0) =
        softmax exp (logits.row E j) E ((chosen sorting logits E K j).getD k' 0) := by
      intro k' hk'
      simp only [Tensor.div_row hk', Tensor.mod_row hk', chosen]
    cases norm with
    | false => exact htop k hk
    | true =>
      simp only [↓reduceIte]
      rw [htop k hk, Tensor.div_row hk]
      congr 2
      apply List.map_congr_left
      intro k' hk'
      exact htop k' (List.mem_range.mp hk')

/-- The announced weights are there and fit rows of `H` entries and an output of `D`. -/
structure SharedFits (mw : MoeWeights R) (H D : Nat) : Prop where
  valid : fwdMoeValidateWeights mw = true
  shared : ∀ gate ∈ mw.sharedGate, ∀ up ∈ mw.sharedUp, ∀ down ∈ mw.sharedDown,
    DenseFits gate up down H ∧ down.outDim = D
  expertGate : ∀ tri ∈ mw.sharedExpertGate, tri.inDim = H ∧ tri.outDim = 1

theorem routed_rows {D K : Nat} {yExp scores : Tensor R} (hy : yExp.shape = batch ++ [K, D])
    (hscores : scores.shape = batch ++ [K]) :
    ∃ weighted routed, yExp.zipWith (· * ·) ⟨scores.shape ++ [1], scores.data⟩ = some weighted ∧
      weighted.sumRows = some routed ∧ routed.shape = batch ++ [D] ∧
      ∀ j < batch.prod, ∀ o < D, routed.data (j * D + o) =
        ((List.range K).map fun k => yExp.data ((j * K + k) * D + o) * scores.data (j * K + k)).sum := by
  have hyk : yExp.shape = (batch ++ [K]) ++ [D] := by rw [hy, List.append_assoc, List.cons_append, List.nil_append]
  obtain ⟨weighted, hweighted, hwshape, hwrows⟩ := Tensor.zipWith_column_right (· * ·) hyk
    (b := ⟨scores.shape ++ [1], scores.data⟩) (by rw [hscores])
  obtain ⟨routed, hrouted, hshape, hrows⟩ := Tensor.sumRows_rows (hwshape.trans (hyk.symm.trans hy))
  refine ⟨weighted, routed, hweighted, hrouted, hshape, fun j hj o ho => ?_⟩
  rw [hrows j o ho]
  congr 1
  apply List.map_congr_left
  intro k hk
  have hpair : j * K + k < (batch ++ [K]).prod := by
    rw [List.prod_append, List.prod_singleton]
    exact Tensor.row_lt hj (List.mem_range.mp hk)
  have hpos : (j * K + k) * D + o < ((batch ++ [K]) ++ [D]).prod := by
    rw [List.prod_append, List.prod_singleton]
    exact Tensor.row_lt hpair ho
  rw [hwrows _ hpos, Tensor.div_row ho]

theorem shared_rows {mw : MoeWeights R} {D : Nat} (hfits : SharedFits mw H D)
    (hshared : mw.hasShared = true) (hx : x.shape = batch ++ [H]) :
    ∃ shared, fwdSwigluTriplets s act x mw.sharedGate mw.sharedUp mw.sharedDown = some shared ∧
      shared.shape = batch ++ [D] ∧
      if mw.hasSharedExpertGate then
        ∃ tri ∈ mw.sharedExpertGate, ∃ gateLogit sharedGated, fwdLinear s x tri = some gateLogit ∧
          (gateLogit.map s.sigmoid).zipWith (· * ·) shared = some sharedGated ∧
          sharedGated.shape = batch ++ [D] ∧ ∀ j < batch.prod, ∀ o < D,
            sharedGated.data (j * D + o) = sharedPart s act mw (x.row H j) o
      else ∀ j < batch.prod, ∀ o < D,
        shared.data (j * D + o) = sharedPart s act mw (x.row H j) o := by
  obtain ⟨hvalid, hdense, hgate⟩ := hfits
  obtain ⟨router, switchGate, switchUp, switchDown, hasShared, sharedGate, sharedUp, sharedDown,
    hasSharedExpertGate, sharedExpertGate⟩ := mw
  cases hshared
  simp only [fwdMoeValidateWeights, Bool.not_true, Bool.and_false, Bool.not_false, Bool.true_and,
    Bool.false_or, Bool.and_eq_true, Option.isSome_iff_exists] at hvalid
  obtain ⟨⟨⟨⟨gate, rfl⟩, up, rfl⟩, down, rfl⟩, htri⟩ := hvalid
  obtain ⟨hfit, hD⟩ := hdense gate rfl up rfl down rfl
  obtain ⟨shared, hrun, hshape, hrows⟩ := @swiglu_rows R _ s act x batch H _ _ _ hfit hx
  rw [hD] at hshape hrows
  refine ⟨shared, hrun, hshape, ?_⟩
  cases hasSharedExpertGate with
  | false => exact hrows
  | true =>
    simp only [Bool.not_true, Bool.false_or, Option.isSome_iff_exists] at htri
    obtain ⟨tri, rfl⟩ := htri
    obtain ⟨hin, hone⟩ := hgate tri rfl
    subst hin
    obtain ⟨gateLogit, hlogit, hlshape, hlrows⟩ := fwdLinear_rows (s := s) hx
    rw [hone] at hlshape hlrows
    obtain ⟨gated, hgated, hgshape, hgrows⟩ := Tensor.zipWith_column_left (· * ·)
      (a := gateLogit.map s.sigmoid) hlshape hshape
    refine ⟨tri, rfl, gateLogit, gated, hlogit, hgated, hgshape, fun j hj o ho => ?_⟩
    have hpos : j * D + o < (batch ++ [D]).prod := by
      rw [List.prod_append, List.prod_singleton]
      exact Tensor.row_lt hj ho
    have hcol := hlrows j 0 Nat.zero_lt_one
    rw [Nat.mul_one, Nat.add_zero] at hcol
    rw [hgrows _ hpos, Tensor.div_row ho, hrows j hj o ho]
    exact congrArg (s.sigmoid · * sharedRow s act gate up down (x.row tri.inDim j) o) hcol

/-- The combination adds up the rows of the experts of a position, and the shared part. -/
theorem combine_rows {mw : MoeWeights R} {D K : Nat} {yExp scores : Tensor R}
    (hfits : SharedFits mw H D) (hx : x.shape = batch ++ [H]) (hy : yExp.shape = batch ++ [K, D])
    (hscores : scores.shape = batch ++ [K]) :
    ∃ out, fwdMoeCombine s act yExp scores x mw = some out ∧ out.shape = batch ++ [D] ∧
      ∀ j < batch.prod, ∀ o < D, out.data (j * D + o) =
        ((List.range K).map fun k => yExp.data ((j * K + k) * D + o) * scores.data (j * K + k)).sum +
          sharedPart s act mw (x.row H j) o := by
  obtain ⟨weighted, routed, hweighted, hrouted, hshape, hrows⟩ := routed_rows hy hscores
  have hadd : ∀ part : Tensor R, part.shape = batch ++ [D] →
      (∀ j < batch.prod, ∀ o < D, part.data (j * D + o) = sharedPart s act mw (x.row H j) o) →
      ∃ out, routed.zipWith (· + ·) part = some out ∧ out.shape = batch ++ [D] ∧
        ∀ j < batch.prod, ∀ o < D, out.data (j * D + o) =
          ((List.range K).map fun k => yExp.data ((j * K + k) * D + o) * scores.data (j * K + k)).sum +
            sharedPart s act mw (x.row H j) o := by
    intro part hpshape hprows
    obtain ⟨out, hout, hoshape, horows⟩ := Tensor.zipWith_same (· + ·) (hshape.trans hpshape.symm)
    refine ⟨out, hout, hoshape.trans hpshape, fun j hj o ho => ?_⟩
    have hpos : j * D + o < part.size := by
      rw [Tensor.size, hpshape, List.prod_append, List.prod_singleton]
      exact Tensor.row_lt hj ho
    rw [horows _ hpos, hrows j hj o ho, hprows j hj o ho]
  rw [fwdMoeCombine, if_pos hfits.valid]
  simp only [Tensor.expandDims_last, Option.bind_eq_bind, Option.bind_some, hweighted, hrouted]
  cases hshared : mw.hasShared with
  | false =>
    refine ⟨routed, rfl, hshape, fun j hj o ho => ?_⟩
    have hnone : sharedPart s act mw (x.row H j) o = 0 := by
      simp only [sharedPart, hshared]
    rw [hrows j hj o ho, hnone, add_zero]
  | true =>
    obtain ⟨shared, hrun, hsshape, hpart⟩ := @shared_rows R _ s act x batch H _ _ hfits hshared hx
    simp only [Bool.not_true, Bool.false_eq_true, ↓reduceIte, hrun, Option.bind_some]
    cases hexpert : mw.hasSharedExpertGate with
    | false =>
      rw [hexpert] at hpart
      exact hadd shared hsshape hpart
    | true =>
      rw [hexpert] at hpart
      obtain ⟨tri, htri, gateLogit, gated, hlogit, hgated, hgshape, hgrows⟩ := hpart
      rw [Option.mem_def] at htri
      simp only [↓reduceIte, htri, Option.bind_some, hlogit, hgated]
      exact hadd gated hgshape hgrows

theorem switchGlu_dispatched {argsort : (Nat → Nat) → Nat → Nat → Nat}
    (hsort : ∀ keys n, Argsort keys n (argsort keys n)) {gate up down : WeightTriplet R}
    {inds : Tensor Nat} {B S K : Nat} (hfits : Fits gate up down H) (hx : x.shape = [B, S, H])
    (hinds : inds.shape = [B, S, K]) (hK : 1 ≤ K) :
    ∃ out, fwdSwitchGlu argsort s act x inds (some gate) (some up) (some down) = some out ∧
      Dispatched s act x inds gate up down B S K out := by
  simp only [fwdSwitchGlu, hx, hinds, Option.bind_eq_bind, Option.bind_some, true_and, if_pos hK]
  split
  · exact sorted_dispatched hsort hfits hx hinds
  · exact direct_dispatched hfits hx hinds

/-! ## The mixture -/

/-- A choice of `K` experts such that no other has a greater logit. -/
structure TopExperts [LE R] (logits : Nat → R) (E K : Nat) (T : Finset Nat) : Prop where
  subset : T ⊆ Finset.range E
  card : T.card = K
  greatest : ∀ e ∈ T, ∀ e' < E, e' ∉ T → logits e' ≤ logits e

/-- The softmax weight of a chosen expert, among the chosen ones or among all. -/
def expertWeight (exp : R → R) (norm : Bool) (logits : Nat → R) (E : Nat) (T : Finset Nat) (e : Nat) :
    R :=
  if norm then exp (logits e) / ∑ i ∈ T, exp (logits i) else softmax exp logits E e

theorem sum_front {p : List Nat} {K : Nat} (hnodup : p.Nodup) (hlen : K ≤ p.length) (hK : 1 ≤ K)
    (f : Nat → R) :
    ((List.range K).map fun k => f (p.getD k 0)).sum = ∑ e ∈ ArgPartition.front p (K - 1), f e := by
  have htake : (List.range K).map (fun k => p.getD k 0) = p.take K := by
    apply List.ext_getElem
    · simp [Nat.min_eq_left hlen]
    · intro k hk _
      rw [List.length_map, List.length_range] at hk
      simp [List.getD_eq_getElem?_getD, List.getElem?_eq_getElem (Nat.lt_of_lt_of_le hk hlen)]
  rw [ArgPartition.front, Nat.sub_add_cancel hK,
    List.sum_toFinset f (hnodup.sublist (List.take_sublist _ _)), ← htake, List.map_map]
  rfl

theorem getD_front {p : List Nat} {K k : Nat} (hk : k < K) (hlen : K ≤ p.length) :
    p.getD k 0 ∈ ArgPartition.front p (K - 1) := by
  have hkp := Nat.lt_of_lt_of_le hk hlen
  rw [ArgPartition.front, List.mem_toFinset, Nat.sub_add_cancel (by omega), List.getD_eq_getElem?_getD,
    List.getElem?_eq_getElem hkp, Option.getD_some, List.mem_take_iff_getElem]
  exact ⟨k, by omega, rfl⟩

variable [LinearOrder R] [IsStrictOrderedRing R] {exp : R → R} {sorting : Sorting R} {E K : Nat}

/-- The front of a partition of the negated logits. -/
theorem front_top {logits : Nat → R} {p : List Nat} (hK : 1 ≤ K) (hE : K ≤ E)
    (hp : ArgPartition (fun e => -logits e) E (K - 1) p) :
    TopExperts logits E K (ArgPartition.front p (K - 1)) where
  subset := hp.front_subset
  card := by rw [hp.front_card (by omega), Nat.sub_add_cancel hK]
  greatest e he e' he' hnot := neg_le_neg_iff.mp (hp.front_le (by omega) he he' hnot)

omit [Field R] [IsStrictOrderedRing R] in
theorem TopExperts.congr {logits logits' : Nat → R} {T : Finset Nat} (h : TopExperts logits E K T)
    (heq : ∀ e < E, logits e = logits' e) : TopExperts logits' E K T where
  subset := h.subset
  card := h.card
  greatest e he e' he' hnot := by
    rw [← heq e (Finset.mem_range.mp (h.subset he)), ← heq e' he']
    exact h.greatest e he e' he' hnot

omit [LinearOrder R] [IsStrictOrderedRing R] in
theorem softmax_congr {row row' : Nat → R} (heq : ∀ e < E, row e = row' e) {e : Nat} (he : e < E) :
    softmax exp row E e = softmax exp row' E e := by
  rw [softmax, softmax, heq e he]
  congr 2
  apply List.map_congr_left
  intro i hi
  rw [heq i (List.mem_range.mp hi)]

theorem softmax_total_pos (hexp : ∀ r, 0 < exp r) (row : Nat → R) (hE : 1 ≤ E) :
    0 < ((List.range E).map fun i => exp (row i)).sum := by
  apply List.sum_pos
  · intro r hr
    obtain ⟨i, -, rfl⟩ := List.mem_map.mp hr
    exact hexp _
  · rw [ne_eq, List.map_eq_nil_iff, List.range_eq_nil]
    omega

/-- Dividing the weights of the chosen experts by their sum cancels the other experts. -/
theorem softmax_normalised (hexp : ∀ r, 0 < exp r) (row : Nat → R) (hE : 1 ≤ E) (T : Finset Nat)
    (e : Nat) : softmax exp row E e / ∑ i ∈ T, softmax exp row E i =
      exp (row e) / ∑ i ∈ T, exp (row i) := by
  simp only [softmax]
  rw [← Finset.sum_div]
  exact div_div_div_cancel_right₀ (softmax_total_pos hexp row hE).ne' _ _

/-- With normalisation the weights are those of a mean. -/
theorem expertWeight_total (hexp : ∀ r, 0 < exp r) (logits : Nat → R) {T : Finset Nat}
    (hT : T.Nonempty) : ∑ e ∈ T, expertWeight exp true logits E T e = 1 := by
  simp only [expertWeight, ↓reduceIte]
  rw [← Finset.sum_div]
  exact div_self (Finset.sum_pos (fun _ _ => hexp _) hT).ne'

/-- The weights that the router leaves at a position. -/
theorem scores_weight (hexp : ∀ r, 0 < exp r) {row logits : Nat → R} {p : List Nat} (hK : 1 ≤ K)
    (hE : K ≤ E) (hp : ArgPartition (fun e => -row e) E (K - 1) p)
    (heq : ∀ e < E, row e = logits e) (norm : Bool) {e : Nat}
    (he : e ∈ ArgPartition.front p (K - 1)) :
    (if norm then softmax exp row E e /
        ((List.range K).map fun k => softmax exp row E (p.getD k 0)).sum
      else softmax exp row E e) =
      expertWeight exp norm logits E (ArgPartition.front p (K - 1)) e := by
  have hlt : ∀ i ∈ ArgPartition.front p (K - 1), i < E := by
    intro i hi
    exact Finset.mem_range.mp (hp.front_subset hi)
  cases norm with
  | false => exact softmax_congr heq (hlt e he)
  | true =>
    simp only [expertWeight, ↓reduceIte]
    rw [sum_front hp.nodup (hp.length.symm ▸ hE) hK (softmax exp row E),
      softmax_normalised hexp row (by omega), heq e (hlt e he)]
    congr 1
    apply Finset.sum_congr rfl
    intro i hi
    rw [heq i (hlt i hi)]

/-- At every position the block adds up the outputs of the experts with the greatest logits, each
with its softmax weight, and the shared expert's. -/
theorem fwdMoe_mixes (hexp : ∀ r, 0 < exp r)
    (hsort : ∀ keys n, Argsort keys n (sorting.argsort keys n))
    (hpartition : ∀ j keys n kth, kth < n →
      ArgPartition keys n kth (sorting.argpartition j keys n kth))
    (s : Scalars R) (act : HiddenAct) {mw : MoeWeights R} {p : MoeParams} {router : Dense R}
    {gate up down : WeightTriplet R} {B S : Nat} (hrouter : mw.router = some router)
    (hgate : mw.switchGate = some gate) (hup : mw.switchUp = some up)
    (hdown : mw.switchDown = some down) (hin : router.inDim = H)
    (hexperts : router.outDim = p.numExperts) (hfits : Fits gate up down H)
    (hshared : SharedFits mw H down.outDim) (hK : 1 ≤ p.topK) (hE : p.topK ≤ p.numExperts)
    (hx : x.shape = [B, S, H]) :
    ∃ out, fwdMoe s act exp sorting x mw p = some out ∧ out.shape = [B, S, down.outDim] ∧
      ∀ b < B, ∀ q < S,
        let row := fun h => x.entry [b, q, h]
        let logits := denseRow s router row
        ∃ T, TopExperts logits p.numExperts p.topK T ∧
          (p.normTopkProb = true →
            ∑ e ∈ T, expertWeight exp p.normTopkProb logits p.numExperts T e = 1) ∧
          ∀ o < down.outDim, out.entry [b, q, o] =
            ∑ e ∈ T, expert s act gate up down e row o *
              expertWeight exp p.normTopkProb logits p.numExperts T e + sharedPart s act mw row o := by
  have hxin : x.shape = [B, S] ++ [router.inDim] := by
    rw [hin, hx]
    rfl
  obtain ⟨logits, hlogits, hlshape, hlrows⟩ := fwdLinear_rows (s := s) hxin
  rw [hexperts] at hlshape hlrows
  obtain ⟨inds, scores, hroute, hishape, hsshape, hrows⟩ :=
    route_rows exp sorting hlshape (by simp) hK hE p.normTopkProb
  obtain ⟨yExp, hglu, hyshape, hyrows⟩ :=
    @switchGlu_dispatched R _ s act x H _ hsort _ _ _ _ _ _ _ hfits hx hishape hK
  obtain ⟨out, hcombine, hshape, horows⟩ :=
    @combine_rows R _ s act x [B, S] H _ _ _ _ _ hshared hx hyshape hsshape
  refine ⟨out, ?_, hshape, fun b hb q hq => ?_⟩
  · have hdim : logits.dim (logits.shape.length - 1) = p.numExperts := by
      simp [Tensor.dim, hlshape]
    rw [fwdMoe, if_pos ⟨hK, by omega, hE, by rw [hgate]; rfl, by rw [hup]; rfl, by rw [hdown]; rfl,
      hshared.valid⟩]
    simp only [hrouter, Option.bind_eq_bind, Option.bind_some, hlogits, hdim, and_true]
    rw [if_pos (by simp [hlshape]), hroute, Option.bind_some, hgate, hup, hdown, hglu,
      Option.bind_some, hcombine]
  · intro row rowLogits
    have hj : b * S + q < [B, S].prod := by
      have hlt := Tensor.row_lt hb hq
      simpa using hlt
    have hrow : x.row H (b * S + q) = row := by
      funext h
      exact (entry_row hx b q h).symm
    have heq : ∀ e < p.numExperts, logits.row p.numExperts (b * S + q) e = rowLogits e := by
      intro e he
      have hentry := hlrows (b * S + q) e he
      rw [hin, hrow] at hentry
      exact hentry
    have hpart := hpartition (b * S + q)
      (fun e => -logits.row p.numExperts (b * S + q) e) p.numExperts (p.topK - 1) (by omega)
    have htop := (front_top hK hE hpart).congr heq
    refine ⟨_, htop, ?_, fun o ho => ?_⟩
    · intro hnorm
      rw [hnorm]
      exact expertWeight_total hexp _ (Finset.card_pos.mp (by rw [htop.card]; omega))
    · have hentry : out.entry [b, q, o] = out.data ((b * S + q) * down.outDim + o) :=
        entry_row hshape b q o
      rw [hentry, horows _ hj o ho, hrow]
      congr 1
      rw [← sum_front hpart.nodup (hpart.length.symm ▸ hE) hK]
      congr 1
      apply List.map_congr_left
      intro k hk
      rw [List.mem_range] at hk
      have hmem := getD_front hk (hpart.length.symm ▸ hE)
      obtain ⟨hind, hscore⟩ := hrows (b * S + q) k hk
      have hweight := scores_weight hexp hK hE hpart heq p.normTopkProb hmem
      rw [← entry_out hyshape, hyrows b hb q hq k hk o ho, entry_ind hishape, hind, hscore]
      exact congrArg (expert s act gate up down _ row o * ·) hweight

end Block

/-! ## One of two experts, and a shared one -/

def twoExperts (R : Type) [Field R] : MoeWeights R where
  router := some ⟨1, 2, fun e _ => e⟩
  switchGate := some ⟨false, 1, 1, fun e _ _ => e + 1⟩
  switchUp := some ⟨false, 1, 1, fun e _ _ => e + 1⟩
  switchDown := some ⟨false, 1, 1, fun e _ _ => e + 1⟩
  hasShared := true
  sharedGate := some ⟨1, 1, fun _ _ => 1⟩
  sharedUp := some ⟨1, 1, fun _ _ => 1⟩
  sharedDown := some ⟨1, 1, fun _ _ => 1⟩
  hasSharedExpertGate := false
  sharedExpertGate := none

/-- Both sorts by insertion. -/
def insertionSorts (R : Type) [LinearOrder R] : Sorting R where
  argsort := stableOrder
  argpartition _ keys n _ := (List.range n).insertionSort fun a b => keys a ≤ keys b

theorem insertionSorts_partition {R : Type} [LinearOrder R] (j : Nat) (keys : Nat → R) (n kth : Nat)
    (hk : kth < n) : ArgPartition keys n kth ((insertionSorts R).argpartition j keys n kth) :=
  sorted_argPartition keys hk

theorem twoExperts_fits : SharedFits (twoExperts ℝ) 1 1 where
  valid := rfl
  shared gate hgate up hup down hdown := by
    cases hgate
    cases hup
    cases hdown
    exact ⟨⟨rfl, rfl, rfl, rfl⟩, rfl⟩
  expertGate tri htri := by cases htri

/-- The second expert has the greater logit. -/
theorem fwdMoe_mixes_second :
    ∃ out, fwdMoe ⟨id, fun _ => 1, id, 1, 1, 1⟩ .silu Real.exp (insertionSorts ℝ)
        (⟨[1, 1, 1], fun _ => 1⟩ : Tensor ℝ) (twoExperts ℝ) ⟨2, 1, true⟩ = some out ∧
      out.shape = [1, 1, 1] ∧ out.entry [0, 0, 0] = 9 := by
  obtain ⟨out, hout, hshape, hmix⟩ := fwdMoe_mixes (x := (⟨[1, 1, 1], fun _ => 1⟩ : Tensor ℝ))
    Real.exp_pos
    (stableOrder_argsort : ∀ keys n, Argsort keys n ((insertionSorts ℝ).argsort keys n))
    insertionSorts_partition ⟨id, fun _ => 1, id, 1, 1, 1⟩ .silu
    (p := ⟨2, 1, true⟩) (rfl : (twoExperts ℝ).router = some ⟨1, 2, fun e _ => e⟩) rfl rfl rfl rfl rfl
    ⟨rfl, rfl, rfl, rfl⟩ twoExperts_fits (Nat.le_refl 1) (by decide) rfl
  obtain ⟨T, htop, -, hentry⟩ := hmix 0 Nat.zero_lt_one 0 Nat.zero_lt_one
  have hT : T = {1} := by
    obtain ⟨e, rfl⟩ := Finset.card_eq_one.mp htop.card
    have he : e < 2 := Finset.mem_range.mp (htop.subset (Finset.mem_singleton_self e))
    match e, he with
    | 1, _ => rfl
    | 0, _ =>
      have hle := htop.greatest 0 (Finset.mem_singleton_self 0) 1 (by decide) (by decide)
      norm_num [denseRow, Tensor.entry] at hle
  refine ⟨out, hout, hshape, ?_⟩
  rw [hentry 0 Nat.zero_lt_one, hT, Finset.sum_singleton]
  norm_num [expert, linear, expertWeight, WeightTriplet.matrix, activate, sharedPart, sharedRow, denseRow,
    twoExperts, Tensor.entry]

end Mlxd.Moe
