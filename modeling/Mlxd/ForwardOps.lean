import Mlxd.ForwardRows

/-!
# The operations of the forward pass on arrays

Every operation but the attention gives, wherever MLX fails, the rows that the positions have on
their own.
-/
namespace Mlxd.Forward

open Mlxd.Unicode Mlxd.Json Mlxd.Lib Mlxd.Model Mlxd.KvCache Mlxd.Attention
open Fallible (call callIf Yields)

section Operations

variable {M : Mlx} {W : Type} (em : EngineModel M W)

theorem weightsGet_yields (name : Bytes) : Yields (weightsGet em name) (· = tensor em name) :=
  .ofOption fun x hx => by rw [tensor, hx, Option.getD_some]

theorem weightsGetTriplet_yields (base : Bytes) :
    Yields (weightsGetTriplet em base) (· = triplet em base) := by
  refine .ite (fun _ => .fail) fun _ => ?_
  refine (weightsGet_yields em _).eq_bind ?_
  cases hscales : em.weights (base ++ ascii ".scales") with
  | none =>
    cases hbiases : em.weights (base ++ ascii ".biases") with
    | none => exact .pure (by simp [triplet, tensor, hscales, hbiases])
    | some biases => exact .fail
  | some scales =>
    cases hbiases : em.weights (base ++ ascii ".biases") with
    | none => exact .fail
    | some biases => exact .pure (by simp [triplet, tensor, hscales, hbiases])

theorem fwdLinear_yields (x : Rows M) (tri : WeightTriplet W) :
    Yields (fwdLinear em x tri) (· = x.map (linearRow em tri)) := by
  refine .ite (fun hquant => ?_) fun hquant => ?_
  · refine .call_bind ?_
    refine .call ?_
    simp only [Grid.map, linearRow, hquant, ↓reduceIte]
  · refine .call_bind ?_
    refine .call ?_
    simp only [Grid.map, linearRow, hquant, Bool.false_eq_true, ↓reduceIte]

theorem fwdRmsnorm_yields {α : Type} (along : (List M.Elt → List M.Elt) → α → α) (x : Grid α)
    (weight : W) (addUnitOffset : Bool) :
    Yields (fwdRmsnorm em along x weight addUnitOffset)
      (· = x.map (along (em.ops.rmsNorm (if addUnitOffset then em.ops.addOne weight else weight)
        em.cfg.rmsNormEps))) := by
  refine Yields.bind (P := (· = if addUnitOffset then em.ops.addOne weight else weight)) ?_ ?_
  · exact .ite (fun h => .call (if_pos h).symm) fun h => .call (if_neg h).symm
  · rintro _ rfl
    exact .call rfl

theorem normed_yields {α : Type} (along : (List M.Elt → List M.Elt) → α → α) (layer : Option Nat)
    (suffix : String) (x : Grid α) :
    Yields (normed em along layer suffix x)
      (· = x.map (along (normRow em layer suffix))) := by
  refine (weightsGet_yields em _).eq_bind ?_
  exact fwdRmsnorm_yields em along x _ _

theorem projected_yields (layer : Option Nat) (suffix : String) (x : Rows M) :
    Yields (projected em layer suffix x)
      (· = x.map (projectRow em layer suffix)) := by
  refine (weightsGetTriplet_yields em _).eq_bind ?_
  exact fwdLinear_yields em x _

theorem biased_yields (layer : Nat) (suffix : String) (x : Rows M) :
    Yields (biased em layer suffix x) (· = x.map (biasedRow em layer suffix)) := by
  refine (projected_yields em _ suffix x).eq_bind ?_
  refine .ite (fun hbias => ?_) fun hbias => .pure ?_
  · refine (weightsGet_yields em _).eq_bind ?_
    refine .call ?_
    simp only [Grid.map, biasedRow, hbias, ↓reduceIte]
  · simp only [Grid.map, biasedRow, hbias, Bool.false_eq_true, ↓reduceIte]

theorem zipWith_map_right_same {α γ : Type} (f : α → α → γ) (h : α → α) (row : List α) :
    List.zipWith f row (row.map h) = row.map fun e => f e (h e) := by
  rw [List.zipWith_map_right, List.zipWith_self]

/-- The activation works on single elements. -/
theorem fwdGeluApprox_yields (x : Rows M) :
    Yields (fwdGeluApprox em x) (· = x.map (List.map (gelu em))) := by
  iterate 12 refine .call_bind ?_
  refine .call ?_
  simp only [Grid.map, Grid.zip, List.zipWith_self, List.map_map, Function.comp_def,
    zipWith_map_right_same, List.zipWith_map_left]
  rfl

theorem fwdSwiglu_yields (layer : Nat) (x : Rows M) :
    Yields (fwdSwiglu em layer x) (· = x.map (swigluRow em layer)) := by
  refine (projected_yields em _ _ x).eq_bind ?_
  refine (projected_yields em _ _ x).eq_bind ?_
  refine Yields.bind (P := (· = (x.map (projectRow em (some layer) "mlp.gate_proj")).map
    (List.map (activation em)))) ?_ ?_
  · refine .ite (fun hact => ?_) fun hact => ?_
    · refine (fwdGeluApprox_yields em _).imp ?_
      rintro _ rfl
      rw [show activation em = gelu em from funext fun e => if_pos hact]
    · refine .call_bind ?_
      refine .call ?_
      rw [show activation em = fun e => em.ops.mul e (em.ops.sigmoid e) from funext fun e => if_neg hact]
      simp only [Grid.map, Grid.zip, zipWith_map_right_same]
  · rintro _ rfl
    refine (Yields.call (P := (· = x.map fun row => List.zipWith em.ops.mul
      ((projectRow em (some layer) "mlp.gate_proj" row).map (activation em))
      (projectRow em (some layer) "mlp.up_proj" row))) rfl).bind ?_
    rintro _ rfl
    exact projected_yields em _ _ _

theorem splitRows_yields {E : Type} (n d : Nat) (x : Grid (List E)) :
    Yields (splitRows n d x) (· = x.map (cut n d)) := .callIf fun _ => rfl

theorem joinRows_yields {E : Type} (n d : Nat) (x : Grid (List (List E))) :
    Yields (joinRows n d x) (· = x.map List.flatten) := .callIf fun _ => rfl

theorem fitRows_yields {E : Type} (n : Nat) (x : Grid (List E)) :
    Yields (fitRows n x) (· = x) := .callIf fun _ => rfl

/-! ### Embedding -/

theorem embedTake_yields (ids : Ids) (tri : WeightTriplet W) :
    Yields (embedTake em ids tri) (· = ids.map (takeRow em tri)) := by
  refine .ite (fun hquant => .call ?_) fun hquant => .call ?_
  · simp only [Grid.map, takeRow, hquant, ↓reduceIte]
  · simp only [Grid.map, takeRow, hquant, Bool.false_eq_true, ↓reduceIte]

theorem fwdEmbed_yields (ids : Ids) :
    Yields (fwdEmbed em ids) (· = ids.map (embedRow em)) := by
  refine Yields.bind (P := (· = tensorText em.cfg.toModelConfig none (ascii "embed_tokens"))) ?_ ?_
  · refine .ofOption fun name hname => ?_
    rw [weightsTensorName] at hname
    split at hname
    · exact (Option.some.inj hname).symm
    · contradiction
  · rintro _ rfl
    refine (weightsGetTriplet_yields em _).eq_bind ?_
    refine (embedTake_yields em ids _).eq_bind ?_
    refine (fitRows_yields _ _).eq_bind ?_
    refine .ite (fun hscale => .call ?_) fun hscale => .pure ?_
    · simp only [Grid.map, embedRow, hscale, ↓reduceIte]
    · simp only [Grid.map, embedRow, hscale, Bool.false_eq_true, ↓reduceIte]

theorem fwdPleInputs_yields (ids : Ids) (h : Rows M) (hbatch : h.batch = ids.batch)
    (hlen : h.len = ids.len) : Yields (fwdPleInputs em ids h)
      (· = ⟨ids.batch, ids.len, fun b s => pleRows em (ids.get b s) (h.get b s)⟩) := by
  refine (weightsGetTriplet_yields em _).eq_bind ?_
  refine (embedTake_yields em ids _).eq_bind ?_
  refine (fitRows_yields _ _).eq_bind ?_
  refine .call_bind ?_
  refine (projected_yields em _ _ h).eq_bind ?_
  refine .call_bind ?_
  refine (splitRows_yields _ _ _).eq_bind ?_
  refine (splitRows_yields _ _ _).eq_bind ?_
  refine (normed_yields em _ _ _ _).eq_bind ?_
  refine .call_bind ?_
  refine .call ?_
  simp only [Grid.map, Grid.zip, pleRows, hbatch, hlen]

theorem fwdPleApply_yields (layer : Nat) (ple : HeadRows M) (h : Rows M)
    (hpos : 0 < em.cfg.hiddenSizePerLayerInput) : Yields (fwdPleApply em layer ple h)
      (· = h.zip (fun row rows => pleApplyRow em layer rows row) ple) := by
  refine .ite (fun hnone => absurd hpos (not_lt.mpr hnone)) fun _ => ?_
  refine .call_bind ?_
  refine (projected_yields em _ _ h).eq_bind ?_
  refine (fwdGeluApprox_yields em _).eq_bind ?_
  refine .call_bind ?_
  refine (projected_yields em _ _ _).eq_bind ?_
  refine (normed_yields em _ _ _ _).eq_bind ?_
  exact .call rfl

theorem fwdLayerScalarApply_yields (layer : Nat) (x : Rows M) :
    Yields (fwdLayerScalarApply em layer x) (· = x.map (scalarRow em layer)) := by
  unfold fwdLayerScalarApply
  cases hscalar : em.weights (tensorBuf em.cfg.toModelConfig (some layer) (ascii "layer_scalar")) with
  | some scalar =>
    refine .call ?_
    simp only [Grid.map, scalarRow, hscalar]
  | none =>
    refine .ite (fun _ => .fail) fun _ => .pure ?_
    simp only [Grid.map, scalarRow, hscalar]

theorem fwdSoftcap_yields (logits : Rows M) (cap : Rat) : Yields (fwdSoftcap em logits cap)
    (· = logits.map (List.map fun e => em.ops.mul (em.ops.tanh (em.ops.div e (em.ops.const cap))) (em.ops.const cap))) := by
  refine .ite (fun _ => .fail) fun _ => ?_
  refine .call_bind ?_
  refine .call_bind ?_
  refine .call_bind ?_
  refine .call ?_
  simp only [Grid.map, List.map_map, Function.comp_def]

theorem lastLogits_yields (h : Rows M) : Yields (lastLogits em h)
    (· = (List.range h.batch).map fun b => logitsRow em (h.get b (h.len - 1))) := by
  refine (normed_yields em _ _ _ h).eq_bind ?_
  refine .call_bind ?_
  refine (weightsGetTriplet_yields em _).eq_bind ?_
  refine (fwdLinear_yields em _ _).eq_bind ?_
  refine Yields.bind (P := (· = ⟨h.batch, 1, fun b _ => logitsRow em (h.get b (h.len - 1))⟩))
    ?_ ?_
  · refine .ite (fun hcap => ?_) fun hcap => .pure ?_
    · refine (fwdSoftcap_yields em _ _).imp ?_
      rintro _ rfl
      simp only [Grid.map, logitsRow, hcap, ↓reduceIte, id]
    · simp only [Grid.map, logitsRow, hcap, ↓reduceIte, id]
  · rintro _ rfl
    refine (fitRows_yields _ _).eq_bind ?_
    exact .pure rfl

/-! ## Heads -/

theorem splitQueries_yields (layer : Nat) (x : Rows M) :
    Yields (splitQueries em layer (x.map (biasedRow em layer "self_attn.q_proj")))
      (· = (x.map (queryPart em layer),
        if em.cfg.attnOutputGate then some (x.map (gatePart em layer)) else none)) := by
  refine .ite (fun hgate => ?_) fun hgate => ?_
  · refine (splitRows_yields _ _ _).eq_bind ?_
    refine .call_bind ?_
    refine .call_bind ?_
    refine (joinRows_yields _ _ _).eq_bind ?_
    refine .pure ?_
    simp only [Grid.map, queryPart, gatePart, hgate, ↓reduceIte]
  · refine (splitRows_yields _ _ _).eq_bind ?_
    refine .pure ?_
    simp only [Grid.map, queryPart, hgate, Bool.false_eq_true, ↓reduceIte]

theorem qkNorm_yields (layer : Nat) (suffix : String) (x : HeadRows M) :
    Yields (qkNorm em layer suffix x) (· = x.map (qkNormRows em layer suffix)) := by
  refine .ite (fun hnorm => ?_) fun hnorm => .call ?_
  · refine (normed_yields em _ _ _ x).imp ?_
    rintro _ rfl
    simp only [Grid.map, qkNormRows, hnorm, ↓reduceIte]
  · simp only [Grid.map, qkNormRows, hnorm, Bool.false_eq_true, ↓reduceIte]

theorem layerValues_yields (layer : Nat) (x : Rows M) :
    Yields (layerValues em layer x (x.map (keyPart em layer)))
      (· = x.map (valueHeads em layer)) := by
  let part : List M.Elt → List (List M.Elt) := fun row =>
    if em.cfg.attentionKEqV ∧ modelLayerIsGlobal em.cfg.toModelConfig layer then keyPart em layer row
    else cut (modelLayerKvHeads em.cfg layer) (headDim em.cfg layer)
      (biasedRow em layer "self_attn.v_proj" row)
  refine Yields.eq_bind (a := x.map part) ?_ ?_
  · refine .ite (fun hsame => .call ?_) fun hother => ?_
    · simp only [part, if_pos hsame]
    · refine (biased_yields em _ _ x).eq_bind ?_
      refine (splitRows_yields _ _ _).imp ?_
      rintro _ rfl
      simp only [part, if_neg hother, Grid.map]
  · refine .ite (fun hnorm => ?_) fun hnorm => .call ?_
    · refine .call_bind ?_
      refine (fwdRmsnorm_yields em _ _ _ _).imp ?_
      rintro _ rfl
      simp only [Grid.map, valueHeads, hnorm, Bool.false_eq_true, ↓reduceIte, part]
    · simp only [Grid.map, valueHeads, hnorm, Bool.false_eq_true, ↓reduceIte, part]

theorem layerKeysValues_yields (layer : Nat) (x : Rows M) :
    Yields (layerKeysValues em layer x)
      (· = (transposed em (modelLayerKvHeads em.cfg layer) (headDim em.cfg layer)
          (x.map (keyHeads em layer)),
        transposed em (modelLayerKvHeads em.cfg layer) (headDim em.cfg layer)
          (x.map (valueHeads em layer)))) := by
  refine (biased_yields em _ _ x).eq_bind ?_
  refine (splitRows_yields _ _ _).eq_bind ?_
  refine (layerValues_yields em layer x).eq_bind ?_
  refine (qkNorm_yields em _ _ _).eq_bind ?_
  refine .call_bind ?_
  refine .call_bind ?_
  exact .pure rfl

/-- The keys and values of a layer for some rows; a layer with a source has none. -/
def ownKeysValues (layer : Nat) (x : Rows M) : M.Arr × M.Arr :=
  if 0 ≤ modelKvSourceLayer em.cfg.toModelConfig layer then (M.null, M.null)
  else (transposed em (modelLayerKvHeads em.cfg layer) (headDim em.cfg layer)
      (x.map (keyHeads em layer)),
    transposed em (modelLayerKvHeads em.cfg layer) (headDim em.cfg layer)
      (x.map (valueHeads em layer)))

theorem ownKeysValues_yields (layer : Nat) (x : Rows M) :
    Yields (if 0 ≤ modelKvSourceLayer em.cfg.toModelConfig layer then pure (M.null, M.null)
      else layerKeysValues em layer x) (· = ownKeysValues em layer x) := by
  refine .ite (fun hsource => .pure (if_pos hsource).symm) fun hown => ?_
  refine (layerKeysValues_yields em layer x).imp ?_
  rintro _ rfl
  exact (if_neg hown).symm

end Operations

end Mlxd.Forward
