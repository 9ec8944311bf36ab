import Mlxd.Attention
import Mlxd.Weights
import Mlxd.Lib.Fallible

/-!
# The forward pass

From the token ids over the embedding and the decoder layers to the logits of the last position.
MLX and its numbers are a parameter: what an operation makes of one row, whichever rows are next
to it. That is exact arithmetic: kernels for other shapes may round in another order. Rows are in
bfloat16, a cast to it being part of the operation before it. Each call into MLX may fail, which
ends the pass.
-/
namespace Mlxd.Forward

open Mlxd.Unicode Mlxd.Json Mlxd.Lib Mlxd.Model Mlxd.KvCache Mlxd.Attention
open Fallible (call callIf)

/-! ## Arrays -/

/-- An array by batch and position, of rows or of one row for each head. -/
structure Grid (α : Type) where
  batch : Nat
  len : Nat
  get : Nat → Nat → α

def Grid.map {α β : Type} (f : α → β) (x : Grid α) : Grid β :=
  ⟨x.batch, x.len, fun b s => f (x.get b s)⟩

def Grid.zip {α β γ : Type} (f : α → β → γ) (x : Grid α) (y : Grid β) : Grid γ :=
  ⟨x.batch, x.len, fun b s => f (x.get b s) (y.get b s)⟩

section Rows

variable {E : Type}

/-- A row of length one stretches to the other's length. -/
def stretch (n : Nat) : List E → List E
  | [e] => List.replicate n e
  | row => row

def broadcastRow (f : E → E → E) (a b : List E) : List E :=
  List.zipWith f (stretch b.length a) (stretch a.length b)

/-- A row cut into `n` rows of length `d`. -/
def cut (n d : Nat) (row : List E) : List (List E) :=
  (List.range n).map fun h => (row.drop (h * d)).take d

/-- Cut the rows; each must be as long as its pieces together. -/
def splitRows (n d : Nat) (x : Grid (List E)) : Fallible (Grid (List (List E))) :=
  callIf (∀ b < x.batch, ∀ s < x.len, (x.get b s).length = n * d) (x.map (cut n d))

/-- Put the rows of all heads together. -/
def joinRows (n d : Nat) (x : Grid (List (List E))) : Fallible (Grid (List E)) :=
  callIf (∀ b < x.batch, ∀ s < x.len, ((x.get b s).flatten).length = n * d) (x.map List.flatten)

/-- Rows of the length a reshape asks for. -/
def fitRows (width : Nat) (x : Grid (List E)) : Fallible (Grid (List E)) :=
  callIf (∀ b < x.batch, ∀ s < x.len, (x.get b s).length = width) x

end Rows

/-! ## MLX -/

/-- The operations, each on one row, and the elementwise ones on one element. A row gives the same
result in an array of any length. -/
structure Numerics (M : Mlx) (W : Type) where
  /-- Outside of every array. -/
  zero : M.Elt
  /-- A handle without an array. -/
  null : W
  const : Rat → M.Elt
  root : Nat → M.Elt
  invRoot : Nat → M.Elt
  add : M.Elt → M.Elt → M.Elt
  mul : M.Elt → M.Elt → M.Elt
  div : M.Elt → M.Elt → M.Elt
  tanh : M.Elt → M.Elt
  sigmoid : M.Elt → M.Elt
  transpose : W → W
  addOne : W → W
  ones : Nat → W
  /-- The entries of a vector. -/
  values : W → List M.Elt
  matmul : W → List M.Elt → List M.Elt
  /-- Weight, scales, biases, group size and bits. -/
  quantizedMatmul : W → W → W → Int → Int → List M.Elt → List M.Elt
  rmsNorm : W → Rat → List M.Elt → List M.Elt
  takeRow : W → Int → List M.Elt
  takeDequantized : W → W → W → Int → Int → Int → List M.Elt
  /-- A query over the keys and values it attends, the scale being one or the inverse root of a
  number. -/
  attend : Option Nat → List M.Elt → List (List M.Elt × List M.Elt) → List M.Elt
  /-- The array with the given axes and entries. -/
  ofEntries : Axes → (Axes → M.Elt) → M.Arr

/-! ## The configuration and the weights -/

/-- What the forward pass reads beside what the support gate does. -/
structure ForwardConfig extends Model.ModelConfig where
  vocabSize : Nat
  hiddenSize : Nat
  numAttentionHeads : Nat
  numKeyValueHeads : Nat
  numGlobalKeyValueHeads : Nat
  rmsNormEps : Rat
  queryPreAttnScalar : Nat
  quantGroupSize : Int
  finalLogitSoftcapping : Rat
  hasVNorm : Bool
  attnScaleOne : Bool

def modelLayerKvHeads (cfg : ForwardConfig) (layer : Nat) : Nat :=
  if cfg.attentionKEqV ∧ 0 < cfg.numGlobalKeyValueHeads ∧ modelLayerIsGlobal cfg.toModelConfig layer
  then cfg.numGlobalKeyValueHeads
  else cfg.numKeyValueHeads

def headDim (cfg : ForwardConfig) (layer : Nat) : Nat :=
  (modelLayerHeadDim cfg.toModelConfig layer).toNat

structure WeightTriplet (W : Type) where
  weight : W
  scales : W
  biases : W
  quantized : Bool

/-- A loaded model and the MLX it runs on. `rope` rotates an array from an offset on, `mulTrunc` is
the product cut to an integer, and `freqs` tells whether a frequency table was built. -/
structure EngineModel (M : Mlx) (W : Type) where
  ops : Numerics M W
  rope : Rotation → Nat → M.Arr → M.Arr
  mulTrunc : Int → Rat → Int
  freqs : Bool
  cfg : ForwardConfig
  weights : Bytes → Option W

section Pass

variable {M : Mlx} {W : Type} (em : EngineModel M W)

abbrev Rows (M : Mlx) : Type := Grid (List M.Elt)

abbrev HeadRows (M : Mlx) : Type := Grid (List (List M.Elt))

def weightsGet (name : Bytes) : Fallible W := Fallible.ofOption (em.weights name)

def weightsGetTriplet (base : Bytes) : Fallible (WeightTriplet W) := do
  if NAME_SIZE ≤ (dotWeight base).length then Fallible.fail
  else
    let weight ← weightsGet em (dotWeight base)
    match em.weights (base ++ ascii ".scales"), em.weights (base ++ ascii ".biases") with
    | some scales, some biases => return ⟨weight, scales, biases, true⟩
    | none, none => return ⟨weight, em.ops.null, em.ops.null, false⟩
    | _, _ => Fallible.fail

/-! ## Operations -/

def fwdLinear (x : Rows M) (tri : WeightTriplet W) : Fallible (Rows M) :=
  if tri.quantized then do
    let xc ← call x
    call (xc.map (em.ops.quantizedMatmul tri.weight tri.scales tri.biases em.cfg.quantGroupSize
      em.cfg.quantBits))
  else do
    let wt ← call (em.ops.transpose tri.weight)
    call (x.map (em.ops.matmul wt))

/-- `along` applies the norm to the rows of an entry. -/
def fwdRmsnorm {α : Type} (along : (List M.Elt → List M.Elt) → α → α) (x : Grid α) (weight : W)
    (addUnitOffset : Bool) : Fallible (Grid α) := do
  let wEff ← (if addUnitOffset then call (em.ops.addOne weight) else call weight)
  call (x.map (along (em.ops.rmsNorm wEff em.cfg.rmsNormEps)))

/-- The norm with the weight of that name. -/
def normed {α : Type} (along : (List M.Elt → List M.Elt) → α → α) (layer : Option Nat)
    (suffix : String) (x : Grid α) : Fallible (Grid α) := do
  let weight ← weightsGet em (dotWeight (tensorBuf em.cfg.toModelConfig layer (ascii suffix)))
  fwdRmsnorm em along x weight em.cfg.normHasOffset

/-- The product with the triplet of that name. -/
def projected (layer : Option Nat) (suffix : String) (x : Rows M) : Fallible (Rows M) := do
  let tri ← weightsGetTriplet em (tensorBuf em.cfg.toModelConfig layer (ascii suffix))
  fwdLinear em x tri

def addProjBias (x : Rows M) (base : Bytes) : Fallible (Rows M) := do
  let bias ← weightsGet em (base ++ ascii ".bias")
  call (x.map fun row => broadcastRow em.ops.add row (em.ops.values bias))

def biased (layer : Nat) (suffix : String) (x : Rows M) : Fallible (Rows M) := do
  let y ← projected em (some layer) suffix x
  if em.cfg.attentionBias then addProjBias em y (tensorBuf em.cfg.toModelConfig (some layer) (ascii suffix))
  else return y

/-- Elementwise on two arrays of one shape. -/
def elementwise (f : M.Elt → M.Elt → M.Elt) (x y : Rows M) : Fallible (Rows M) :=
  call (x.zip (List.zipWith f) y)

def fwdSoftcap (logits : Rows M) (cap : Rat) : Fallible (Rows M) := do
  if cap ≤ 0 then Fallible.fail
  else
    let capBf ← call (em.ops.const cap)
    let scaled ← call (logits.map (List.map (em.ops.div · capBf)))
    let th ← call (scaled.map (List.map em.ops.tanh))
    call (th.map (List.map (em.ops.mul · capBf)))

def fwdGeluApprox (x : Rows M) : Fallible (Rows M) := do
  let sqrt2pi ← call (em.ops.const (7978845608 / 10000000000))
  let coeff ← call (em.ops.const (44715 / 1000000))
  let g2 ← elementwise em.ops.mul x x
  let g3 ← elementwise em.ops.mul g2 x
  let scaled3 ← call (g3.map (List.map (em.ops.mul coeff)))
  let inner ← elementwise em.ops.add x scaled3
  let scaled ← call (inner.map (List.map (em.ops.mul sqrt2pi)))
  let tanhVal ← call (scaled.map (List.map em.ops.tanh))
  let one ← call (em.ops.const 1)
  let half ← call (em.ops.const (1 / 2))
  let onePlus ← call (tanhVal.map (List.map (em.ops.add one)))
  let halfGate ← call (x.map (List.map (em.ops.mul half)))
  elementwise em.ops.mul halfGate onePlus

def fwdSwiglu (layer : Nat) (x : Rows M) : Fallible (Rows M) := do
  let gate ← projected em (some layer) "mlp.gate_proj" x
  let up ← projected em (some layer) "mlp.up_proj" x
  let act ←
    (if em.cfg.hiddenAct = .geluApprox then fwdGeluApprox em gate
    else do
      let gateSig ← call (gate.map (List.map em.ops.sigmoid))
      elementwise em.ops.mul gate gateSig)
  let downIn ← elementwise em.ops.mul act up
  projected em (some layer) "mlp.down_proj" downIn

/-! ## Embedding -/

/-- The token ids of one pass. -/
abbrev Ids := Grid Int

/-- The rows of a table, by its weights or by its quantized ones. -/
def embedTake (ids : Ids) (tri : WeightTriplet W) : Fallible (Rows M) :=
  if tri.quantized then
    call (ids.map (em.ops.takeDequantized tri.weight tri.scales tri.biases em.cfg.quantGroupSize
      em.cfg.quantBits))
  else call (ids.map (em.ops.takeRow tri.weight))

def fwdEmbed (ids : Ids) : Fallible (Rows M) := do
  let name ← Fallible.ofOption (weightsTensorName em.cfg.toModelConfig none (ascii "embed_tokens"))
  let tri ← weightsGetTriplet em name
  let taken ← embedTake em ids tri
  let result ← fitRows em.cfg.hiddenSize taken
  if em.cfg.scaleEmbeddings then call (result.map (List.map (em.ops.mul · (em.ops.root em.cfg.hiddenSize))))
  else return result

/-! ## Inputs of the layers -/

/-- The inputs of all layers, from the ids and from the embedded rows. -/
def fwdPleInputs (ids : Ids) (h : Rows M) : Fallible (HeadRows M) := do
  let dim := em.cfg.hiddenSizePerLayerInput.toNat
  let tri ← weightsGetTriplet em
    (tensorBuf em.cfg.toModelConfig none (ascii "embed_tokens_per_layer"))
  let emb ← embedTake em ids tri
  let emb ← fitRows (em.cfg.numHiddenLayers * dim) emb
  let embScaled ← call (emb.map (List.map (em.ops.mul · (em.ops.root dim))))
  let hProj ← projected em none "per_layer_model_projection" h
  let hScaled ← call (hProj.map (List.map (em.ops.mul · (em.ops.invRoot em.cfg.hiddenSize))))
  let hReshaped ← splitRows em.cfg.numHiddenLayers dim hScaled
  let embReshaped ← splitRows em.cfg.numHiddenLayers dim embScaled
  let hNormed ← normed em List.map none "per_layer_projection_norm" hReshaped
  let sum ← call (hNormed.zip (List.zipWith (List.zipWith em.ops.add)) embReshaped)
  call (sum.map (List.map (List.map (em.ops.mul · (em.ops.invRoot 2)))))

def fwdPleApply (layer : Nat) (ple : HeadRows M) (h : Rows M) : Fallible (Rows M) := do
  if em.cfg.hiddenSizePerLayerInput ≤ 0 then return h
  else
    let sliced ← call (ple.map fun rows => rows.getD layer [])
    let gateIn ← projected em (some layer) "per_layer_input_gate" h
    let gateAct ← fwdGeluApprox em gateIn
    let gated ← elementwise em.ops.mul sliced gateAct
    let proj ← projected em (some layer) "per_layer_projection" gated
    let projNormed ← normed em id (some layer) "post_per_layer_input_norm" proj
    elementwise em.ops.add h projNormed

def fwdLayerScalarApply (layer : Nat) (x : Rows M) : Fallible (Rows M) :=
  match em.weights (tensorBuf em.cfg.toModelConfig (some layer) (ascii "layer_scalar")) with
  | some scalar => call (x.map fun row => broadcastRow em.ops.mul row (em.ops.values scalar))
  | none => if em.cfg.family = .gemma4 then Fallible.fail else return x

/-! ## Attention -/

/-- The array of the heads' rows by batch, head, position and component. -/
def transposed (heads dim : Nat) (x : HeadRows M) : M.Arr :=
  em.ops.ofEntries ![x.batch, heads, x.len, dim] fun ix =>
    if ix 0 < x.batch ∧ ix 2 < x.len then ((x.get (ix 0) (ix 2)).getD (ix 1) []).getD (ix 3) em.ops.zero
    else em.ops.zero

/-- The row of a head at a position. -/
def headRow (a : M.Arr) (b h p : Nat) : List M.Elt :=
  (List.range (M.dim a 3)).map fun d => M.get a ![b, h, p, d]

/-- The heads of the queries fall on those of the keys evenly. -/
def HeadsFit (a : Sdpa M) : Prop := 0 < M.dim a.keys 1 ∧ M.dim a.queries 1 % M.dim a.keys 1 = 0

instance (a : Sdpa M) : Decidable (HeadsFit a) := inferInstanceAs (Decidable (_ ∧ _))

/-- The attention: every query over the columns its mask leaves, some heads of the queries sharing
one of the keys and values. -/
def scaledDotProductAttention (scale : Option Nat) (a : Sdpa M) : HeadRows M :=
  let qHeads := M.dim a.queries 1
  let qLen := M.dim a.queries 2
  let kvLen := M.dim a.keys 2
  ⟨M.dim a.queries 0, qLen, fun b s => (List.range qHeads).map fun h =>
    let kvHead := h / (qHeads / M.dim a.keys 1)
    em.ops.attend scale (headRow a.queries b h s)
      (((List.range kvLen).filter (a.mode.attends qLen kvLen s)).map fun c =>
        (headRow a.keys b kvHead c, headRow a.values b kvHead c))⟩

/-- Queries by head, and the gate when there is one: each head's part of the projection holds both. -/
def splitQueries (layer : Nat) (q : Rows M) : Fallible (HeadRows M × Option (Rows M)) := do
  let heads := em.cfg.numAttentionHeads
  let dim := headDim em.cfg layer
  if em.cfg.attnOutputGate then
    let both ← splitRows heads (dim * 2) q
    let queries ← call (both.map (List.map (List.take dim)))
    let gate4d ← call (both.map (List.map (List.drop dim)))
    let gate ← joinRows heads dim gate4d
    return (queries, some gate)
  else
    let queries ← splitRows heads dim q
    return (queries, none)

/-- The rows of every head normed, or as they are. -/
def qkNorm (layer : Nat) (suffix : String) (x : HeadRows M) : Fallible (HeadRows M) :=
  if em.cfg.hasQkNorm then normed em List.map (some layer) suffix x else call x

/-- The values by head: on a global layer they may be the keys before their norm. -/
def layerValues (layer : Nat) (x : Rows M) (kHeads : HeadRows M) : Fallible (HeadRows M) := do
  let vHeads ←
    (if em.cfg.attentionKEqV ∧ modelLayerIsGlobal em.cfg.toModelConfig layer then call kHeads
    else do
      let v ← biased em layer "self_attn.v_proj" x
      splitRows (modelLayerKvHeads em.cfg layer) (headDim em.cfg layer) v)
  if em.cfg.hasVNorm then do
    let ones ← call (em.ops.ones (headDim em.cfg layer))
    fwdRmsnorm em List.map vHeads ones false
  else call vHeads

/-- Keys and values of a layer that has its own. -/
def layerKeysValues (layer : Nat) (x : Rows M) : Fallible (M.Arr × M.Arr) := do
  let heads := modelLayerKvHeads em.cfg layer
  let dim := headDim em.cfg layer
  let k ← biased em layer "self_attn.k_proj" x
  let kHeads ← splitRows heads dim k
  let v ← layerValues em layer x kHeads
  let kNormed ← qkNorm em layer "self_attn.k_norm" kHeads
  let kT ← call (transposed em heads dim kNormed)
  let vT ← call (transposed em heads dim v)
  return (kT, vT)

/-- `okKv` tells which calls of the cache succeed. -/
def fwdAttention (okKv : MlxCall → Bool) (kv : Kvcache M) (layer : Nat) (x : Rows M) :
    Fallible (Kvcache M × Rows M) := do
  let heads := em.cfg.numAttentionHeads
  let dim := headDim em.cfg layer
  let scale :=
    if em.cfg.attnScaleOne then none
    else some (if 0 < em.cfg.queryPreAttnScalar then em.cfg.queryPreAttnScalar else dim)
  let q ← biased em layer "self_attn.q_proj" x
  let split ← splitQueries em layer q
  let qNormed ← qkNorm em layer "self_attn.q_norm" split.1
  let qT ← call (transposed em heads dim qNormed)
  let keysValues ←
    (if 0 ≤ modelKvSourceLayer em.cfg.toModelConfig layer then pure (M.null, M.null)
    else layerKeysValues em layer x)
  -- the calls that rotate and those that build the mask
  let _ ← call ()
  let done ← Fallible.ofOption (Attention.fwdAttention M em.rope em.mulTrunc em.freqs
    em.cfg.toModelConfig kv layer x.len ⟨qT, keysValues.1, keysValues.2, okKv⟩)
  let attn ← callIf (HeadsFit done.2) (scaledDotProductAttention em scale done.2)
  let joined ← joinRows heads dim attn
  let gated ←
    (match split.2 with
    | none => pure joined
    | some gate => do
      let gateSig ← call (gate.map (List.map em.ops.sigmoid))
      elementwise em.ops.mul joined gateSig)
  let result ← projected em (some layer) "self_attn.o_proj" gated
  return (done.1, result)

/-! ## Layers -/

/-- The residuals and the feed-forward part, with norms around it or before it. -/
def behindAttention (layer : Nat) (x attn : Rows M) : Fallible (Rows M) :=
  if em.cfg.hasPreFfNorm then do
    let attnNormed ← normed em id (some layer) "post_attention_layernorm" attn
    let h1 ← elementwise em.ops.add x attnNormed
    let normed2 ← normed em id (some layer) "pre_feedforward_layernorm" h1
    let mlp ← fwdSwiglu em layer normed2
    let mlpNormed ← normed em id (some layer) "post_feedforward_layernorm" mlp
    elementwise em.ops.add h1 mlpNormed
  else do
    let h1 ← elementwise em.ops.add x attn
    let normed2 ← normed em id (some layer) "post_attention_layernorm" h1
    let mlp ← fwdSwiglu em layer normed2
    elementwise em.ops.add h1 mlp

def fwdDecoderLayer (okKv : MlxCall → Bool) (kv : Kvcache M) (layer : Nat)
    (ple : Option (HeadRows M)) (x : Rows M) : Fallible (Kvcache M × Rows M) := do
  let normed1 ← normed em id (some layer) "input_layernorm" x
  let attn ← fwdAttention em okKv kv layer normed1
  let result ← behindAttention em layer x attn.2
  let result ←
    (match ple with
    | none => pure result
    | some ple => fwdPleApply em layer ple result)
  let result ← fwdLayerScalarApply em layer result
  return (attn.1, result)

/-- The next `count` layers. -/
def decoderLayers (okKv : Nat → MlxCall → Bool) (ple : Option (HeadRows M)) :
    Nat → Nat → Kvcache M → Rows M → Fallible (Kvcache M × Rows M)
  | _, 0, kv, h => pure (kv, h)
  | layer, count + 1, kv, h => do
    let out ← fwdDecoderLayer em (okKv layer) kv layer ple h
    decoderLayers okKv ple (layer + 1) count out.1 out.2

/-! ## The model -/

/-- The logits of the last position, one row for each batch. -/
def lastLogits (h : Rows M) : Fallible (List (List M.Elt)) := do
  let hNormed ← normed em id none "norm" h
  let sliced ← call (⟨hNormed.batch, 1, fun b _ =>
    (hNormed.get b (hNormed.len - 1)).take em.cfg.hiddenSize⟩ : Rows M)
  let lmBase :=
    if em.cfg.tieWordEmbeddings then tensorBuf em.cfg.toModelConfig none (ascii "embed_tokens")
    else ascii "lm_head"
  let tri ← weightsGetTriplet em lmBase
  let logits ← fwdLinear em sliced tri
  let logits ←
    (if 0 < em.cfg.finalLogitSoftcapping then fwdSoftcap em logits em.cfg.finalLogitSoftcapping
    else pure logits)
  let logits ← fitRows em.cfg.vocabSize logits
  return (List.range logits.batch).map fun b => logits.get b 0

/-- The cache afterwards, and the logits when they are wanted. -/
def modelForward (okKv : Nat → MlxCall → Bool) (kv : Kvcache M) (ids : Ids) (wantLogits : Bool) :
    Fallible (Kvcache M × Option (List (List M.Elt))) := do
  let h ← fwdEmbed em ids
  let ple ←
    (if 0 < em.cfg.hiddenSizePerLayerInput then some <$> fwdPleInputs em ids h
    else pure none)
  let out ← decoderLayers em okKv ple 0 em.cfg.numHiddenLayers kv h
  if wantLogits then
    let logits ← lastLogits em out.2
    return (out.1, some logits)
  else return (out.1, none)

end Pass

end Mlxd.Forward
