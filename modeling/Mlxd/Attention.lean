import Mlxd.KvCache
import Mlxd.ModelConfig

/-!
# Attention over the cache

`fwd_attention` as far as positions go: where queries and keys are rotated, what goes into the
cache and comes out of it, and which mask the attention gets. The queries, keys and values of a
layer before their rotation are given with the call; a call that fails has no result.
-/
namespace Mlxd.Attention

open Mlxd.Unicode Mlxd.Json Mlxd.Model Mlxd.KvCache

/-! ## Rotation -/

/-- The arguments of `mlx_fast_rope` beside the array and its offset. -/
inductive Rotation where
  | table (dims : Int)
  | base (dims : Int) (base scale : Rat)
  deriving DecidableEq

def fwdRopeDimsPartial (mulTrunc : Int → Rat → Int) (cfg : ModelConfig) (headDim : Int) : Int :=
  let prf := cfg.partialRotaryFactor
  let dims := mulTrunc headDim prf
  if prf ≤ 0 ∨ 1 < prf then headDim
  else if dims ≤ 0 ∨ headDim < dims then headDim
  else dims

/-- `freqs` tells whether a frequency table was built. -/
def ropeArgs (freqs : Bool) (cfg : ModelConfig) (layer : Int) (dims : Int) : Option Rotation :=
  let global := modelLayerIsGlobal cfg layer
  if freqs && (!cfg.ropeProportional || global) then some (.table dims)
  else if isLlama3 cfg then none
  else if global then
    let simple := ∀ t ∈ cfg.ropeScalingType, cstr t = ascii "linear"
    let scale := if simple ∧ 0 < cfg.ropeScalingFactor then 1 / cfg.ropeScalingFactor else 1
    some (.base dims cfg.ropeTheta scale)
  else some (.base dims (if 0 < cfg.ropeLocalBaseFreq then cfg.ropeLocalBaseFreq else cfg.ropeTheta) 1)

/-! ## Masks -/

/-- Row and column allowed by the mask; a window needs a column for every row. -/
def fwdSlidingWindowMask (qLen kvLen : Nat) (window : Int) : Option (Nat → Nat → Bool) :=
  if qLen ≤ 0 ∨ kvLen ≤ 0 ∨ window ≤ 0 ∨ kvLen < qLen then none
  else some fun i j =>
    let diff : Int := ((kvLen : Int) - qLen + i) - j
    0 ≤ diff ∧ diff < window

/-- The mask argument of the attention. -/
inductive MaskMode where
  | none
  | causal
  | array (allowed : Nat → Nat → Bool)

/-- Whether row `i` of `qLen` attends column `j` of `kvLen`; the causal mode is aligned at the
lower right. -/
def MaskMode.attends (qLen kvLen : Nat) (i j : Nat) : MaskMode → Bool
  | .none => true
  | .causal => j + qLen ≤ kvLen + i
  | .array allowed => allowed i j

/-- A local layer of a configuration with a window. -/
def localAttn (cfg : ModelConfig) (layer : Int) : Bool :=
  !modelLayerIsGlobal cfg layer && cfg.hasSlidingWindow && 0 < cfg.slidingWindow

def maxKv (cfg : ModelConfig) (layer : Int) : Int :=
  if localAttn cfg layer then cfg.slidingWindow else 0

def maskMode (cfg : ModelConfig) (layer : Int) (qLen kvLen : Nat) : Option MaskMode :=
  if localAttn cfg layer ∧ 1 < qLen then
    (fwdSlidingWindowMask qLen kvLen cfg.slidingWindow).map .array
  else if localAttn cfg layer then some .none
  else if 1 < qLen then some .causal
  else some .none

/-! ## One layer -/

/-- A layer's queries, keys and values before their rotation, by batch, head, position and
component, and where the cache's MLX calls succeed. -/
structure LayerInput (M : Mlx) where
  q : M.Arr
  k : M.Arr
  v : M.Arr
  ok : MlxCall → Bool

/-- What the attention gets. -/
structure Sdpa (M : Mlx) where
  queries : M.Arr
  keys : M.Arr
  values : M.Arr
  mode : MaskMode

section Pass

variable (M : Mlx) (rope : Rotation → Nat → M.Arr → M.Arr) (mulTrunc : Int → Rat → Int)
  (freqs : Bool) (cfg : ModelConfig)

/-- The rotation of a layer. -/
def layerRotation (layer : Int) : Option Rotation :=
  ropeArgs freqs cfg layer (fwdRopeDimsPartial mulTrunc cfg (modelLayerHeadDim cfg layer))

def fwdRopeApply (layer offset : Int) (x : M.Arr) : Option M.Arr :=
  (layerRotation mulTrunc freqs cfg layer).map fun rotation => rope rotation offset.toNat x

/-- Queries over the positions another layer stored earlier in the same call. -/
def attendSource (kv : Kvcache M) (layer kvSrc : Int) (len : Nat) (x : LayerInput M) :
    Option (Kvcache M × M.Arr × M.Arr × M.Arr) := do
  let srcOffset := max (kvcacheLayerOffset M kv kvSrc - len) 0
  let q ← fwdRopeApply M rope mulTrunc freqs cfg layer srcOffset x.q
  match kvcacheView M x.ok kv kvSrc (maxKv cfg kvSrc) len (M.null, M.null) with
  | (0, kView, vView) => some (kv, q, kView, vView)
  | _ => none

/-- Queries over the layer's own positions, with the new ones appended. -/
def attendOwn (kv : Kvcache M) (layer : Int) (x : LayerInput M) :
    Option (Kvcache M × M.Arr × M.Arr × M.Arr) := do
  let offset := kvcacheLayerOffset M kv layer
  let q ← fwdRopeApply M rope mulTrunc freqs cfg layer offset x.q
  let k ← fwdRopeApply M rope mulTrunc freqs cfg layer offset x.k
  match kvcacheUpdate M x.ok kv layer k x.v (maxKv cfg layer) (M.null, M.null) with
  | (0, kv, kView, vView) => some (kv, q, kView, vView)
  | _ => none

def fwdAttention (kv : Kvcache M) (layer : Int) (len : Nat) (x : LayerInput M) :
    Option (Kvcache M × Sdpa M) := do
  let kvSrc := modelKvSourceLayer cfg layer
  if modelLayerKvShared cfg layer ∧ kvSrc < 0 then none
  else
    let (kv, q, kView, vView) ←
      if 0 ≤ kvSrc then attendSource M rope mulTrunc freqs cfg kv layer kvSrc len x
      else attendOwn M rope mulTrunc freqs cfg kv layer x
    let mode ← maskMode cfg layer len (M.dim kView 2)
    return (kv, ⟨q, kView, vView, mode⟩)

/-! ## All layers -/

/-- The positions of one call and what every layer makes of them. -/
structure ForwardCall (M : Mlx) where
  len : Nat
  input : Nat → LayerInput M

/-- The next `count` layers. -/
def forwardLayers (call : ForwardCall M) : Nat → Nat → Kvcache M →
    Option (Kvcache M × List (Sdpa M))
  | _, 0, kv => some (kv, [])
  | layer, count + 1, kv => do
    let (kv, a) ← fwdAttention M rope mulTrunc freqs cfg kv layer call.len (call.input layer)
    let (kv, rest) ← forwardLayers call (layer + 1) count kv
    return (kv, a :: rest)

/-- The attentions of a forward pass, layer by layer. -/
def modelForward (call : ForwardCall M) (kv : Kvcache M) : Option (Kvcache M × List (Sdpa M)) :=
  forwardLayers M rope mulTrunc freqs cfg call 0 cfg.numHiddenLayers kv

end Pass

end Mlxd.Attention
