import Mathlib.Data.Rat.Defs
import Mathlib.Algebra.Order.Field.Rat
import Mlxd.Json

/-!
# The model configuration and the support gate

The fields of the configuration that the gate, the weight names and the forward pass read,
the per-layer functions over them, and `engine_model_check_supported`. The parser admits
finite floats only, so they are rationals here.
-/
namespace Mlxd.Model

open Mlxd.Unicode Mlxd.Json

inductive Family where
  | unknown | gemma3 | gemma4 | qwen2 | qwen3 | qwen35 | qwen35Moe | llama | mistral | lfm2
  | nemotronH | deepseekV3 | deepseekV32 | deepseekV4 | bert
  deriving DecidableEq, Repr

inductive HiddenAct where
  | silu | geluApprox | reluSq
  deriving DecidableEq, Repr

/-- The static prefixes a family can set. -/
inductive WeightPrefix where
  | empty | model | languageModel | backbone
  deriving DecidableEq, Repr

def WeightPrefix.text : WeightPrefix → Bytes
  | .empty => []
  | .model => ascii "model"
  | .languageModel => ascii "language_model.model"
  | .backbone => ascii "backbone"

def MLXD_MAX_LAYERS : Nat := 128

structure ModelConfig where
  numHiddenLayers : Nat
  family : Family
  weightPrefix : WeightPrefix
  headDim : Int
  ropeTheta : Rat
  ropeLocalBaseFreq : Rat
  ropeScalingType : Option Bytes
  ropeScalingFactor : Rat
  ropeLowFreqFactor : Rat
  ropeHighFreqFactor : Rat
  ropeOriginalMaxPositionEmbeddings : Int
  ropeProportional : Bool
  ropeProportionalFactor : Rat
  partialRotaryFactor : Rat
  partialRotaryFactorGlobal : Rat
  hasSlidingWindow : Bool
  slidingWindow : Int
  slidingWindowPattern : Int
  hasExplicitLayerTypes : Bool
  layerIsGlobal : Nat → Bool
  attentionBias : Bool
  quantBits : Int
  tieWordEmbeddings : Bool
  hiddenAct : HiddenAct
  normHasOffset : Bool
  scaleEmbeddings : Bool
  hasPreFfNorm : Bool
  hasQkNorm : Bool
  numExperts : Int
  linearNumKeyHeads : Int
  linearNumValueHeads : Int
  fullAttentionInterval : Int
  attnOutputGate : Bool
  hasHybridLayers : Bool
  useDoubleWideMlp : Bool
  globalHeadDim : Int
  numKvSharedLayers : Int
  hiddenSizePerLayerInput : Int
  attentionKEqV : Bool
  /-- The parser refuses more layers than the per-layer arrays hold. -/
  layers_le : numHiddenLayers ≤ MLXD_MAX_LAYERS

/-- One global gemma4 layer. -/
def oneLayerGemma4 (attentionBias : Bool) : ModelConfig where
  numHiddenLayers := 1
  family := .gemma4
  weightPrefix := .languageModel
  headDim := 256
  ropeTheta := 1000000
  ropeLocalBaseFreq := 10000
  ropeScalingType := none
  ropeScalingFactor := 1
  ropeLowFreqFactor := 1
  ropeHighFreqFactor := 1
  ropeOriginalMaxPositionEmbeddings := 0
  ropeProportional := true
  ropeProportionalFactor := 1
  partialRotaryFactor := 1
  partialRotaryFactorGlobal := 1
  hasSlidingWindow := true
  slidingWindow := 1024
  slidingWindowPattern := 0
  hasExplicitLayerTypes := true
  layerIsGlobal := fun layer => layer = 0
  attentionBias := attentionBias
  quantBits := 0
  tieWordEmbeddings := true
  hiddenAct := .geluApprox
  normHasOffset := false
  scaleEmbeddings := true
  hasPreFfNorm := true
  hasQkNorm := true
  numExperts := 0
  linearNumKeyHeads := 0
  linearNumValueHeads := 0
  fullAttentionInterval := 0
  attnOutputGate := false
  hasHybridLayers := false
  useDoubleWideMlp := false
  globalHeadDim := 512
  numKvSharedLayers := 0
  hiddenSizePerLayerInput := 256
  attentionKEqV := false
  layers_le := by decide

/-! ## Layers -/

def modelLayerIsGlobal (cfg : ModelConfig) (layer : Int) : Bool :=
  if cfg.hasExplicitLayerTypes then
    if layer < 0 ∨ (MLXD_MAX_LAYERS : Int) ≤ layer then true else cfg.layerIsGlobal layer.toNat
  else if !cfg.hasSlidingWindow then true
  else if cfg.slidingWindowPattern ≤ 0 then false
  else layer.tmod cfg.slidingWindowPattern = cfg.slidingWindowPattern - 1

def modelLayerHeadDim (cfg : ModelConfig) (layer : Int) : Int :=
  if 0 < cfg.globalHeadDim ∧ modelLayerIsGlobal cfg layer then cfg.globalHeadDim else cfg.headDim

def modelLayerKvShared (cfg : ModelConfig) (layer : Int) : Bool :=
  if cfg.numKvSharedLayers ≤ 0 then false
  else (cfg.numHiddenLayers : Int) - cfg.numKvSharedLayers ≤ layer

/-- The last layer below `n` of the wanted type. -/
def sourceBelow (cfg : ModelConfig) (targetGlobal : Bool) : Nat → Int
  | 0 => -1
  | i + 1 => if modelLayerIsGlobal cfg i = targetGlobal then i else sourceBelow cfg targetGlobal i

def modelKvSourceLayer (cfg : ModelConfig) (layer : Int) : Int :=
  if cfg.numKvSharedLayers ≤ 0 then -1
  else
    let boundary := (cfg.numHiddenLayers : Int) - cfg.numKvSharedLayers
    if layer < boundary then -1 else sourceBelow cfg (modelLayerIsGlobal cfg layer) boundary.toNat

/-! ## The support gate -/

/-- Stop with a message when the condition holds. -/
def reject (cond : Prop) [Decidable cond] (msg : String) : Except String Unit :=
  if cond then .error msg else .ok ()

/-- What a family may relax. -/
structure RejectFlags where
  allowPartialRope : Bool
  allowAttnGate : Bool
  allowSlidingWindow : Bool

def rejectDenseCommon (cfg : ModelConfig) (flags : RejectFlags) : Except String Unit := do
  reject cfg.attentionBias "attention_bias not supported"
  reject (!flags.allowSlidingWindow ∧ cfg.hasSlidingWindow) "sliding window attention not supported"
  reject (0 < cfg.numExperts) "MoE models not supported"
  reject cfg.hasHybridLayers "hybrid layer architectures not supported"
  reject (cfg.hiddenAct ≠ .silu) "only SiLU activation supported"
  reject cfg.normHasOffset "norm_has_offset not supported"
  reject cfg.scaleEmbeddings "scale_embeddings not supported"
  reject cfg.hasPreFfNorm "pre-feedforward norm not supported"
  reject (!flags.allowPartialRope ∧ cfg.partialRotaryFactor ≠ 1)
    "partial rotary embedding not supported"
  reject (!flags.allowAttnGate ∧ cfg.attnOutputGate) "attention output gate not supported"

def isLlama3 (cfg : ModelConfig) : Prop := cfg.ropeScalingType.map cstr = some (ascii "llama3")

instance (cfg : ModelConfig) : Decidable (isLlama3 cfg) := inferInstanceAs (Decidable (_ = _))

/-- The rotary scaling kinds of llama. -/
def llamaRopeType (t : Bytes) : Prop :=
  cstr t = ascii "linear" ∨ cstr t = ascii "llama3" ∨ cstr t = ascii "default"

instance (t : Bytes) : Decidable (llamaRopeType t) := inferInstanceAs (Decidable (_ ∨ _))

/-- `mulTrunc` is the float product of an integer and a factor, cut to an integer. -/
def engineModelCheckSupported (mulTrunc : Int → Rat → Int) (cfg : ModelConfig) :
    Except String Unit :=
  match cfg.family with
  | .qwen3 => do
    rejectDenseCommon cfg ⟨false, false, false⟩
    reject (cfg.ropeScalingType ≠ none) "RoPE scaling not supported"
  | .llama => do
    rejectDenseCommon cfg ⟨false, false, false⟩
    reject (∃ t ∈ cfg.ropeScalingType, ¬ llamaRopeType t) "unsupported RoPE scaling type"
    reject (isLlama3 cfg ∧ cfg.ropeScalingFactor ≤ 0) "llama3 rope_scaling_factor must be > 0"
    reject (isLlama3 cfg ∧ cfg.ropeOriginalMaxPositionEmbeddings ≤ 0)
      "llama3 rope_original_max_position_embeddings must be > 0"
    reject (isLlama3 cfg ∧ cfg.ropeLowFreqFactor ≤ 0) "llama3 rope_low_freq_factor must be > 0"
    reject (isLlama3 cfg ∧ cfg.ropeHighFreqFactor ≤ cfg.ropeLowFreqFactor)
      "llama3 rope_high_freq_factor must be > rope_low_freq_factor"
    reject cfg.hasQkNorm "qk_norm not supported for llama"
  | .mistral => do
    rejectDenseCommon cfg ⟨false, false, true⟩
    reject cfg.hasQkNorm "qk_norm not supported for mistral"
    reject (cfg.ropeScalingType ≠ none) "RoPE scaling not supported"
  | .gemma4 => do
    reject (0 < cfg.numExperts) "MoE models not supported"
    reject cfg.useDoubleWideMlp "use_double_wide_mlp not supported (E2B-class unverified)"
    reject (cfg.hiddenAct ≠ .geluApprox) "gemma4 requires gelu_pytorch_tanh activation"
    reject ((cfg.numHiddenLayers : Int) ≤ cfg.numKvSharedLayers)
      "num_kv_shared_layers must be < num_hidden_layers"
    reject (cfg.ropeProportional ∧ cfg.ropeProportionalFactor ≤ 0)
      "rope_proportional_factor must be > 0"
    reject (cfg.partialRotaryFactorGlobal ≤ 0 ∨ 1 < cfg.partialRotaryFactorGlobal)
      "partial_rotary_factor_global must be in (0, 1]"
    reject (cfg.partialRotaryFactor ≠ 1)
      "partial rotary embedding not supported (gemma4 uses rope_parameters.full_attention)"
    reject (∃ i < cfg.numHiddenLayers, modelLayerKvShared cfg i ∧ modelKvSourceLayer cfg i < 0)
      "KV-shared layer has no same-type source"
  | .qwen35 => do
    rejectDenseCommon cfg ⟨true, true, false⟩
    reject (0 < cfg.linearNumKeyHeads ∨ 0 < cfg.linearNumValueHeads)
      "linear attention / hybrid layers not supported"
    reject (cfg.hasExplicitLayerTypes ∧ ∃ i < cfg.numHiddenLayers, !cfg.layerIsGlobal i)
      "linear attention / hybrid layers not supported"
    reject (cfg.partialRotaryFactor ≤ 0 ∨ 1 < cfg.partialRotaryFactor)
      "partial_rotary_factor must be in (0, 1]"
    let dims := mulTrunc cfg.headDim cfg.partialRotaryFactor
    reject (dims < 2 ∨ dims % 2 ≠ 0)
      "partial_rotary_factor yields invalid rope dims (must be even, >= 2)"
    reject (1 < cfg.fullAttentionInterval)
      "full_attention_interval > 1 implies hybrid layers; not supported"
    reject (cfg.ropeScalingType ≠ none) "RoPE scaling not supported"
    reject (!cfg.attnOutputGate) "qwen3_5 requires attn_output_gate"
  | _ => .error
    "unsupported model family (only qwen3/llama/gemma4/qwen3_5/mistral dense supported)"

/-! ## Rotary frequencies -/

def fwdRopeProportionalFreqs (cfg : ModelConfig) (n : Int) : Bool :=
  cfg.ropeProportional && 2 ≤ cfg.globalHeadDim && cfg.globalHeadDim % 2 = 0 &&
    n = cfg.globalHeadDim / 2 && 0 < cfg.ropeProportionalFactor &&
    0 < cfg.partialRotaryFactorGlobal && cfg.partialRotaryFactorGlobal ≤ 1

def fwdRopeLlama3Freqs (cfg : ModelConfig) (n : Int) : Bool :=
  isLlama3 cfg && 2 ≤ cfg.headDim && cfg.headDim % 2 = 0 && n = cfg.headDim / 2 &&
    0 < cfg.ropeScalingFactor && 0 < cfg.ropeOriginalMaxPositionEmbeddings &&
    0 < cfg.ropeLowFreqFactor && cfg.ropeLowFreqFactor < cfg.ropeHighFreqFactor

/-- Whether a table was built; `none` fails the load. -/
def fwdRopeFreqsBuild (cfg : ModelConfig) : Option Bool :=
  if cfg.ropeProportional then
    if fwdRopeProportionalFreqs cfg (cfg.globalHeadDim.tdiv 2) then some true else none
  else if ¬ isLlama3 cfg then some false
  else if fwdRopeLlama3Freqs cfg (cfg.headDim.tdiv 2) then some true else none

end Mlxd.Model
