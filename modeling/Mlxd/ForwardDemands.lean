import Mlxd.Weights

/-!
# What the forward pass asks of the loaded model

The tensors `model_forward` fetches without a fallback and the configuration branches it fails
in, in the order of the source. The pass fails at the first demand that is not met.
-/
namespace Mlxd.Model

open Mlxd.Unicode Mlxd.Json

inductive Demand where
  /-- A tensor of that name. -/
  | tensor (name : Bytes)
  /-- A weight, with its scales and biases when it is quantized. -/
  | triplet (base : Bytes)
  /-- A source for a layer that shares its keys and values. -/
  | source (layer : Nat)
  /-- A rotation for a layer. -/
  | rotation (layer : Nat)

/-- The scales and the biases are both there or both missing. -/
def TripletWhole (w : TensorMap) (base : Bytes) : Prop :=
  (w (base ++ ascii ".scales")).isSome = (w (base ++ ascii ".biases")).isSome

/-- Whether a demand is met; `freqs` tells whether a frequency table was built. -/
def Demand.Met (cfg : ModelConfig) (w : TensorMap) (freqs : Bool) : Demand → Prop
  | .tensor name => (w name).isSome
  | .triplet base =>
    (dotWeight base).length < NAME_SIZE ∧ (w (dotWeight base)).isSome ∧ TripletWhole w base
  | .source layer => ¬ (modelLayerKvShared cfg layer ∧ modelKvSourceLayer cfg layer < 0)
  | .rotation layer =>
    freqs = true ∧ (!cfg.ropeProportional || modelLayerIsGlobal cfg layer) ∨ ¬ isLlama3 cfg

section Fetch

variable (cfg : ModelConfig)

def fetchNorm (layer : Option Nat) (suffix : String) : List Demand :=
  [.tensor (dotWeight (tensorBuf cfg layer (ascii suffix)))]

def fetchTriplet (layer : Option Nat) (suffix : String) : List Demand :=
  [.triplet (tensorBuf cfg layer (ascii suffix))]

def addProjBias (layer : Nat) (suffix : String) : List Demand :=
  if cfg.attentionBias then [.tensor (tensorBuf cfg (some layer) (ascii suffix) ++ ascii ".bias")]
  else []

/-- A projection with its optional bias. -/
def projection (layer : Nat) (suffix : String) : List Demand :=
  fetchTriplet cfg (some layer) suffix ++ addProjBias cfg layer suffix

def qkNorm (layer : Nat) (suffix : String) : List Demand :=
  if cfg.hasQkNorm then fetchNorm cfg (some layer) suffix else []

def fwdEmbed : List Demand := fetchTriplet cfg none "embed_tokens"

def fwdPleInputs : List Demand :=
  fetchTriplet cfg none "embed_tokens_per_layer" ++
    fetchTriplet cfg none "per_layer_model_projection" ++
    fetchNorm cfg none "per_layer_projection_norm"

def fwdAttention (layer : Nat) : List Demand :=
  projection cfg layer "self_attn.q_proj" ++ qkNorm cfg layer "self_attn.q_norm" ++
    [.source layer, .rotation layer] ++
    (if 0 ≤ modelKvSourceLayer cfg layer then []
    else
      projection cfg layer "self_attn.k_proj" ++
        (if cfg.attentionKEqV && modelLayerIsGlobal cfg layer then []
          else projection cfg layer "self_attn.v_proj") ++
        qkNorm cfg layer "self_attn.k_norm" ++ [.rotation layer]) ++
    fetchTriplet cfg (some layer) "self_attn.o_proj"

def fwdSwiglu (layer : Nat) : List Demand :=
  ["mlp.gate_proj", "mlp.up_proj", "mlp.down_proj"].flatMap (fetchTriplet cfg (some layer))

/-- Without per-layer inputs there is nothing to apply. -/
def fwdPleApply (layer : Nat) : List Demand :=
  if cfg.hiddenSizePerLayerInput ≤ 0 then []
  else
    fetchTriplet cfg (some layer) "per_layer_input_gate" ++
      fetchTriplet cfg (some layer) "per_layer_projection" ++
      fetchNorm cfg (some layer) "post_per_layer_input_norm"

/-- Only gemma4 fails without the scalar. -/
def fwdLayerScalarApply (layer : Nat) : List Demand :=
  if cfg.family = .gemma4 then [.tensor (tensorBuf cfg (some layer) (ascii "layer_scalar"))] else []

def fwdDecoderLayer (layer : Nat) : List Demand :=
  fetchNorm cfg (some layer) "input_layernorm" ++ fwdAttention cfg layer ++
    fetchNorm cfg (some layer) "post_attention_layernorm" ++
    (if cfg.hasPreFfNorm then
      fetchNorm cfg (some layer) "pre_feedforward_layernorm" ++
        fetchNorm cfg (some layer) "post_feedforward_layernorm"
      else []) ++
    fwdSwiglu cfg layer ++ fwdPleApply cfg layer ++ fwdLayerScalarApply cfg layer

/-- The pass with logits; one without them stops before the final norm. -/
def modelForward : List Demand :=
  fwdEmbed cfg ++ (if 0 < cfg.hiddenSizePerLayerInput then fwdPleInputs cfg else []) ++
    (List.range cfg.numHiddenLayers).flatMap (fwdDecoderLayer cfg) ++
    fetchNorm cfg none "norm" ++
    (if cfg.tieWordEmbeddings then fetchTriplet cfg none "embed_tokens"
      else [.triplet (ascii "lm_head")])

end Fetch

end Mlxd.Model
