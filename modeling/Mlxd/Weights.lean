import Mlxd.ModelConfig

/-!
# Tensor names, the expected set and its validation

The names every family expects, and the checks of the merged tensor map against them.
-/
namespace Mlxd.Model

open Mlxd.Unicode Mlxd.Json

/-! ## Names -/

def decimal (n : Nat) : Bytes := (Nat.toDigits 10 n).map fun c => UInt8.ofNat c.toNat

/-- The whole text of a name; a scope outside the layers has no number. -/
def tensorText (cfg : ModelConfig) (layer : Option Nat) (suffix : Bytes) : Bytes :=
  let dotted := if cfg.weightPrefix.text = [] then [] else cfg.weightPrefix.text ++ ascii "."
  match layer with
  | none => dotted ++ suffix
  | some i => dotted ++ ascii "layers." ++ decimal i ++ ascii "." ++ suffix

def NAME_SIZE : Nat := 256

/-- A name that fits its buffer. -/
def weightsTensorName (cfg : ModelConfig) (layer : Option Nat) (suffix : Bytes) : Option Bytes :=
  let text := tensorText cfg layer suffix
  if text.length < NAME_SIZE then some text else none

/-- The buffer of a caller that does not look at the result. -/
def tensorBuf (cfg : ModelConfig) (layer : Option Nat) (suffix : Bytes) : Bytes :=
  (tensorText cfg layer suffix).take (NAME_SIZE - 1)

def dotWeight (base : Bytes) : Bytes := base ++ ascii ".weight"

/-! ## The expected set -/

inductive WeightKind where
  | embed | matmul | norm | bias | bare
  deriving DecidableEq, Repr

structure WeightExpected where
  name : Bytes
  kind : WeightKind

/-- One entry, unless its name does not fit. -/
def emitExpected (cfg : ModelConfig) (layer : Option Nat) (kind : WeightKind) (suffix : String) :
    List WeightExpected :=
  ((weightsTensorName cfg layer (ascii suffix)).map fun name => ⟨name, kind⟩).toList

def denseStdLayerMatmuls : List String :=
  ["self_attn.q_proj", "self_attn.k_proj", "self_attn.v_proj", "self_attn.o_proj",
    "mlp.gate_proj", "mlp.up_proj", "mlp.down_proj"]

def denseStdLayerNorms : List String := ["input_layernorm", "post_attention_layernorm"]

def denseStdLayerQkNorms : List String := ["self_attn.q_norm", "self_attn.k_norm"]

/-- The suffixes of a family; no family lists biases or extra tensors yet. -/
structure WeightsFamilyDesc where
  layerMatmuls : List String
  layerNorms : List String
  layerQkNorms : List String
  layerBiases : List String
  extraTensors : List (String × WeightKind)

def familyDesc : Family → Option WeightsFamilyDesc
  | .qwen3 | .qwen35 => some ⟨denseStdLayerMatmuls, denseStdLayerNorms, denseStdLayerQkNorms, [], []⟩
  | .llama | .mistral => some ⟨denseStdLayerMatmuls, denseStdLayerNorms, [], [], []⟩
  | _ => none

def lmHead (cfg : ModelConfig) : List WeightExpected :=
  if cfg.tieWordEmbeddings then [] else [⟨ascii "lm_head", .matmul⟩]

def descLayer (desc : WeightsFamilyDesc) (cfg : ModelConfig) (layer : Nat) : List WeightExpected :=
  desc.layerMatmuls.flatMap (emitExpected cfg (some layer) .matmul) ++
    (if cfg.attentionBias then desc.layerBiases.flatMap (emitExpected cfg (some layer) .bias)
      else []) ++
    desc.layerNorms.flatMap (emitExpected cfg (some layer) .norm) ++
    (if cfg.hasQkNorm then desc.layerQkNorms.flatMap (emitExpected cfg (some layer) .norm) else [])

def weightsExpectedNamesFromDesc (desc : WeightsFamilyDesc) (cfg : ModelConfig) :
    List WeightExpected :=
  emitExpected cfg none .embed "embed_tokens" ++
    (List.range cfg.numHiddenLayers).flatMap (descLayer desc cfg) ++
    emitExpected cfg none .norm "norm" ++ lmHead cfg ++
    desc.extraTensors.flatMap fun e => emitExpected cfg none e.2 e.1

/-- Emit under a condition. -/
def emitIf (cond : Bool) (entries : List WeightExpected) : List WeightExpected :=
  if cond then entries else []

def gemma4Layer (cfg : ModelConfig) (layer : Nat) : List WeightExpected :=
  let shared := modelLayerKvShared cfg layer
  let global := modelLayerIsGlobal cfg layer
  let emit := emitExpected cfg (some layer)
  emit .matmul "self_attn.q_proj" ++
    emitIf (!shared) (emit .matmul "self_attn.k_proj") ++
    emitIf (!shared && !(cfg.attentionKEqV && global)) (emit .matmul "self_attn.v_proj") ++
    emit .matmul "self_attn.o_proj" ++
    ["mlp.gate_proj", "mlp.up_proj", "mlp.down_proj"].flatMap (emit .matmul) ++
    emit .norm "input_layernorm" ++ emit .norm "post_attention_layernorm" ++
    emitIf cfg.hasPreFfNorm
      (emit .norm "pre_feedforward_layernorm" ++ emit .norm "post_feedforward_layernorm") ++
    emit .norm "self_attn.q_norm" ++
    emitIf (!shared) (emit .norm "self_attn.k_norm") ++
    emitIf (0 < cfg.hiddenSizePerLayerInput)
      (emit .matmul "per_layer_input_gate" ++ emit .matmul "per_layer_projection" ++
        emit .norm "post_per_layer_input_norm") ++
    emit .bare "layer_scalar"

def weightsExpectedNamesGemma4 (cfg : ModelConfig) : List WeightExpected :=
  emitExpected cfg none .embed "embed_tokens" ++
    (List.range cfg.numHiddenLayers).flatMap (gemma4Layer cfg) ++
    emitExpected cfg none .norm "norm" ++ lmHead cfg ++
    emitIf (0 < cfg.hiddenSizePerLayerInput)
      (emitExpected cfg none .embed "embed_tokens_per_layer" ++
        emitExpected cfg none .matmul "per_layer_model_projection" ++
        emitExpected cfg none .norm "per_layer_projection_norm")

/-- Empty for a family without a strict set. -/
def weightsExpectedNames (cfg : ModelConfig) : List WeightExpected :=
  if cfg.family = .gemma4 then weightsExpectedNamesGemma4 cfg
  else
    match familyDesc cfg.family with
    | none => []
    | some desc => weightsExpectedNamesFromDesc desc cfg

/-! ## Validation -/

inductive Dtype where
  | float16 | bfloat16 | float32 | float64 | uint32 | other (code : Nat)
  deriving DecidableEq, Repr

def dtypeIsFloating : Dtype → Bool
  | .float16 | .bfloat16 | .float32 | .float64 => true
  | _ => false

/-- The merged tensors, with their element types. -/
abbrev TensorMap := Bytes → Option Dtype

/-- What the validation reports. -/
inductive WeightError where
  | missing (name : Bytes)
  | nonFloat (what : String) (name : Bytes) (dtype : Dtype)
  | noQuantization (name : Bytes)
  | missingScales (base : Bytes)
  | unexpected (name : Bytes) (dtype : Dtype)
  deriving DecidableEq

/-- A tensor that has to be there and float. -/
def validateFloat (merged : TensorMap) (what : String) (name : Bytes) : Except WeightError Unit :=
  match merged name with
  | none => .error (.missing name)
  | some dt => if dtypeIsFloating dt then .ok () else .error (.nonFloat what name dt)

def validateQuantized (merged : TensorMap) (base : Bytes) : Except WeightError Unit :=
  match merged (base ++ ascii ".scales"), merged (base ++ ascii ".biases") with
  | some sdt, some bdt =>
    if ¬ dtypeIsFloating sdt then .error (.nonFloat "scales" (base ++ ascii ".scales") sdt)
    else if ¬ dtypeIsFloating bdt then .error (.nonFloat "biases" (base ++ ascii ".biases") bdt)
    else .ok ()
  | _, _ => .error (.missingScales base)

def validateOne (merged : TensorMap) (cfg : ModelConfig) (e : WeightExpected) :
    Except WeightError Unit :=
  match e.kind with
  | .bias => validateFloat merged "bias" e.name
  | .bare => validateFloat merged "bare" e.name
  | .norm => validateFloat merged "norm" (dotWeight e.name)
  | .embed | .matmul =>
    match merged (dotWeight e.name) with
    | none => .error (.missing (dotWeight e.name))
    | some .uint32 =>
      if cfg.quantBits ≤ 0 then .error (.noQuantization (dotWeight e.name))
      else validateQuantized merged e.name
    | some dt =>
      if dtypeIsFloating dt then .ok () else .error (.unexpected (dotWeight e.name) dt)

/-- The first failure, in the order of the list. -/
def weightsValidateExpected (merged : TensorMap) (cfg : ModelConfig) :
    List WeightExpected → Except WeightError Unit
  | [] => .ok ()
  | e :: rest => do
    validateOne merged cfg e
    weightsValidateExpected merged cfg rest

end Mlxd.Model
