import Mlxd.ForwardDemands

/-!
# What the gate and the validation cover

For a configuration the gate accepts, every map that the validation accepts and that has no half
triplet meets all demands of the forward pass exactly when the configuration is covered: no
projection biases, per-layer inputs for gemma4 only, a source for every shared layer, and a
rotation for every layer.
-/
namespace Mlxd.Model

open Mlxd.Unicode Mlxd.Json

/-! ## Names fit their buffers -/

theorem decimal_length : ∀ i < MLXD_MAX_LAYERS, (decimal i).length ≤ 3 := by decide

theorem prefix_length (p : WeightPrefix) : p.text.length ≤ 20 := by
  cases p <;> decide

/-- A name in a layer, or outside of them. -/
def InLayers (cfg : ModelConfig) (layer : Option Nat) : Prop :=
  ∀ i ∈ layer, i < cfg.numHiddenLayers

theorem inLayers_none (cfg : ModelConfig) : InLayers cfg none := fun _ h => by simp at h

theorem inLayers_some {cfg : ModelConfig} {i : Nat} (h : i < cfg.numHiddenLayers) :
    InLayers cfg (some i) := fun j hj => by rwa [← Option.some.inj hj]

section Names

variable {cfg : ModelConfig} {layer : Option Nat} {suffix : Bytes}

/-- Even with `.weight` behind it the name is shorter than its buffer. -/
theorem tensorText_fits (hlayer : InLayers cfg layer) (hsuffix : suffix.length ≤ 26) :
    (tensorText cfg layer suffix).length + 7 < NAME_SIZE := by
  have hprefix := prefix_length cfg.weightPrefix
  have hdotted : (if cfg.weightPrefix.text = [] then [] else
      cfg.weightPrefix.text ++ ascii ".").length ≤ 21 := by
    split
    · exact Nat.zero_le _
    · rw [List.length_append, show (ascii ".").length = 1 by decide]
      omega
  cases layer with
  | none =>
    simp only [tensorText, List.length_append, NAME_SIZE]
    omega
  | some i =>
    have hi := decimal_length i ((hlayer i rfl).trans_le cfg.layers_le)
    simp only [tensorText, List.length_append, NAME_SIZE,
      show (ascii ".").length = 1 by decide, show (ascii "layers.").length = 7 by decide]
    omega

theorem tensorBuf_eq (hlayer : InLayers cfg layer) (hsuffix : suffix.length ≤ 26) :
    tensorBuf cfg layer suffix = tensorText cfg layer suffix := by
  have h := tensorText_fits hlayer hsuffix
  exact List.take_of_length_le (by omega)

theorem emitExpected_eq (hlayer : InLayers cfg layer) (kind : WeightKind) {suffix : String}
    (hsuffix : (ascii suffix).length ≤ 26) :
    emitExpected cfg layer kind suffix = [⟨tensorBuf cfg layer (ascii suffix), kind⟩] := by
  have h := tensorText_fits hlayer hsuffix
  have hfits : (tensorText cfg layer (ascii suffix)).length < NAME_SIZE := by omega
  rw [tensorBuf_eq hlayer hsuffix]
  simp only [emitExpected, weightsTensorName, if_pos hfits, Option.map_some, Option.toList_some]

theorem getLast?_append_right (l : Bytes) {r : Bytes} (h : r ≠ []) :
    (l ++ r).getLast? = r.getLast? := by
  rw [List.getLast?_append, List.getLast?_eq_some_getLast h]
  rfl

/-- A name ends as its suffix does. -/
theorem tensorBuf_last (hlayer : InLayers cfg layer) (hsuffix : suffix.length ≤ 26)
    (hne : suffix ≠ []) : (tensorBuf cfg layer suffix).getLast? = suffix.getLast? := by
  rw [tensorBuf_eq hlayer hsuffix]
  cases layer with
  | none => exact getLast?_append_right _ hne
  | some i => exact getLast?_append_right _ hne

end Names

/-! ## Validated maps -/

/-- The tensor an entry stands for. -/
def WeightExpected.key (e : WeightExpected) : Bytes :=
  match e.kind with
  | .bias | .bare => e.name
  | .embed | .matmul | .norm => dotWeight e.name

theorem validateFloat_present {merged : TensorMap} {what : String} {name : Bytes}
    (h : validateFloat merged what name = .ok ()) : (merged name).isSome := by
  rw [validateFloat] at h
  split at h
  · contradiction
  · rename_i hname
    rw [hname]
    rfl

theorem validateOne_present {merged : TensorMap} {cfg : ModelConfig} {e : WeightExpected}
    (h : validateOne merged cfg e = .ok ()) : (merged e.key).isSome := by
  obtain ⟨name, kind⟩ := e
  have hmatmul : ∀ k, k = WeightKind.embed ∨ k = .matmul →
      validateOne merged cfg ⟨name, k⟩ = .ok () → (merged (dotWeight name)).isSome := by
    intro k hk hv
    cases hname : merged (dotWeight name) with
    | none => rcases hk with rfl | rfl <;> simp [validateOne, hname] at hv
    | some dt => rfl
  cases kind with
  | bias => exact validateFloat_present h
  | bare => exact validateFloat_present h
  | norm => exact validateFloat_present h
  | embed => exact hmatmul _ (.inl rfl) h
  | matmul => exact hmatmul _ (.inr rfl) h

theorem validated_present {merged : TensorMap} {cfg : ModelConfig} {expected : List WeightExpected}
    (h : weightsValidateExpected merged cfg expected = .ok ()) :
    ∀ e ∈ expected, (merged e.key).isSome := by
  induction expected with
  | nil => exact fun e he => absurd he List.not_mem_nil
  | cons e rest ih =>
    rw [weightsValidateExpected] at h
    cases hone : validateOne merged cfg e with
    | error err =>
      rw [hone] at h
      contradiction
    | ok u =>
      rw [hone] at h
      intro e' he'
      rcases List.mem_cons.mp he' with rfl | he'
      · exact validateOne_present hone
      · exact ih h e' he'

/-- The map of exactly the given tensors, all float. -/
def exactMap (expected : List WeightExpected) : TensorMap := fun name =>
  if name ∈ expected.map WeightExpected.key then some .float16 else none

theorem exactMap_isSome {expected : List WeightExpected} {name : Bytes} :
    (exactMap expected name).isSome ↔ ∃ e ∈ expected, e.key = name := by
  rw [exactMap, ← List.mem_map]
  split
  · rename_i h
    exact ⟨fun _ => h, fun _ => rfl⟩
  · rename_i h
    exact ⟨fun hs => by simp at hs, fun hs => absurd hs h⟩

theorem exactMap_validated (cfg : ModelConfig) (expected : List WeightExpected) :
    weightsValidateExpected (exactMap expected) cfg expected = .ok () := by
  have hone : ∀ e ∈ expected, validateOne (exactMap expected) cfg e = .ok () := by
    intro e he
    have hkey : exactMap expected e.key = some .float16 := if_pos (List.mem_map_of_mem he)
    obtain ⟨name, kind⟩ := e
    cases kind <;> simp_all [validateOne, validateFloat, WeightExpected.key, dtypeIsFloating]
  have hall : ∀ l : List WeightExpected, (∀ e ∈ l, validateOne (exactMap expected) cfg e = .ok ()) →
      weightsValidateExpected (exactMap expected) cfg l = .ok () := by
    intro l
    induction l with
    | nil => exact fun _ => rfl
    | cons e rest ih =>
      intro h
      rw [weightsValidateExpected, h e List.mem_cons_self]
      exact ih fun e' he' => h e' (List.mem_cons_of_mem _ he')
  exact hall expected hone

/-! ## What the gate leaves -/

theorem reject_ok {cond : Prop} [Decidable cond] {msg : String} {α : Type}
    {next : Unit → Except String α} {a : α} :
    (reject cond msg >>= next) = .ok a ↔ ¬ cond ∧ next () = .ok a := by
  rw [reject]
  split
  · rename_i h
    simp [h, bind, Except.bind]
  · rename_i h
    simp [h, bind, Except.bind]

theorem reject_ok' {cond : Prop} [Decidable cond] {msg : String} :
    reject cond msg = .ok () ↔ ¬ cond := by
  rw [reject]
  split
  · rename_i h
    simp [h]
  · rename_i h
    simp [h]

theorem dense_ok {cfg : ModelConfig} {flags : RejectFlags} {α : Type}
    {next : Unit → Except String α} {a : α} (h : (rejectDenseCommon cfg flags >>= next) = .ok a) :
    (cfg.attentionBias = false ∧ cfg.hasPreFfNorm = false) ∧ next () = .ok a := by
  simp only [rejectDenseCommon, bind_assoc, reject_ok, Bool.not_eq_true] at h
  obtain ⟨hbias, -, -, -, -, -, -, hpre, -, -, hnext⟩ := h
  exact ⟨⟨hbias, hpre⟩, hnext⟩

/-- A dense family that passes the gate. -/
structure DenseOk (cfg : ModelConfig) (desc : WeightsFamilyDesc) : Prop where
  family : cfg.family ≠ .gemma4
  listed : familyDesc cfg.family = some desc
  matmuls : desc.layerMatmuls = denseStdLayerMatmuls
  norms : desc.layerNorms = denseStdLayerNorms
  qkNorms : desc.layerQkNorms = denseStdLayerQkNorms ∨
    desc.layerQkNorms = [] ∧ cfg.hasQkNorm = false
  biases : desc.layerBiases = []
  extras : desc.extraTensors = []
  bias : cfg.attentionBias = false
  preFf : cfg.hasPreFfNorm = false

/-- A gemma4 that passes the gate. -/
structure Gemma4Ok (cfg : ModelConfig) : Prop where
  family : cfg.family = .gemma4
  sources : ∀ i < cfg.numHiddenLayers, modelLayerKvShared cfg i = true →
    0 ≤ modelKvSourceLayer cfg i

theorem supported_cases {mulTrunc : Int → Rat → Int} {cfg : ModelConfig}
    (h : engineModelCheckSupported mulTrunc cfg = .ok ()) :
    (∃ desc, DenseOk cfg desc) ∨ Gemma4Ok cfg := by
  rw [engineModelCheckSupported] at h
  cases hfamily : cfg.family with
  | qwen3 =>
    rw [hfamily] at h
    obtain ⟨⟨hbias, hpre⟩, -⟩ := dense_ok h
    exact .inl ⟨_, by rw [hfamily]; decide, by rw [hfamily]; rfl, rfl, rfl, .inl rfl, rfl, rfl,
      hbias, hpre⟩
  | qwen35 =>
    rw [hfamily] at h
    obtain ⟨⟨hbias, hpre⟩, -⟩ := dense_ok h
    exact .inl ⟨_, by rw [hfamily]; decide, by rw [hfamily]; rfl, rfl, rfl, .inl rfl, rfl, rfl,
      hbias, hpre⟩
  | llama =>
    rw [hfamily] at h
    obtain ⟨⟨hbias, hpre⟩, h⟩ := dense_ok h
    simp only [reject_ok, reject_ok', Bool.not_eq_true] at h
    exact .inl ⟨_, by rw [hfamily]; decide, by rw [hfamily]; rfl, rfl, rfl,
      .inr ⟨rfl, h.2.2.2.2.2⟩, rfl, rfl, hbias, hpre⟩
  | mistral =>
    rw [hfamily] at h
    obtain ⟨⟨hbias, hpre⟩, h⟩ := dense_ok h
    simp only [reject_ok, reject_ok', Bool.not_eq_true] at h
    exact .inl ⟨_, by rw [hfamily]; decide, by rw [hfamily]; rfl, rfl, rfl,
      .inr ⟨rfl, h.1⟩, rfl, rfl, hbias, hpre⟩
  | gemma4 =>
    rw [hfamily] at h
    simp only [reject_ok, reject_ok'] at h
    obtain ⟨-, -, -, -, -, -, -, hsources⟩ := h
    refine .inr ⟨hfamily, fun i hi hshared => ?_⟩
    by_contra hneg
    exact hsources ⟨i, hi, hshared, by omega⟩
  | _ =>
    rw [hfamily] at h
    contradiction

/-! ## What validation supplies -/

/-- The weight of a scope and suffix is there, under a name that fits its buffer. -/
structure Has (cfg : ModelConfig) (w : TensorMap) (layer : Option Nat) (suffix : String) :
    Prop where
  there : (w (dotWeight (tensorBuf cfg layer (ascii suffix)))).isSome
  fits : (dotWeight (tensorBuf cfg layer (ascii suffix))).length < NAME_SIZE

/-- All tensors a layer of the forward pass uses, biases apart. -/
structure LayerSupplied (cfg : ModelConfig) (w : TensorMap) (layer : Nat) : Prop where
  query : Has cfg w (some layer) "self_attn.q_proj"
  queryNorm : cfg.hasQkNorm = true → Has cfg w (some layer) "self_attn.q_norm"
  key : modelKvSourceLayer cfg layer < 0 → Has cfg w (some layer) "self_attn.k_proj"
  value : modelKvSourceLayer cfg layer < 0 →
    (cfg.attentionKEqV && modelLayerIsGlobal cfg layer) = false →
    Has cfg w (some layer) "self_attn.v_proj"
  keyNorm : modelKvSourceLayer cfg layer < 0 → cfg.hasQkNorm = true →
    Has cfg w (some layer) "self_attn.k_norm"
  out : Has cfg w (some layer) "self_attn.o_proj"
  mlp : ∀ suffix ∈ ["mlp.gate_proj", "mlp.up_proj", "mlp.down_proj"],
    Has cfg w (some layer) suffix
  inputNorm : Has cfg w (some layer) "input_layernorm"
  attnNorm : Has cfg w (some layer) "post_attention_layernorm"
  ffNorms : cfg.hasPreFfNorm = true → Has cfg w (some layer) "pre_feedforward_layernorm" ∧
    Has cfg w (some layer) "post_feedforward_layernorm"
  perLayer : 0 < cfg.hiddenSizePerLayerInput → cfg.family = .gemma4 →
    Has cfg w (some layer) "per_layer_input_gate" ∧
      Has cfg w (some layer) "per_layer_projection" ∧
      Has cfg w (some layer) "post_per_layer_input_norm"
  scalar : cfg.family = .gemma4 →
    (w (tensorBuf cfg (some layer) (ascii "layer_scalar"))).isSome

structure Supplied (cfg : ModelConfig) (w : TensorMap) : Prop where
  embed : Has cfg w none "embed_tokens"
  perLayer : 0 < cfg.hiddenSizePerLayerInput → cfg.family = .gemma4 →
    Has cfg w none "embed_tokens_per_layer" ∧ Has cfg w none "per_layer_model_projection" ∧
      Has cfg w none "per_layer_projection_norm"
  layers : ∀ layer < cfg.numHiddenLayers, LayerSupplied cfg w layer
  norm : Has cfg w none "norm"
  head : cfg.tieWordEmbeddings = false → (w (dotWeight (ascii "lm_head"))).isSome

section Supply

variable {cfg : ModelConfig} {w : TensorMap} {layer : Option Nat} {suffix : String}

/-- Kinds whose tensor is the name with `.weight` behind it. -/
def WeightKind.dotted : WeightKind → Bool
  | .embed | .matmul | .norm => true
  | .bias | .bare => false

theorem has_of_emitted (kind : WeightKind) {expected : List WeightExpected}
    (hvalid : ∀ e ∈ expected, (w e.key).isSome) (hlayer : InLayers cfg layer)
    (hsuffix : (ascii suffix).length ≤ 26) (hkind : kind.dotted = true)
    (hemit : ∀ e ∈ emitExpected cfg layer kind suffix, e ∈ expected) : Has cfg w layer suffix := by
  have hmem := hemit ⟨tensorBuf cfg layer (ascii suffix), kind⟩
    (by rw [emitExpected_eq hlayer kind hsuffix]; exact List.mem_singleton_self _)
  have hkey := hvalid _ hmem
  have hfits : (dotWeight (tensorBuf cfg layer (ascii suffix))).length < NAME_SIZE := by
    have h := tensorText_fits hlayer hsuffix
    rw [tensorBuf_eq hlayer hsuffix, dotWeight, List.length_append,
      show (ascii ".weight").length = 7 by decide]
    exact h
  cases kind with
  | bias => contradiction
  | bare => contradiction
  | embed => exact ⟨hkey, hfits⟩
  | matmul => exact ⟨hkey, hfits⟩
  | norm => exact ⟨hkey, hfits⟩

theorem mem_layers {entries : Nat → List WeightExpected} {i : Nat}
    (hi : i < cfg.numHiddenLayers) {e : WeightExpected} (he : e ∈ entries i) :
    e ∈ (List.range cfg.numHiddenLayers).flatMap entries :=
  List.mem_flatMap.mpr ⟨i, List.mem_range.mpr hi, he⟩

/-! ### Dense families -/

theorem DenseOk.names {desc : WeightsFamilyDesc} (h : DenseOk cfg desc) :
    weightsExpectedNames cfg = weightsExpectedNamesFromDesc desc cfg := by
  rw [weightsExpectedNames, if_neg h.family, h.listed]

theorem dense_layer {desc : WeightsFamilyDesc} (h : DenseOk cfg desc)
    (hvalid : ∀ e ∈ weightsExpectedNames cfg, (w e.key).isSome) {i : Nat}
    (hi : i < cfg.numHiddenLayers) (kind : WeightKind) (hkind : kind.dotted = true)
    (hsuffix : (ascii suffix).length ≤ 26)
    (hemit : ∀ e ∈ emitExpected cfg (some i) kind suffix, e ∈ descLayer desc cfg i) :
    Has cfg w (some i) suffix := by
  refine has_of_emitted kind hvalid (inLayers_some hi) hsuffix hkind fun e he => ?_
  rw [h.names]
  simp only [weightsExpectedNamesFromDesc, List.mem_append]
  exact .inl (.inl (.inl (.inr (mem_layers hi (hemit e he)))))

theorem dense_matmul {desc : WeightsFamilyDesc} (h : DenseOk cfg desc)
    (hvalid : ∀ e ∈ weightsExpectedNames cfg, (w e.key).isSome) {i : Nat}
    (hi : i < cfg.numHiddenLayers) (hmem : suffix ∈ denseStdLayerMatmuls) :
    Has cfg w (some i) suffix := by
  have hshort : ∀ s ∈ denseStdLayerMatmuls, (ascii s).length ≤ 26 := by decide
  refine dense_layer h hvalid hi .matmul rfl (hshort suffix hmem) fun e he => ?_
  simp only [descLayer, List.mem_append, List.mem_flatMap]
  exact .inl (.inl (.inl ⟨suffix, h.matmuls ▸ hmem, he⟩))

theorem dense_norm {desc : WeightsFamilyDesc} (h : DenseOk cfg desc)
    (hvalid : ∀ e ∈ weightsExpectedNames cfg, (w e.key).isSome) {i : Nat}
    (hi : i < cfg.numHiddenLayers) (hmem : suffix ∈ denseStdLayerNorms) :
    Has cfg w (some i) suffix := by
  have hshort : ∀ s ∈ denseStdLayerNorms, (ascii s).length ≤ 26 := by decide
  refine dense_layer h hvalid hi .norm rfl (hshort suffix hmem) fun e he => ?_
  simp only [descLayer, List.mem_append, List.mem_flatMap]
  exact .inl (.inr ⟨suffix, h.norms ▸ hmem, he⟩)

theorem dense_qkNorm {desc : WeightsFamilyDesc} (h : DenseOk cfg desc)
    (hvalid : ∀ e ∈ weightsExpectedNames cfg, (w e.key).isSome) {i : Nat}
    (hi : i < cfg.numHiddenLayers) (hqk : cfg.hasQkNorm = true)
    (hmem : suffix ∈ denseStdLayerQkNorms) : Has cfg w (some i) suffix := by
  have hshort : ∀ s ∈ denseStdLayerQkNorms, (ascii s).length ≤ 26 := by decide
  have hnorms : desc.layerQkNorms = denseStdLayerQkNorms := by
    rcases h.qkNorms with hnorms | ⟨-, hno⟩
    · exact hnorms
    · rw [hno] at hqk
      contradiction
  refine dense_layer h hvalid hi .norm rfl (hshort suffix hmem) fun e he => ?_
  simp only [descLayer, List.mem_append, List.mem_flatMap, hqk, if_true]
  exact .inr ⟨suffix, hnorms ▸ hmem, he⟩

theorem lmHead_present {expected : List WeightExpected}
    (hvalid : ∀ e ∈ expected, (w e.key).isSome) (hemit : ∀ e ∈ lmHead cfg, e ∈ expected)
    (htie : cfg.tieWordEmbeddings = false) : (w (dotWeight (ascii "lm_head"))).isSome := by
  have hmem : (⟨ascii "lm_head", .matmul⟩ : WeightExpected) ∈ lmHead cfg := by
    rw [lmHead, htie]
    exact List.mem_singleton_self _
  exact hvalid _ (hemit _ hmem)

theorem dense_supplied {desc : WeightsFamilyDesc} (h : DenseOk cfg desc)
    (hvalid : ∀ e ∈ weightsExpectedNames cfg, (w e.key).isSome) : Supplied cfg w where
  embed := by
    refine has_of_emitted .embed hvalid (inLayers_none cfg) (by decide) rfl fun e he => ?_
    simp [h.names, weightsExpectedNamesFromDesc, he]
  perLayer := fun _ hfamily => absurd hfamily h.family
  layers := fun layer hlayer =>
    { query := dense_matmul h hvalid hlayer (by decide)
      queryNorm := fun hqk => dense_qkNorm h hvalid hlayer hqk (by decide)
      key := fun _ => dense_matmul h hvalid hlayer (by decide)
      value := fun _ _ => dense_matmul h hvalid hlayer (by decide)
      keyNorm := fun _ hqk => dense_qkNorm h hvalid hlayer hqk (by decide)
      out := dense_matmul h hvalid hlayer (by decide)
      mlp := by
        have hmlp : ∀ suffix ∈ ["mlp.gate_proj", "mlp.up_proj", "mlp.down_proj"],
          suffix ∈ denseStdLayerMatmuls := by decide
        exact fun suffix hsuffix => dense_matmul h hvalid hlayer (hmlp suffix hsuffix)
      inputNorm := dense_norm h hvalid hlayer (by decide)
      attnNorm := dense_norm h hvalid hlayer (by decide)
      ffNorms := fun hff => by
        rw [h.preFf] at hff
        contradiction
      perLayer := fun _ hfamily => absurd hfamily h.family
      scalar := fun hfamily => absurd hfamily h.family }
  norm := by
    refine has_of_emitted .norm hvalid (inLayers_none cfg) (by decide) rfl fun e he => ?_
    simp [h.names, weightsExpectedNamesFromDesc, he]
  head := by
    refine lmHead_present hvalid fun e he => ?_
    simp [h.names, weightsExpectedNamesFromDesc, he]

/-! ### gemma4 -/

theorem Gemma4Ok.names (h : Gemma4Ok cfg) :
    weightsExpectedNames cfg = weightsExpectedNamesGemma4 cfg := by
  rw [weightsExpectedNames, if_pos h.family]

/-- Only a layer without a source below owns its keys and values. -/
theorem Gemma4Ok.owning (h : Gemma4Ok cfg) {i : Nat} (hi : i < cfg.numHiddenLayers)
    (hsource : modelKvSourceLayer cfg i < 0) : modelLayerKvShared cfg i = false := by
  by_contra hshared
  have := h.sources i hi (by simpa using hshared)
  omega

theorem gemma4_layer_mem (h : Gemma4Ok cfg) {i : Nat} (hi : i < cfg.numHiddenLayers)
    {e : WeightExpected} (he : e ∈ gemma4Layer cfg i) : e ∈ weightsExpectedNames cfg := by
  rw [h.names]
  simp only [weightsExpectedNamesGemma4, List.mem_append]
  exact .inl (.inl (.inl (.inr (mem_layers hi he))))

theorem gemma4_layer (h : Gemma4Ok cfg)
    (hvalid : ∀ e ∈ weightsExpectedNames cfg, (w e.key).isSome) {i : Nat}
    (hi : i < cfg.numHiddenLayers) (kind : WeightKind) (hkind : kind.dotted = true)
    (hsuffix : (ascii suffix).length ≤ 26)
    (hemit : ∀ e ∈ emitExpected cfg (some i) kind suffix, e ∈ gemma4Layer cfg i) :
    Has cfg w (some i) suffix :=
  has_of_emitted kind hvalid (inLayers_some hi) hsuffix hkind fun e he =>
    gemma4_layer_mem h hi (hemit e he)

/-- What every layer emits. -/
def gemma4Always : List (WeightKind × String) :=
  [(.matmul, "self_attn.q_proj"), (.matmul, "self_attn.o_proj"), (.matmul, "mlp.gate_proj"),
    (.matmul, "mlp.up_proj"), (.matmul, "mlp.down_proj"), (.norm, "input_layernorm"),
    (.norm, "post_attention_layernorm"), (.norm, "self_attn.q_norm")]

theorem gemma4_always (h : Gemma4Ok cfg)
    (hvalid : ∀ e ∈ weightsExpectedNames cfg, (w e.key).isSome) {i : Nat}
    (hi : i < cfg.numHiddenLayers) (hmem : suffix ∈ gemma4Always.map Prod.snd) :
    Has cfg w (some i) suffix := by
  have hfits : ∀ p ∈ gemma4Always, p.1.dotted ∧ (ascii p.2).length ≤ 26 := by decide
  obtain ⟨p, hp, rfl⟩ := List.mem_map.mp hmem
  refine gemma4_layer h hvalid hi p.1 (hfits p hp).1 (hfits p hp).2 fun e he => ?_
  simp only [gemma4Always, List.mem_cons, List.not_mem_nil, or_false] at hp
  rcases hp with rfl | rfl | rfl | rfl | rfl | rfl | rfl | rfl <;> simp [gemma4Layer, he]

theorem gemma4_layer_supplied (h : Gemma4Ok cfg)
    (hvalid : ∀ e ∈ weightsExpectedNames cfg, (w e.key).isSome) {i : Nat}
    (hi : i < cfg.numHiddenLayers) : LayerSupplied cfg w i where
  query := gemma4_always h hvalid hi (by decide)
  queryNorm := fun _ => gemma4_always h hvalid hi (by decide)
  key := fun hsource => by
    refine gemma4_layer h hvalid hi .matmul rfl (by decide) fun e he => ?_
    simp [gemma4Layer, emitIf, h.owning hi hsource, he]
  value := fun hsource hkeqv => by
    refine gemma4_layer h hvalid hi .matmul rfl (by decide) fun e he => ?_
    simp [gemma4Layer, emitIf, h.owning hi hsource, hkeqv, he]
  keyNorm := fun hsource _ => by
    refine gemma4_layer h hvalid hi .norm rfl (by decide) fun e he => ?_
    simp [gemma4Layer, emitIf, h.owning hi hsource, he]
  out := gemma4_always h hvalid hi (by decide)
  mlp := by
    have hmlp : ∀ suffix ∈ ["mlp.gate_proj", "mlp.up_proj", "mlp.down_proj"],
      suffix ∈ gemma4Always.map Prod.snd := by decide
    exact fun suffix hsuffix => gemma4_always h hvalid hi (hmlp suffix hsuffix)
  inputNorm := gemma4_always h hvalid hi (by decide)
  attnNorm := gemma4_always h hvalid hi (by decide)
  ffNorms := fun hff => by
    refine ⟨gemma4_layer h hvalid hi .norm rfl (by decide) fun e he => ?_,
      gemma4_layer h hvalid hi .norm rfl (by decide) fun e he => ?_⟩
    all_goals simp [gemma4Layer, emitIf, hff, he]
  perLayer := fun hper _ => by
    refine ⟨gemma4_layer h hvalid hi .matmul rfl (by decide) fun e he => ?_,
      gemma4_layer h hvalid hi .matmul rfl (by decide) fun e he => ?_,
      gemma4_layer h hvalid hi .norm rfl (by decide) fun e he => ?_⟩
    all_goals simp [gemma4Layer, emitIf, hper, he]
  scalar := fun _ => by
    have hemit := emitExpected_eq (inLayers_some hi) .bare
      (show (ascii "layer_scalar").length ≤ 26 by decide)
    refine hvalid ⟨tensorBuf cfg (some i) (ascii "layer_scalar"), .bare⟩
      (gemma4_layer_mem h hi (List.mem_append_right _ ?_))
    rw [hemit]
    exact List.mem_singleton_self _

theorem gemma4_supplied (h : Gemma4Ok cfg)
    (hvalid : ∀ e ∈ weightsExpectedNames cfg, (w e.key).isSome) : Supplied cfg w where
  embed := by
    refine has_of_emitted .embed hvalid (inLayers_none cfg) (by decide) rfl fun e he => ?_
    simp [h.names, weightsExpectedNamesGemma4, he]
  perLayer := fun hper _ => by
    refine ⟨has_of_emitted .embed hvalid (inLayers_none cfg) (by decide) rfl fun e he => ?_,
      has_of_emitted .matmul hvalid (inLayers_none cfg) (by decide) rfl fun e he => ?_,
      has_of_emitted .norm hvalid (inLayers_none cfg) (by decide) rfl fun e he => ?_⟩
    all_goals simp [h.names, weightsExpectedNamesGemma4, emitIf, hper, he]
  layers := fun _ hlayer => gemma4_layer_supplied h hvalid hlayer
  norm := by
    refine has_of_emitted .norm hvalid (inLayers_none cfg) (by decide) rfl fun e he => ?_
    simp [h.names, weightsExpectedNamesGemma4, he]
  head := lmHead_present hvalid fun e he => by simp [h.names, weightsExpectedNamesGemma4, he]

end Supply

/-! ## What supplied tensors meet -/

/-- What the gate would have to leave for the forward pass. -/
structure Covered (cfg : ModelConfig) : Prop where
  bias : cfg.attentionBias = true → cfg.numHiddenLayers = 0
  perLayer : 0 < cfg.hiddenSizePerLayerInput → cfg.family = .gemma4
  source : ∀ layer < cfg.numHiddenLayers, modelLayerKvShared cfg layer = true →
    0 ≤ modelKvSourceLayer cfg layer
  rotation : isLlama3 cfg → cfg.ropeProportional = true →
    ∀ layer < cfg.numHiddenLayers, modelLayerIsGlobal cfg layer = true

/-- Met, unless it is a triplet that is not whole. -/
def Demand.Present (cfg : ModelConfig) (w : TensorMap) (freqs : Bool) (d : Demand) : Prop :=
  (∀ base, d = .triplet base → TripletWhole w base) → d.Met cfg w freqs

section Meets

variable {cfg : ModelConfig} {w : TensorMap} {freqs : Bool}

theorem build_rotation (hbuild : fwdRopeFreqsBuild cfg = some freqs) {layer : Nat} :
    (Demand.rotation layer).Met cfg w freqs ↔
      (isLlama3 cfg → cfg.ropeProportional = true → modelLayerIsGlobal cfg layer = true) := by
  rw [fwdRopeFreqsBuild] at hbuild
  simp only [Demand.Met]
  by_cases hllama : isLlama3 cfg
  · have hfreqs : freqs = true := by
      simp only [hllama, not_true_eq_false, if_false] at hbuild
      split at hbuild <;> split at hbuild <;> simp_all
    cases hprop : cfg.ropeProportional <;> simp [hllama, hfreqs]
  · simp [hllama]

theorem fetchNorm_present {layer : Option Nat} {suffix : String} (h : Has cfg w layer suffix) :
    ∀ d ∈ fetchNorm cfg layer suffix, d.Present cfg w freqs := by
  intro d hd _
  rw [List.mem_singleton.mp hd]
  exact h.there

theorem fetchTriplet_present {layer : Option Nat} {suffix : String} (h : Has cfg w layer suffix) :
    ∀ d ∈ fetchTriplet cfg layer suffix, d.Present cfg w freqs := by
  intro d hd hwhole
  rw [List.mem_singleton.mp hd] at hwhole ⊢
  exact ⟨h.fits, h.there, hwhole _ rfl⟩

theorem projection_present {layer : Nat} {suffix : String} (hcovered : Covered cfg)
    (hlayer : layer < cfg.numHiddenLayers) (h : Has cfg w (some layer) suffix) :
    ∀ d ∈ projection cfg layer suffix, d.Present cfg w freqs := by
  have hbias : cfg.attentionBias = false := by
    cases hb : cfg.attentionBias with
    | false => rfl
    | true =>
      have := hcovered.bias hb
      omega
  rw [projection, addProjBias, hbias]
  simpa using fetchTriplet_present h

theorem qkNorm_present {layer : Nat} {suffix : String}
    (h : cfg.hasQkNorm = true → Has cfg w (some layer) suffix) :
    ∀ d ∈ qkNorm cfg layer suffix, d.Present cfg w freqs := by
  rw [qkNorm]
  split
  · rename_i hqk
    exact fetchNorm_present (h hqk)
  · exact fun d hd => absurd hd List.not_mem_nil

theorem attention_present {layer : Nat} (hcovered : Covered cfg)
    (hbuild : fwdRopeFreqsBuild cfg = some freqs) (hlayer : layer < cfg.numHiddenLayers)
    (h : LayerSupplied cfg w layer) : ∀ d ∈ fwdAttention cfg layer, d.Present cfg w freqs := by
  have hrotation : (Demand.rotation layer).Present cfg w freqs := fun _ =>
    (build_rotation hbuild).mpr fun hllama hprop => hcovered.rotation hllama hprop layer hlayer
  have hsource : (Demand.source layer).Present cfg w freqs := fun _ ⟨hshared, hneg⟩ => by
    have := hcovered.source layer hlayer hshared
    omega
  have howning : modelKvSourceLayer cfg layer < 0 → ∀ d ∈
      projection cfg layer "self_attn.k_proj" ++
        (if cfg.attentionKEqV && modelLayerIsGlobal cfg layer then []
          else projection cfg layer "self_attn.v_proj") ++
        qkNorm cfg layer "self_attn.k_norm" ++ [.rotation layer], d.Present cfg w freqs := by
    intro hneg
    simp only [List.forall_mem_append, List.forall_mem_singleton]
    refine ⟨⟨⟨projection_present hcovered hlayer (h.key hneg), ?_⟩, qkNorm_present (h.keyNorm hneg)⟩,
      hrotation⟩
    split
    · exact fun d hd => absurd hd List.not_mem_nil
    · rename_i hkeqv
      exact projection_present hcovered hlayer (h.value hneg (by simpa using hkeqv))
  rw [fwdAttention]
  simp only [List.forall_mem_append, List.forall_mem_cons]
  refine ⟨⟨⟨⟨projection_present hcovered hlayer h.query, qkNorm_present h.queryNorm⟩,
    hsource, hrotation, fun d hd => absurd hd List.not_mem_nil⟩, ?_⟩, fetchTriplet_present h.out⟩
  split
  · exact fun d hd => absurd hd List.not_mem_nil
  · rename_i hneg
    simpa only [List.forall_mem_append] using howning (by omega)

theorem decoderLayer_present {layer : Nat} (hcovered : Covered cfg)
    (hbuild : fwdRopeFreqsBuild cfg = some freqs) (hlayer : layer < cfg.numHiddenLayers)
    (h : LayerSupplied cfg w layer) : ∀ d ∈ fwdDecoderLayer cfg layer, d.Present cfg w freqs := by
  have hnil : ∀ d ∈ ([] : List Demand), d.Present cfg w freqs :=
    fun d hd => absurd hd List.not_mem_nil
  rw [fwdDecoderLayer]
  simp only [List.forall_mem_append]
  refine ⟨⟨⟨⟨⟨⟨fetchNorm_present h.inputNorm, attention_present hcovered hbuild hlayer h⟩,
    fetchNorm_present h.attnNorm⟩, ?_⟩, ?_⟩, ?_⟩, ?_⟩
  · split
    · rename_i hff
      simp only [List.forall_mem_append]
      exact ⟨fetchNorm_present (h.ffNorms hff).1, fetchNorm_present (h.ffNorms hff).2⟩
    · exact hnil
  · intro d hd
    obtain ⟨suffix, hsuffix, hd⟩ := List.mem_flatMap.mp hd
    exact fetchTriplet_present (h.mlp suffix hsuffix) d hd
  · rw [fwdPleApply]
    split
    · exact hnil
    · rename_i hper
      have hpos : 0 < cfg.hiddenSizePerLayerInput := by omega
      obtain ⟨hgate, hproj, hnorm⟩ := h.perLayer hpos (hcovered.perLayer hpos)
      simp only [List.forall_mem_append]
      exact ⟨⟨fetchTriplet_present hgate, fetchTriplet_present hproj⟩, fetchNorm_present hnorm⟩
  · rw [fwdLayerScalarApply]
    split
    · rename_i hfamily
      exact List.forall_mem_singleton.mpr fun _ => h.scalar hfamily
    · exact hnil

theorem modelForward_present (hcovered : Covered cfg) (hbuild : fwdRopeFreqsBuild cfg = some freqs)
    (h : Supplied cfg w) : ∀ d ∈ modelForward cfg, d.Present cfg w freqs := by
  rw [modelForward]
  simp only [List.forall_mem_append]
  refine ⟨⟨⟨⟨fetchTriplet_present h.embed, ?_⟩, ?_⟩, fetchNorm_present h.norm⟩, ?_⟩
  · split
    · rename_i hper
      obtain ⟨hembed, hproj, hnorm⟩ := h.perLayer hper (hcovered.perLayer hper)
      simp only [fwdPleInputs, List.forall_mem_append]
      exact ⟨⟨fetchTriplet_present hembed, fetchTriplet_present hproj⟩, fetchNorm_present hnorm⟩
    · exact fun d hd => absurd hd List.not_mem_nil
  · intro d hd
    obtain ⟨layer, hlayer, hd⟩ := List.mem_flatMap.mp hd
    have hlayer := List.mem_range.mp hlayer
    exact decoderLayer_present hcovered hbuild hlayer (h.layers layer hlayer) d hd
  · split
    · exact fetchTriplet_present h.embed
    · rename_i htie
      have hhead := h.head (by simpa using htie)
      exact List.forall_mem_singleton.mpr fun hwhole => ⟨by decide, hhead, hwhole _ rfl⟩

end Meets

end Mlxd.Model
