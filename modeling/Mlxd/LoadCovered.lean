import Mlxd.LoadSound

/-!
# Where the validation falls short

A map of exactly the expected tensors passes the validation, and without one part of `Covered`
it leaves a demand of the forward pass open: a gemma4 with biases has none listed, a dense family
lists no per-layer inputs and has no check of the sources, and a local layer has no frequencies
next to a proportional table. The validation does not look at the scales and biases of a float
weight, and the pass refuses one without the other.
-/
namespace Mlxd.Model

open Mlxd.Unicode Mlxd.Json

section Demands

variable {cfg : ModelConfig}

theorem attention_demand {layer : Nat} (hlayer : layer < cfg.numHiddenLayers) {d : Demand}
    (hd : d ∈ fwdAttention cfg layer) : d ∈ modelForward cfg := by
  have hdecoder : d ∈ fwdDecoderLayer cfg layer := by
    simp only [fwdDecoderLayer, List.mem_append, hd, true_or, or_true]
  have hlayers : d ∈ (List.range cfg.numHiddenLayers).flatMap (fwdDecoderLayer cfg) :=
    List.mem_flatMap.mpr ⟨layer, List.mem_range.mpr hlayer, hdecoder⟩
  simp only [modelForward, List.mem_append, hlayers, true_or, or_true]

theorem source_demand {layer : Nat} (hlayer : layer < cfg.numHiddenLayers) :
    .source layer ∈ modelForward cfg :=
  attention_demand hlayer (by simp [fwdAttention])

theorem rotation_demand {layer : Nat} (hlayer : layer < cfg.numHiddenLayers) :
    .rotation layer ∈ modelForward cfg :=
  attention_demand hlayer (by simp [fwdAttention])

theorem bias_demand {layer : Nat} (hlayer : layer < cfg.numHiddenLayers)
    (hbias : cfg.attentionBias = true) :
    .tensor (tensorBuf cfg (some layer) (ascii "self_attn.q_proj") ++ ascii ".bias") ∈
      modelForward cfg :=
  attention_demand hlayer (by simp [fwdAttention, projection, addProjBias, hbias])

theorem perLayer_demand (hper : 0 < cfg.hiddenSizePerLayerInput) :
    .triplet (tensorBuf cfg none (ascii "embed_tokens_per_layer")) ∈ modelForward cfg := by
  simp [modelForward, fwdPleInputs, fetchTriplet, hper]

end Demands

/-! ## Names that are not listed -/

section Unlisted

variable {cfg : ModelConfig}

theorem emitted {layer : Option Nat} {kind : WeightKind} {suffix : String} {e : WeightExpected}
    (hlayer : InLayers cfg layer) (hsuffix : (ascii suffix).length ≤ 26)
    (he : e ∈ emitExpected cfg layer kind suffix) :
    e = ⟨tensorBuf cfg layer (ascii suffix), kind⟩ := by
  rw [emitExpected_eq hlayer kind hsuffix] at he
  exact List.mem_singleton.mp he

/-- The end of an emitted name. -/
theorem emitted_last {layer : Option Nat} {kind : WeightKind} {suffix : String}
    {e : WeightExpected} (hlayer : InLayers cfg layer) (hsuffix : (ascii suffix).length ≤ 26)
    (hne : ascii suffix ≠ []) (he : e ∈ emitExpected cfg layer kind suffix) :
    e.name.getLast? = (ascii suffix).getLast? := by
  rw [emitted hlayer hsuffix he]
  exact tensorBuf_last hlayer hsuffix hne

theorem emitted_kind {layer : Option Nat} {kind : WeightKind} {suffix : String} :
    ∀ e ∈ emitExpected cfg layer kind suffix, e.kind = kind := by
  intro e he
  simp only [emitExpected, Option.mem_toList, Option.map_eq_some_iff] at he
  obtain ⟨_, _, rfl⟩ := he
  rfl

theorem forall_mem_emitIf {cond : Bool} {entries : List WeightExpected}
    {P : WeightExpected → Prop} :
    (∀ e ∈ emitIf cond entries, P e) ↔ (cond = true → ∀ e ∈ entries, P e) := by
  cases cond <;> simp [emitIf]

/-- The byte a name would need to be the scalar of a layer or the embedding of per-layer inputs. -/
def endsInR (name : Bytes) : Prop := name.getLast? = some 114

instance (name : Bytes) : Decidable (endsInR name) := inferInstanceAs (Decidable (_ = _))

/-! ### gemma4 -/

def DottedOrScalar (e : WeightExpected) : Prop := e.kind.dotted = true ∨ endsInR e.name

theorem emitted_dotted {layer : Option Nat} {kind : WeightKind} {suffix : String}
    (hkind : kind.dotted = true) :
    ∀ e ∈ emitExpected cfg layer kind suffix, DottedOrScalar e := by
  intro e he
  rw [← emitted_kind e he] at hkind
  exact .inl hkind

theorem gemma4_layer_dotted {i : Nat} (hi : i < cfg.numHiddenLayers) :
    ∀ e ∈ gemma4Layer cfg i, DottedOrScalar e := by
  have hmlp : ∀ e ∈ ["mlp.gate_proj", "mlp.up_proj", "mlp.down_proj"].flatMap
      (emitExpected cfg (some i) .matmul), DottedOrScalar e := fun e he => by
    obtain ⟨suffix, -, he⟩ := List.mem_flatMap.mp he
    exact emitted_dotted (by rfl) e he
  have hscalar : ∀ e ∈ emitExpected cfg (some i) .bare "layer_scalar", DottedOrScalar e :=
    fun e he => .inr (emitted_last (inLayers_some hi) (by decide) (by decide) he)
  refine List.forall_mem_append.mpr ⟨?_, hscalar⟩
  have hmatmul {suffix : String} : ∀ e ∈ emitExpected cfg (some i) .matmul suffix,
    DottedOrScalar e := emitted_dotted rfl
  have hnorm {suffix : String} : ∀ e ∈ emitExpected cfg (some i) .norm suffix,
    DottedOrScalar e := emitted_dotted rfl
  simp only [List.forall_mem_append, forall_mem_emitIf]
  exact ⟨⟨⟨⟨⟨⟨⟨⟨⟨⟨hmatmul, fun _ => hmatmul⟩, fun _ => hmatmul⟩, hmatmul⟩, hmlp⟩, hnorm⟩, hnorm⟩,
    fun _ => ⟨hnorm, hnorm⟩⟩, hnorm⟩, fun _ => hnorm⟩, fun _ => ⟨⟨hmatmul, hmatmul⟩, hnorm⟩⟩

theorem gemma4_dotted (h : Gemma4Ok cfg) : ∀ e ∈ weightsExpectedNames cfg, DottedOrScalar e := by
  have hhead : ∀ e ∈ lmHead cfg, DottedOrScalar e := by
    intro e he
    rw [lmHead] at he
    split at he
    · exact absurd he List.not_mem_nil
    · rw [List.mem_singleton.mp he]
      exact .inl rfl
  have hlayers : ∀ e ∈ (List.range cfg.numHiddenLayers).flatMap (gemma4Layer cfg),
      DottedOrScalar e := by
    intro e he
    obtain ⟨i, hi, he⟩ := List.mem_flatMap.mp he
    exact gemma4_layer_dotted (List.mem_range.mp hi) e he
  rw [h.names]
  simp only [weightsExpectedNamesGemma4, List.forall_mem_append, forall_mem_emitIf]
  exact ⟨⟨⟨⟨emitted_dotted (by rfl), hlayers⟩, emitted_dotted (by rfl)⟩, hhead⟩,
    fun _ => ⟨⟨emitted_dotted (by rfl), emitted_dotted (by rfl)⟩, emitted_dotted (by rfl)⟩⟩

theorem dotWeight_last (name : Bytes) : (dotWeight name).getLast? = some 116 :=
  getLast?_append_right name (by decide)

/-- The byte all names of biases and scales end in. -/
def endsInS (name : Bytes) : Prop := name.getLast? = some 115

theorem dottedOrScalar_key {e : WeightExpected} (h : DottedOrScalar e) : ¬ endsInS e.key := by
  intro hlast
  obtain ⟨name, kind⟩ := e
  cases kind with
  | bias | bare =>
    rcases h with hdotted | hr
    · exact Bool.noConfusion hdotted
    · exact absurd (hr.symm.trans hlast) (by decide)
  | embed | matmul | norm =>
    exact absurd ((dotWeight_last name).symm.trans hlast) (by decide)

/-! ### Dense families -/

def DottedNoR (e : WeightExpected) : Prop := e.kind.dotted = true ∧ ¬ endsInR e.name

theorem dense_emitted {layer : Option Nat} {kind : WeightKind} {suffix : String}
    (hlayer : InLayers cfg layer) (hsuffix : (ascii suffix).length ≤ 26)
    (hend : ascii suffix ≠ [] ∧ ¬ endsInR (ascii suffix)) (hkind : kind.dotted = true) :
    ∀ e ∈ emitExpected cfg layer kind suffix, DottedNoR e := by
  intro e he
  refine ⟨by rw [emitted_kind e he]; exact hkind, ?_⟩
  rw [endsInR, emitted_last hlayer hsuffix hend.1 he]
  exact hend.2

theorem dense_layer_noR {desc : WeightsFamilyDesc} (h : DenseOk cfg desc) {i : Nat}
    (hi : i < cfg.numHiddenLayers) : ∀ e ∈ descLayer desc cfg i, DottedNoR e := by
  have hlist : ∀ (kind : WeightKind) (l : List String), kind.dotted = true →
      (∀ s ∈ l, (ascii s).length ≤ 26 ∧ ascii s ≠ [] ∧ ¬ endsInR (ascii s)) →
      ∀ e ∈ l.flatMap (emitExpected cfg (some i) kind), DottedNoR e := by
    intro kind l hkind hl e he
    obtain ⟨s, hs, he⟩ := List.mem_flatMap.mp he
    exact dense_emitted (inLayers_some hi) (hl s hs).1 (hl s hs).2 hkind e he
  have hnil : ∀ e ∈ ([] : List WeightExpected), DottedNoR e :=
    fun e he => absurd he List.not_mem_nil
  simp only [descLayer, List.forall_mem_append, h.matmuls, h.norms, h.biases, List.flatMap_nil,
    ite_self]
  refine ⟨⟨⟨hlist .matmul _ rfl (by decide), hnil⟩, hlist .norm _ rfl (by decide)⟩, ?_⟩
  split
  · rcases h.qkNorms with hqk | ⟨hqk, -⟩
    · rw [hqk]
      exact hlist .norm _ rfl (by decide)
    · rw [hqk]
      exact hnil
  · exact hnil

theorem dense_noR {desc : WeightsFamilyDesc} (h : DenseOk cfg desc) :
    ∀ e ∈ weightsExpectedNames cfg, DottedNoR e := by
  have hhead : ∀ e ∈ lmHead cfg, DottedNoR e := by
    intro e he
    rw [lmHead] at he
    split at he
    · exact absurd he List.not_mem_nil
    · rw [List.mem_singleton.mp he]
      exact ⟨rfl, by decide⟩
  have hlayers : ∀ e ∈ (List.range cfg.numHiddenLayers).flatMap (descLayer desc cfg),
      DottedNoR e := by
    intro e he
    obtain ⟨i, hi, he⟩ := List.mem_flatMap.mp he
    exact dense_layer_noR h (List.mem_range.mp hi) e he
  have hscope : ∀ (kind : WeightKind) (s : String), kind.dotted = true →
      (ascii s).length ≤ 26 ∧ ascii s ≠ [] ∧ ¬ endsInR (ascii s) →
      ∀ e ∈ emitExpected cfg none kind s, DottedNoR e :=
    fun kind s hkind hs => dense_emitted (inLayers_none cfg) hs.1 hs.2 hkind
  rw [h.names]
  simp only [weightsExpectedNamesFromDesc, List.forall_mem_append, h.extras, List.flatMap_nil]
  exact ⟨⟨⟨⟨hscope .embed _ rfl (by decide), hlayers⟩, hscope .norm _ rfl (by decide)⟩, hhead⟩,
    fun e he => absurd he List.not_mem_nil⟩

theorem dense_perLayer_unlisted {desc : WeightsFamilyDesc} (h : DenseOk cfg desc) :
    ∀ e ∈ weightsExpectedNames cfg,
      e.key ≠ dotWeight (tensorBuf cfg none (ascii "embed_tokens_per_layer")) := by
  intro e he hkey
  obtain ⟨hdotted, hr⟩ := dense_noR h e he
  have hname : e.name = tensorBuf cfg none (ascii "embed_tokens_per_layer") := by
    obtain ⟨name, kind⟩ := e
    cases kind with
    | bias | bare => exact Bool.noConfusion hdotted
    | embed | matmul | norm => exact List.append_cancel_right hkey
  apply hr
  rw [endsInR, hname, tensorBuf_last (inLayers_none cfg) (by decide) (by decide)]
  decide

end Unlisted

/-- Neither biases nor scales are listed. -/
theorem supported_unlisted {mulTrunc : Int → Rat → Int}
    (h : engineModelCheckSupported mulTrunc cfg = .ok ()) :
    ∀ e ∈ weightsExpectedNames cfg, ¬ endsInS e.key := by
  intro e he
  rcases supported_cases h with ⟨desc, hdense⟩ | hgemma
  · exact dottedOrScalar_key (.inl (dense_noR hdense e he).1)
  · exact dottedOrScalar_key (gemma4_dotted hgemma e he)

/-! ## The exact condition -/

/-- No triplet the forward pass fetches has its scales without its biases or its biases without
its scales. -/
def WholeTriplets (cfg : ModelConfig) (w : TensorMap) : Prop :=
  ∀ base, .triplet base ∈ modelForward cfg → TripletWhole w base

/-- Every accepted map without half triplets of an accepted configuration meets all demands. -/
def AlwaysMet (cfg : ModelConfig) : Prop :=
  ∀ (w : TensorMap) (freqs : Bool),
    weightsValidateExpected w cfg (weightsExpectedNames cfg) = .ok () → WholeTriplets cfg w →
    fwdRopeFreqsBuild cfg = some freqs → ∀ d ∈ modelForward cfg, d.Met cfg w freqs

section Exact

variable {mulTrunc : Int → Rat → Int} {cfg : ModelConfig} {freqs : Bool}

theorem covered_alwaysMet (h : engineModelCheckSupported mulTrunc cfg = .ok ())
    (hcovered : Covered cfg) : AlwaysMet cfg := by
  intro w freqs hvalid hwhole hbuild d hd
  have hpresent := validated_present hvalid
  have hsupplied : Supplied cfg w := by
    rcases supported_cases h with ⟨desc, hdense⟩ | hgemma
    · exact dense_supplied hdense hpresent
    · exact gemma4_supplied hgemma hpresent
  exact modelForward_present hcovered hbuild hsupplied d hd fun base hbase => hwhole base (hbase ▸ hd)

theorem exactMap_eq_none (h : engineModelCheckSupported mulTrunc cfg = .ok ()) (base : Bytes)
    {suffix : Bytes} (hsuffix : endsInS suffix) :
    exactMap (weightsExpectedNames cfg) (base ++ suffix) = none := by
  rw [Option.eq_none_iff_forall_ne_some]
  intro dt hdt
  obtain ⟨e, he, hkey⟩ := exactMap_isSome.mp (Option.isSome_of_eq_some hdt)
  have hne : suffix ≠ [] := by
    rintro rfl
    contradiction
  exact supported_unlisted h e he (hkey ▸ (getLast?_append_right base hne).trans hsuffix)

/-- The map of exactly the expected tensors has neither scales nor biases. -/
theorem exactMap_whole (h : engineModelCheckSupported mulTrunc cfg = .ok ()) :
    WholeTriplets cfg (exactMap (weightsExpectedNames cfg)) := by
  intro base _
  rw [TripletWhole, exactMap_eq_none h base (by rfl), exactMap_eq_none h base (by rfl)]

theorem exact_met (h : engineModelCheckSupported mulTrunc cfg = .ok ()) (hmet : AlwaysMet cfg)
    (hbuild : fwdRopeFreqsBuild cfg = some freqs) :
    ∀ d ∈ modelForward cfg, d.Met cfg (exactMap (weightsExpectedNames cfg)) freqs :=
  hmet _ _ (exactMap_validated cfg _) (exactMap_whole h) hbuild

theorem alwaysMet_covered (h : engineModelCheckSupported mulTrunc cfg = .ok ())
    (hbuild : fwdRopeFreqsBuild cfg = some freqs) (hmet : AlwaysMet cfg) : Covered cfg := by
  have hexact := exact_met h hmet hbuild
  rcases supported_cases h with ⟨desc, hdense⟩ | hgemma
  · refine ⟨fun hbias => ?_, fun hper => ?_, fun layer hlayer hshared => ?_,
      fun hllama hprop layer hlayer => ?_⟩
    · rw [hdense.bias] at hbias
      contradiction
    · obtain ⟨e, he, hkey⟩ := exactMap_isSome.mp (hexact _ (perLayer_demand hper)).2.1
      exact absurd hkey (dense_perLayer_unlisted hdense e he)
    · by_contra hneg
      exact hexact _ (source_demand hlayer) ⟨hshared, by omega⟩
    · exact (build_rotation hbuild).mp (hexact _ (rotation_demand hlayer)) hllama hprop
  · refine ⟨fun hbias => ?_, fun _ => hgemma.family, hgemma.sources,
      fun hllama hprop layer hlayer => ?_⟩
    · by_contra hzero
      have hlayer : 0 < cfg.numHiddenLayers := by omega
      have hpresent := hexact _ (bias_demand hlayer hbias)
      rw [Demand.Met, exactMap_eq_none h _ (by rfl)] at hpresent
      contradiction
    · exact (build_rotation hbuild).mp (hexact _ (rotation_demand hlayer)) hllama hprop

theorem met_whole {w : TensorMap} (h : ∀ d ∈ modelForward cfg, d.Met cfg w freqs) :
    WholeTriplets cfg w := fun _ hbase => (h _ hbase).2.2

/-- Validation of maps without half triplets is sound exactly when the load fails for its
frequencies or the configuration is covered, and no map with a half triplet meets all demands. -/
theorem load_sound_iff (h : engineModelCheckSupported mulTrunc cfg = .ok ()) :
    (AlwaysMet cfg ↔ fwdRopeFreqsBuild cfg = none ∨ Covered cfg) ∧
      ∀ (w : TensorMap) (freqs : Bool), ¬ WholeTriplets cfg w →
        ¬ ∀ d ∈ modelForward cfg, d.Met cfg w freqs := by
  refine ⟨⟨fun hmet => ?_, ?_⟩, fun w freqs hhalf hmet => hhalf (met_whole hmet)⟩
  · cases hbuild : fwdRopeFreqsBuild cfg with
    | none => exact .inl rfl
    | some freqs => exact .inr (alwaysMet_covered h hbuild hmet)
  · rintro (hnone | hcovered)
    · intro w freqs _ _ hbuild
      rw [hnone] at hbuild
      contradiction
    · exact covered_alwaysMet h hcovered

end Exact

/-! ### A gemma4 with biases -/

theorem load_unsound_biased : ¬ ∀ (mulTrunc : Int → Rat → Int) (cfg : ModelConfig)
    (w : TensorMap) (freqs : Bool), engineModelCheckSupported mulTrunc cfg = .ok () →
    weightsValidateExpected w cfg (weightsExpectedNames cfg) = .ok () →
    fwdRopeFreqsBuild cfg = some freqs → ∀ d ∈ modelForward cfg, d.Met cfg w freqs := by
  intro hclaim
  have hmet := hclaim (fun n _ => n) (oneLayerGemma4 true)
    (exactMap (weightsExpectedNames (oneLayerGemma4 true))) true rfl
    (exactMap_validated _ _) rfl
  have hbias := hmet _ (@bias_demand (oneLayerGemma4 true) 0 (by decide) rfl)
  have haccepted : engineModelCheckSupported (fun n _ => n) (oneLayerGemma4 true) = .ok () := rfl
  rw [Demand.Met, exactMap_eq_none haccepted _ (by rfl)] at hbias
  contradiction

theorem load_sound_unbiased : AlwaysMet (oneLayerGemma4 false) := by
  have haccepted : engineModelCheckSupported (fun n _ => n) (oneLayerGemma4 false) = .ok () := rfl
  refine (load_sound_iff haccepted).1.mpr (.inr ⟨fun hbias => ?_, fun _ => rfl, by decide,
    fun hllama => ?_⟩)
  · exact Bool.noConfusion hbias
  · exact absurd hllama (by decide)

end Mlxd.Model
