import Mlxd.Forward
import Mlxd.AttentionRun

/-!
# The forward pass row by row

What a pass makes of one position: every operation but the attention works on single rows, and the
attention of a position reads the rows of the positions up to its own. So the hidden states of all
layers are a function of the tokens, with no passes in it.
-/
namespace Mlxd.Forward

open Mlxd.Unicode Mlxd.Json Mlxd.Lib Mlxd.Model Mlxd.KvCache Mlxd.Attention
open Fallible (call callIf Yields)

/-! ## Rows -/

instance (cfg : Model.ModelConfig) (layer : Int) (p j : Nat) : Decidable (InWindow cfg layer p j) :=
  inferInstanceAs (Decidable (_ ∧ _))

/-- A layer's positions are stored by a layer that is not behind it. -/
theorem owner_le (cfg : Model.ModelConfig) (layer : Nat) : owner cfg layer ≤ layer := by
  by_cases howns : Owns cfg layer
  · rw [owner_of_owns howns]
  · exact (source_spec howns).2.1.le

section Reference

variable {M : Mlx} {W : Type} (em : EngineModel M W)

def tensor (name : Bytes) : W := (em.weights name).getD em.ops.null

def triplet (base : Bytes) : WeightTriplet W :=
  ⟨tensor em (dotWeight base), tensor em (base ++ ascii ".scales"),
    tensor em (base ++ ascii ".biases"), (em.weights (base ++ ascii ".scales")).isSome⟩

def linearRow (tri : WeightTriplet W) (row : List M.Elt) : List M.Elt :=
  if tri.quantized then
    em.ops.quantizedMatmul tri.weight tri.scales tri.biases em.cfg.quantGroupSize em.cfg.quantBits row
  else em.ops.matmul (em.ops.transpose tri.weight) row

def normRow (layer : Option Nat) (suffix : String) : List M.Elt → List M.Elt :=
  let weight := tensor em (dotWeight (tensorBuf em.cfg.toModelConfig layer (ascii suffix)))
  em.ops.rmsNorm (if em.cfg.normHasOffset then em.ops.addOne weight else weight) em.cfg.rmsNormEps

def projectRow (layer : Option Nat) (suffix : String) : List M.Elt → List M.Elt :=
  linearRow em (triplet em (tensorBuf em.cfg.toModelConfig layer (ascii suffix)))

def biasedRow (layer : Nat) (suffix : String) (row : List M.Elt) : List M.Elt :=
  let y := projectRow em (some layer) suffix row
  if em.cfg.attentionBias then
    broadcastRow em.ops.add y (em.ops.values (tensor em
      (tensorBuf em.cfg.toModelConfig (some layer) (ascii suffix) ++ ascii ".bias")))
  else y

def gelu (e : M.Elt) : M.Elt :=
  let inner := em.ops.add e (em.ops.mul (em.ops.const (44715 / 1000000)) (em.ops.mul (em.ops.mul e e) e))
  em.ops.mul (em.ops.mul (em.ops.const (1 / 2)) e)
    (em.ops.add (em.ops.const 1) (em.ops.tanh (em.ops.mul (em.ops.const (7978845608 / 10000000000)) inner)))

def activation (e : M.Elt) : M.Elt :=
  if em.cfg.hiddenAct = .geluApprox then gelu em e else em.ops.mul e (em.ops.sigmoid e)

def swigluRow (layer : Nat) (row : List M.Elt) : List M.Elt :=
  projectRow em (some layer) "mlp.down_proj"
    (List.zipWith em.ops.mul ((projectRow em (some layer) "mlp.gate_proj" row).map (activation em))
      (projectRow em (some layer) "mlp.up_proj" row))

/-! ### Embedding and inputs of the layers -/

def takeRow (tri : WeightTriplet W) (id : Int) : List M.Elt :=
  if tri.quantized then
    em.ops.takeDequantized tri.weight tri.scales tri.biases em.cfg.quantGroupSize em.cfg.quantBits id
  else em.ops.takeRow tri.weight id

def embedRow (id : Int) : List M.Elt :=
  let row := takeRow em (triplet em (tensorText em.cfg.toModelConfig none (ascii "embed_tokens"))) id
  if em.cfg.scaleEmbeddings then row.map (em.ops.mul · (em.ops.root em.cfg.hiddenSize)) else row

/-- The inputs of all layers at a position. -/
def pleRows (id : Int) (h : List M.Elt) : List (List M.Elt) :=
  let dim := em.cfg.hiddenSizePerLayerInput.toNat
  let emb := (takeRow em
    (triplet em (tensorBuf em.cfg.toModelConfig none (ascii "embed_tokens_per_layer"))) id).map
      (em.ops.mul · (em.ops.root dim))
  let proj := (projectRow em none "per_layer_model_projection" h).map
    (em.ops.mul · (em.ops.invRoot em.cfg.hiddenSize))
  (List.zipWith (List.zipWith em.ops.add)
    ((cut em.cfg.numHiddenLayers dim proj).map (normRow em none "per_layer_projection_norm"))
    (cut em.cfg.numHiddenLayers dim emb)).map (List.map (em.ops.mul · (em.ops.invRoot 2)))

def pleApplyRow (layer : Nat) (ple : List (List M.Elt)) (h : List M.Elt) : List M.Elt :=
  let gate := (projectRow em (some layer) "per_layer_input_gate" h).map (gelu em)
  List.zipWith em.ops.add h (normRow em (some layer) "post_per_layer_input_norm"
    (projectRow em (some layer) "per_layer_projection"
      (List.zipWith em.ops.mul (ple.getD layer []) gate)))

def scalarRow (layer : Nat) (row : List M.Elt) : List M.Elt :=
  match em.weights (tensorBuf em.cfg.toModelConfig (some layer) (ascii "layer_scalar")) with
  | some scalar => broadcastRow em.ops.mul row (em.ops.values scalar)
  | none => row

/-! ### Heads -/

def queryPart (layer : Nat) (row : List M.Elt) : List (List M.Elt) :=
  let q := biasedRow em layer "self_attn.q_proj" row
  if em.cfg.attnOutputGate then
    (cut em.cfg.numAttentionHeads (headDim em.cfg layer * 2) q).map (List.take (headDim em.cfg layer))
  else cut em.cfg.numAttentionHeads (headDim em.cfg layer) q

def gatePart (layer : Nat) (row : List M.Elt) : List M.Elt :=
  ((cut em.cfg.numAttentionHeads (headDim em.cfg layer * 2)
    (biasedRow em layer "self_attn.q_proj" row)).map (List.drop (headDim em.cfg layer))).flatten

def qkNormRows (layer : Nat) (suffix : String) (rows : List (List M.Elt)) : List (List M.Elt) :=
  if em.cfg.hasQkNorm then rows.map (normRow em (some layer) suffix) else rows

def queryHeads (layer : Nat) (row : List M.Elt) : List (List M.Elt) :=
  qkNormRows em layer "self_attn.q_norm" (queryPart em layer row)

def keyPart (layer : Nat) (row : List M.Elt) : List (List M.Elt) :=
  cut (modelLayerKvHeads em.cfg layer) (headDim em.cfg layer) (biasedRow em layer "self_attn.k_proj" row)

def keyHeads (layer : Nat) (row : List M.Elt) : List (List M.Elt) :=
  qkNormRows em layer "self_attn.k_norm" (keyPart em layer row)

def valueHeads (layer : Nat) (row : List M.Elt) : List (List M.Elt) :=
  let rows :=
    if em.cfg.attentionKEqV ∧ modelLayerIsGlobal em.cfg.toModelConfig layer then keyPart em layer row
    else cut (modelLayerKvHeads em.cfg layer) (headDim em.cfg layer)
      (biasedRow em layer "self_attn.v_proj" row)
  if em.cfg.hasVNorm then rows.map (em.ops.rmsNorm (em.ops.ones (headDim em.cfg layer)) em.cfg.rmsNormEps) else rows

/-! ### Attention -/

variable (turn : Rotation → Nat → Row M → Row M)

/-- The rows of all batches and heads at one position. -/
def atPosition (rows : Nat → List (List M.Elt)) : Row M :=
  fun b h d => ((rows b).getD h []).getD d em.ops.zero

/-- Turned as the position `p` of a layer. -/
def rotated (layer p : Nat) (r : Row M) : Row M :=
  match layerRotation em.mulTrunc em.freqs em.cfg.toModelConfig layer with
  | some κ => turn κ p r
  | none => r

def headOf (dim : Nat) (r : Row M) (b h : Nat) : List M.Elt := (List.range dim).map (r b h)

/-- The positions that `p` attends, in order. -/
def attended (layer p : Nat) : List Nat :=
  (List.range (p + 1)).filter fun j => InWindow em.cfg.toModelConfig layer p j

def attnScale (layer : Nat) : Option Nat :=
  if em.cfg.attnScaleOne then none
  else some (if 0 < em.cfg.queryPreAttnScalar then em.cfg.queryPreAttnScalar else headDim em.cfg layer)

/-- The head of the queries at `p` over the keys and values before it, which the owner of the
positions makes of its own rows. -/
def attendHead (layer : Nat) (x own : Nat → Nat → List M.Elt) (b p h : Nat) : List M.Elt :=
  let o := owner em.cfg.toModelConfig layer
  let kvHead := h / (em.cfg.numAttentionHeads / modelLayerKvHeads em.cfg o)
  em.ops.attend (attnScale em layer)
    (headOf (headDim em.cfg layer)
      (rotated em turn layer p (atPosition em fun b => queryHeads em layer (x b p)))
      b h)
    ((attended em layer p).map fun j =>
      (headOf (headDim em.cfg o) (rotated em turn layer j
        (atPosition em fun b => keyHeads em o (own b j))) b kvHead,
      headOf (headDim em.cfg o) (atPosition em fun b => valueHeads em o (own b j)) b kvHead))

/-- `x` are the normed rows of the layer, `own` those of the owner of its positions. -/
def attentionRow (layer : Nat) (x own : Nat → Nat → List M.Elt) (b p : Nat) : List M.Elt :=
  let joined := ((List.range em.cfg.numAttentionHeads).map
    (attendHead em turn layer x own b p)).flatten
  projectRow em (some layer) "self_attn.o_proj"
    (if em.cfg.attnOutputGate then
      List.zipWith em.ops.mul joined ((gatePart em layer (x b p)).map em.ops.sigmoid)
    else joined)

/-! ### Layers -/

/-- What a layer makes of its input and of the output of its attention. -/
def mlpRow (layer : Nat) (x attn : List M.Elt) : List M.Elt :=
  if em.cfg.hasPreFfNorm then
    let h1 := List.zipWith em.ops.add x (normRow em (some layer) "post_attention_layernorm" attn)
    List.zipWith em.ops.add h1 (normRow em (some layer) "post_feedforward_layernorm"
      (swigluRow em layer (normRow em (some layer) "pre_feedforward_layernorm" h1)))
  else
    let h1 := List.zipWith em.ops.add x attn
    List.zipWith em.ops.add h1
      (swigluRow em layer (normRow em (some layer) "post_attention_layernorm" h1))

def inputNormed (layer : Nat) (x : Nat → Nat → List M.Elt) (b p : Nat) : List M.Elt :=
  normRow em (some layer) "input_layernorm" (x b p)

/-- The inputs of the layers from the tokens. -/
def pleAt (tok : Nat → Nat → Int) (b p : Nat) : List (List M.Elt) :=
  pleRows em (tok b p) (embedRow em (tok b p))

def layerRow (tok : Nat → Nat → Int) (layer : Nat) (x own : Nat → Nat → List M.Elt) (b p : Nat) :
    List M.Elt :=
  let attn := attentionRow em turn layer (inputNormed em layer x)
    (inputNormed em (owner em.cfg.toModelConfig layer) own) b p
  let y := mlpRow em layer (x b p) attn
  scalarRow em layer
    (if 0 < em.cfg.hiddenSizePerLayerInput then pleApplyRow em layer (pleAt em tok b p) y
    else y)

/-- The rows before a layer: the embedded tokens, and what the layers before it make of them. -/
def hidden (tok : Nat → Nat → Int) : Nat → Nat → Nat → List M.Elt
  | 0 => fun b p => embedRow em (tok b p)
  | layer + 1 => layerRow em turn tok layer (hidden tok layer)
    (hidden tok (owner em.cfg.toModelConfig layer))
  termination_by layer => layer
  decreasing_by
    · exact Nat.lt_succ_self layer
    · exact Nat.lt_succ_of_le (owner_le _ layer)

def logitsRow (row : List M.Elt) : List M.Elt :=
  let base :=
    if em.cfg.tieWordEmbeddings then tensorBuf em.cfg.toModelConfig none (ascii "embed_tokens")
    else ascii "lm_head"
  let logits := linearRow em (triplet em base)
    ((normRow em none "norm" row).take em.cfg.hiddenSize)
  if 0 < em.cfg.finalLogitSoftcapping then
    logits.map fun e => em.ops.mul (em.ops.tanh (em.ops.div e (em.ops.const em.cfg.finalLogitSoftcapping)))
      (em.ops.const em.cfg.finalLogitSoftcapping)
  else logits

/-- The logits behind position `p`. -/
def logitsAt (tok : Nat → Nat → Int) (b p : Nat) : List M.Elt :=
  logitsRow em (hidden em turn tok em.cfg.numHiddenLayers b p)

/-! ## Nothing behind a position counts -/

variable {tok tok' : Nat → Nat → Int}

theorem attendHead_congr {layer p : Nat} {x x' own own' : Nat → Nat → List M.Elt}
    (hx : ∀ b, x b p = x' b p) (hown : ∀ b, ∀ j ≤ p, own b j = own' b j) (b h : Nat) :
    attendHead em turn layer x own b p h =
      attendHead em turn layer x' own' b p h := by
  have hcolumns : ∀ j ∈ attended em layer p, j ≤ p := fun j hj =>
    Nat.le_of_lt_succ (List.mem_range.mp (List.mem_filter.mp hj).1)
  simp only [attendHead, hx]
  congr 1
  apply List.map_congr_left
  intro j hj
  simp only [hown _ j (hcolumns j hj)]

theorem layerRow_congr {layer p : Nat} {x x' own own' : Nat → Nat → List M.Elt}
    (htok : ∀ b, tok b p = tok' b p) (hx : ∀ b, x b p = x' b p)
    (hown : ∀ b, ∀ j ≤ p, own b j = own' b j) (b : Nat) :
    layerRow em turn tok layer x own b p =
      layerRow em turn tok' layer x' own' b p := by
  have hheads : attendHead em turn layer (inputNormed em layer x)
      (inputNormed em (owner em.cfg.toModelConfig layer) own) b p =
      attendHead em turn layer (inputNormed em layer x')
        (inputNormed em (owner em.cfg.toModelConfig layer) own') b p := funext fun h =>
    attendHead_congr em turn (fun b => by rw [inputNormed, inputNormed, hx])
      (fun b j hj => by rw [inputNormed, inputNormed, hown b j hj]) b h
  simp only [layerRow, attentionRow, hheads]
  simp only [inputNormed, pleAt, hx, htok]

/-- The rows of a position depend on the tokens up to it. -/
theorem hidden_causal (layer : Nat) : ∀ p, (∀ b, ∀ j ≤ p, tok b j = tok' b j) → ∀ b,
    hidden em turn tok layer b p =
      hidden em turn tok' layer b p := by
  induction layer using Nat.strong_induction_on with
  | _ layer ih =>
    intro p htok b
    cases layer with
    | zero =>
      rw [hidden, hidden]
      exact congrArg (embedRow em) (htok b p (le_refl p))
    | succ layer =>
      rw [hidden, hidden]
      apply layerRow_congr
      · exact fun b => htok b p (le_refl p)
      · exact fun b => ih layer (Nat.lt_succ_self layer) p htok b
      · intro b j hj
        exact ih _ (Nat.lt_succ_of_le (owner_le _ layer)) j
          (fun b i hi => htok b i (hi.trans hj)) b

end Reference

end Mlxd.Forward
