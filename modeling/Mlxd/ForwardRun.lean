import Mathlib.Data.List.Sort
import Mlxd.ForwardOps

/-!
# The logits do not depend on the passes

Whatever passes the tokens are fed in, and wherever MLX fails, a pass that succeeds behind passes
that did gives the logits of the tokens fed so far. Between the passes the cache stands for the
rows of the positions before. The equality is one of exact arithmetic, row by row, as `Numerics`
has it.
-/
namespace Mlxd.Forward

open Mlxd.Unicode Mlxd.Json Mlxd.Lib Mlxd.Model Mlxd.KvCache Mlxd.Attention
open Fallible (call callIf Yields)

/-! ## Arrays and rows -/

/-- An array has the rows of `f` at its positions. -/
structure Grid.Shows {α : Type} (x : Grid α) (batch len : Nat) (f : Nat → Nat → α) : Prop where
  batch_eq : x.batch = batch
  len_eq : x.len = len
  rows : ∀ b < batch, ∀ s < len, x.get b s = f b s

section Shows

variable {α β γ : Type} {x : Grid α} {y : Grid β} {batch len : Nat} {f : Nat → Nat → α}
  {g : Nat → Nat → β}

theorem Grid.Shows.map (h : x.Shows batch len f) (u : α → γ) :
    (x.map u).Shows batch len fun b s => u (f b s) :=
  ⟨h.batch_eq, h.len_eq, fun b hb s hs => congrArg u (h.rows b hb s hs)⟩

theorem Grid.Shows.zip (hx : x.Shows batch len f) (hy : y.Shows batch len g) (u : α → β → γ) :
    (x.zip u y).Shows batch len fun b s => u (f b s) (g b s) :=
  ⟨hx.batch_eq, hx.len_eq, fun b hb s hs =>
    congrArg₂ u (hx.rows b hb s hs) (hy.rows b hb s hs)⟩

end Shows

/-- The documented behaviour of MLX: the cache's operations, the entries of an array that is made of
them, and the rotation, which makes a row of its own elements. -/
structure EngineModel.Documented {M : Mlx} {W : Type} (em : EngineModel M W)
    (turn : Rotation → Nat → Row M → Row M) (dtype : Nat) : Prop where
  cache : M.Documented
  ndim : ∀ ax f, M.ndim (em.ops.ofEntries ax f) = 4
  dim : ∀ ax f, M.dim (em.ops.ofEntries ax f) = ax
  dtype : ∀ ax f, M.dtype (em.ops.ofEntries ax f) = dtype
  get : ∀ ax f ix, (∀ i, ix i < ax i) → M.get (em.ops.ofEntries ax f) ix = f ix
  turns : Turns M em.rope turn
  turnsRows : ∀ (S : LayerShape) κ p r r', SameRow S r r' → SameRow S (turn κ p r) (turn κ p r')

theorem sameRow_trans {M : Mlx} {S : LayerShape} {r r' r'' : Row M} (h : SameRow S r r')
    (h' : SameRow S r' r'') : SameRow S r r'' :=
  fun i k d hi hk hd => (h i k d hi hk hd).trans (h' i k d hi hk hd)

section Transposed

variable {M : Mlx} {W : Type} {em : EngineModel M W} {turn : Rotation → Nat → Row M → Row M}
  {dtype heads dim batch : Nat} {x y : HeadRows M}

theorem transposed_congr (hbatch : x.batch = y.batch) (hlen : x.len = y.len)
    (h : ∀ b < x.batch, ∀ s < x.len, x.get b s = y.get b s) :
    transposed em heads dim x = transposed em heads dim y := by
  unfold transposed
  rw [← hbatch, ← hlen]
  congr 1
  funext ix
  split
  · rename_i hin
    rw [h _ hin.1 _ hin.2]
  · rfl

theorem transposed_feeds (hem : em.Documented turn dtype) (hbatch : x.batch = batch) :
    Feeds ⟨batch, heads, dim, dtype⟩ (transposed em heads dim x) := by
  refine ⟨hem.ndim _ _, ?_, hem.dtype _ _⟩
  rw [transposed, hem.dim, hbatch]
  rfl

theorem transposed_len (hem : em.Documented turn dtype) : M.dim (transposed em heads dim x) 2 = x.len := by
  rw [transposed, hem.dim]
  rfl

theorem transposed_row (hem : em.Documented turn dtype) (hbatch : x.batch = batch) {s : Nat}
    (hs : s < x.len) : SameRow ⟨batch, heads, dim, dtype⟩ (row (transposed em heads dim x) s)
      (atPosition em fun b => x.get b s) := by
  intro b h d hb hh hd
  replace hb : b < x.batch := hbatch ▸ hb
  rw [row, transposed, hem.get _ _ _ (axes_lt.mpr ⟨hb, hh, hs, hd⟩)]
  exact if_pos ⟨hb, hs⟩

end Transposed

/-- Columns from `first` on stand for the positions they are attended for. -/
theorem filter_columns {first n p : Nat} {attends window : Nat → Bool}
    (h : ∀ j, (∃ c < n, first + c = j ∧ attends c = true) ↔ window j = true)
    (hwindow : ∀ j, window j = true → j ≤ p) :
    ((List.range n).filter attends).map (first + ·) = (List.range (p + 1)).filter window := by
  have hrange : ∀ m, (List.range m).Pairwise (· < ·) := fun m => List.pairwise_lt_range
  refine List.Pairwise.eq_of_mem_iff (r := (· < ·)) ?_ ((hrange _).filter _) fun j => ?_
  · rw [List.pairwise_map]
    exact ((hrange n).filter _).imp fun hlt => Nat.add_lt_add_left hlt first
  · simp only [List.mem_map, List.mem_filter, List.mem_range]
    constructor
    · rintro ⟨c, ⟨hc, hattends⟩, rfl⟩
      have hin := (h (first + c)).mp ⟨c, hc, rfl, hattends⟩
      exact ⟨Nat.lt_succ_of_le (hwindow _ hin), hin⟩
    · rintro ⟨-, hin⟩
      obtain ⟨c, hc, rfl, hattends⟩ := (h j).mpr hin
      exact ⟨c, ⟨hc, hattends⟩, rfl⟩

/-! ## The passes -/

/-- A pass over the next `len` tokens. -/
structure Chunk where
  len : Nat
  wantLogits : Bool
  okKv : Nat → MlxCall → Bool

def fed (cs : List Chunk) : Nat := (cs.map Chunk.len).sum

theorem fed_cons (c : Chunk) (cs : List Chunk) : fed (c :: cs) = c.len + fed cs := by
  rw [fed, List.map_cons, List.sum_cons, fed]

section Run

variable {M : Mlx} {W : Type} (em : EngineModel M W) (turn : Rotation → Nat → Row M → Row M)
  (batch : Nat) (tok : Nat → Nat → Int)

/-- The ids of a pass behind `start` tokens. -/
def chunkIds (start len : Nat) : Ids := ⟨batch, len, fun b s => tok b (start + s)⟩

/-- Pass after pass over the tokens, with the logits of those that want them. -/
def forwardAll : Nat → List Chunk → Kvcache M →
    Fallible (Kvcache M × List (Option (List (List M.Elt))))
  | _, [], kv => pure (kv, [])
  | start, c :: rest, kv => do
    let out ← modelForward em c.okKv kv (chunkIds batch tok start c.len)
      c.wantLogits
    let later ← forwardAll (start + c.len) rest out.1
    return (later.1, out.2 :: later.2)

/-- The logits of the passes, each those of the tokens up to its last. -/
def reference : Nat → List Chunk → List (Option (List (List M.Elt)))
  | _, [] => []
  | start, c :: rest =>
    (if c.wantLogits then
      some ((List.range batch).map fun b =>
        logitsAt em turn tok b (start + (c.len - 1)))
    else none) :: reference (start + c.len) rest

/-! ### What the cache stands for -/

def queryShape (dtype layer : Nat) : LayerShape :=
  ⟨batch, em.cfg.numAttentionHeads, headDim em.cfg layer, dtype⟩

def kvShape (dtype layer : Nat) : LayerShape :=
  ⟨batch, modelLayerKvHeads em.cfg layer, headDim em.cfg layer, dtype⟩

/-- The normed rows that go into the attention of a layer. -/
def attentionIn (layer : Nat) : Nat → Nat → List M.Elt :=
  inputNormed em layer (hidden em turn tok layer)

/-- The normed rows of a pass behind `start` positions. -/
def chunkIn (start len layer : Nat) : Rows M :=
  ⟨batch, len, fun b s => attentionIn em turn tok layer b (start + s)⟩

/-- What a layer's attention is given in a pass. -/
def layerInput (start : Nat) (c : Chunk) (layer : Nat) : LayerInput M :=
  let x := chunkIn em turn batch tok start c.len layer
  ⟨transposed em em.cfg.numAttentionHeads (headDim em.cfg layer) (x.map (queryHeads em layer)),
    (ownKeysValues em layer x).1, (ownKeysValues em layer x).2, c.okKv layer⟩

def chunkCall (start : Nat) (c : Chunk) : ForwardCall M :=
  ⟨c.len, layerInput em turn batch tok start c⟩

def chunkCalls : Nat → List Chunk → List (ForwardCall M)
  | _, [] => []
  | start, c :: rest =>
    chunkCall em turn batch tok start c :: chunkCalls (start + c.len) rest

variable {em turn}

theorem chunkCalls_append (c : Chunk) : ∀ (cs : List Chunk) (start : Nat),
    chunkCalls em turn batch tok start (cs ++ [c]) =
      chunkCalls em turn batch tok start cs ++
        [chunkCall em turn batch tok (start + fed cs) c]
  | [], _ => rfl
  | d :: cs, start => by
    rw [List.cons_append, chunkCalls, chunkCalls_append c cs (start + d.len), chunkCalls, List.cons_append, fed_cons,
      Nat.add_assoc]

theorem total_chunkCalls : ∀ (cs : List Chunk) (start : Nat),
    total (chunkCalls em turn batch tok start cs) = fed cs
  | [], _ => rfl
  | c :: cs, start => by
    have ih := total_chunkCalls cs (start + c.len)
    rw [total] at ih ⊢
    rw [chunkCalls, List.map_cons, List.sum_cons, ih, fed_cons]
    rfl

theorem chunkCall_of_owns {layer : Nat} (h : Owns em.cfg.toModelConfig layer) (start : Nat)
    (c : Chunk) : (chunkCall em turn batch tok start c).input layer =
      let x := chunkIn em turn batch tok start c.len layer
      ⟨transposed em em.cfg.numAttentionHeads (headDim em.cfg layer) (x.map (queryHeads em layer)),
        transposed em (modelLayerKvHeads em.cfg layer) (headDim em.cfg layer)
          (x.map (keyHeads em layer)),
        transposed em (modelLayerKvHeads em.cfg layer) (headDim em.cfg layer)
          (x.map (valueHeads em layer)), c.okKv layer⟩ := by
  simp only [chunkCall, layerInput, ownKeysValues, if_neg (not_le.mpr h)]

variable {dtype : Nat} (hem : em.Documented turn dtype)

section
include hem

theorem chunkCall_shaped (start : Nat) (c : Chunk) :
    Shaped em.cfg.toModelConfig (queryShape em batch dtype) (kvShape em batch dtype)
      (chunkCall em turn batch tok start c) := by
  refine ⟨fun layer => ⟨transposed_feeds hem rfl, transposed_len hem⟩, fun layer howns => ?_,
    fun layer howns => ?_⟩
  all_goals
    rw [chunkCall_of_owns batch tok howns]
    exact ⟨transposed_feeds hem rfl, transposed_len hem⟩

theorem chunkCalls_shaped : ∀ (cs : List Chunk) (start : Nat),
    ∀ call ∈ chunkCalls em turn batch tok start cs,
      Shaped em.cfg.toModelConfig (queryShape em batch dtype) (kvShape em batch dtype) call
  | [], _ => fun _ hcall => absurd hcall List.not_mem_nil
  | d :: cs, start => List.forall_mem_cons.mpr
    ⟨chunkCall_shaped batch tok hem start d, chunkCalls_shaped cs (start + d.len)⟩

/-- The rows of an array that every pass has, by their absolute positions. -/
theorem chunkCalls_rows {heads dim : Nat} (arr : ForwardCall M → M.Arr)
    (rowsAt : Nat → Nat → List (List M.Elt))
    (harr : ∀ start c, arr (chunkCall em turn batch tok start c) =
      transposed em heads dim ⟨batch, c.len, fun b s => rowsAt b (start + s)⟩) :
    ∀ (cs : List Chunk) (start j : Nat) (r : Row M),
      ((chunkCalls em turn batch tok start cs).flatMap fun c =>
        KvCache.rows (arr c))[j]? = some r →
      SameRow ⟨batch, heads, dim, dtype⟩ r (atPosition em fun b => rowsAt b (start + j)) := by
  intro cs
  induction cs with
  | nil =>
    intro start j r hr
    simp [chunkCalls] at hr
  | cons c cs ih =>
    intro start j r hr
    have hlen : (KvCache.rows (arr (chunkCall em turn batch tok start c))).length
        = c.len := by rw [rows_length, harr, transposed_len hem]
    rw [chunkCalls, List.flatMap_cons] at hr
    rcases Nat.lt_or_ge j c.len with hj | hj
    · rw [List.getElem?_append_left (hlen.symm ▸ hj), harr,
        rows_getElem? _ ((transposed_len hem).symm ▸ hj)] at hr
      rw [← Option.some.inj hr]
      exact transposed_row (x := ⟨batch, c.len, fun b s => rowsAt b (start + s)⟩) hem rfl hj
    · rw [List.getElem?_append_right (hlen.symm ▸ hj), hlen] at hr
      have hsame := ih (start + c.len) (j - c.len) r hr
      rwa [Nat.add_assoc, Nat.add_sub_cancel' hj] at hsame

/-- The keys that the passes store, before their rotation. -/
theorem rawKeys_rows {layer : Nat} (howns : Owns em.cfg.toModelConfig layer) (cs : List Chunk) (j : Nat)
    (r : Row M)
    (h : (rawKeys (chunkCalls em turn batch tok 0 cs) layer)[j]? = some r) :
    SameRow (kvShape em batch dtype layer) r (atPosition em fun b =>
      keyHeads em layer (attentionIn em turn tok layer b j)) := by
  have hrows := chunkCalls_rows batch tok hem (fun call => (call.input layer).k)
    (fun b p => keyHeads em layer (attentionIn em turn tok layer b p))
    (fun start c => by rw [chunkCall_of_owns batch tok howns]; rfl) cs 0 j r h
  rwa [Nat.zero_add] at hrows

theorem rawValues_rows {layer : Nat} (howns : Owns em.cfg.toModelConfig layer) (cs : List Chunk)
    (j : Nat) (r : Row M)
    (h : (rawValues (chunkCalls em turn batch tok 0 cs) layer)[j]? = some r) :
    SameRow (kvShape em batch dtype layer) r (atPosition em fun b =>
      valueHeads em layer (attentionIn em turn tok layer b j)) := by
  have hrows := chunkCalls_rows batch tok hem (fun call => (call.input layer).v)
    (fun b p => valueHeads em layer (attentionIn em turn tok layer b p))
    (fun start c => by rw [chunkCall_of_owns batch tok howns]; rfl) cs 0 j r h
  rwa [Nat.zero_add] at hrows

end

/-! ### The attention of a pass -/

theorem headRow_of_same {a : M.Arr} {S : LayerShape} {r : Row M} {p b h : Nat}
    (hdim : M.dim a 3 = S.headDim) (hsame : SameRow S (row a p) r) (hb : b < S.batch)
    (hh : h < S.heads) : headRow a b h p = headOf S.headDim r b h := by
  rw [headRow, headOf, hdim]
  apply List.map_congr_left
  intro d hd
  exact hsame b h d hb hh (List.mem_range.mp hd)

theorem fwdAttention_queries {cfg : Model.ModelConfig} {kv kv' : Kvcache M} {layer : Int} {len : Nat}
    {x : LayerInput M} {a : Sdpa M}
    (h : Attention.fwdAttention M em.rope em.mulTrunc em.freqs cfg kv layer len x = some (kv', a)) :
    ∃ κ off, a.queries = em.rope κ off x.q := by
  simp only [Attention.fwdAttention] at h
  split at h
  · contradiction
  · split at h
    all_goals
      simp only [Option.bind_eq_bind, Option.bind_eq_some_iff, Option.pure_def, Option.some.injEq,
        Prod.mk.injEq] at h
      obtain ⟨⟨kv₁, q, kView, vView⟩, hattend, mode, -, -, rfl⟩ := h
    · simp only [attendSource, Attention.fwdRopeApply, Option.bind_eq_bind, Option.bind_eq_some_iff,
        Option.map_eq_some_iff] at hattend
      obtain ⟨_, ⟨κ, -, rfl⟩, hview⟩ := hattend
      split at hview
      · simp only [Option.some.injEq, Prod.mk.injEq] at hview
        exact ⟨κ, _, hview.2.1.symm⟩
      · contradiction
    · simp only [attendOwn, Attention.fwdRopeApply, Option.bind_eq_bind, Option.bind_eq_some_iff,
        Option.map_eq_some_iff] at hattend
      obtain ⟨_, ⟨κ, -, rfl⟩, _, -, hupdate⟩ := hattend
      split at hupdate
      · simp only [Option.some.injEq, Prod.mk.injEq] at hupdate
        exact ⟨κ, _, hupdate.2.1.symm⟩
      · contradiction

section Layer

variable {dtype : Nat} {cs : List Chunk} {c : Chunk} {layer : Nat}

/-- The columns of a pass are the attended positions, whatever is read from them. -/
theorem attended_columns {α : Type} {κ : Rotation} {first p : Nat} {a : Sdpa M}
    {calls : List (ForwardCall M)} {call : ForwardCall M} {SQ S : Nat → LayerShape}
    (h : AttendsWindow turn em.mulTrunc em.freqs em.cfg.toModelConfig SQ S calls call layer a κ first)
    (hp : p < call.len) (column : Nat → α) (position : Nat → α)
    (hsame : ∀ j < M.dim a.keys 2, column j = position (first + j)) :
    ((List.range (M.dim a.keys 2)).filter (a.mode.attends call.len (M.dim a.keys 2) p)).map column =
      (attended em layer (total calls + p)).map position := by
  have hcolumns : ((List.range (M.dim a.keys 2)).filter
      (a.mode.attends call.len (M.dim a.keys 2) p)).map (first + ·) =
      attended em layer (total calls + p) := by
    apply filter_columns
    · intro j
      rw [decide_eq_true_iff]
      exact h.attended p hp j
    · exact fun j hj => (of_decide_eq_true hj).1
  rw [← hcolumns, List.map_map]
  apply List.map_congr_left
  intro j hj
  exact hsame j (List.mem_range.mp (List.mem_filter.mp hj).1)

/-- The attention of a layer in a pass behind the passes `cs`: the queries, keys and values of the
positions, and no others. -/
theorem attention_shows (hem : em.Documented turn dtype) {a : Sdpa M} {κ : Rotation}
    {K : List (Row M)}
    (hqueries : ∃ κ off, a.queries =
      em.rope κ off ((chunkCall em turn batch tok (fed cs) c).input layer).q)
    (hserved : Served turn em.mulTrunc em.freqs em.cfg.toModelConfig (queryShape em batch dtype)
      (kvShape em batch dtype) (chunkCalls em turn batch tok 0 cs)
      (chunkCall em turn batch tok (fed cs) c) layer a.queries a.keys a.values κ K)
    (hmode : maskMode em.cfg.toModelConfig layer c.len (M.dim a.keys 2) = some a.mode)
    (hfit : HeadsFit a) :
    (scaledDotProductAttention em (attnScale em layer) a).Shows batch c.len fun b s =>
      (List.range em.cfg.numAttentionHeads).map (attendHead em turn layer
        (attentionIn em turn tok layer) (attentionIn em turn tok (owner em.cfg.toModelConfig layer))
        b (fed cs + s)) := by
  have hcalls := chunkCalls_shaped batch tok hem cs 0
  have hcall := chunkCall_shaped batch tok hem (fed cs) c
  have hattends := hserved.attends hcalls hcall hmode
  have htotal : total (chunkCalls em turn batch tok 0 cs) = fed cs := total_chunkCalls batch tok cs 0
  generalize viewStart (maxKv em.cfg.toModelConfig layer)
    (chunkCall em turn batch tok (fed cs) c).len
    (total (chunkCalls em turn batch tok 0 cs) + (chunkCall em turn batch tok (fed cs) c).len) =
    first at hattends
  have hrotated : ∀ p r, rotated em turn layer p r = turn κ p r := by
    intro p r
    rw [rotated, hserved.rotation]
  have hqDim : M.dim a.queries = ![batch, em.cfg.numAttentionHeads, c.len, headDim em.cfg layer] := by
    obtain ⟨κ', off, hq⟩ := hqueries
    rw [hq, hem.turns.dim]
    exact hem.dim _ _
  have hkDim := hserved.keys.dim
  have hvDim := hserved.values.dim
  have howns : Owns em.cfg.toModelConfig (owner em.cfg.toModelConfig layer) := owns_owner layer
  have hkeyAt := rawKeys_rows batch tok hem howns (cs ++ [c])
  have hvalueAt := rawValues_rows batch tok hem howns (cs ++ [c])
  rw [chunkCalls_append, Nat.zero_add] at hkeyAt hvalueAt
  have hkHeads : M.dim a.keys 1 =
      modelLayerKvHeads em.cfg (owner em.cfg.toModelConfig layer) := congrFun hkDim 1
  have hqHeads : M.dim a.queries 1 = em.cfg.numAttentionHeads := congrFun hqDim 1
  refine ⟨congrFun hqDim 0, congrFun hqDim 2, fun b hb s hs => ?_⟩
  rw [scaledDotProductAttention]
  dsimp only
  rw [hqHeads]
  apply List.map_congr_left
  intro h hh
  have hh : h < em.cfg.numAttentionHeads := List.mem_range.mp hh
  have hkv : h / (em.cfg.numAttentionHeads /
      modelLayerKvHeads em.cfg (owner em.cfg.toModelConfig layer)) <
      modelLayerKvHeads em.cfg (owner em.cfg.toModelConfig layer) := by
    obtain ⟨hpos, hdvd⟩ := hfit
    rw [hkHeads] at hpos hdvd
    rw [hqHeads] at hdvd
    apply Nat.div_lt_of_lt_mul
    rwa [Nat.div_mul_cancel (Nat.dvd_of_mod_eq_zero hdvd)]
  rw [attendHead, hkHeads]
  congr 1
  · have hquery : SameRow (queryShape em batch dtype layer)
        (row ((chunkCall em turn batch tok (fed cs) c).input layer).q s)
        (atPosition em fun b => queryHeads em layer (attentionIn em turn tok layer b (fed cs + s))) :=
      transposed_row (x := (chunkIn em turn batch tok (fed cs) c.len layer).map
        (queryHeads em layer)) hem rfl hs
    have hturned := hserved.queries s hs
    rw [htotal] at hturned
    rw [hrotated]
    exact headRow_of_same (S := queryShape em batch dtype layer) (congrFun hqDim 3)
      (sameRow_trans hturned (hem.turnsRows _ _ _ _ _ hquery)) hb hh
  · rw [← htotal, show M.dim a.queries 2 = c.len from congrFun hqDim 2]
    refine attended_columns hattends hs _ _ fun j hj => ?_
    obtain ⟨key, hkey, hsameKey⟩ := hattends.keys j hj
    obtain ⟨value, hvalue, hsameValue⟩ := hattends.values j hj
    congr 1
    · rw [hrotated]
      exact headRow_of_same (S := kvShape em batch dtype (owner em.cfg.toModelConfig layer))
        (congrFun hkDim 3) (sameRow_trans hsameKey (hem.turnsRows _ _ _ _ _ (hkeyAt _ _ hkey))) hb hkv
    · exact headRow_of_same (S := kvShape em batch dtype (owner em.cfg.toModelConfig layer))
        (congrFun hvDim 3) (sameRow_trans hsameValue (hvalueAt _ _ hvalue)) hb hkv

/-- The cache when a pass behind the passes `cs` has come to a layer. -/
abbrev CacheAt (em : EngineModel M W) (turn : Rotation → Nat → Row M → Row M) (batch : Nat)
    (tok : Nat → Nat → Int) (dtype : Nat) (kv : Kvcache M) (cs : List Chunk) (c : Chunk)
    (layer : Nat) : Prop :=
  Aligned turn em.mulTrunc em.freqs em.cfg.toModelConfig (queryShape em batch dtype)
    (kvShape em batch dtype) kv
    (seenAt (chunkCalls em turn batch tok 0 cs) (chunkCall em turn batch tok (fed cs) c) layer)

/-- The arrays of a pass are those of the rows of its positions. -/
theorem layerInput_eq {x : Rows M}
    (hx : x.Shows batch c.len fun b s => attentionIn em turn tok layer b (fed cs + s)) :
    (⟨transposed em em.cfg.numAttentionHeads (headDim em.cfg layer) (x.map (queryHeads em layer)),
      (ownKeysValues em layer x).1, (ownKeysValues em layer x).2, c.okKv layer⟩ : LayerInput M) =
      (chunkCall em turn batch tok (fed cs) c).input layer := by
  have hsame : ∀ (heads dim : Nat) (u : List M.Elt → List (List M.Elt)),
      transposed em heads dim (x.map u) =
        transposed em heads dim ((chunkIn em turn batch tok (fed cs) c.len layer).map u) := by
    intro heads dim u
    apply transposed_congr hx.batch_eq hx.len_eq
    intro b hb s hs
    exact congrArg u (hx.rows b (hx.batch_eq ▸ hb) s (hx.len_eq ▸ hs))
  simp only [chunkCall, layerInput, ownKeysValues, hsame]

theorem fwdAttention_yields (hem : em.Documented turn dtype) {kv : Kvcache M}
    (h : CacheAt em turn batch tok dtype kv cs c layer)
    (hlayer : layer < em.cfg.numHiddenLayers) {x : Rows M}
    (hx : x.Shows batch c.len fun b s => attentionIn em turn tok layer b (fed cs + s)) :
    Yields (fwdAttention em (c.okKv layer) kv layer x) fun r =>
      CacheAt em turn batch tok dtype r.1 cs c (layer + 1) ∧
        r.2.Shows batch c.len fun b s => attentionRow em turn layer (attentionIn em turn tok layer)
          (attentionIn em turn tok (owner em.cfg.toModelConfig layer)) b (fed cs + s) := by
  have hcalls := chunkCalls_shaped batch tok hem cs 0
  have hcall := chunkCall_shaped batch tok hem (fed cs) c
  refine (biased_yields em layer _ x).eq_bind ?_
  refine (splitQueries_yields em layer x).eq_bind ?_
  refine (qkNorm_yields em layer _ _).eq_bind ?_
  refine .call_bind ?_
  refine (ownKeysValues_yields em layer x).eq_bind ?_
  refine .call_bind ?_
  let heads : Nat → Nat → List (List M.Elt) := fun b s =>
    (List.range em.cfg.numAttentionHeads).map (attendHead em turn layer
      (attentionIn em turn tok layer) (attentionIn em turn tok (owner em.cfg.toModelConfig layer)) b
      (fed cs + s))
  refine Yields.bind (P := fun done => CacheAt em turn batch tok dtype done.1 cs c (layer + 1) ∧
    (HeadsFit done.2 → (scaledDotProductAttention em (attnScale em layer) done.2).Shows batch c.len
      heads)) (.ofOption ?_) ?_
  · rintro ⟨kv', a⟩ hrun
    have hinput : (⟨transposed em em.cfg.numAttentionHeads (headDim em.cfg layer)
        ((x.map (queryPart em layer)).map (qkNormRows em layer "self_attn.q_norm")),
        (ownKeysValues em layer x).1, (ownKeysValues em layer x).2, c.okKv layer⟩ : LayerInput M) =
        (chunkCall em turn batch tok (fed cs) c).input layer := layerInput_eq batch tok hx
    rw [hinput, hx.len_eq] at hrun
    obtain ⟨hnext, hmode, κ, K, hserved⟩ :=
      attention_served hem.cache hem.turns hcalls hcall h hlayer hrun
    exact ⟨hnext, attention_shows batch tok hem (fwdAttention_queries hrun) hserved hmode⟩
  · rintro ⟨kv', a⟩ ⟨hnext, hshows⟩
    refine Yields.bind (P := fun g => g.Shows batch c.len heads) (.callIf hshows) ?_
    intro attn hattn
    refine (joinRows_yields _ _ _).eq_bind ?_
    have hjoined := hattn.map List.flatten
    have hgate := (hx.map (gatePart em layer)).map (List.map em.ops.sigmoid)
    refine Yields.bind (P := fun g => g.Shows batch c.len fun b s =>
      if em.cfg.attnOutputGate then List.zipWith em.ops.mul (heads b s).flatten
        ((gatePart em layer (attentionIn em turn tok layer b (fed cs + s))).map em.ops.sigmoid)
      else (heads b s).flatten) ?_ ?_
    · cases em.cfg.attnOutputGate with
      | false => exact .pure hjoined
      | true => exact .call_bind (.call (hjoined.zip hgate _))
    · intro gated hgated
      refine (projected_yields em _ _ gated).eq_bind ?_
      exact .pure ⟨hnext, hgated.map _⟩

/-- The inputs of the layers, for a model that has them. -/
def PleShows (em : EngineModel M W) (batch : Nat) (tok : Nat → Nat → Int) (start len : Nat) :
    Option (HeadRows M) → Prop
  | none => ¬ 0 < em.cfg.hiddenSizePerLayerInput
  | some ple => 0 < em.cfg.hiddenSizePerLayerInput ∧
    ple.Shows batch len fun b s => pleAt em tok b (start + s)

/-- What stands behind the attention, row by row. -/
theorem behindAttention_yields {x attn : Rows M} {f g : Nat → Nat → List M.Elt} {len : Nat}
    (hx : x.Shows batch len f) (hattn : attn.Shows batch len g) :
    Yields (behindAttention em layer x attn)
      fun y => y.Shows batch len fun b s => mlpRow em layer (f b s) (g b s) := by
  refine .ite (fun hsandwich => ?_) fun hplain => ?_
  · refine (normed_yields em _ _ _ _).eq_bind ?_
    refine .call_bind ?_
    refine (normed_yields em _ _ _ _).eq_bind ?_
    refine (fwdSwiglu_yields em _ _).eq_bind ?_
    refine (normed_yields em _ _ _ _).eq_bind ?_
    refine .call ?_
    have hh1 := hx.zip (hattn.map (normRow em (some layer) "post_attention_layernorm"))
      (List.zipWith em.ops.add)
    simp only [mlpRow, hsandwich, ↓reduceIte]
    exact hh1.zip (((hh1.map _).map _).map _) _
  · refine .call_bind ?_
    refine (normed_yields em _ _ _ _).eq_bind ?_
    refine (fwdSwiglu_yields em _ _).eq_bind ?_
    refine .call ?_
    have hh1 := hx.zip hattn (List.zipWith em.ops.add)
    simp only [mlpRow, hplain, Bool.false_eq_true, ↓reduceIte]
    exact hh1.zip ((hh1.map _).map _) _

theorem fwdDecoderLayer_yields (hem : em.Documented turn dtype) {kv : Kvcache M}
    (h : CacheAt em turn batch tok dtype kv cs c layer) (hlayer : layer < em.cfg.numHiddenLayers)
    {x : Rows M} (hx : x.Shows batch c.len fun b s => hidden em turn tok layer b (fed cs + s))
    {ple : Option (HeadRows M)} (hple : PleShows em batch tok (fed cs) c.len ple) :
    Yields (fwdDecoderLayer em (c.okKv layer) kv layer ple x) fun r =>
      CacheAt em turn batch tok dtype r.1 cs c (layer + 1) ∧
        r.2.Shows batch c.len fun b s => hidden em turn tok (layer + 1) b (fed cs + s) := by
  refine (normed_yields em _ _ _ x).eq_bind ?_
  refine (fwdAttention_yields batch tok hem h hlayer (hx.map _)).bind ?_
  rintro ⟨kv', attn⟩ ⟨hnext, hattn⟩
  refine (behindAttention_yields batch hx hattn).bind ?_
  intro y hy
  refine Yields.bind (P := fun z => z.Shows batch c.len fun b s =>
    if 0 < em.cfg.hiddenSizePerLayerInput then
      pleApplyRow em layer (pleAt em tok b (fed cs + s))
        (mlpRow em layer (hidden em turn tok layer b (fed cs + s))
          (attentionRow em turn layer (attentionIn em turn tok layer)
            (attentionIn em turn tok (owner em.cfg.toModelConfig layer)) b (fed cs + s)))
    else mlpRow em layer (hidden em turn tok layer b (fed cs + s))
      (attentionRow em turn layer (attentionIn em turn tok layer)
        (attentionIn em turn tok (owner em.cfg.toModelConfig layer)) b (fed cs + s))) ?_ ?_
  · cases ple with
    | none =>
      simp only [if_neg hple]
      exact .pure hy
    | some ple =>
      simp only [if_pos hple.1]
      refine (fwdPleApply_yields em layer ple y hple.1).imp ?_
      rintro _ rfl
      exact hy.zip hple.2 _
  · intro z hz
    refine (fwdLayerScalarApply_yields em layer z).eq_bind ?_
    refine .pure ⟨hnext, ?_⟩
    rw [hidden]
    exact hz.map _

end Layer

/-! ### Whole passes -/

section Passes

variable {dtype : Nat}

theorem decoderLayers_yields (hem : em.Documented turn dtype) {cs : List Chunk} {c : Chunk}
    {ple : Option (HeadRows M)} (hple : PleShows em batch tok (fed cs) c.len ple) (count : Nat) :
    ∀ (layer : Nat) (kv : Kvcache M) (x : Rows M), layer + count = em.cfg.numHiddenLayers →
      CacheAt em turn batch tok dtype kv cs c layer →
      (x.Shows batch c.len fun b s => hidden em turn tok layer b (fed cs + s)) →
      Yields (decoderLayers em c.okKv ple layer count kv x) fun r =>
        CacheAt em turn batch tok dtype r.1 cs c em.cfg.numHiddenLayers ∧
          r.2.Shows batch c.len fun b s =>
            hidden em turn tok em.cfg.numHiddenLayers b (fed cs + s) := by
  induction count with
  | zero =>
    intro layer kv x hn hcache hx
    obtain rfl : layer = em.cfg.numHiddenLayers := hn
    exact .pure ⟨hcache, hx⟩
  | succ count ih =>
    intro layer kv x hn hcache hx
    refine (fwdDecoderLayer_yields batch tok hem hcache (by omega) hx hple).bind ?_
    rintro ⟨kv', y⟩ ⟨hnext, hy⟩
    exact ih (layer + 1) kv' y (by omega) hnext hy

/-- The cache behind the passes `cs`. -/
abbrev Behind (em : EngineModel M W) (turn : Rotation → Nat → Row M → Row M) (batch : Nat)
    (tok : Nat → Nat → Int) (dtype : Nat) (kv : Kvcache M) (cs : List Chunk) : Prop :=
  Aligned turn em.mulTrunc em.freqs em.cfg.toModelConfig (queryShape em batch dtype)
    (kvShape em batch dtype) kv fun _ => chunkCalls em turn batch tok 0 cs

/-- A pass that wants logits has a position. -/
def Chunk.Ends (c : Chunk) : Prop := c.wantLogits = true → 0 < c.len

theorem modelForward_yields (hem : em.Documented turn dtype) {cs : List Chunk} {c : Chunk}
    (hends : c.Ends) {kv : Kvcache M} (h : Behind em turn batch tok dtype kv cs) :
    Yields (modelForward em c.okKv kv (chunkIds batch tok (fed cs) c.len) c.wantLogits) fun r =>
      Behind em turn batch tok dtype r.1 (cs ++ [c]) ∧ r.2 =
        if c.wantLogits then some ((List.range batch).map fun b =>
          logitsAt em turn tok b (fed cs + (c.len - 1)))
        else none := by
  refine (fwdEmbed_yields em _).eq_bind ?_
  refine Yields.bind (P := PleShows em batch tok (fed cs) c.len) ?_ ?_
  · refine .ite (fun hper => ?_) fun hper => .pure hper
    refine (fwdPleInputs_yields em _ _ rfl rfl).eq_bind ?_
    exact .pure ⟨hper, rfl, rfl, fun _ _ _ _ => rfl⟩
  · intro ple hple
    rw [Behind, ← seenAt_zero _ (chunkCall em turn batch tok (fed cs) c)] at h
    refine (decoderLayers_yields batch tok hem hple em.cfg.numHiddenLayers 0 kv _ (Nat.zero_add _) h
      ⟨rfl, rfl, fun b _ s _ => ?_⟩).bind ?_
    · rw [hidden]
      rfl
    · rintro ⟨kv', x⟩ ⟨hcache, hx⟩
      have hbehind : Behind em turn batch tok dtype kv' (cs ++ [c]) := by
        rw [Behind, chunkCalls_append, Nat.zero_add]
        refine hcache.congr (fun layer hlayer _ => (if_pos hlayer).symm) fun _ => ?_
        exact List.forall_mem_append.mpr ⟨chunkCalls_shaped batch tok hem cs 0,
          List.forall_mem_singleton.mpr (chunkCall_shaped batch tok hem (fed cs) c)⟩
      refine .ite (fun hwant => ?_) fun hwant => ?_
      · refine (lastLogits_yields em x).eq_bind ?_
        refine .pure ⟨hbehind, ?_⟩
        rw [if_pos hwant, hx.batch_eq, hx.len_eq]
        refine congrArg some (List.map_congr_left fun b hb => ?_)
        have hpos := hends hwant
        rw [hx.rows b (List.mem_range.mp hb) _ (by omega)]
        rfl
      · exact .pure ⟨hbehind, (if_neg hwant).symm⟩

theorem forwardAll_yields (hem : em.Documented turn dtype) (chunks : List Chunk) :
    ∀ (cs : List Chunk) (kv : Kvcache M), (∀ c ∈ chunks, c.Ends) →
      Behind em turn batch tok dtype kv cs →
      Yields (forwardAll em batch tok (fed cs) chunks kv)
        (·.2 = reference em turn batch tok (fed cs) chunks) := by
  induction chunks with
  | nil => exact fun _ _ _ _ => .pure rfl
  | cons c chunks ih =>
    intro cs kv hends h
    obtain ⟨hc, hrest⟩ := List.forall_mem_cons.mp hends
    refine (modelForward_yields batch tok hem hc h).bind ?_
    rintro ⟨kv', logits⟩ ⟨hbehind, hlogits⟩
    have hfed : fed (cs ++ [c]) = fed cs + c.len := by simp [fed]
    have hlater := ih (cs ++ [c]) kv' hrest hbehind
    rw [hfed] at hlater
    refine hlater.bind ?_
    rintro ⟨kv'', later⟩ hlater
    refine .pure ?_
    dsimp only at hlogits hlater ⊢
    rw [hlogits, hlater, reference]

theorem init_behind (hem : em.Documented turn dtype) {kv : Kvcache M}
    (h : kvcacheInit M em.cfg.numHiddenLayers = some kv) :
    Behind em turn batch tok dtype kv [] :=
  (reached_aligned hem.cache hem.turns (.init h)).2

end Passes

end Run

/-! ### A small model -/

/-- Rows of one number, added up. -/
def smallOps : Numerics fnMlx Unit where
  zero := (0 : Nat)
  null := ()
  const _ := (1 : Nat)
  root n := n
  invRoot n := n
  add := Nat.add
  mul := Nat.mul
  div := Nat.div
  tanh n := n
  sigmoid n := n
  transpose w := w
  addOne w := w
  ones _ := ()
  values _ := [(1 : Nat)]
  matmul _ row := row
  quantizedMatmul _ _ _ _ _ row := row
  rmsNorm _ _ row := row
  takeRow _ id := [id.toNat]
  takeDequantized _ _ _ _ _ id := [id.toNat]
  attend _ q seen := [(q ++ seen.flatMap fun kv => kv.1 ++ kv.2).foldl Nat.add (0 : Nat)]
  ofEntries ax f := ⟨4, ax, 0, f⟩

/-- Two local layers, the second on the first. -/
def smallModel : EngineModel fnMlx Unit where
  ops := smallOps
  rope := addRope
  mulTrunc n _ := n
  freqs := false
  cfg := { slidingPair with
    headDim := 1, globalHeadDim := 0, hiddenSizePerLayerInput := 0, vocabSize := 1, hiddenSize := 1,
    numAttentionHeads := 1, numKeyValueHeads := 1, numGlobalKeyValueHeads := 0, rmsNormEps := 1,
    queryPreAttnScalar := 0, quantGroupSize := 64, finalLogitSoftcapping := 0, hasVNorm := true,
    attnScaleOne := true }
  weights _ := some ()

theorem smallModel_documented : smallModel.Documented addPosition 0 where
  cache := fnMlx_documented
  ndim _ _ := rfl
  dim _ _ := rfl
  dtype _ _ := rfl
  get _ _ _ _ := rfl
  turns := addRope_turns
  turnsRows _ _ p _ _ h := fun i k d hi hk hd => congrArg (fun n : Nat => n + p) (h i k d hi hk hd)

end Mlxd.Forward
