import Mlxd.Attention
import Mlxd.KvReached

/-!
# Attention does not depend on the chunks

Over any run of successful forward passes on one cache, the query of a position attends the
positions up to its own, within the window of a local layer, and queries and keys are rotated
with their own positions. Layers with a source attend the positions of that source.
-/
namespace Mlxd.Attention

open Mlxd.Model Mlxd.KvCache

/-! ## Sources -/

section Source

variable {cfg : ModelConfig}

theorem sourceBelow_spec (cfg : ModelConfig) (targetGlobal : Bool) :
    ∀ n, sourceBelow cfg targetGlobal n < 0 ∨ ∃ i < n, sourceBelow cfg targetGlobal n = i ∧
      modelLayerIsGlobal cfg i = targetGlobal
  | 0 => .inl (by simp [sourceBelow])
  | n + 1 => by
    rw [sourceBelow]
    split
    · rename_i hglobal
      exact .inr ⟨n, Nat.lt_succ_self n, rfl, hglobal⟩
    · rcases sourceBelow_spec cfg targetGlobal n with hnone | ⟨i, hi, hsource, hglobal⟩
      · exact .inl hnone
      · exact .inr ⟨i, hi.trans (Nat.lt_succ_self n), hsource, hglobal⟩

/-- The layer whose positions a layer attends. -/
def owner (cfg : ModelConfig) (layer : Nat) : Nat :=
  if 0 ≤ modelKvSourceLayer cfg layer then (modelKvSourceLayer cfg layer).toNat else layer

/-- A layer with positions of its own. -/
def Owns (cfg : ModelConfig) (layer : Nat) : Prop := modelKvSourceLayer cfg layer < 0

theorem owner_of_owns {layer : Nat} (h : Owns cfg layer) : owner cfg layer = layer :=
  if_neg (not_le.mpr h)

/-- A source is an earlier layer of the same type with positions of its own. -/
theorem source_spec {layer : Nat} (h : ¬ Owns cfg layer) :
    modelKvSourceLayer cfg layer = owner cfg layer ∧ owner cfg layer < layer ∧
      Owns cfg (owner cfg layer) ∧
      modelLayerIsGlobal cfg (owner cfg layer) = modelLayerIsGlobal cfg layer := by
  have hnonneg : 0 ≤ modelKvSourceLayer cfg layer := not_lt.mp h
  have howner : (owner cfg layer : Int) = modelKvSourceLayer cfg layer := by
    rw [owner, if_pos hnonneg, Int.toNat_of_nonneg hnonneg]
  have hsource : modelKvSourceLayer cfg layer = modelKvSourceLayer cfg layer := rfl
  conv at hsource => rhs; rw [modelKvSourceLayer]
  split at hsource
  · omega
  · simp only at hsource
    split at hsource
    · omega
    · rename_i hshared hboundary
      rcases sourceBelow_spec cfg (modelLayerIsGlobal cfg layer)
        ((cfg.numHiddenLayers : Int) - cfg.numKvSharedLayers).toNat with hnone | ⟨i, hi, hs, hglobal⟩
      · omega
      · have hi' : owner cfg layer = i := by omega
        refine ⟨howner.symm, by omega, ?_, hi' ▸ hglobal⟩
        rw [Owns, hi', modelKvSourceLayer, if_neg hshared, if_pos (by omega)]
        decide

theorem owns_owner (layer : Nat) : Owns cfg (owner cfg layer) := by
  by_cases howns : Owns cfg layer
  · rwa [owner_of_owns howns]
  · exact (source_spec howns).2.2.1

theorem maxKv_source {layer : Nat} (h : ¬ Owns cfg layer) :
    maxKv cfg (owner cfg layer) = maxKv cfg layer := by
  rw [maxKv, maxKv, localAttn, localAttn, (source_spec h).2.2.2]

theorem layerRotation_source {mulTrunc : Int → Rat → Int} {freqs : Bool} {layer : Nat}
    (h : ¬ Owns cfg layer) :
    layerRotation mulTrunc freqs cfg (owner cfg layer) = layerRotation mulTrunc freqs cfg layer := by
  simp only [layerRotation, ropeArgs, modelLayerHeadDim, (source_spec h).2.2.2]

end Source

/-! ## Masks -/

section Mask

variable {cfg : ModelConfig} {layer : Int} {mode : MaskMode} {earlier len p : Nat}

/-- The positions a query at `p` is to attend. -/
def InWindow (cfg : ModelConfig) (layer : Int) (p j : Nat) : Prop :=
  j ≤ p ∧ (localAttn cfg layer = true → (p : Int) - j < cfg.slidingWindow)

theorem slidingWindow_pos (hlocal : localAttn cfg layer = true) : 0 < cfg.slidingWindow := by
  simp only [localAttn, Bool.and_eq_true, decide_eq_true_eq] at hlocal
  exact hlocal.2

/-- One new position sees the window as the trimmed view. -/
theorem trimmed_window (hlocal : localAttn cfg layer = true) (hp : p < 1) (j : Nat) :
    (∃ c < earlier + 1 - viewStart cfg.slidingWindow 1 (earlier + 1),
        viewStart cfg.slidingWindow 1 (earlier + 1) + c = j) ↔
      InWindow cfg layer (earlier + p) j := by
  have hpos := slidingWindow_pos hlocal
  simp only [InWindow, hlocal, forall_const, viewStart, true_and]
  split
  · constructor
    · rintro ⟨c, hc, rfl⟩
      omega
    · rintro ⟨hle, hwindow⟩
      exact ⟨j - (earlier + 1 - cfg.slidingWindow.toNat), by omega, by omega⟩
  · constructor
    · rintro ⟨c, hc, rfl⟩
      omega
    · rintro ⟨hle, hwindow⟩
      exact ⟨j, by omega, by omega⟩

/-- Several new positions see the window through the mask on the whole view. -/
theorem masked_window (hlocal : localAttn cfg layer = true) (hone : len ≠ 1) (hp : p < len)
    (hmode : maskMode cfg layer len (earlier + len) = some mode) (j : Nat) :
    (∃ c < earlier + len, c = j ∧ mode.attends len (earlier + len) p c = true) ↔
      InWindow cfg layer (earlier + p) j := by
  have hpos := slidingWindow_pos hlocal
  simp only [InWindow, hlocal, forall_const]
  rw [maskMode, if_pos ⟨hlocal, by omega⟩, fwdSlidingWindowMask, if_neg (by omega)] at hmode
  simp only [Option.map_some, Option.some.injEq] at hmode
  subst hmode
  simp only [MaskMode.attends, decide_eq_true_eq]
  constructor
  · rintro ⟨c, hc, rfl, hdiff⟩
    omega
  · rintro ⟨hle, hwindow⟩
    exact ⟨j, by omega, by omega, by omega⟩

/-- Without a window every position sees what is before it. -/
theorem full_window (hlocal : ¬ localAttn cfg layer = true) (hp : p < len)
    (hmode : maskMode cfg layer len (earlier + len) = some mode) (j : Nat) :
    (∃ c < earlier + len, c = j ∧ mode.attends len (earlier + len) p c = true) ↔
      InWindow cfg layer (earlier + p) j := by
  simp only [InWindow, hlocal]
  by_cases hmany : 1 < len
  · rw [maskMode, if_neg (fun h => hlocal h.1), if_neg hlocal, if_pos hmany,
      Option.some.injEq] at hmode
    subst hmode
    simp only [MaskMode.attends, decide_eq_true_eq]
    constructor
    · rintro ⟨c, hc, rfl, hcausal⟩
      exact ⟨by omega, fun h => by simp at h⟩
    · rintro ⟨hle, -⟩
      exact ⟨j, by omega, by omega, by omega⟩
  · rw [maskMode, if_neg (fun h => hlocal h.1), if_neg hlocal, if_neg hmany,
      Option.some.injEq] at hmode
    subst hmode
    simp only [MaskMode.attends, and_true]
    constructor
    · rintro ⟨c, hc, rfl⟩
      exact ⟨by omega, fun h => by simp at h⟩
    · rintro ⟨hle, -⟩
      exact ⟨j, by omega, by omega⟩

/-- Mask and trimmed view together leave the window of every query: after `earlier` positions
and `len` new ones, column `c` of the view is position `viewStart + c`. -/
theorem maskMode_window
    (hmode : maskMode cfg layer len
      (earlier + len - viewStart (maxKv cfg layer) len (earlier + len)) = some mode)
    (hp : p < len) (j : Nat) :
    (∃ c < earlier + len - viewStart (maxKv cfg layer) len (earlier + len),
        viewStart (maxKv cfg layer) len (earlier + len) + c = j ∧
        mode.attends len (earlier + len - viewStart (maxKv cfg layer) len (earlier + len)) p c
          = true) ↔
      InWindow cfg layer (earlier + p) j := by
  by_cases hlocal : localAttn cfg layer = true
  · rw [show maxKv cfg layer = cfg.slidingWindow from if_pos hlocal] at hmode ⊢
    by_cases hone : len = 1
    · subst hone
      rw [maskMode, if_neg (by omega), if_pos hlocal, Option.some.injEq] at hmode
      subst hmode
      simp only [MaskMode.attends, and_true]
      exact trimmed_window hlocal hp j
    · have hstart : viewStart cfg.slidingWindow len (earlier + len) = 0 :=
        if_neg fun h => hone h.2.1
      rw [hstart, Nat.sub_zero] at hmode ⊢
      simp only [Nat.zero_add]
      exact masked_window hlocal hone hp hmode j
  · have hstart : viewStart (maxKv cfg layer) len (earlier + len) = 0 := by
      rw [maxKv, if_neg hlocal]
      exact if_neg fun h => absurd h.1 (by decide)
    rw [hstart, Nat.sub_zero] at hmode ⊢
    simp only [Nat.zero_add]
    exact full_window hlocal hp hmode j

/-- The mask is built whatever the chunk. -/
theorem maskMode_isSome (cfg : ModelConfig) (layer : Int) (earlier len : Nat) :
    (maskMode cfg layer len
      (earlier + len - viewStart (maxKv cfg layer) len (earlier + len))).isSome := by
  rw [maskMode]
  split
  · rename_i hlocal
    have hpos : 0 < cfg.slidingWindow := by
      simp only [localAttn, Bool.and_eq_true, decide_eq_true_eq] at hlocal
      exact hlocal.1.2
    have hstart : viewStart (maxKv cfg layer) len (earlier + len) = 0 :=
      if_neg fun h => by omega
    rw [hstart, fwdSlidingWindowMask, if_neg (by omega)]
    rfl
  · split
    · rfl
    · split <;> rfl

theorem maxKv_nonneg (cfg : ModelConfig) (layer : Int) : 0 ≤ maxKv cfg layer := by
  rw [maxKv]
  split
  · rename_i hlocal
    simp only [localAttn, Bool.and_eq_true, decide_eq_true_eq] at hlocal
    omega
  · exact le_refl 0

end Mask

/-! ## Rotated rows -/

variable {M : Mlx}

/-- The same elements. -/
def SameRow (S : LayerShape) (a b : Row M) : Prop :=
  ∀ i h d, i < S.batch → h < S.heads → d < S.headDim → a i h d = b i h d

/-- The documented behaviour of the rotation: row `p` is turned as position `offset + p`. -/
structure Turns (M : Mlx) (rope : Rotation → Nat → M.Arr → M.Arr)
    (turn : Rotation → Nat → Row M → Row M) : Prop where
  ndim : ∀ κ off a, M.ndim (rope κ off a) = M.ndim a
  dim : ∀ κ off a, M.dim (rope κ off a) = M.dim a
  dtype : ∀ κ off a, M.dtype (rope κ off a) = M.dtype a
  get : ∀ κ off a ix, (∀ i, ix i < M.dim a i) → M.get (rope κ off a) ix =
    turn κ (off + ix 2) (row a (ix 2)) (ix 0) (ix 1) (ix 3)

/-- Stored keys against the ones before their rotation, each turned as its own position. -/
structure Cached (S : LayerShape) (turn : Rotation → Nat → Row M → Row M) (κ : Option Rotation)
    (K raw : List (Row M)) : Prop where
  length : K.length = raw.length
  turned : ∀ j r r', K[j]? = some r → raw[j]? = some r' →
    ∃ rotation ∈ κ, SameRow S r (turn rotation j r')

section Rows

variable {rope : Rotation → Nat → M.Arr → M.Arr} {turn : Rotation → Nat → Row M → Row M}
  {S : LayerShape} {a : M.Arr} {κ : Rotation} {off : Nat}

theorem Turns.feeds (hturn : Turns M rope turn) (h : Feeds S a) : Feeds S (rope κ off a) where
  ndim := (hturn.ndim _ _ _).trans h.ndim
  dim := by rw [hturn.dim, ← h.dim]
  dtype := (hturn.dtype _ _ _).trans h.dtype

theorem Turns.row (hturn : Turns M rope turn) (κ : Rotation) (off : Nat) (h : Feeds S a) {p : Nat} (hp : p < M.dim a 2) :
    SameRow S (row (rope κ off a) p) (turn κ (off + p) (KvCache.row a p)) := by
  intro i k d hi hk hd
  refine hturn.get κ off a ![i, k, p, d] ?_
  rw [h.dim, axes_lt]
  exact ⟨hi, hk, hp, hd⟩

theorem rows_getElem? (a : M.Arr) {p : Nat} (hp : p < M.dim a 2) :
    (rows a)[p]? = some (row a p) := by
  rw [rows, List.getElem?_map, List.getElem?_range hp]
  rfl

/-- New keys behind the stored ones, rotated from the number of stored ones on. -/
theorem Cached.append (hturn : Turns M rope turn) {K raw : List (Row M)}
    (h : Cached S turn (some κ) K raw) (ha : Feeds S a) (hoff : K.length = off) :
    Cached S turn (some κ) (K ++ rows (rope κ off a)) (raw ++ rows a) := by
  refine ⟨?_, fun j r r' hr hr' => ?_⟩
  · rw [List.length_append, List.length_append, rows_length, rows_length, hturn.dim, h.length]
  · rcases Nat.lt_or_ge j off with hj | hj
    · rw [List.getElem?_append_left (hoff ▸ hj)] at hr
      rw [List.getElem?_append_left (h.length ▸ hoff ▸ hj)] at hr'
      exact h.turned j r r' hr hr'
    · rw [List.getElem?_append_right (hoff ▸ hj), hoff] at hr
      rw [List.getElem?_append_right (h.length ▸ hoff ▸ hj), ← h.length, hoff] at hr'
      have hp := lt_of_getElem? hr'
      rw [rows_length] at hp
      rw [rows_getElem? _ (by rw [hturn.dim]; exact hp)] at hr
      rw [rows_getElem? _ hp] at hr'
      obtain rfl := Option.some.inj hr
      obtain rfl := Option.some.inj hr'
      refine ⟨κ, rfl, ?_⟩
      have hrow := hturn.row κ off ha hp
      rwa [Nat.add_sub_cancel' hj] at hrow

/-- The rows of a view, from its first position on. -/
theorem view_row {maxKv : Int} {len : Nat} {R : List (Row M)}
    (h : Holds S a (window maxKv len R)) :
    M.dim a 2 = R.length - viewStart maxKv len R.length ∧
      ∀ c < M.dim a 2, ∃ r, R[viewStart maxKv len R.length + c]? = some r ∧
        SameRow S (row a c) r := by
  have hdim : M.dim a 2 = (window maxKv len R).length := by rw [h.dim]; rfl
  rw [← drop_viewStart, List.length_drop] at hdim
  refine ⟨hdim, fun c hc => ?_⟩
  have hlt : viewStart maxKv len R.length + c < R.length := by omega
  have hr := List.getElem?_eq_getElem hlt
  refine ⟨_, hr, fun i k d hi hk hd => h.stores c _ ?_ i k d hi hk hd⟩
  rw [← drop_viewStart, List.getElem?_drop]
  exact hr

end Rows

/-! ## Runs -/

/-- All positions of some calls. -/
def total (calls : List (ForwardCall M)) : Nat := (calls.map ForwardCall.len).sum

/-- The keys of a layer over some calls, before their rotation. -/
def rawKeys (calls : List (ForwardCall M)) (layer : Nat) : List (Row M) :=
  calls.flatMap fun call => rows (call.input layer).k

def rawValues (calls : List (ForwardCall M)) (layer : Nat) : List (Row M) :=
  calls.flatMap fun call => rows (call.input layer).v

/-- Every layer gets arrays of its shapes, with one row for each new position. -/
structure Shaped (cfg : ModelConfig) (SQ S : Nat → LayerShape) (call : ForwardCall M) : Prop where
  queries : ∀ layer, Feeds (SQ layer) (call.input layer).q ∧ M.dim (call.input layer).q 2 = call.len
  keys : ∀ layer, Owns cfg layer →
    Feeds (S layer) (call.input layer).k ∧ M.dim (call.input layer).k 2 = call.len
  values : ∀ layer, Owns cfg layer →
    Feeds (S layer) (call.input layer).v ∧ M.dim (call.input layer).v 2 = call.len

section Run

variable {rope : Rotation → Nat → M.Arr → M.Arr} {turn : Rotation → Nat → Row M → Row M}
  {mulTrunc : Int → Rat → Int} {freqs : Bool} {cfg : ModelConfig} {SQ S : Nat → LayerShape}

theorem rows_total {calls : List (ForwardCall M)} {arr : ForwardCall M → M.Arr}
    (h : ∀ call ∈ calls, M.dim (arr call) 2 = call.len) :
    (calls.flatMap fun call => rows (arr call)).length = total calls := by
  induction calls with
  | nil => rfl
  | cons call calls ih =>
    have ih := ih fun c hc => h c (List.mem_cons_of_mem _ hc)
    rw [List.flatMap_cons, List.length_append, rows_length, h call List.mem_cons_self, ih]
    rfl

theorem rawKeys_length {calls : List (ForwardCall M)} (h : ∀ call ∈ calls, Shaped cfg SQ S call)
    {layer : Nat} (howns : Owns cfg layer) : (rawKeys calls layer).length = total calls :=
  rows_total fun call hcall => ((h call hcall).keys layer howns).2

theorem rawValues_length {calls : List (ForwardCall M)}
    (h : ∀ call ∈ calls, Shaped cfg SQ S call) {layer : Nat} (howns : Owns cfg layer) :
    (rawValues calls layer).length = total calls :=
  rows_total fun call hcall => ((h call hcall).values layer howns).2

theorem total_append (calls : List (ForwardCall M)) (call : ForwardCall M) :
    total (calls ++ [call]) = total calls + call.len := by
  simp [total]

variable (turn mulTrunc freqs cfg SQ S) in
/-- Every layer with positions of its own stores the calls it has seen, keys rotated. -/
structure Aligned (kv : Kvcache M) (seen : Nat → List (ForwardCall M)) : Prop where
  numLayers : kv.numLayers = cfg.numHiddenLayers
  shaped : ∀ layer, ∀ call ∈ seen layer, Shaped cfg SQ S call
  stored : ∃ hist, AllStored S kv hist ∧ ∀ layer < cfg.numHiddenLayers, Owns cfg layer →
    Cached (S layer) turn (layerRotation mulTrunc freqs cfg layer) (keyRows (hist layer))
      (rawKeys (seen layer) layer) ∧ valueRows (hist layer) = rawValues (seen layer) layer

/-- The offset of a layer is the number of positions it has seen. -/
theorem Aligned.offset {kv : Kvcache M} {seen : Nat → List (ForwardCall M)}
    (h : Aligned turn mulTrunc freqs cfg SQ S kv seen) {layer : Nat}
    (hlayer : layer < cfg.numHiddenLayers) (howns : Owns cfg layer) :
    kvcacheLayerOffset M kv layer = total (seen layer) := by
  obtain ⟨hist, hall, hcached⟩ := h.stored
  have hlen := (hcached layer hlayer howns).1.length
  rw [rawKeys_length (h.shaped layer) howns] at hlen
  have hnum := h.numLayers
  rw [kvcacheLayerOffset, if_neg (by omega), Int.toNat_natCast, (hall layer).offset.1, hlen]

variable (turn mulTrunc freqs cfg SQ S) in
/-- What a layer's attention is given in a call after `earlier` ones: queries rotated from the
first new position on and the window of the stored positions. -/
structure Served (earlier : List (ForwardCall M)) (call : ForwardCall M) (layer : Nat)
    (q kView vView : M.Arr) (κ : Rotation) (K : List (Row M)) : Prop where
  rotation : layerRotation mulTrunc freqs cfg layer = some κ
  queries : ∀ p < call.len, SameRow (SQ layer) (row q p)
    (turn κ (total earlier + p) (row (call.input layer).q p))
  cached : Cached (S (owner cfg layer)) turn (some κ) K
    (rawKeys (earlier ++ [call]) (owner cfg layer))
  keys : Holds (S (owner cfg layer)) kView (window (maxKv cfg layer) call.len K)
  values : Holds (S (owner cfg layer)) vView
    (window (maxKv cfg layer) call.len (rawValues (earlier ++ [call]) (owner cfg layer)))

/-- The view of a layer ends at the last new position. -/
theorem Served.dim {calls : List (ForwardCall M)} {call : ForwardCall M} {layer : Nat}
    {q kView vView : M.Arr} {κ : Rotation} {K : List (Row M)}
    (hcalls : ∀ call ∈ calls, Shaped cfg SQ S call) (hcall : Shaped cfg SQ S call)
    (h : Served turn mulTrunc freqs cfg SQ S calls call layer q kView vView κ K) :
    K.length = total calls + call.len ∧ M.dim kView 2 =
      total calls + call.len - viewStart (maxKv cfg layer) call.len (total calls + call.len) := by
  have hall : ∀ c ∈ calls ++ [call], Shaped cfg SQ S c :=
    List.forall_mem_append.mpr ⟨hcalls, List.forall_mem_singleton.mpr hcall⟩
  have hK : K.length = total calls + call.len := by
    rw [h.cached.length, rawKeys_length hall (owns_owner layer), total_append]
  exact ⟨hK, hK ▸ (view_row h.keys).1⟩

/-! ### One layer -/

section Layer

variable {kv kv' : Kvcache M} {seen : Nat → List (ForwardCall M)} {call : ForwardCall M}
  {layer : Nat} {q kView vView : M.Arr}

/-- A layer that has stored a further call, the others untouched. -/
theorem Aligned.extend {kv' : Kvcache M} {hist hist' : Nat → List (M.Arr × M.Arr)}
    (h : Aligned turn mulTrunc freqs cfg SQ S kv seen) (hnum : kv'.numLayers = kv.numLayers)
    (hcached : ∀ other < cfg.numHiddenLayers, Owns cfg other →
      Cached (S other) turn (layerRotation mulTrunc freqs cfg other) (keyRows (hist other))
        (rawKeys (seen other) other) ∧ valueRows (hist other) = rawValues (seen other) other)
    (hcall : Shaped cfg SQ S call) (hothers : ∀ other ≠ layer, hist' other = hist other)
    (hall : AllStored S kv' hist')
    (hlayer : Cached (S layer) turn (layerRotation mulTrunc freqs cfg layer)
        (keyRows (hist' layer)) (rawKeys (seen layer ++ [call]) layer) ∧
      valueRows (hist' layer) = rawValues (seen layer ++ [call]) layer) :
    Aligned turn mulTrunc freqs cfg SQ S kv'
      (Function.update seen layer (seen layer ++ [call])) := by
  refine ⟨hnum.trans h.numLayers, fun other => ?_, hist', hall, fun other hother howns => ?_⟩
  · by_cases heq : other = layer
    · subst heq
      rw [Function.update_self]
      exact List.forall_mem_append.mpr ⟨h.shaped other, List.forall_mem_singleton.mpr hcall⟩
    · rw [Function.update_of_ne heq]
      exact h.shaped other
  · by_cases heq : other = layer
    · subst heq
      rw [Function.update_self]
      exact hlayer
    · rw [Function.update_of_ne heq, hothers other heq]
      exact hcached other hother howns

theorem own_served (hM : M.Documented) (hturn : Turns M rope turn)
    (h : Aligned turn mulTrunc freqs cfg SQ S kv seen) (hlayer : layer < cfg.numHiddenLayers)
    (howns : Owns cfg layer) (hcall : Shaped cfg SQ S call)
    (hrun : attendOwn M rope mulTrunc freqs cfg kv layer (call.input layer) =
      some (kv', q, kView, vView)) :
    Aligned turn mulTrunc freqs cfg SQ S kv'
        (Function.update seen layer (seen layer ++ [call])) ∧
      ∃ κ K, Served turn mulTrunc freqs cfg SQ S (seen layer) call layer q kView vView κ K := by
  obtain ⟨hist, hall, hcached⟩ := h.stored
  obtain ⟨hcache, hvalues⟩ := hcached layer hlayer howns
  have hoffset := h.offset hlayer howns
  have hlen := hcache.length
  rw [rawKeys_length (h.shaped layer) howns] at hlen
  simp only [attendOwn, fwdRopeApply, hoffset, Int.toNat_natCast, Option.bind_eq_bind,
    Option.bind_eq_some_iff, Option.map_eq_some_iff] at hrun
  obtain ⟨_, ⟨κ, hκ, rfl⟩, _, ⟨κ', hκ', rfl⟩, hrun⟩ := hrun
  obtain rfl : κ = κ' := Option.some.inj (hκ.symm.trans hκ')
  let update : UpdateCall M := ⟨(call.input layer).ok, layer,
    rope κ (total (seen layer)) (call.input layer).k, (call.input layer).v, maxKv cfg layer,
    (M.null, M.null)⟩
  have hat : update.at = layer := Int.toNat_natCast layer
  obtain ⟨hkeys, hkeysLen⟩ := hcall.keys layer howns
  obtain ⟨hvals, hvalsLen⟩ := hcall.values layer howns
  have hfed : Fed S update := by
    refine ⟨?_, ?_⟩ <;> rw [hat]
    · exact hturn.feeds hkeys
    · exact hvals
  have hends := update_ends update kv
  rw [show kvcacheUpdate M (call.input layer).ok kv layer
    (rope κ (total (seen layer)) (call.input layer).k) (call.input layer).v (maxKv cfg layer)
    (M.null, M.null) = update.run kv from rfl] at hrun
  generalize update.run kv = res at hends hrun
  cases hends with
  | refused => simp at hrun
  | failed => simp at hrun
  | done room sameLen append =>
    simp only [Option.some.injEq, Prod.mk.injEq] at hrun
    obtain ⟨rfl, rfl, rfl, rfl⟩ := hrun
    obtain ⟨hinit, hready, hkView, hvView⟩ := done_ready hM hall hfed room sameLen append
    rw [hat] at hready hkView hvView ⊢
    rw [show M.dim update.newK 2 = call.len from (congrFun (hturn.dim _ _ _) 2).trans hkeysLen]
      at hkView hvView
    have hcache' : Cached (S layer) turn (some κ)
        (keyRows (hist layer ++ [(update.newK, update.newV)]))
        (rawKeys (seen layer ++ [call]) layer) := by
      rw [hκ] at hcache
      simp only [keyRows, rawKeys, List.flatMap_append, List.flatMap_singleton]
      exact hcache.append hturn hkeys hlen
    have hvalues' : valueRows (hist layer ++ [(update.newK, update.newV)]) =
        rawValues (seen layer ++ [call]) layer := by
      simp only [valueRows, rawValues, List.flatMap_append, List.flatMap_singleton] at hvalues ⊢
      rw [hvalues]
    refine ⟨h.extend rfl hcached hcall (fun other hother => Function.update_of_ne hother _ _)
      (hall.set hinit hready) ?_, κ, keyRows (hist layer ++ [(update.newK, update.newV)]), hκ,
      fun p hp => ?_, ?_, ?_, ?_⟩
    · rw [Function.update_self, hκ]
      exact ⟨hcache', hvalues'⟩
    · obtain ⟨hq, hqLen⟩ := hcall.queries layer
      exact hturn.row κ _ hq (hqLen.symm ▸ hp)
    all_goals rw [owner_of_owns howns]
    · exact hcache'
    · exact hkView
    · rw [← hvalues']
      exact hvView

theorem source_served (hM : M.Documented) (hturn : Turns M rope turn)
    (h : Aligned turn mulTrunc freqs cfg SQ S kv seen) (hlayer : layer < cfg.numHiddenLayers)
    (howns : ¬ Owns cfg layer) (hcall : Shaped cfg SQ S call) {earlier : List (ForwardCall M)}
    (hseen : seen (owner cfg layer) = earlier ++ [call])
    (hrun : attendSource M rope mulTrunc freqs cfg kv layer (modelKvSourceLayer cfg layer) call.len
      (call.input layer) = some (kv', q, kView, vView)) :
    kv' = kv ∧ ∃ κ K, Served turn mulTrunc freqs cfg SQ S earlier call layer q kView vView κ K := by
  obtain ⟨hsource, hbefore, hsourceOwns, -⟩ := source_spec howns
  have hoffset := h.offset (hbefore.trans hlayer) hsourceOwns
  rw [hseen, total_append] at hoffset
  rw [hsource] at hrun
  -- the source has appended this call's positions already
  have hclamp : max (((total earlier + call.len : Nat) : Int) - call.len) 0 = total earlier := by
    omega
  simp only [attendSource, fwdRopeApply, hoffset, hclamp, Int.toNat_natCast, Option.bind_eq_bind,
    Option.bind_eq_some_iff, Option.map_eq_some_iff] at hrun
  obtain ⟨_, ⟨κ, hκ, rfl⟩, hrun⟩ := hrun
  cases hview : kvcacheView M (call.input layer).ok kv (owner cfg layer)
    (maxKv cfg (owner cfg layer)) call.len (M.null, M.null) with
  | mk rc views =>
    rw [hview] at hrun
    split at hrun
    · rename_i heq
      obtain ⟨rfl, rfl⟩ := Prod.mk.inj heq
      simp only [Option.some.injEq, Prod.mk.injEq] at hrun
      obtain ⟨rfl, rfl, rfl, rfl⟩ := hrun
      obtain ⟨hist, hall, hcached⟩ := h.stored
      obtain ⟨hcache, hvalues⟩ := hcached _ (hbefore.trans hlayer) hsourceOwns
      rw [layerRotation_source howns, hκ, hseen] at hcache
      rw [hseen] at hvalues
      obtain ⟨hkView, hvView⟩ := view_holds hM (hall (owner cfg layer)) hview
      rw [maxKv_source howns] at hkView hvView
      obtain ⟨hq, hqLen⟩ := hcall.queries layer
      exact ⟨rfl, κ, keyRows (hist (owner cfg layer)), hκ,
        fun p hp => hturn.row κ _ hq (hqLen.symm ▸ hp), hcache, hkView, hvalues ▸ hvView⟩
    · contradiction

/-- What the layers have seen when the call has come to `layer`. -/
def seenAt (calls : List (ForwardCall M)) (call : ForwardCall M) (layer : Nat) :
    Nat → List (ForwardCall M) :=
  fun other => if other < layer then calls ++ [call] else calls

variable {calls : List (ForwardCall M)}

theorem Aligned.congr (h : Aligned turn mulTrunc freqs cfg SQ S kv seen)
    {seen' : Nat → List (ForwardCall M)}
    (hseen : ∀ layer < cfg.numHiddenLayers, Owns cfg layer → seen' layer = seen layer)
    (hshaped : ∀ layer, ∀ call ∈ seen' layer, Shaped cfg SQ S call) :
    Aligned turn mulTrunc freqs cfg SQ S kv seen' := by
  obtain ⟨hist, hall, hcached⟩ := h.stored
  refine ⟨h.numLayers, hshaped, hist, hall, fun layer hlayer howns => ?_⟩
  rw [hseen layer hlayer howns]
  exact hcached layer hlayer howns

theorem seenAt_shaped (hcalls : ∀ call ∈ calls, Shaped cfg SQ S call)
    (hcall : Shaped cfg SQ S call) (layer other : Nat) :
    ∀ c ∈ seenAt calls call layer other, Shaped cfg SQ S c := by
  rw [seenAt]
  split
  · exact List.forall_mem_append.mpr ⟨hcalls, List.forall_mem_singleton.mpr hcall⟩
  · exact hcalls

/-- One layer of a call: the next layer finds the cache aligned. -/
theorem attention_served (hM : M.Documented) (hturn : Turns M rope turn)
    (hcalls : ∀ call ∈ calls, Shaped cfg SQ S call) (hcall : Shaped cfg SQ S call)
    (h : Aligned turn mulTrunc freqs cfg SQ S kv (seenAt calls call layer))
    (hlayer : layer < cfg.numHiddenLayers) {a : Sdpa M}
    (hrun : fwdAttention M rope mulTrunc freqs cfg kv layer call.len (call.input layer) =
      some (kv', a)) :
    Aligned turn mulTrunc freqs cfg SQ S kv' (seenAt calls call (layer + 1)) ∧
      maskMode cfg layer call.len (M.dim a.keys 2) = some a.mode ∧
      ∃ κ K, Served turn mulTrunc freqs cfg SQ S calls call layer a.queries a.keys a.values κ K := by
  have hshaped := seenAt_shaped hcalls hcall (layer + 1)
  simp only [fwdAttention] at hrun
  split at hrun
  · contradiction
  · split at hrun
    all_goals
      simp only [Option.bind_eq_bind, Option.bind_eq_some_iff, Option.pure_def, Option.some.injEq,
        Prod.mk.injEq] at hrun
      obtain ⟨⟨kv'', q, kView, vView⟩, hattend, mode, hmode, rfl, rfl⟩ := hrun
    · rename_i hsource
      have howns : ¬ Owns cfg layer := not_lt.mpr hsource
      obtain ⟨-, hbefore, -, -⟩ := source_spec howns
      obtain ⟨rfl, hserved⟩ := source_served hM hturn h hlayer howns hcall (if_pos hbefore) hattend
      refine ⟨h.congr (fun other _ hother => ?_) hshaped, hmode, hserved⟩
      have hne : other ≠ layer := fun heq => howns (heq ▸ hother)
      simp only [seenAt, show other < layer + 1 ↔ other < layer by omega]
    · rename_i hsource
      have howns : Owns cfg layer := not_le.mp hsource
      obtain ⟨haligned, hserved⟩ := own_served hM hturn h hlayer howns hcall hattend
      have hself : seenAt calls call layer layer = calls := if_neg (lt_irrefl layer)
      rw [hself] at haligned hserved
      refine ⟨haligned.congr (fun other _ _ => ?_) hshaped, hmode, hserved⟩
      by_cases heq : other = layer
      · subst heq
        rw [Function.update_self]
        exact if_pos (Nat.lt_succ_self other)
      · rw [Function.update_of_ne heq]
        simp only [seenAt, show other < layer + 1 ↔ other < layer by omega]

end Layer

/-! ### Layers that succeed -/

variable (mulTrunc freqs cfg) in
/-- Nothing outside of the cache stands in a layer's way: MLX succeeds, the layer has a
rotation, and a source if it shares. -/
structure Runs (layer : Nat) (x : LayerInput M) : Prop where
  ok : ∀ site, x.ok site = true
  rotation : (layerRotation mulTrunc freqs cfg layer).isSome
  source : modelLayerKvShared cfg layer = true → ¬ Owns cfg layer

section Succeeds

variable {kv : Kvcache M} {seen : Nat → List (ForwardCall M)} {call : ForwardCall M} {layer : Nat}

theorem own_succeeds (hturn : Turns M rope turn)
    (h : Aligned turn mulTrunc freqs cfg SQ S kv seen) (hlayer : layer < cfg.numHiddenLayers)
    (howns : Owns cfg layer) (hcall : Shaped cfg SQ S call)
    (hruns : Runs mulTrunc freqs cfg layer (call.input layer)) :
    ∃ r, attendOwn M rope mulTrunc freqs cfg kv layer (call.input layer) = some r := by
  obtain ⟨hist, hall, -⟩ := h.stored
  obtain ⟨κ, hκ⟩ := Option.isSome_iff_exists.mp hruns.rotation
  obtain ⟨hkeys, hkeysLen⟩ := hcall.keys layer howns
  obtain ⟨hvals, hvalsLen⟩ := hcall.values layer howns
  let update : UpdateCall M := ⟨(call.input layer).ok, layer,
    rope κ (kvcacheLayerOffset M kv layer).toNat (call.input layer).k, (call.input layer).v,
    maxKv cfg layer, (M.null, M.null)⟩
  have hat : update.at = layer := Int.toNat_natCast layer
  have hfed : Fed S update := by
    refine ⟨?_, ?_⟩ <;> rw [hat]
    · exact hturn.feeds hkeys
    · exact hvals
  have hnum := h.numLayers
  have hlen : M.dim update.newV 2 = M.dim update.newK 2 :=
    hvalsLen.trans (((congrFun (hturn.dim _ _ _) 2).trans hkeysLen).symm)
  have hrc := update_succeeds hall hfed hruns.ok
    (show (0 : Int) ≤ layer ∧ (layer : Int) < kv.numLayers by omega) (maxKv_nonneg cfg layer) hlen
  simp only [attendOwn, fwdRopeApply, hκ, Option.map_some, Option.bind_eq_bind, Option.bind_some]
  rw [show kvcacheUpdate M (call.input layer).ok kv layer
    (rope κ (kvcacheLayerOffset M kv layer).toNat (call.input layer).k) (call.input layer).v
    (maxKv cfg layer) (M.null, M.null) = update.run kv from rfl]
  generalize update.run kv = res at hrc ⊢
  obtain ⟨rc, kv', kView, vView⟩ := res
  obtain rfl : rc = 0 := hrc
  exact ⟨_, rfl⟩

theorem source_succeeds (h : Aligned turn mulTrunc freqs cfg SQ S kv seen)
    (hlayer : layer < cfg.numHiddenLayers) (howns : ¬ Owns cfg layer)
    (hpos : 0 < total (seen (owner cfg layer)))
    (hruns : Runs mulTrunc freqs cfg layer (call.input layer)) :
    ∃ r, attendSource M rope mulTrunc freqs cfg kv layer (modelKvSourceLayer cfg layer) call.len
      (call.input layer) = some r := by
  obtain ⟨hsource, hbefore, hsourceOwns, -⟩ := source_spec howns
  obtain ⟨hist, hall, hcached⟩ := h.stored
  obtain ⟨κ, hκ⟩ := Option.isSome_iff_exists.mp hruns.rotation
  have hnum := h.numLayers
  have hne : keyRows (hist (owner cfg layer)) ≠ [] := by
    refine List.ne_nil_of_length_pos ?_
    rw [(hcached _ (hbefore.trans hlayer) hsourceOwns).1.length,
      rawKeys_length (h.shaped _) hsourceOwns]
    exact hpos
  have hrc : (kvcacheView M (call.input layer).ok kv (owner cfg layer)
      (maxKv cfg (owner cfg layer)) call.len (M.null, M.null)).1 = 0 :=
    view_succeeds hruns.ok (by omega) (maxKv_nonneg cfg (owner cfg layer)) (hall _) hne
  rw [hsource]
  simp only [attendSource, fwdRopeApply, hκ, Option.map_some, Option.bind_eq_bind,
    Option.bind_some]
  generalize kvcacheView M (call.input layer).ok kv (owner cfg layer)
    (maxKv cfg (owner cfg layer)) call.len (M.null, M.null) = res at hrc ⊢
  obtain ⟨rc, kView, vView⟩ := res
  obtain rfl : rc = 0 := hrc
  exact ⟨_, rfl⟩

theorem attention_succeeds (hM : M.Documented) (hturn : Turns M rope turn)
    {calls : List (ForwardCall M)} (hcalls : ∀ call ∈ calls, Shaped cfg SQ S call)
    (hcall : Shaped cfg SQ S call) (hpos : 0 < call.len)
    (h : Aligned turn mulTrunc freqs cfg SQ S kv (seenAt calls call layer))
    (hlayer : layer < cfg.numHiddenLayers)
    (hruns : Runs mulTrunc freqs cfg layer (call.input layer)) :
    ∃ r, fwdAttention M rope mulTrunc freqs cfg kv layer call.len (call.input layer) = some r := by
  have hshared : ¬ (modelLayerKvShared cfg layer = true ∧ modelKvSourceLayer cfg layer < 0) :=
    fun hnone => hruns.source hnone.1 hnone.2
  simp only [fwdAttention, if_neg hshared]
  have hmask : ∀ {q kView vView : M.Arr} {κ : Rotation} {K : List (Row M)},
      Served turn mulTrunc freqs cfg SQ S calls call layer q kView vView κ K →
      ∃ mode, maskMode cfg layer call.len (M.dim kView 2) = some mode := by
    intro q kView vView κ K hserved
    rw [(hserved.dim hcalls hcall).2]
    exact Option.isSome_iff_exists.mp (maskMode_isSome cfg layer _ _)
  by_cases howns : Owns cfg layer
  · obtain ⟨⟨kv', q, kView, vView⟩, hattend⟩ := own_succeeds hturn h hlayer howns hcall hruns
    obtain ⟨-, κ, K, hserved⟩ := own_served hM hturn h hlayer howns hcall hattend
    have hself : seenAt calls call layer layer = calls := if_neg (lt_irrefl layer)
    rw [hself] at hserved
    obtain ⟨mode, hmode⟩ := hmask hserved
    rw [if_neg (not_le.mpr howns), hattend]
    simp only [Option.bind_eq_bind, Option.bind_some, hmode, Option.pure_def]
    exact ⟨_, rfl⟩
  · have hsource := (source_spec howns).2.1
    have hseen : seenAt calls call layer (owner cfg layer) = calls ++ [call] := if_pos hsource
    obtain ⟨⟨kv', q, kView, vView⟩, hattend⟩ := source_succeeds h hlayer howns
      (by rw [hseen, total_append]; omega) hruns
    obtain ⟨-, κ, K, hserved⟩ := source_served hM hturn h hlayer howns hcall hseen hattend
    obtain ⟨mode, hmode⟩ := hmask hserved
    rw [if_pos (not_lt.mp howns), hattend]
    simp only [Option.bind_eq_bind, Option.bind_some, hmode, Option.pure_def]
    exact ⟨_, rfl⟩

end Succeeds

/-! ### A whole call -/

variable (turn mulTrunc freqs cfg SQ S) in
/-- What the attention of a layer does: every query is rotated with its own position, every
column is a key rotated with its own position beside its value, and a query attends the columns
of its window. -/
structure AttendsWindow (earlier : List (ForwardCall M)) (call : ForwardCall M) (layer : Nat)
    (a : Sdpa M) (κ : Rotation) (first : Nat) : Prop where
  rotation : layerRotation mulTrunc freqs cfg layer = some κ
  queries : ∀ p < call.len, SameRow (SQ layer) (row a.queries p)
    (turn κ (total earlier + p) (row (call.input layer).q p))
  columns : first + M.dim a.keys 2 = total earlier + call.len ∧ M.dim a.values 2 = M.dim a.keys 2
  keys : ∀ c < M.dim a.keys 2, ∃ key,
    (rawKeys (earlier ++ [call]) (owner cfg layer))[first + c]? = some key ∧
      SameRow (S (owner cfg layer)) (row a.keys c) (turn κ (first + c) key)
  values : ∀ c < M.dim a.keys 2, ∃ value,
    (rawValues (earlier ++ [call]) (owner cfg layer))[first + c]? = some value ∧
      SameRow (S (owner cfg layer)) (row a.values c) value
  attended : ∀ p < call.len, ∀ j,
    (∃ c < M.dim a.keys 2, first + c = j ∧
      a.mode.attends call.len (M.dim a.keys 2) p c = true) ↔
      InWindow cfg layer (total earlier + p) j

section Call

variable {kv kv' : Kvcache M} {calls : List (ForwardCall M)} {call : ForwardCall M} {layer : Nat}

theorem Served.attends {a : Sdpa M} {κ : Rotation} {K : List (Row M)}
    (hcalls : ∀ call ∈ calls, Shaped cfg SQ S call) (hcall : Shaped cfg SQ S call)
    (h : Served turn mulTrunc freqs cfg SQ S calls call layer a.queries a.keys a.values κ K)
    (hmode : maskMode cfg layer call.len (M.dim a.keys 2) = some a.mode) :
    AttendsWindow turn mulTrunc freqs cfg SQ S calls call layer a κ
      (viewStart (maxKv cfg layer) call.len (total calls + call.len)) := by
  have hall : ∀ c ∈ calls ++ [call], Shaped cfg SQ S c :=
    List.forall_mem_append.mpr ⟨hcalls, List.forall_mem_singleton.mpr hcall⟩
  obtain ⟨hK, hkDim⟩ := h.dim hcalls hcall
  have hV : (rawValues (calls ++ [call]) (owner cfg layer)).length = total calls + call.len := by
    rw [rawValues_length hall (owns_owner layer), total_append]
  obtain ⟨-, hkRow⟩ := view_row h.keys
  obtain ⟨hvDim, hvRow⟩ := view_row h.values
  rw [hK] at hkRow
  rw [hV] at hvDim hvRow
  have hle := viewStart_le (maxKv cfg layer) call.len (total calls + call.len)
  refine ⟨h.rotation, h.queries, ⟨by omega, by omega⟩, fun c hc => ?_,
    fun c hc => hvRow c (by omega), fun p hp j => ?_⟩
  · obtain ⟨r, hr, hsame⟩ := hkRow c hc
    have hlt := lt_of_getElem? hr
    rw [h.cached.length] at hlt
    have hraw := List.getElem?_eq_getElem hlt
    obtain ⟨κ', hκ', hturned⟩ := h.cached.turned _ _ _ hr hraw
    obtain rfl := Option.some.inj hκ'
    exact ⟨_, hraw, fun i k d hi hk hd => (hsame i k d hi hk hd).trans (hturned i k d hi hk hd)⟩
  · rw [hkDim] at hmode ⊢
    exact maskMode_window hmode hp j

theorem forwardLayers_attend (hM : M.Documented) (hturn : Turns M rope turn)
    (hcalls : ∀ call ∈ calls, Shaped cfg SQ S call) (hcall : Shaped cfg SQ S call) (count : Nat) :
    ∀ (layer : Nat) (kv : Kvcache M) (as : List (Sdpa M)), layer + count = cfg.numHiddenLayers →
      Aligned turn mulTrunc freqs cfg SQ S kv (seenAt calls call layer) →
      forwardLayers M rope mulTrunc freqs cfg call layer count kv = some (kv', as) →
      Aligned turn mulTrunc freqs cfg SQ S kv' (seenAt calls call cfg.numHiddenLayers) ∧
        ∀ i < count, ∃ a, as[i]? = some a ∧ ∃ κ first,
          AttendsWindow turn mulTrunc freqs cfg SQ S calls call (layer + i) a κ first := by
  induction count with
  | zero =>
    intro layer kv as hn h hrun
    simp only [forwardLayers, Option.some.injEq, Prod.mk.injEq] at hrun
    obtain ⟨rfl, rfl⟩ := hrun
    rw [← hn]
    exact ⟨h, fun i hi => absurd hi (Nat.not_lt_zero i)⟩
  | succ count ih =>
    intro layer kv as hn h hrun
    simp only [forwardLayers, Option.bind_eq_bind, Option.bind_eq_some_iff, Option.pure_def,
      Option.some.injEq, Prod.mk.injEq] at hrun
    obtain ⟨⟨kv₁, a⟩, hlayer, ⟨kv₂, rest⟩, hrest, rfl, rfl⟩ := hrun
    obtain ⟨haligned, hmode, κ, K, hserved⟩ :=
      attention_served hM hturn hcalls hcall h (by omega) hlayer
    obtain ⟨hend, hall⟩ := ih (layer + 1) kv₁ rest (by omega) haligned hrest
    refine ⟨hend, fun i hi => ?_⟩
    cases i with
    | zero => exact ⟨a, rfl, κ, _, hserved.attends hcalls hcall hmode⟩
    | succ i =>
      obtain ⟨b, hb, hattends⟩ := hall i (by omega)
      rw [show layer + 1 + i = layer + (i + 1) by omega] at hattends
      exact ⟨b, hb, hattends⟩

theorem forwardLayers_succeed (hM : M.Documented) (hturn : Turns M rope turn)
    (hcalls : ∀ call ∈ calls, Shaped cfg SQ S call) (hcall : Shaped cfg SQ S call)
    (hpos : 0 < call.len)
    (hruns : ∀ layer < cfg.numHiddenLayers, Runs mulTrunc freqs cfg layer (call.input layer))
    (count : Nat) : ∀ (layer : Nat) (kv : Kvcache M), layer + count = cfg.numHiddenLayers →
      Aligned turn mulTrunc freqs cfg SQ S kv (seenAt calls call layer) →
      ∃ r, forwardLayers M rope mulTrunc freqs cfg call layer count kv = some r := by
  induction count with
  | zero => exact fun _ _ _ _ => ⟨_, rfl⟩
  | succ count ih =>
    intro layer kv hn h
    have hlayer : layer < cfg.numHiddenLayers := by omega
    obtain ⟨⟨kv₁, a⟩, hrun⟩ :=
      attention_succeeds hM hturn hcalls hcall hpos h hlayer (hruns layer hlayer)
    obtain ⟨haligned, -⟩ := attention_served hM hturn hcalls hcall h hlayer hrun
    obtain ⟨⟨kv₂, rest⟩, hrest⟩ := ih (layer + 1) kv₁ (by omega) haligned
    simp only [forwardLayers, hrun, hrest, Option.bind_eq_bind, Option.bind_some, Option.pure_def]
    exact ⟨_, rfl⟩

end Call

/-! ### Successive calls -/

variable (rope mulTrunc freqs cfg SQ S) in
/-- The caches that successful calls reach, with the calls. -/
inductive Reached : Kvcache M → List (ForwardCall M) → Prop
  | init {kv : Kvcache M} (h : kvcacheInit M cfg.numHiddenLayers = some kv) : Reached kv []
  | forward {kv kv' : Kvcache M} {calls : List (ForwardCall M)} {as : List (Sdpa M)}
      (h : Reached kv calls) (call : ForwardCall M) (shaped : Shaped cfg SQ S call)
      (done : modelForward M rope mulTrunc freqs cfg call kv = some (kv', as)) :
      Reached kv' (calls ++ [call])

theorem seenAt_zero (calls : List (ForwardCall M)) (call : ForwardCall M) :
    seenAt calls call 0 = fun _ => calls := funext fun _ => if_neg (Nat.not_lt_zero _)

theorem call_attends (hM : M.Documented) (hturn : Turns M rope turn) {kv kv' : Kvcache M}
    {calls : List (ForwardCall M)} {call : ForwardCall M} {as : List (Sdpa M)}
    (hcalls : ∀ call ∈ calls, Shaped cfg SQ S call) (hcall : Shaped cfg SQ S call)
    (h : Aligned turn mulTrunc freqs cfg SQ S kv fun _ => calls)
    (hrun : modelForward M rope mulTrunc freqs cfg call kv = some (kv', as)) :
    (Aligned turn mulTrunc freqs cfg SQ S kv' fun _ => calls ++ [call]) ∧
      ∀ layer < cfg.numHiddenLayers, ∃ a, as[layer]? = some a ∧ ∃ κ first,
        AttendsWindow turn mulTrunc freqs cfg SQ S calls call layer a κ first := by
  rw [← seenAt_zero calls call] at h
  obtain ⟨haligned, hattend⟩ := forwardLayers_attend hM hturn hcalls hcall cfg.numHiddenLayers 0 kv
    as (Nat.zero_add _) h hrun
  refine ⟨haligned.congr (fun layer hlayer _ => (if_pos hlayer).symm) fun _ => ?_, ?_⟩
  · exact List.forall_mem_append.mpr ⟨hcalls, List.forall_mem_singleton.mpr hcall⟩
  · simpa only [Nat.zero_add] using hattend

theorem reached_aligned (hM : M.Documented) (hturn : Turns M rope turn) {kv : Kvcache M}
    {calls : List (ForwardCall M)} (h : Reached rope mulTrunc freqs cfg SQ S kv calls) :
    (∀ call ∈ calls, Shaped cfg SQ S call) ∧
      Aligned turn mulTrunc freqs cfg SQ S kv fun _ => calls := by
  induction h with
  | init h =>
    have hstored := reached_stored hM (KvCache.Reached.init (S := S) h)
    rw [kvcacheInit] at h
    split at h
    · contradiction
    · obtain rfl := Option.some.inj h
      refine ⟨fun c hc => absurd hc List.not_mem_nil, rfl, fun _ c hc => absurd hc List.not_mem_nil,
        fun _ => [], hstored, fun _ _ _ => ⟨⟨rfl, fun j r r' hr => ?_⟩, rfl⟩⟩
      simp [keyRows] at hr
  | forward h call shaped done ih =>
    obtain ⟨hcalls, haligned⟩ := ih
    exact ⟨List.forall_mem_append.mpr ⟨hcalls, List.forall_mem_singleton.mpr shaped⟩,
      (call_attends hM hturn hcalls shaped haligned done).1⟩

/-- After any calls, the next call succeeds where its layers can, and its attentions are
windowed by absolute positions. -/
theorem attention_windowed (hM : M.Documented) (hturn : Turns M rope turn) {kv : Kvcache M}
    {calls : List (ForwardCall M)} (h : Reached rope mulTrunc freqs cfg SQ S kv calls)
    {call : ForwardCall M} (hcall : Shaped cfg SQ S call) :
    (0 < call.len → (∀ layer < cfg.numHiddenLayers,
        Runs mulTrunc freqs cfg layer (call.input layer)) →
      ∃ r, modelForward M rope mulTrunc freqs cfg call kv = some r) ∧
    ∀ kv' as, modelForward M rope mulTrunc freqs cfg call kv = some (kv', as) →
      ∀ layer < cfg.numHiddenLayers, ∃ a, as[layer]? = some a ∧ ∃ κ first,
        AttendsWindow turn mulTrunc freqs cfg SQ S calls call layer a κ first := by
  obtain ⟨hcalls, haligned⟩ := reached_aligned hM hturn h
  refine ⟨fun hpos hruns => ?_,
    fun kv' as hrun => (call_attends hM hturn hcalls hcall haligned hrun).2⟩
  rw [← seenAt_zero calls call] at haligned
  exact forwardLayers_succeed hM hturn hcalls hcall hpos hruns cfg.numHiddenLayers 0 kv
    (Nat.zero_add _) haligned

end Run

/-! ### Two local layers, the second on the first -/

def slidingPair : ModelConfig :=
  { oneLayerGemma4 false with
    numHiddenLayers := 2, ropeProportional := false, layerIsGlobal := fun _ => false,
    slidingWindow := 2, numKvSharedLayers := 1, layers_le := by decide }

/-- A rotation that adds the position. -/
def addPosition (_ : Rotation) (n : Nat) (r : Row fnMlx) : Row fnMlx := fun b h d =>
  (show Nat from r b h d) + n

def addRope (κ : Rotation) (off : Nat) (a : FnArr) : FnArr :=
  ⟨a.ndim, a.dim, a.dtype, fun ix =>
    addPosition κ (off + ix 2) (row (M := fnMlx) a (ix 2)) (ix 0) (ix 1) (ix 3)⟩

theorem addRope_turns : Turns fnMlx addRope addPosition where
  ndim _ _ _ := rfl
  dim _ _ _ := rfl
  dtype _ _ _ := rfl
  get _ _ _ _ _ := rfl

/-- Some positions for both layers. -/
def pairCall (len : Nat) : ForwardCall fnMlx :=
  let x : FnArr := ⟨4, ![1, 1, len, 1], 0, fun ix => ix 2⟩
  ⟨len, fun _ => ⟨x, x, x, fun _ => true⟩⟩

theorem pairCall_shaped (len : Nat) : Shaped slidingPair oneShape oneShape (pairCall len) where
  queries _ := ⟨⟨rfl, rfl, rfl⟩, rfl⟩
  keys _ _ := ⟨⟨rfl, rfl, rfl⟩, rfl⟩
  values _ _ := ⟨⟨rfl, rfl, rfl⟩, rfl⟩

theorem pairCall_runs (len : Nat) : ∀ layer < slidingPair.numHiddenLayers,
    Runs (fun n _ => n) false slidingPair layer ((pairCall len).input layer) := by
  have hrotation : ∀ layer < slidingPair.numHiddenLayers,
    (layerRotation (fun n _ => n) false slidingPair layer).isSome = true := by decide
  have hsource : ∀ layer < slidingPair.numHiddenLayers,
    modelLayerKvShared slidingPair layer = true → 0 ≤ modelKvSourceLayer slidingPair layer := by
    decide
  exact fun layer hlayer => ⟨fun _ => rfl, hrotation layer hlayer,
    fun hshared => not_lt.mpr (hsource layer hlayer hshared)⟩

/-- A prompt of three positions and a step behind it. -/
theorem attention_windowed_pair : ∃ kv kv' as,
    Reached addRope (fun n _ => n) false slidingPair oneShape oneShape kv [pairCall 3] ∧
    modelForward fnMlx addRope (fun n _ => n) false slidingPair (pairCall 1) kv = some (kv', as) ∧
    ∀ layer < 2, ∃ a, as[layer]? = some a ∧ ∃ κ first, AttendsWindow addPosition (fun n _ => n)
      false slidingPair oneShape oneShape [pairCall 3] (pairCall 1) layer a κ first := by
  have hinit : Reached addRope (fun n _ => n) false slidingPair oneShape oneShape _ [] :=
    .init (M := fnMlx) rfl
  obtain ⟨⟨kv, as⟩, hprompt⟩ := (attention_windowed fnMlx_documented addRope_turns hinit
    (pairCall_shaped 3)).1 (by decide) (pairCall_runs 3)
  have hreached := hinit.forward (pairCall 3) (pairCall_shaped 3) hprompt
  have hnext := attention_windowed fnMlx_documented addRope_turns hreached (pairCall_shaped 1)
  obtain ⟨⟨kv', as'⟩, hstep⟩ := hnext.1 (by decide) (pairCall_runs 1)
  exact ⟨kv, kv', as', hreached, hstep, hnext.2 kv' as' hstep⟩

end Mlxd.Attention
