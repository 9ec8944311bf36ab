import Mlxd.KvRefine

/-!
# Runs of cache updates

From the cleared cache, over any updates of any layers with MLX failing anywhere, every entry
stores the successful appends of its layer in order.
-/
namespace Mlxd.KvCache

variable {M : Mlx}

/-! ## One update -/

/-- The arguments of an update, and where MLX succeeds during it. -/
structure UpdateCall (M : Mlx) where
  ok : MlxCall → Bool
  layer : Int
  newK : M.Arr
  newV : M.Arr
  maxKv : Int
  views : M.Arr × M.Arr

def UpdateCall.run (call : UpdateCall M) (kv : Kvcache M) : Int × Kvcache M × (M.Arr × M.Arr) :=
  kvcacheUpdate M call.ok kv call.layer call.newK call.newV call.maxKv call.views

/-- The layer an update is for. -/
def UpdateCall.at (call : UpdateCall M) : Nat := call.layer.toNat

/-- How an update can end: refused or out of room, failed behind a grown buffer, or done. -/
inductive Ends (call : UpdateCall M) (kv : Kvcache M) :
    Int × Kvcache M × (M.Arr × M.Arr) → Prop
  | refused : Ends call kv (-1, kv, call.views)
  | failed {e : KvEntry M} (room : roomEntry M call.ok (kv.entries call.at) call.newK = some e) :
      Ends call kv (-1, kv.setEntry call.at e, call.views)
  | done {e e' : KvEntry M} {kView vView : M.Arr}
      (room : roomEntry M call.ok (kv.entries call.at) call.newK = some e)
      (sameLen : M.dim call.newV 2 = M.dim call.newK 2)
      (append : appendEntry M call.ok e call.newK call.newV call.maxKv = some (e', kView, vView)) :
      Ends call kv (0, kv.setEntry call.at e', (kView, vView))

theorem update_ends (call : UpdateCall M) (kv : Kvcache M) : Ends call kv (call.run kv) := by
  rw [UpdateCall.run, kvcacheUpdate]
  split
  · exact .refused
  · split
    · exact .refused
    · split
      · exact .refused
      · split
        · exact .refused
        · split
          · exact .refused
          · split
            · exact .refused
            · rename_i hlen
              rw [not_or, not_not, not_not] at hlen
              cases hroom : roomEntry M call.ok (kv.entries call.at) call.newK with
              | none =>
                rw [UpdateCall.at] at hroom
                simp only [hroom]
                exact .refused
              | some e =>
                have hroom' := hroom
                rw [UpdateCall.at] at hroom'
                simp only [hroom']
                cases happend : appendEntry M call.ok e call.newK call.newV call.maxKv with
                | none => exact .failed hroom
                | some r => exact .done hroom hlen.2.symm happend

/-! ## Runs -/

def keyRows (appends : List (M.Arr × M.Arr)) : List (Row M) := appends.flatMap fun a => rows a.1

def valueRows (appends : List (M.Arr × M.Arr)) : List (Row M) := appends.flatMap fun a => rows a.2

/-- The successful appends of each layer, in order. -/
abbrev History (M : Mlx) := Nat → List (M.Arr × M.Arr)

def record (hist : History M) (call : UpdateCall M) (rc : Int) : History M :=
  if rc = 0 then Function.update hist call.at (hist call.at ++ [(call.newK, call.newV)]) else hist

/-- The layer is fed its own shape. -/
structure Fed (S : Nat → LayerShape) (call : UpdateCall M) : Prop where
  keys : Feeds (S call.at) call.newK
  values : Feeds (S call.at) call.newV

/-- The layer is fed its own shape, up to `2 ^ 30` positions in all. -/
structure Fits (S : Nat → LayerShape) (hist : History M) (call : UpdateCall M) : Prop extends
    Fed S call where
  total : (keyRows (hist call.at)).length + M.dim call.newK 2 ≤ 2 ^ 30

/-- The caches that updates reach, with the appends that succeeded on the way. -/
inductive Reached (S : Nat → LayerShape) : Kvcache M → History M → Prop
  | init {numLayers : Int} {kv : Kvcache M} (h : kvcacheInit M numLayers = some kv) :
      Reached S kv fun _ => []
  | update {kv : Kvcache M} {hist : History M} (h : Reached S kv hist) (call : UpdateCall M)
      (fits : Fits S hist call) : Reached S (call.run kv).2.1 (record hist call (call.run kv).1)

def AllStored (S : Nat → LayerShape) (kv : Kvcache M) (hist : History M) : Prop :=
  ∀ layer, Stored (S layer) (kv.entries layer) (keyRows (hist layer)) (valueRows (hist layer))

section Step

variable {S : Nat → LayerShape} {kv : Kvcache M} {hist : History M} {call : UpdateCall M}

theorem setEntry_at (kv : Kvcache M) (layer : Nat) (e : KvEntry M) :
    (kv.setEntry layer e).entries layer = e := Function.update_self ..

theorem setEntry_other (kv : Kvcache M) {layer other : Nat} (h : other ≠ layer) (e : KvEntry M) :
    (kv.setEntry layer e).entries other = kv.entries other := Function.update_of_ne h ..

theorem stored_ready {S : LayerShape} {e : KvEntry M} {K V : List (Row M)}
    (hinit : e.initialized = true) (h : Ready S e K V) : Stored S e K V := by
  rw [Stored, if_pos hinit]
  exact h

theorem AllStored.set (h : AllStored S kv hist) {e : KvEntry M} {layer : Nat}
    {appends : List (M.Arr × M.Arr)} (hinit : e.initialized = true)
    (he : Ready (S layer) e (keyRows appends) (valueRows appends)) :
    AllStored S (kv.setEntry layer e) (Function.update hist layer appends) := by
  intro other
  by_cases hother : other = layer
  · subst hother
    rw [setEntry_at, Function.update_self]
    exact stored_ready hinit he
  · rw [setEntry_other kv hother, Function.update_of_ne hother]
    exact h other

/-- What a done update appends, and what its views show. -/
theorem done_ready (hM : M.Documented) (h : AllStored S kv hist) (hfits : Fed S call)
    {e e' : KvEntry M} {kView vView : M.Arr}
    (hroom : roomEntry M call.ok (kv.entries call.at) call.newK = some e)
    (hlen : M.dim call.newV 2 = M.dim call.newK 2)
    (happend : appendEntry M call.ok e call.newK call.newV call.maxKv = some (e', kView, vView)) :
    e'.initialized = true ∧
      Ready (S call.at) e' (keyRows (hist call.at ++ [(call.newK, call.newV)]))
        (valueRows (hist call.at ++ [(call.newK, call.newV)])) ∧
      Holds (S call.at) kView (window call.maxKv (M.dim call.newK 2)
        (keyRows (hist call.at ++ [(call.newK, call.newV)]))) ∧
      Holds (S call.at) vView (window call.maxKv (M.dim call.newK 2)
        (valueRows (hist call.at ++ [(call.newK, call.newV)]))) := by
  have hat := h call.at
  obtain ⟨hinit, hready, hspace⟩ := roomEntry_ready hM hat hfits.keys hroom
  obtain ⟨hsame, hready', hkView, hvView⟩ :=
    appendEntry_ready hM hready hfits.keys hfits.values hlen hspace happend
  simp only [keyRows, valueRows, List.flatMap_append, List.flatMap_singleton]
  exact ⟨hsame.trans hinit, hready', hkView, hvView⟩

theorem update_stored (hM : M.Documented) (h : AllStored S kv hist) (hfits : Fed S call) :
    AllStored S (call.run kv).2.1 (record hist call (call.run kv).1) := by
  have hends := update_ends call kv
  generalize call.run kv = res at hends ⊢
  cases hends with
  | refused => exact h
  | failed room =>
    have hat := h call.at
    obtain ⟨hinit, hready, -⟩ := roomEntry_ready hM hat hfits.keys room
    have hset := h.set hinit hready
    rwa [Function.update_eq_self] at hset
  | done room sameLen append =>
    obtain ⟨hinit, hready, -⟩ := done_ready hM h hfits room sameLen append
    exact h.set hinit hready

end Step

theorem reached_stored (hM : M.Documented) {S : Nat → LayerShape} {kv : Kvcache M}
    {hist : History M} (h : Reached S kv hist) : AllStored S kv hist := by
  induction h with
  | init hinit =>
    rw [kvcacheInit] at hinit
    split at hinit
    · contradiction
    · rw [← Option.some.inj hinit]
      exact fun _ => ⟨rfl, rfl, rfl⟩
  | update _ _ fits ih => exact update_stored hM ih fits.toFed

/-- The capacities are powers of two that never leave `int`. -/
theorem reached_capacity (hM : M.Documented) {S : Nat → LayerShape} {kv : Kvcache M}
    {hist : History M} (h : Reached S kv hist) : ∀ layer, CapacityOk (kv.entries layer) := by
  induction h with
  | init hinit =>
    rw [kvcacheInit] at hinit
    split at hinit
    · contradiction
    · rw [← Option.some.inj hinit]
      exact fun _ => .inl rfl
  | @update kv hist hreached call fits ih =>
    have hneeded : (kv.entries call.at).offset + M.dim call.newK 2 ≤ 2 ^ 30 := by
      rw [(reached_stored hM hreached call.at).offset.1]
      exact fits.total
    have hset : ∀ e : KvEntry M, CapacityOk e → ∀ layer,
        CapacityOk ((kv.setEntry call.at e).entries layer) := by
      intro e he layer
      by_cases hlayer : layer = call.at
      · rw [hlayer, setEntry_at]
        exact he
      · rw [setEntry_other kv hlayer]
        exact ih layer
    have hends := update_ends call kv
    generalize call.run kv = res at hends ⊢
    cases hends with
    | refused => exact ih
    | failed room => exact hset _ (roomEntry_capacity (ih _) hneeded room)
    | done room _ append =>
      refine hset _ ?_
      rw [CapacityOk, appendEntry_capacity append]
      exact roomEntry_capacity (ih _) hneeded room

/-! ## When every MLX call succeeds -/

section Succeeds

variable {ok : MlxCall → Bool} {S : LayerShape} {e : KvEntry M} {K V : List (Row M)}

theorem attempt_ok (hok : ∀ site, ok site = true) {α : Type} (site : MlxCall) (a : α) :
    attempt ok site a = some a := attempt_eq_some.mpr ⟨hok site, rfl⟩

theorem growEntry_ok (hok : ∀ site, ok site = true) (e : KvEntry M) (B H D needed dt : Nat) :
    (growEntry M ok e B H D needed dt).isSome := by
  simp only [growEntry, attempt_ok hok, Option.bind_eq_bind, Option.bind_some]
  split <;> rfl

theorem roomEntry_ok (hok : ∀ site, ok site = true) (e : KvEntry M) (newK : M.Arr) :
    (roomEntry M ok e newK).isSome := by
  simp only [roomEntry]
  split
  · rw [Option.isSome_map]
    exact growEntry_ok hok _ _ _ _ _ _
  · rfl

theorem appendEntry_ok (hok : ∀ site, ok site = true) (e : KvEntry M) (newK newV : M.Arr)
    (maxKv : Int) : (appendEntry M ok e newK newV maxKv).isSome := by
  simp only [appendEntry, attempt_ok hok, Option.bind_eq_bind, Option.bind_some]
  split <;> rfl

theorem update_succeeds {S : Nat → LayerShape} {kv : Kvcache M} {hist : History M}
    {call : UpdateCall M} (h : AllStored S kv hist) (hfits : Fed S call)
    (hok : ∀ site, call.ok site = true) (hlayer : 0 ≤ call.layer ∧ call.layer < kv.numLayers)
    (hmax : 0 ≤ call.maxKv) (hlen : M.dim call.newV 2 = M.dim call.newK 2) :
    (call.run kv).1 = 0 := by
  have hK := hfits.keys
  have hV := hfits.values
  have hheads : M.dim call.newV 1 = M.dim call.newK 1 := by rw [hK.dim, hV.dim]; rfl
  have hcomp : M.dim call.newV 3 = M.dim call.newK 3 := by rw [hK.dim, hV.dim]; rfl
  have hbatch : M.dim call.newK 0 = M.dim call.newV 0 := by rw [hK.dim, hV.dim]; rfl
  have hentry : ¬ ((kv.entries call.layer.toNat).initialized = true ∧
      (M.dim call.newK 1 ≠ (kv.entries call.layer.toNat).nKvHeads ∨
        M.dim call.newK 3 ≠ (kv.entries call.layer.toNat).headDim)) := by
    rintro ⟨hinit, hne⟩
    have hat := h call.layer.toNat
    rw [Stored, if_pos hinit] at hat
    rw [hat.heads, hat.headDim, hK.dim] at hne
    exact hne.elim (fun hne => hne rfl) fun hne => hne rfl
  obtain ⟨e, hroom⟩ := Option.isSome_iff_exists.mp
    (roomEntry_ok hok (kv.entries call.layer.toNat) call.newK)
  obtain ⟨r, happend⟩ := Option.isSome_iff_exists.mp
    (appendEntry_ok hok e call.newK call.newV call.maxKv)
  rw [UpdateCall.run, kvcacheUpdate, if_neg (by omega), if_neg (by omega),
    if_neg (by rw [hK.ndim, hV.ndim]; simp), if_neg hentry, if_neg (by simp [hheads, hcomp]),
    if_neg (by simp [hbatch, hlen])]
  simp only [hroom, happend]

theorem update_accepted {kv : Kvcache M} {call : UpdateCall M} (hrc : (call.run kv).1 = 0) :
    0 ≤ call.layer ∧ call.layer < kv.numLayers ∧ 0 ≤ call.maxKv := by
  by_contra hno
  rw [UpdateCall.run, kvcacheUpdate] at hrc
  split at hrc
  · simp at hrc
  · split at hrc
    · simp at hrc
    · exact hno (by omega)

end Succeeds

/-! ## Views -/

/-- Two arrays of the same shape, type and elements. -/
structure SameArray (a b : M.Arr) : Prop where
  ndim : M.ndim a = M.ndim b
  dim : M.dim a = M.dim b
  dtype : M.dtype a = M.dtype b
  get : ∀ ix, (∀ i, ix i < M.dim a i) → M.get a ix = M.get b ix

theorem Holds.same {S : LayerShape} {a b : M.Arr} {R : List (Row M)} (ha : Holds S a R)
    (hb : Holds S b R) : SameArray a b := by
  refine ⟨ha.ndim.trans hb.ndim.symm, ha.dim.trans hb.dim.symm, ha.dtype.trans hb.dtype.symm, ?_⟩
  intro ix hix
  have heta : ix = ![ix 0, ix 1, ix 2, ix 3] := funext (axes_forall.mpr ⟨rfl, rfl, rfl, rfl⟩)
  rw [heta, ha.dim, axes_lt] at hix
  obtain ⟨hbatch, hhead, hp, hcomp⟩ := hix
  have hr : R[ix 2]? = some R[ix 2] := List.getElem?_eq_getElem hp
  rw [heta, ha.stores _ _ hr _ _ _ hbatch hhead hcomp, hb.stores _ _ hr _ _ _ hbatch hhead hcomp]

section View

variable {S : LayerShape} {kv : Kvcache M} {layer maxKv : Int} {qLen : Nat} {ok : MlxCall → Bool}
  {views got : M.Arr × M.Arr} {K V : List (Row M)}

theorem view_holds (hM : M.Documented) (h : Stored S (kv.entries layer.toNat) K V)
    (hview : kvcacheView M ok kv layer maxKv qLen views = (0, got)) :
    Holds S got.1 (window maxKv qLen K) ∧ Holds S got.2 (window maxKv qLen V) := by
  simp only [kvcacheView] at hview
  split at hview
  · simp at hview
  · split at hview
    · simp at hview
    · split at hview
      · simp at hview
      · rename_i hready
        rw [not_or, Bool.not_eq_false] at hready
        rw [Stored, if_pos hready.1] at h
        have hB : M.dim (kv.entries layer.toNat).keys 0 = S.batch := by rw [h.keys.dim]; rfl
        have hkView := h.keys.window hM maxKv qLen
        have hvView := h.values.window hM maxKv qLen
        rw [← h.offset] at hkView
        rw [h.inStep, ← h.offset] at hvView
        rw [hB, h.heads, h.headDim] at hview
        split at hview
        · simp at hview
        · rename_i pair hpair
          obtain rfl : pair = got := (Prod.mk.inj hview).2
          split at hpair
          · rename_i hwhole
            simp only [Option.bind_eq_bind, Option.bind_eq_some_iff, attempt_eq_some,
              Option.pure_def, Option.some.injEq] at hpair
            obtain ⟨_, ⟨-, rfl⟩, _, ⟨-, rfl⟩, rfl⟩ := hpair
            constructor
            · rw [window_of_viewStart (by rw [← h.offset]; exact hwhole.1)]
              exact h.keys.whole (h.offset.symm.trans hwhole.2)
            · rw [window_of_viewStart (by rw [h.inStep, ← h.offset]; exact hwhole.1)]
              exact h.values.whole (h.inStep.trans (h.offset.symm.trans hwhole.2))
          · simp only [Option.bind_eq_bind, Option.bind_eq_some_iff, attempt_eq_some,
              Option.pure_def, Option.some.injEq] at hpair
            obtain ⟨_, ⟨-, rfl⟩, _, ⟨-, rfl⟩, rfl⟩ := hpair
            exact ⟨hkView, hvView⟩

theorem view_succeeds (hok : ∀ site, ok site = true)
    (hlayer : 0 ≤ layer ∧ layer < kv.numLayers) (hmax : 0 ≤ maxKv)
    (h : Stored S (kv.entries layer.toNat) K V) (hK : K ≠ []) :
    (kvcacheView M ok kv layer maxKv qLen views).1 = 0 := by
  have hready : ¬ ((kv.entries layer.toNat).initialized = false ∨
      (kv.entries layer.toNat).offset = 0) := by
    rintro (hinit | hoff)
    · rw [Stored, if_neg (by simp [hinit])] at h
      exact hK h.keys
    · rw [h.offset.1] at hoff
      exact hK (List.eq_nil_of_length_eq_zero hoff)
  simp only [kvcacheView, attempt_ok hok, Option.bind_eq_bind, Option.bind_some]
  rw [if_neg (by omega), if_neg (by omega), if_neg hready]
  by_cases hwhole : viewStart maxKv qLen (kv.entries layer.toNat).offset = 0 ∧
      (kv.entries layer.toNat).offset = (kv.entries layer.toNat).capacity
  · rw [if_pos hwhole]
    rfl
  · rw [if_neg hwhole]
    rfl

end View

/-! ## The refinement -/

/-- The entry still stores the positions it stored. -/
def SameBelow (S : LayerShape) (old new : KvEntry M) : Prop :=
  new.offset = old.offset ∧ ∀ b h p d, b < S.batch → h < S.heads → p < old.offset →
    d < S.headDim → M.get new.keys ![b, h, p, d] = M.get old.keys ![b, h, p, d] ∧
      M.get new.values ![b, h, p, d] = M.get old.values ![b, h, p, d]

theorem Stored.sameBelow {S : LayerShape} {old new : KvEntry M} {K V : List (Row M)}
    (hold : Stored S old K V) (hnew : Stored S new K V) : SameBelow S old new := by
  refine ⟨hnew.offset.1.trans hold.offset.1.symm, fun b h p d hb hh hp hd => ?_⟩
  rw [hold.offset.1] at hp
  have hready : ∀ e : KvEntry M, Stored S e K V → Ready S e K V := by
    intro e he
    rw [Stored] at he
    split at he
    · exact he
    · rw [he.keys] at hp
      exact absurd hp (Nat.not_lt_zero _)
  have ho := hready old hold
  have hn := hready new hnew
  have hk : K[p]? = some K[p] := List.getElem?_eq_getElem hp
  have hpV : p < V.length := hold.offset.2.symm ▸ hp
  have hv : V[p]? = some V[p] := List.getElem?_eq_getElem hpV
  exact ⟨(hn.keys.stores _ _ hk b h d hb hh hd).trans (ho.keys.stores _ _ hk b h d hb hh hd).symm,
    (hn.values.stores _ _ hv b h d hb hh hd).trans (ho.values.stores _ _ hv b h d hb hh hd).symm⟩

/-- What an update may do, against the list of its layer's appends. -/
structure Refines (S : Nat → LayerShape) (kv : Kvcache M) (hist : History M) (call : UpdateCall M)
    (res : Int × Kvcache M × (M.Arr × M.Arr)) : Prop where
  succeeds : (∀ site, call.ok site = true) → 0 ≤ call.layer ∧ call.layer < kv.numLayers →
    0 ≤ call.maxKv → M.dim call.newV 2 = M.dim call.newK 2 → res.1 = 0
  views : res.1 = 0 →
    Holds (S call.at) res.2.2.1 (window call.maxKv (M.dim call.newK 2)
      (keyRows (hist call.at ++ [(call.newK, call.newV)]))) ∧
    Holds (S call.at) res.2.2.2 (window call.maxKv (M.dim call.newK 2)
      (valueRows (hist call.at ++ [(call.newK, call.newV)])))
  viewSucceeds : res.1 = 0 → 0 < M.dim call.newK 2 → ∀ kv' hist', Reached S kv' hist' →
    call.layer < kv'.numLayers → hist' call.at = hist call.at ++ [(call.newK, call.newV)] →
    ∀ ok views, (∀ site, ok site = true) →
      (kvcacheView M ok kv' call.layer call.maxKv (M.dim call.newK 2) views).1 = 0
  viewAgain : res.1 = 0 → ∀ kv' hist', Reached S kv' hist' →
    hist' call.at = hist call.at ++ [(call.newK, call.newV)] → ∀ ok views got,
    kvcacheView M ok kv' call.layer call.maxKv (M.dim call.newK 2) views = (0, got) →
      SameArray got.1 res.2.2.1 ∧ SameArray got.2 res.2.2.2
  failed : res.1 ≠ 0 → res.2.2 = call.views ∧
    ∀ layer, SameBelow (S layer) (kv.entries layer) (res.2.1.entries layer)

/-- In every reachable cache each entry stores its layer's appends in order, the next update
appends to them or changes nothing of them, and its views are the last positions. -/
theorem kvcache_refines (hM : M.Documented) {S : Nat → LayerShape} {kv : Kvcache M}
    {hist : History M} (h : Reached S kv hist) :
    AllStored S kv hist ∧ (∀ layer, CapacityOk (kv.entries layer)) ∧
      ∀ call : UpdateCall M, Fits S hist call → Refines S kv hist call (call.run kv) := by
  have hstored := reached_stored hM h
  refine ⟨hstored, reached_capacity hM h, fun call hfits => ?_⟩
  have hviews : (call.run kv).1 = 0 →
      Holds (S call.at) (call.run kv).2.2.1 (window call.maxKv (M.dim call.newK 2)
        (keyRows (hist call.at ++ [(call.newK, call.newV)]))) ∧
      Holds (S call.at) (call.run kv).2.2.2 (window call.maxKv (M.dim call.newK 2)
        (valueRows (hist call.at ++ [(call.newK, call.newV)]))) := by
    have hends := update_ends call kv
    generalize call.run kv = res at hends ⊢
    cases hends with
    | refused => exact fun hrc => by simp at hrc
    | failed => exact fun hrc => by simp at hrc
    | done room sameLen append =>
      obtain ⟨-, -, hkView, hvView⟩ := done_ready hM hstored hfits.toFed room sameLen append
      exact fun _ => ⟨hkView, hvView⟩
  refine ⟨update_succeeds hstored hfits.toFed, hviews,
    fun hrc hlen kv' hist' h' hlayer hhist ok views hok => ?_,
    fun hrc kv' hist' h' hhist ok views got hview => ?_, fun hrc => ?_⟩
  · obtain ⟨hpos, -, hmax⟩ := update_accepted hrc
    have hlater := reached_stored hM h' call.at
    rw [hhist] at hlater
    have hrows : keyRows (hist call.at ++ [(call.newK, call.newV)]) ≠ [] := by
      refine List.ne_nil_of_length_pos ?_
      rw [keyRows, List.flatMap_append, List.flatMap_singleton, List.length_append, rows_length]
      exact Nat.lt_add_left _ hlen
    exact view_succeeds hok ⟨hpos, hlayer⟩ hmax hlater hrows
  · obtain ⟨hkView, hvView⟩ := hviews hrc
    have hlater := reached_stored hM h' call.at
    rw [hhist] at hlater
    obtain ⟨hk, hv⟩ := view_holds hM hlater hview
    exact ⟨Holds.same hk hkView, Holds.same hv hvView⟩
  · have hafter := update_stored hM hstored hfits.toFed
    rw [record, if_neg hrc] at hafter
    refine ⟨?_, fun layer => Stored.sameBelow (hstored layer) (hafter layer)⟩
    have hends := update_ends call kv
    generalize call.run kv = res at hends hrc
    cases hends with
    | refused => rfl
    | failed => rfl
    | done => exact absurd rfl hrc

/-! ## Arrays as functions -/

structure FnArr where
  ndim : Nat
  dim : Axes
  dtype : Nat
  get : Axes → Nat

def fnMlx : Mlx where
  Arr := FnArr
  Elt := Nat
  null := ⟨0, 0, 0, fun _ => 0⟩
  ndim a := a.ndim
  dim a := a.dim
  dtype a := a.dtype
  get a := a.get
  zeros ax dt := ⟨4, ax, dt, fun _ => 0⟩
  slice a start stop := ⟨a.ndim, stop - start, a.dtype, fun ix => a.get (start + ix)⟩
  sliceUpdate a u start stop := ⟨a.ndim, a.dim, a.dtype, fun ix =>
    if ∀ i, start i ≤ ix i ∧ ix i < stop i then u.get (ix - start) else a.get ix⟩

theorem fnMlx_documented : fnMlx.Documented where
  zeros_ndim _ _ := rfl
  zeros_dim _ _ := rfl
  zeros_dtype _ _ := rfl
  slice_ndim _ _ _ h := h
  slice_dim _ _ _ _ _ := rfl
  slice_dtype _ _ _ := rfl
  slice_get _ _ _ _ _ _ _ := rfl
  update_ndim _ _ _ _ h := h
  update_dim _ _ _ _ := rfl
  update_dtype _ _ _ _ := rfl
  update_inside _ _ _ _ _ _ _ _ _ hin := if_pos hin
  update_outside _ _ _ _ _ _ _ _ _ hout := if_neg hout

/-- Three positions numbered from `n` on. -/
def threeRows (n : Nat) : FnArr := ⟨4, ![1, 1, 3, 1], 0, fun ix => n + ix 2⟩

def oneShape : Nat → LayerShape := fun _ => ⟨1, 1, 1, 0⟩

def threeCall (ok : MlxCall → Bool) : UpdateCall fnMlx :=
  ⟨ok, 0, threeRows 10, threeRows 20, 2, (threeRows 0, threeRows 0)⟩

theorem threeCall_fits (ok : MlxCall → Bool) : Fits oneShape (fun _ => []) (threeCall ok) where
  keys := ⟨rfl, rfl, rfl⟩
  values := ⟨rfl, rfl, rfl⟩
  total := show 0 + 3 ≤ 2 ^ 30 by decide

/-- An update that fails after growing leaves nothing behind, the same one succeeds then, and the
view behind it is there and is what it returned. -/
theorem kvcache_refines_three : ∃ kv, kvcacheInit fnMlx 1 = some kv ∧
    AllStored oneShape kv (fun _ => []) ∧
    Refines oneShape kv (fun _ => []) (threeCall fun site => site ≠ .viewK)
      ((threeCall fun site => site ≠ .viewK).run kv) ∧
    ∃ got, kvcacheView fnMlx (fun _ => true) ((threeCall fun _ => true).run kv).2.1 0 2 3
        (fnMlx.null, fnMlx.null) = (0, got) ∧
      SameArray got.1 ((threeCall fun _ => true).run kv).2.2.1 ∧
      SameArray got.2 ((threeCall fun _ => true).run kv).2.2.2 := by
  have hinit : Reached oneShape _ _ :=
    Reached.init (S := oneShape) (show kvcacheInit fnMlx 1 = some _ from rfl)
  obtain ⟨hstored, -, hrefines⟩ := kvcache_refines fnMlx_documented hinit
  have hthree := hrefines _ (threeCall_fits fun _ => true)
  have hafter := hinit.update _ (threeCall_fits fun _ => true)
  have hview := hthree.viewSucceeds rfl (by decide) _ _ hafter (by decide) rfl (fun _ => true)
    (fnMlx.null, fnMlx.null) fun _ => rfl
  exact ⟨_, rfl, hstored, hrefines _ (threeCall_fits _), _, Prod.ext hview rfl,
    hthree.viewAgain rfl _ _ hafter rfl _ _ _ (Prod.ext hview rfl)⟩

end Mlxd.KvCache
