import Mlxd.KvCache

/-!
# The KV cache refines a list of positions

A buffer stores the positions appended so far. Growing keeps them, writing behind them appends,
and a view shows the last of them; so in every reachable state an entry stores its layer's
appends in order.
-/
namespace Mlxd.KvCache

/-! ## Axes -/

theorem axes_forall {P : Fin 4 → Prop} : (∀ i, P i) ↔ P 0 ∧ P 1 ∧ P 2 ∧ P 3 := by
  simp [Fin.forall_fin_succ]

section Axes

variable {b h n d b' h' n' d' : Nat}

theorem axes_le : (![b, h, n, d] : Axes) ≤ ![b', h', n', d'] ↔
    b ≤ b' ∧ h ≤ h' ∧ n ≤ n' ∧ d ≤ d' := by
  rw [Pi.le_def, axes_forall]
  rfl

theorem axes_sub : (![b, h, n, d] - ![b', h', n', d'] : Axes) =
    ![b - b', h - h', n - n', d - d'] := by
  funext i
  revert i
  exact axes_forall.mpr ⟨rfl, rfl, rfl, rfl⟩

theorem axes_add : (![b, h, n, d] + ![b', h', n', d'] : Axes) =
    ![b + b', h + h', n + n', d + d'] := by
  funext i
  revert i
  exact axes_forall.mpr ⟨rfl, rfl, rfl, rfl⟩

theorem axes_lt : (∀ i, (![b, h, n, d] : Axes) i < (![b', h', n', d'] : Axes) i) ↔
    b < b' ∧ h < h' ∧ n < n' ∧ d < d' := by
  rw [axes_forall]
  rfl

theorem axes_within {ix : Axes} : (∀ i, (![b, h, n, d] : Axes) i ≤ ix i ∧
    ix i < (![b', h', n', d'] : Axes) i) ↔ (b ≤ ix 0 ∧ ix 0 < b') ∧ (h ≤ ix 1 ∧ ix 1 < h') ∧
      (n ≤ ix 2 ∧ ix 2 < n') ∧ (d ≤ ix 3 ∧ ix 3 < d') := by
  rw [axes_forall]
  rfl

end Axes

/-! ## Positions and buffers -/

/-- What one layer is fed: batch, heads, components and element type. -/
structure LayerShape where
  batch : Nat
  heads : Nat
  headDim : Nat
  dtype : Nat

variable {M : Mlx}

/-- The elements of one position, by batch, head and component. -/
abbrev Row (M : Mlx) := Nat → Nat → Nat → M.Elt

def row (a : M.Arr) (p : Nat) : Row M := fun b h d => M.get a ![b, h, p, d]

/-- The positions of an array, in order. -/
def rows (a : M.Arr) : List (Row M) := (List.range (M.dim a 2)).map (row a)

@[simp] theorem rows_length (a : M.Arr) : (rows a).length = M.dim a 2 := by simp [rows]

/-- An array with room for `cap` positions whose first ones are `R`. -/
structure Buffer (S : LayerShape) (a : M.Arr) (cap : Nat) (R : List (Row M)) : Prop where
  ndim : M.ndim a = 4
  dim : M.dim a = ![S.batch, S.heads, cap, S.headDim]
  dtype : M.dtype a = S.dtype
  fits : R.length ≤ cap
  stores : ∀ p r, R[p]? = some r → ∀ b h d, b < S.batch → h < S.heads → d < S.headDim →
    M.get a ![b, h, p, d] = r b h d

/-- An array of exactly the positions `R`. -/
abbrev Holds (S : LayerShape) (a : M.Arr) (R : List (Row M)) : Prop := Buffer S a R.length R

/-- What a layer may be fed: positions of its shape. -/
structure Feeds (S : LayerShape) (a : M.Arr) : Prop where
  ndim : M.ndim a = 4
  dim : M.dim a = ![S.batch, S.heads, M.dim a 2, S.headDim]
  dtype : M.dtype a = S.dtype

section Buffer

variable {S : LayerShape} {a u : M.Arr} {cap cap' : Nat} {R : List (Row M)}

theorem lt_of_getElem? {p : Nat} {r : Row M} (h : R[p]? = some r) : p < R.length :=
  (List.getElem?_eq_some_iff.mp h).1

theorem zeros_buffer (hM : M.Documented) :
    Buffer S (M.zeros ![S.batch, S.heads, cap, S.headDim] S.dtype) cap [] where
  ndim := hM.zeros_ndim _ _
  dim := hM.zeros_dim _ _
  dtype := hM.zeros_dtype _ _
  fits := Nat.zero_le _
  stores p r h := by simp at h

/-- A slice of the stored positions from `start` on. -/
theorem Buffer.slice (hM : M.Documented) (h : Buffer S a cap R) {start : Nat}
    (hstart : start ≤ R.length) :
    Holds S (M.slice a ![0, 0, start, 0] ![S.batch, S.heads, R.length, S.headDim])
      (R.drop start) := by
  have hle : (![0, 0, start, 0] : Axes) ≤ ![S.batch, S.heads, R.length, S.headDim] :=
    axes_le.mpr ⟨Nat.zero_le _, Nat.zero_le _, hstart, Nat.zero_le _⟩
  have hdim : (![S.batch, S.heads, R.length, S.headDim] : Axes) ≤ M.dim a := by
    rw [h.dim]
    exact axes_le.mpr ⟨le_refl _, le_refl _, h.fits, le_refl _⟩
  refine ⟨hM.slice_ndim _ _ _ h.ndim, ?_, (hM.slice_dtype _ _ _).trans h.dtype, le_refl _, ?_⟩
  · rw [hM.slice_dim _ _ _ hle hdim, axes_sub, List.length_drop]
    rfl
  · intro p r hr b k d hb hk hd
    have hp := lt_of_getElem? hr
    rw [List.length_drop] at hp
    rw [List.getElem?_drop] at hr
    rw [hM.slice_get _ _ _ _ hle hdim, axes_add, Nat.zero_add, Nat.zero_add, Nat.zero_add]
    · exact h.stores _ _ hr b k d hb hk hd
    · rw [axes_forall]
      exact ⟨hb, hk, by simpa using hp, hd⟩

/-- Positions written behind the stored ones are appended. -/
theorem Buffer.append (hM : M.Documented) (h : Buffer S a cap R) {L : List (Row M)}
    (hu : Holds S u L) (hroom : R.length + L.length ≤ cap) :
    Buffer S (M.sliceUpdate a u ![0, 0, R.length, 0]
      ![S.batch, S.heads, R.length + L.length, S.headDim]) cap (R ++ L) := by
  have hle : (![0, 0, R.length, 0] : Axes) ≤
      ![S.batch, S.heads, R.length + L.length, S.headDim] :=
    axes_le.mpr ⟨Nat.zero_le _, Nat.zero_le _, Nat.le_add_right _ _, Nat.zero_le _⟩
  have hdim : (![S.batch, S.heads, R.length + L.length, S.headDim] : Axes) ≤ M.dim a := by
    rw [h.dim]
    exact axes_le.mpr ⟨le_refl _, le_refl _, hroom, le_refl _⟩
  have hudim : M.dim u = (![S.batch, S.heads, R.length + L.length, S.headDim] : Axes) -
      ![0, 0, R.length, 0] := by
    rw [axes_sub, hu.dim, Nat.add_sub_cancel_left]
    rfl
  refine ⟨hM.update_ndim _ _ _ _ h.ndim, (hM.update_dim _ _ _ _).trans h.dim,
    (hM.update_dtype _ _ _ _).trans h.dtype, by rwa [List.length_append], ?_⟩
  intro p r hr b k d hb hk hd
  have hp := lt_of_getElem? hr
  rw [List.length_append] at hp
  by_cases hold : p < R.length
  · rw [List.getElem?_append_left hold] at hr
    rw [hM.update_outside _ _ _ _ _ hle hdim hudim]
    · exact h.stores _ _ hr b k d hb hk hd
    · rw [h.dim, axes_lt]
      exact ⟨hb, hk, by omega, hd⟩
    · rw [axes_within]
      exact fun hin => absurd hin.2.2.1.1 (Nat.not_le.mpr hold)
  · rw [List.getElem?_append_right (by omega)] at hr
    rw [hM.update_inside _ _ _ _ _ hle hdim hudim (hu.dtype.trans h.dtype.symm), axes_sub,
      Nat.sub_zero, Nat.sub_zero, Nat.sub_zero]
    · exact hu.stores _ _ hr b k d hb hk hd
    · rw [axes_within]
      exact ⟨⟨Nat.zero_le _, hb⟩, ⟨Nat.zero_le _, hk⟩, ⟨by simpa using hold, by simpa using hp⟩,
        Nat.zero_le _, hd⟩

/-- Copied into a fresh buffer the stored positions stay. -/
theorem Buffer.copy (hM : M.Documented) (h : Buffer S a cap R) (hroom : R.length ≤ cap') :
    Buffer S (M.sliceUpdate (M.zeros ![S.batch, S.heads, cap', S.headDim] S.dtype)
      (M.slice a ![0, 0, 0, 0] ![S.batch, S.heads, R.length, S.headDim]) ![0, 0, 0, 0]
      ![S.batch, S.heads, R.length, S.headDim]) cap' R := by
  have hold := h.slice hM (Nat.zero_le _)
  rw [List.drop_zero] at hold
  have hzeros : Buffer S _ cap' [] := zeros_buffer hM
  have hcopy := hzeros.append hM hold (by simpa using hroom)
  simpa using hcopy

/-- The positions an array feeds. -/
theorem Feeds.holds (h : Feeds S u) : Holds S u (rows u) := by
  refine ⟨h.ndim, by rw [rows_length]; exact h.dim, h.dtype, le_refl _, ?_⟩
  intro p r hr b k d hb hk hd
  have hp := lt_of_getElem? hr
  rw [rows_length] at hp
  rw [rows, List.getElem?_map, List.getElem?_range hp] at hr
  rw [← Option.some.inj hr]
  rfl

end Buffer

/-! ## Growing -/

theorem attempt_eq_some {α : Type} {ok : MlxCall → Bool} {site : MlxCall} {a b : α} :
    attempt ok site a = some b ↔ ok site = true ∧ a = b := by
  rw [attempt]
  split
  · rename_i h
    simp [h]
  · rename_i h
    simp [h]

theorem growCapacity_ge {fuel nc needed : Nat} (hpos : 0 < nc) (hfuel : needed ≤ nc + fuel) :
    needed ≤ growCapacity fuel nc needed := by
  induction fuel generalizing nc with
  | zero => exact hfuel
  | succ fuel ih =>
    rw [growCapacity]
    split
    · exact ih (by omega) (by omega)
    · omega

/-- An entry that has a buffer: it stores the keys `K` and the values `V`. -/
structure Ready (S : LayerShape) (e : KvEntry M) (K V : List (Row M)) : Prop where
  keys : Buffer S e.keys e.capacity K
  values : Buffer S e.values e.capacity V
  offset : e.offset = K.length
  inStep : V.length = K.length
  heads : e.nKvHeads = S.heads
  headDim : e.headDim = S.headDim

/-- An entry before its first buffer. -/
structure Fresh (e : KvEntry M) (K V : List (Row M)) : Prop where
  keys : K = []
  values : V = []
  offset : e.offset = 0

def Stored (S : LayerShape) (e : KvEntry M) (K V : List (Row M)) : Prop :=
  if e.initialized then Ready S e K V else Fresh e K V

section Entry

variable {S : LayerShape} {e e' : KvEntry M} {K V : List (Row M)} {ok : MlxCall → Bool}

theorem Stored.offset (h : Stored S e K V) : e.offset = K.length ∧ V.length = K.length := by
  rw [Stored] at h
  split at h
  · exact ⟨h.offset, h.inStep⟩
  · rw [h.keys, h.values]
    exact ⟨h.offset, rfl⟩

/-- Growing keeps the stored positions and makes room. -/
theorem growEntry_stored (hM : M.Documented) (h : Stored S e K V) {needed : Nat}
    (hoff : e.offset ≤ needed)
    (hgrow : growEntry M ok e S.batch S.heads S.headDim needed S.dtype = some e') :
    Buffer S e'.keys e'.capacity K ∧ Buffer S e'.values e'.capacity V ∧ e'.offset = e.offset ∧
      e'.initialized = true ∧ needed ≤ e'.capacity := by
  have hpos : 0 < (if 0 < e.capacity then e.capacity else 1) := by split <;> omega
  have hge := growCapacity_ge hpos (Nat.le_add_left needed _)
  obtain ⟨hlen, hstep⟩ := h.offset
  simp only [growEntry, Option.bind_eq_bind, Option.bind_eq_some_iff, attempt_eq_some] at hgrow
  obtain ⟨_, ⟨-, rfl⟩, _, ⟨-, rfl⟩, hgrow⟩ := hgrow
  by_cases hcopy : e.initialized = true ∧ 0 < e.offset
  · rw [if_pos hcopy] at hgrow
    simp only [Option.bind_eq_some_iff, attempt_eq_some, Option.pure_def, Option.some.injEq] at hgrow
    obtain ⟨_, ⟨-, rfl⟩, _, ⟨-, rfl⟩, _, ⟨-, rfl⟩, _, ⟨-, rfl⟩, rfl⟩ := hgrow
    rw [Stored, if_pos hcopy.1] at h
    have hkeys := h.keys.copy hM (hlen ▸ hoff.trans hge)
    have hvalues := h.values.copy hM (hstep ▸ hlen ▸ hoff.trans hge)
    rw [← hlen] at hkeys
    rw [hstep, ← hlen] at hvalues
    exact ⟨hkeys, hvalues, rfl, rfl, hge⟩
  · -- without stored positions the fresh buffers are enough
    rw [if_neg hcopy] at hgrow
    simp only [Option.pure_def, Option.some.injEq] at hgrow
    subst hgrow
    have hzero : K.length = 0 := by
      rw [← hlen]
      by_contra hne
      refine hcopy ⟨?_, by omega⟩
      rw [Stored] at h
      split at h
      · assumption
      · exact absurd h.offset hne
    obtain rfl := List.eq_nil_of_length_eq_zero hzero
    obtain rfl := List.eq_nil_of_length_eq_zero (hstep.trans hzero)
    exact ⟨zeros_buffer hM, zeros_buffer hM, rfl, rfl, hge⟩

/-- With room for the new positions the entry stores what it did. -/
theorem roomEntry_ready (hM : M.Documented) (h : Stored S e K V) {newK : M.Arr}
    (hnew : Feeds S newK) (hroom : roomEntry M ok e newK = some e') :
    e'.initialized = true ∧ Ready S e' K V ∧ e'.offset + M.dim newK 2 ≤ e'.capacity := by
  have hB : M.dim newK 0 = S.batch := by rw [hnew.dim]; rfl
  have hH : M.dim newK 1 = S.heads := by rw [hnew.dim]; rfl
  have hD : M.dim newK 3 = S.headDim := by rw [hnew.dim]; rfl
  obtain ⟨hlen, hstep⟩ := h.offset
  simp only [roomEntry] at hroom
  split at hroom
  · rw [hB, hH, hD, hnew.dtype] at hroom
    obtain ⟨g, hgrow, rfl⟩ := Option.map_eq_some_iff.mp hroom
    obtain ⟨hkeys, hvalues, hoff, hinit, hge⟩ :=
      growEntry_stored hM h (Nat.le_add_right _ _) hgrow
    exact ⟨hinit, ⟨hkeys, hvalues, hoff.trans hlen, hstep, rfl, rfl⟩, hoff ▸ hge⟩
  · rename_i hno
    rw [not_or, Bool.not_eq_false, Nat.not_lt] at hno
    rw [← Option.some.inj hroom]
    rw [Stored, if_pos hno.1] at h
    exact ⟨hno.1, h, hno.2⟩

end Entry

/-! ## Views -/

/-- The last `maxKv` positions for a single new one when there are more, else all of them. -/
def window (maxKv : Int) (newLen : Nat) (R : List (Row M)) : List (Row M) :=
  if newLen = 1 ∧ 0 < maxKv ∧ maxKv < R.length then R.drop (R.length - maxKv.toNat) else R

theorem drop_viewStart (maxKv : Int) (newLen : Nat) (R : List (Row M)) :
    R.drop (viewStart maxKv newLen R.length) = window maxKv newLen R := by
  by_cases h : newLen = 1 ∧ 0 < maxKv ∧ maxKv < R.length
  · rw [viewStart, if_pos ⟨h.2.1, h.1, h.2.2⟩, window, if_pos h]
  · rw [viewStart, if_neg fun h' => h ⟨h'.2.1, h'.1, h'.2.2⟩, window, if_neg h]
    rfl

theorem viewStart_le (maxKv : Int) (newLen off : Nat) : viewStart maxKv newLen off ≤ off := by
  rw [viewStart]
  split <;> omega

section Views

variable {S : LayerShape} {a : M.Arr} {cap : Nat} {R : List (Row M)}

/-- A full buffer is its own view. -/
theorem Buffer.whole (h : Buffer S a cap R) (hfull : R.length = cap) : Holds S a R := by
  subst hfull
  exact h

theorem Buffer.window (hM : M.Documented) (h : Buffer S a cap R) (maxKv : Int) (newLen : Nat) :
    Holds S (M.slice a ![0, 0, viewStart maxKv newLen R.length, 0]
      ![S.batch, S.heads, R.length, S.headDim]) (window maxKv newLen R) := by
  rw [← drop_viewStart]
  exact h.slice hM (viewStart_le maxKv newLen _)

/-- Without trimming the window is everything. -/
theorem window_of_viewStart {maxKv : Int} {newLen : Nat} (h : viewStart maxKv newLen R.length = 0) :
    KvCache.window maxKv newLen R = R := by
  rw [← drop_viewStart, h, List.drop_zero]

end Views

section Append

variable {S : LayerShape} {e e' : KvEntry M} {K V : List (Row M)} {ok : MlxCall → Bool}

/-- The new positions are appended and the views show the last ones. -/
theorem appendEntry_ready (hM : M.Documented) (h : Ready S e K V) {newK newV kView vView : M.Arr}
    (hK : Feeds S newK) (hV : Feeds S newV) (hlen : M.dim newV 2 = M.dim newK 2)
    (hroom : e.offset + M.dim newK 2 ≤ e.capacity) {maxKv : Int}
    (happend : appendEntry M ok e newK newV maxKv = some (e', kView, vView)) :
    e'.initialized = e.initialized ∧ Ready S e' (K ++ rows newK) (V ++ rows newV) ∧
      Holds S kView (window maxKv (M.dim newK 2) (K ++ rows newK)) ∧
      Holds S vView (window maxKv (M.dim newK 2) (V ++ rows newV)) := by
  have hB : M.dim newK 0 = S.batch := by rw [hK.dim]; rfl
  have hH : M.dim newK 1 = S.heads := by rw [hK.dim]; rfl
  have hD : M.dim newK 3 = S.headDim := by rw [hK.dim]; rfl
  have hnK : (K ++ rows newK).length = e.offset + M.dim newK 2 := by
    rw [List.length_append, rows_length, h.offset]
  have hnV : (V ++ rows newV).length = e.offset + M.dim newK 2 := by
    rw [List.length_append, rows_length, h.inStep, h.offset, hlen]
  have hkeys := h.keys.append hM hK.holds
    (by rw [rows_length]; exact h.offset ▸ hroom)
  have hvalues := h.values.append hM hV.holds
    (by rw [rows_length, hlen, h.inStep]; exact h.offset ▸ hroom)
  rw [rows_length, ← h.offset] at hkeys
  rw [rows_length, hlen, h.inStep, ← h.offset] at hvalues
  simp only [appendEntry, hB, hH, hD, Option.bind_eq_bind, Option.bind_eq_some_iff,
    attempt_eq_some] at happend
  obtain ⟨updatedK, ⟨-, rfl⟩, updatedV, ⟨-, rfl⟩, hviews⟩ := happend
  have hready : ∀ keys values, Buffer S keys e.capacity (K ++ rows newK) →
      Buffer S values e.capacity (V ++ rows newV) →
      Ready S { e with keys := keys, values := values, offset := e.offset + M.dim newK 2 }
        (K ++ rows newK) (V ++ rows newV) :=
    fun keys values hk hv => ⟨hk, hv, hnK.symm, hnV.trans hnK.symm, h.heads, h.headDim⟩
  by_cases hwhole : e.offset + M.dim newK 2 = e.capacity ∧
      viewStart maxKv (M.dim newK 2) (e.offset + M.dim newK 2) = 0
  · -- the whole buffer is the view
    rw [if_pos hwhole] at hviews
    simp only [Option.bind_eq_some_iff, attempt_eq_some, Option.pure_def, Option.some.injEq,
      Prod.mk.injEq] at hviews
    obtain ⟨_, ⟨-, rfl⟩, _, ⟨-, rfl⟩, rfl, rfl, rfl⟩ := hviews
    refine ⟨rfl, hready _ _ hkeys hvalues, ?_, ?_⟩
    · rw [window_of_viewStart (by rw [hnK]; exact hwhole.2)]
      exact hkeys.whole (hnK.trans hwhole.1)
    · rw [window_of_viewStart (by rw [hnV]; exact hwhole.2)]
      exact hvalues.whole (hnV.trans hwhole.1)
  · rw [if_neg hwhole] at hviews
    simp only [Option.bind_eq_some_iff, attempt_eq_some, Option.pure_def, Option.some.injEq,
      Prod.mk.injEq] at hviews
    obtain ⟨_, ⟨-, rfl⟩, _, ⟨-, rfl⟩, rfl, rfl, rfl⟩ := hviews
    have hkView := hkeys.window hM maxKv (M.dim newK 2)
    have hvView := hvalues.window hM maxKv (M.dim newK 2)
    rw [hnK] at hkView
    rw [hnV] at hvView
    exact ⟨rfl, hready _ _ hkeys hvalues, hkView, hvView⟩

end Append

/-! ## Capacities -/

/-- A capacity is a power of two of at most `2 ^ 30`, so doubling never leaves `int`. -/
def Capacity (n : Nat) : Prop := ∃ k ≤ 30, n = 2 ^ k

theorem growCapacity_capacity {fuel nc needed : Nat} (hnc : Capacity nc)
    (hneeded : needed ≤ 2 ^ 30) : Capacity (growCapacity fuel nc needed) := by
  induction fuel generalizing nc with
  | zero => exact hnc
  | succ fuel ih =>
    rw [growCapacity]
    split
    · rename_i hlt
      obtain ⟨k, hk, rfl⟩ := hnc
      have hk' : k < 30 := (Nat.pow_lt_pow_iff_right (by decide)).mp (hlt.trans_le hneeded)
      exact ih ⟨k + 1, hk', (Nat.pow_succ ..).symm⟩
    · exact hnc

/-- Before the first buffer the capacity is zero. -/
def CapacityOk (e : KvEntry M) : Prop := e.capacity = 0 ∨ Capacity e.capacity

theorem growEntry_capacity {e e' : KvEntry M} {ok : MlxCall → Bool} (h : CapacityOk e)
    {B H D needed dt : Nat} (hneeded : needed ≤ 2 ^ 30)
    (hgrow : growEntry M ok e B H D needed dt = some e') : CapacityOk e' := by
  have hfrom : Capacity (if 0 < e.capacity then e.capacity else 1) := by
    rcases h with h | h
    · rw [if_neg (by omega)]
      exact ⟨0, by decide, rfl⟩
    · have hpos : 0 < e.capacity := by
        obtain ⟨k, -, hk⟩ := h
        rw [hk]
        exact Nat.two_pow_pos k
      rw [if_pos hpos]
      exact h
  have hcap : Capacity (growCapacity needed _ needed) := growCapacity_capacity hfrom hneeded
  simp only [growEntry, Option.bind_eq_bind, Option.bind_eq_some_iff, attempt_eq_some] at hgrow
  obtain ⟨_, -, _, -, hgrow⟩ := hgrow
  split at hgrow
  · simp only [Option.bind_eq_some_iff, attempt_eq_some, Option.pure_def, Option.some.injEq] at hgrow
    obtain ⟨_, -, _, -, _, -, _, -, rfl⟩ := hgrow
    exact .inr hcap
  · simp only [Option.pure_def, Option.some.injEq] at hgrow
    subst hgrow
    exact .inr hcap

theorem roomEntry_capacity {e e' : KvEntry M} {ok : MlxCall → Bool} (h : CapacityOk e)
    {newK : M.Arr} (hneeded : e.offset + M.dim newK 2 ≤ 2 ^ 30)
    (hroom : roomEntry M ok e newK = some e') : CapacityOk e' := by
  simp only [roomEntry] at hroom
  split at hroom
  · obtain ⟨g, hgrow, rfl⟩ := Option.map_eq_some_iff.mp hroom
    have hgrown : CapacityOk g := growEntry_capacity h hneeded hgrow
    exact hgrown
  · rw [← Option.some.inj hroom]
    exact h

theorem appendEntry_capacity {e e' : KvEntry M} {ok : MlxCall → Bool} {newK newV kView vView : M.Arr}
    {maxKv : Int} (happend : appendEntry M ok e newK newV maxKv = some (e', kView, vView)) :
    e'.capacity = e.capacity := by
  simp only [appendEntry, Option.bind_eq_bind, Option.bind_eq_some_iff, attempt_eq_some] at happend
  obtain ⟨_, -, _, -, hviews⟩ := happend
  split at hviews
  all_goals
    simp only [Option.bind_eq_some_iff, Option.pure_def, Option.some.injEq, Prod.mk.injEq] at hviews
    obtain ⟨_, -, _, -, rfl, -⟩ := hviews
    rfl

end Mlxd.KvCache
