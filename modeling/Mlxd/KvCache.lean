import Mathlib.Data.Fin.VecNotation
import Mathlib.Data.Fin.Tuple.Basic
import Mathlib.Algebra.Order.Pi
import Mathlib.Algebra.Ring.Nat

/-!
# The KV cache

One entry per layer holds the keys and values of all positions so far in a buffer that is
doubled when it is full. MLX is a parameter: arrays with four axes and three operations on
them. Each place that calls MLX may fail.
-/
namespace Mlxd.KvCache

/-! ## MLX -/

/-- Batch, head, position and component. -/
abbrev Axes := Fin 4 → Nat

instance axesNeZero : NeZero 4 := ⟨by decide⟩

/-- What the cache uses of MLX; the operations give the result of a call that succeeds. -/
structure Mlx where
  Arr : Type
  Elt : Type
  /-- The handle without an array. -/
  null : Arr
  ndim : Arr → Nat
  dim : Arr → Axes
  dtype : Arr → Nat
  get : Arr → Axes → Elt
  zeros : Axes → Nat → Arr
  /-- Start and stop; the strides are one. -/
  slice : Arr → Axes → Axes → Arr
  /-- Source, update, start and stop; the strides are one. -/
  sliceUpdate : Arr → Arr → Axes → Axes → Arr

/-- The documented behaviour of the operations on arrays with four axes. -/
structure Mlx.Documented (M : Mlx) : Prop where
  zeros_ndim : ∀ ax dt, M.ndim (M.zeros ax dt) = 4
  zeros_dim : ∀ ax dt, M.dim (M.zeros ax dt) = ax
  zeros_dtype : ∀ ax dt, M.dtype (M.zeros ax dt) = dt
  slice_ndim : ∀ a start stop, M.ndim a = 4 → M.ndim (M.slice a start stop) = 4
  slice_dim : ∀ a start stop, start ≤ stop → stop ≤ M.dim a →
    M.dim (M.slice a start stop) = stop - start
  slice_dtype : ∀ a start stop, M.dtype (M.slice a start stop) = M.dtype a
  slice_get : ∀ a start stop ix, start ≤ stop → stop ≤ M.dim a →
    (∀ i, ix i < stop i - start i) → M.get (M.slice a start stop) ix = M.get a (start + ix)
  update_ndim : ∀ a u start stop, M.ndim a = 4 → M.ndim (M.sliceUpdate a u start stop) = 4
  update_dim : ∀ a u start stop, M.dim (M.sliceUpdate a u start stop) = M.dim a
  update_dtype : ∀ a u start stop, M.dtype (M.sliceUpdate a u start stop) = M.dtype a
  update_inside : ∀ a u start stop ix, start ≤ stop → stop ≤ M.dim a → M.dim u = stop - start →
    M.dtype u = M.dtype a → (∀ i, start i ≤ ix i ∧ ix i < stop i) →
    M.get (M.sliceUpdate a u start stop) ix = M.get u (ix - start)
  update_outside : ∀ a u start stop ix, start ≤ stop → stop ≤ M.dim a → M.dim u = stop - start →
    (∀ i, ix i < M.dim a i) → ¬ (∀ i, start i ≤ ix i ∧ ix i < stop i) →
    M.get (M.sliceUpdate a u start stop) ix = M.get a ix

/-- The places that call an MLX operation, each at most once in a call. -/
inductive MlxCall where
  | zerosKeys | zerosVals | sliceOldK | sliceOldV | copyK | copyV
  | updateK | updateV | viewK | viewV
  deriving DecidableEq, Repr

/-- A call that fails gives nothing. -/
def attempt {α : Type} (ok : MlxCall → Bool) (site : MlxCall) (a : α) : Option α :=
  if ok site then some a else none

/-! ## The cache -/

structure KvEntry (M : Mlx) where
  keys : M.Arr
  values : M.Arr
  offset : Nat
  capacity : Nat
  nKvHeads : Nat
  headDim : Nat
  initialized : Bool

structure Kvcache (M : Mlx) where
  entries : Nat → KvEntry M
  numLayers : Nat

variable (M : Mlx)

def kvcacheInit (numLayers : Int) : Option (Kvcache M) :=
  if numLayers ≤ 0 then none
  else some ⟨fun _ => ⟨M.null, M.null, 0, 0, 0, 0, false⟩, numLayers.toNat⟩

def kvcacheLayerOffset (kv : Kvcache M) (layer : Int) : Int :=
  if layer < 0 ∨ kv.numLayers ≤ layer then -1 else (kv.entries layer.toNat).offset

/-- Double until there is room; the fuel bounds the doublings. -/
def growCapacity : Nat → Nat → Nat → Nat
  | 0, nc, _ => nc
  | fuel + 1, nc, needed => if nc < needed then growCapacity fuel (nc * 2) needed else nc

def growEntry (ok : MlxCall → Bool) (e : KvEntry M) (B H D needed dt : Nat) :
    Option (KvEntry M) := do
  let nc := growCapacity needed (if 0 < e.capacity then e.capacity else 1) needed
  let newKeys ← attempt ok .zerosKeys (M.zeros ![B, H, nc, D] dt)
  let newVals ← attempt ok .zerosVals (M.zeros ![B, H, nc, D] dt)
  if e.initialized ∧ 0 < e.offset then
    let start := ![0, 0, 0, 0]
    let stop := ![B, H, e.offset, D]
    let oldK ← attempt ok .sliceOldK (M.slice e.keys start stop)
    let oldV ← attempt ok .sliceOldV (M.slice e.values start stop)
    let tmpK ← attempt ok .copyK (M.sliceUpdate newKeys oldK start stop)
    let tmpV ← attempt ok .copyV (M.sliceUpdate newVals oldV start stop)
    return { e with keys := tmpK, values := tmpV, capacity := nc, initialized := true }
  else
    return { e with keys := newKeys, values := newVals, capacity := nc, initialized := true }

/-- The first position of a view. -/
def viewStart (maxKv : Int) (newLen off : Nat) : Nat :=
  if 0 < maxKv ∧ newLen = 1 ∧ maxKv < off then off - maxKv.toNat else 0

/-- Write the new positions behind the old ones and take the views. -/
def appendEntry (ok : MlxCall → Bool) (e : KvEntry M) (newK newV : M.Arr) (maxKv : Int) :
    Option (KvEntry M × M.Arr × M.Arr) := do
  let B := M.dim newK 0
  let H := M.dim newK 1
  let D := M.dim newK 3
  let newLen := M.dim newK 2
  let newOff := e.offset + newLen
  let start := ![0, 0, e.offset, 0]
  let stop := ![B, H, newOff, D]
  let updatedK ← attempt ok .updateK (M.sliceUpdate e.keys newK start stop)
  let updatedV ← attempt ok .updateV (M.sliceUpdate e.values newV start stop)
  let e' := { e with keys := updatedK, values := updatedV, offset := newOff }
  let vs := viewStart maxKv newLen newOff
  if newOff = e.capacity ∧ vs = 0 then
    return (e', ← attempt ok .viewK updatedK, ← attempt ok .viewV updatedV)
  else
    return (e', ← attempt ok .viewK (M.slice updatedK ![0, 0, vs, 0] stop),
      ← attempt ok .viewV (M.slice updatedV ![0, 0, vs, 0] stop))

/-- The entry with room for the new positions. -/
def roomEntry (ok : MlxCall → Bool) (e : KvEntry M) (newK : M.Arr) : Option (KvEntry M) :=
  let needed := e.offset + M.dim newK 2
  if e.initialized = false ∨ e.capacity < needed then
    (growEntry M ok e (M.dim newK 0) (M.dim newK 1) (M.dim newK 3) needed (M.dtype newK)).map
      fun e => { e with nKvHeads := M.dim newK 1, headDim := M.dim newK 3 }
  else some e

def Kvcache.setEntry {M : Mlx} (kv : Kvcache M) (layer : Nat) (e : KvEntry M) : Kvcache M :=
  { kv with entries := Function.update kv.entries layer e }

/-- The return code, the cache and the caller's views. A grown buffer stays when a later
call fails. -/
def kvcacheUpdate (ok : MlxCall → Bool) (kv : Kvcache M) (layer : Int) (newK newV : M.Arr)
    (maxKv : Int) (views : M.Arr × M.Arr) : Int × Kvcache M × (M.Arr × M.Arr) :=
  let e := kv.entries layer.toNat
  if layer < 0 ∨ kv.numLayers ≤ layer then (-1, kv, views)
  else if maxKv < 0 then (-1, kv, views)
  else if M.ndim newK ≠ 4 ∨ M.ndim newV ≠ 4 then (-1, kv, views)
  else if e.initialized ∧ (M.dim newK 1 ≠ e.nKvHeads ∨ M.dim newK 3 ≠ e.headDim) then
    (-1, kv, views)
  else if M.dim newV 1 ≠ M.dim newK 1 ∨ M.dim newV 3 ≠ M.dim newK 3 then (-1, kv, views)
  else if M.dim newK 0 ≠ M.dim newV 0 ∨ M.dim newK 2 ≠ M.dim newV 2 then (-1, kv, views)
  else
    match roomEntry M ok e newK with
    | none => (-1, kv, views)
    | some e =>
      match appendEntry M ok e newK newV maxKv with
      | none => (-1, kv.setEntry layer.toNat e, views)
      | some (e', kView, vView) => (0, kv.setEntry layer.toNat e', (kView, vView))

def kvcacheView (ok : MlxCall → Bool) (kv : Kvcache M) (layer maxKv : Int) (qLen : Nat)
    (views : M.Arr × M.Arr) : Int × (M.Arr × M.Arr) :=
  let e := kv.entries layer.toNat
  if layer < 0 ∨ kv.numLayers ≤ layer then (-1, views)
  else if maxKv < 0 then (-1, views)
  else if e.initialized = false ∨ e.offset = 0 then (-1, views)
  else
    let vs := viewStart maxKv qLen e.offset
    let stop := ![M.dim e.keys 0, e.nKvHeads, e.offset, e.headDim]
    let got : Option (M.Arr × M.Arr) :=
      if vs = 0 ∧ e.offset = e.capacity then do
        return (← attempt ok .viewK e.keys, ← attempt ok .viewV e.values)
      else do
        return (← attempt ok .viewK (M.slice e.keys ![0, 0, vs, 0] stop),
          ← attempt ok .viewV (M.slice e.values ![0, 0, vs, 0] stop))
    match got with
    | none => (-1, views)
    | some views => (0, views)

end Mlxd.KvCache
