import Mathlib.Algebra.BigOperators.Group.List.Basic
import Mathlib.Algebra.Ring.Defs
import Mathlib.Data.List.Sort
import Mathlib.Tactic.Common
import Mathlib.Tactic.Ring

/-!
# Arrays in row-major order

A shape and the entries in row-major order. Reshaping keeps the entries; broadcasting and taking
rows are maps on flat positions; a sort returns some order of the positions, and the sort of that
order is its inverse.
-/
namespace Mlxd.Lib

structure Tensor (α : Type) where
  shape : List Nat
  data : Nat → α

namespace Tensor

variable {α β γ R : Type}

def size (t : Tensor α) : Nat := t.shape.prod

def dim (t : Tensor α) (axis : Nat) : Nat := t.shape.getD axis 0

/-- The flat position of a multi-index. -/
def offset : List Nat → List Nat → Nat
  | _ :: ds, i :: is => i * ds.prod + offset ds is
  | _, _ => 0

def entry (t : Tensor α) (index : List Nat) : α := t.data (offset t.shape index)

def reshape (t : Tensor α) (shape : List Nat) : Option (Tensor α) :=
  if shape.prod = t.size then some ⟨shape, t.data⟩ else none

/-- Removes an axis of length one, counted from the end. -/
def squeezeAxis (t : Tensor α) (back : Nat) : Option (Tensor α) :=
  if back ≤ t.shape.length ∧ t.shape[t.shape.length - back]? = some 1 then
    some ⟨t.shape.eraseIdx (t.shape.length - back), t.data⟩
  else none

/-- Adds an axis of length one, counted from the end of the new shape. -/
def expandDims (t : Tensor α) (back : Nat) : Option (Tensor α) :=
  if back ≤ t.shape.length + 1 then
    some ⟨t.shape.insertIdx (t.shape.length + 1 - back) 1, t.data⟩
  else none

def map (f : α → β) (t : Tensor α) : Tensor β := ⟨t.shape, fun i => f (t.data i)⟩

/-- The rows with the given indices, which must exist. -/
def take (t : Tensor α) (idx : Tensor Nat) : Option (Tensor α) :=
  match t.shape with
  | [] => none
  | n :: row =>
    if ∀ i < idx.size, idx.data i < n then
      some ⟨idx.shape ++ row,
        fun i => t.data (idx.data (i / row.prod) * row.prod + i % row.prod)⟩
    else none

/-! ## Broadcasting -/

/-- Axes of length one stretch to the other's length. -/
def broadcastDims : List Nat → List Nat → Option (List Nat)
  | [], [] => some []
  | a :: as, b :: bs =>
    if a = b then (broadcastDims as bs).map (a :: ·)
    else if a = 1 then (broadcastDims as bs).map (b :: ·)
    else if b = 1 then (broadcastDims as bs).map (a :: ·)
    else none
  | _, _ => none

def pad (rank : Nat) (shape : List Nat) : List Nat :=
  List.replicate (rank - shape.length) 1 ++ shape

def broadcast (a b : List Nat) : Option (List Nat) :=
  broadcastDims (pad (max a.length b.length) a) (pad (max a.length b.length) b)

/-- The position that a position of the stretched shape is read from. -/
def source : List Nat → List Nat → Nat → Nat
  | d :: ds, _ :: ts, i => (if d = 1 then 0 else i / ts.prod) * ds.prod + source ds ts (i % ts.prod)
  | _, _, _ => 0

def stretched (shape target : List Nat) (i : Nat) : Nat :=
  source (pad target.length shape) target i

def zipWith (f : α → β → γ) (a : Tensor α) (b : Tensor β) : Option (Tensor γ) :=
  (broadcast a.shape b.shape).map fun shape =>
    ⟨shape, fun i => f (a.data (stretched a.shape shape i)) (b.data (stretched b.shape shape i))⟩

theorem pad_length (shape : List Nat) : pad shape.length shape = shape := by
  rw [pad, Nat.sub_self, List.replicate_zero, List.nil_append]

theorem broadcastDims_self (shape : List Nat) : broadcastDims shape shape = some shape := by
  induction shape with
  | nil => rfl
  | cons d ds ih => rw [broadcastDims, if_pos rfl, ih, Option.map_some]

theorem broadcast_self (shape : List Nat) : broadcast shape shape = some shape := by
  rw [broadcast, Nat.max_self, pad_length, broadcastDims_self]

theorem source_self (shape : List Nat) : ∀ i < shape.prod, source shape shape i = i := by
  induction shape with
  | nil =>
    intro i hi
    rw [List.prod_nil, Nat.lt_one_iff] at hi
    rw [hi]
    rfl
  | cons d ds ih =>
    intro i hi
    rw [List.prod_cons] at hi
    have hpos : 0 < ds.prod := by
      apply Nat.pos_of_ne_zero
      intro hzero
      rw [hzero, Nat.mul_zero] at hi
      exact absurd hi (Nat.not_lt_zero i)
    rw [source, ih _ (Nat.mod_lt i hpos)]
    split
    · next hone =>
      rw [hone, Nat.one_mul] at hi
      rw [Nat.zero_mul, Nat.zero_add, Nat.mod_eq_of_lt hi]
    · exact Nat.div_add_mod' i ds.prod

theorem stretched_self {shape : List Nat} {i : Nat} (hi : i < shape.prod) :
    stretched shape shape i = i := by
  rw [stretched, pad_length]
  exact source_self shape i hi

/-- Arrays of one shape combine entry by entry. -/
theorem zipWith_same (f : α → β → γ) {a : Tensor α} {b : Tensor β} (hshape : a.shape = b.shape) :
    ∃ out, a.zipWith f b = some out ∧ out.shape = b.shape ∧
      ∀ i < b.size, out.data i = f (a.data i) (b.data i) := by
  rw [zipWith, hshape, broadcast_self, Option.map_some]
  refine ⟨_, rfl, rfl, ?_⟩
  intro i hi
  simp only [stretched_self hi]

theorem broadcastDims_last (shape : List Nat) (k : Nat) :
    broadcastDims (shape ++ [1]) (shape ++ [k]) = some (shape ++ [k]) := by
  induction shape with
  | nil =>
    simp only [List.nil_append, broadcastDims]
    split
    · next hk => rw [hk]; rfl
    · rfl
  | cons d ds ih => rw [List.cons_append, List.cons_append, broadcastDims, if_pos rfl, ih, Option.map_some]

theorem broadcast_last (shape : List Nat) (k : Nat) :
    broadcast (shape ++ [1]) (shape ++ [k]) = some (shape ++ [k]) := by
  have hlen : (shape ++ [1]).length = (shape ++ [k]).length := by simp
  rw [broadcast, hlen, Nat.max_self, pad_length, ← hlen, pad_length, broadcastDims_last]

theorem source_last (shape : List Nat) (k : Nat) :
    ∀ i < (shape ++ [k]).prod, source (shape ++ [1]) (shape ++ [k]) i = i / k := by
  induction shape with
  | nil =>
    intro i hi
    rw [List.nil_append, List.prod_singleton] at hi
    rw [Nat.div_eq_of_lt hi]
    rfl
  | cons d ds ih =>
    intro i hi
    rw [List.cons_append, List.prod_cons] at hi
    have hprod : (ds ++ [k]).prod = ds.prod * k := by rw [List.prod_append, List.prod_singleton]
    have hpos : 0 < (ds ++ [k]).prod := by
      apply Nat.pos_of_ne_zero
      intro hzero
      rw [hzero, Nat.mul_zero] at hi
      exact absurd hi (Nat.not_lt_zero i)
    have hone : (ds ++ [1]).prod = ds.prod := by
      rw [List.prod_append, List.prod_singleton, Nat.mul_one]
    rw [List.cons_append, List.cons_append, source, ih _ (Nat.mod_lt i hpos), hone]
    split
    · next hd =>
      rw [hd, Nat.one_mul] at hi
      rw [Nat.zero_mul, Nat.zero_add, Nat.mod_eq_of_lt hi]
    · have hk : 0 < k := Nat.pos_of_mul_pos_left (hprod ▸ hpos)
      calc i / (ds ++ [k]).prod * ds.prod + i % (ds ++ [k]).prod / k
          = (i % (ds ++ [k]).prod + i / (ds ++ [k]).prod * ds.prod * k) / k := by
            rw [Nat.add_mul_div_right _ _ hk, Nat.add_comm]
        _ = i / k := by rw [Nat.mul_assoc, ← hprod, Nat.mod_add_div']

theorem stretched_last {shape : List Nat} {k i : Nat} (hi : i < (shape ++ [k]).prod) :
    stretched (shape ++ [1]) (shape ++ [k]) i = i / k := by
  have hlen : (shape ++ [1]).length = (shape ++ [k]).length := by simp
  rw [stretched, ← hlen, pad_length]
  exact source_last shape k i hi

theorem broadcastDims_comm : ∀ a b : List Nat, broadcastDims a b = broadcastDims b a
  | [], [] => rfl
  | [], _ :: _ => rfl
  | _ :: _, [] => rfl
  | a :: as, b :: bs => by
    simp only [broadcastDims, broadcastDims_comm as bs]
    grind

theorem broadcast_comm (a b : List Nat) : broadcast a b = broadcast b a := by
  rw [broadcast, broadcast, Nat.max_comm, broadcastDims_comm]

/-- A column is combined with every entry of its row. -/
theorem zipWith_column_right (f : α → β → γ) {a : Tensor α} {b : Tensor β} {batch : List Nat} {k : Nat}
    (ha : a.shape = batch ++ [k]) (hb : b.shape = batch ++ [1]) :
    ∃ out, a.zipWith f b = some out ∧ out.shape = batch ++ [k] ∧
      ∀ i < (batch ++ [k]).prod, out.data i = f (a.data i) (b.data (i / k)) := by
  rw [zipWith, ha, hb, broadcast_comm, broadcast_last, Option.map_some]
  refine ⟨_, rfl, rfl, ?_⟩
  intro i hi
  simp only [stretched_self hi, stretched_last hi]

theorem zipWith_column_left (f : α → β → γ) {a : Tensor α} {b : Tensor β} {batch : List Nat} {k : Nat}
    (ha : a.shape = batch ++ [1]) (hb : b.shape = batch ++ [k]) :
    ∃ out, a.zipWith f b = some out ∧ out.shape = batch ++ [k] ∧
      ∀ i < (batch ++ [k]).prod, out.data i = f (a.data (i / k)) (b.data i) := by
  rw [zipWith, ha, hb, broadcast_last, Option.map_some]
  refine ⟨_, rfl, rfl, ?_⟩
  intro i hi
  simp only [stretched_self hi, stretched_last hi]

/-! ## Rows -/

/-- A row of `d` entries. -/
def row (t : Tensor α) (d j : Nat) : Nat → α := fun c => t.data (j * d + c)

theorem expandDims_last (t : Tensor α) : t.expandDims 1 = some ⟨t.shape ++ [1], t.data⟩ := by
  rw [expandDims, if_pos (Nat.le_add_left _ _), Nat.add_sub_cancel, List.insertIdx_length_self]

theorem div_row {j d c : Nat} (hc : c < d) : (j * d + c) / d = j := by
  rw [Nat.add_comm, Nat.add_mul_div_right c j (Nat.zero_lt_of_lt hc), Nat.div_eq_of_lt hc,
    Nat.zero_add]

theorem mod_row {j d c : Nat} (hc : c < d) : (j * d + c) % d = c := by
  rw [Nat.add_comm, Nat.add_mul_mod_self_right, Nat.mod_eq_of_lt hc]

theorem row_lt {j n d c : Nat} (hj : j < n) (hc : c < d) : j * d + c < n * d := by
  calc j * d + c < j * d + d := Nat.add_lt_add_left hc _
    _ = (j + 1) * d := by ring
    _ ≤ n * d := Nat.mul_le_mul_right d hj

/-- The axis before the last goes when it has length one. -/
theorem squeezeAxis_rows {t : Tensor α} {batch : List Nat} {d : Nat}
    (hshape : t.shape = batch ++ [1, d]) : t.squeezeAxis 2 = some ⟨batch ++ [d], t.data⟩ := by
  have hlen : t.shape.length - 2 = batch.length := by simp [hshape]
  have hone : t.shape[t.shape.length - 2]? = some 1 := by simp [hshape]
  rw [squeezeAxis, if_pos ⟨by simp [hshape], hone⟩, hlen, hshape,
    List.eraseIdx_append_of_length_le (Nat.le_refl _), Nat.sub_self]
  rfl

theorem expandDims_rows {t : Tensor α} {batch : List Nat} {d : Nat}
    (hshape : t.shape = batch ++ [d]) : t.expandDims 2 = some ⟨batch ++ [1, d], t.data⟩ := by
  have hlen : t.shape.length + 1 - 2 = batch.length := by simp [hshape]
  have hinsert : (batch ++ [d]).insertIdx batch.length 1 = batch ++ [1, d] := by
    clear hlen hshape
    induction batch with
    | nil => rfl
    | cons b bs ih => rw [List.cons_append, List.length_cons, List.insertIdx_succ_cons, ih, List.cons_append]
  rw [expandDims, if_pos (by simp [hshape]), hlen, hshape, hinsert]

/-- Taking existing rows reads each row at its index. -/
theorem take_rows {t : Tensor α} {n : Nat} {row : List Nat} (hshape : t.shape = n :: row)
    {idx : Tensor Nat} (hidx : ∀ i < idx.size, idx.data i < n) :
    ∃ out, t.take idx = some out ∧ out.shape = idx.shape ++ row ∧
      ∀ j, ∀ c < row.prod, out.data (j * row.prod + c) = t.data (idx.data j * row.prod + c) := by
  refine ⟨_, by rw [take, hshape]; exact if_pos hidx, rfl, fun j c hc => ?_⟩
  change t.data _ = _
  rw [div_row hc, mod_row hc]

/-! ## Products with gathered matrices -/

variable [Semiring R]

/-- Adds up the axis before the last. -/
def sumRows (t : Tensor R) : Option (Tensor R) :=
  if 2 ≤ t.shape.length then
    let rows := t.dim (t.shape.length - 2)
    let cols := t.dim (t.shape.length - 1)
    some ⟨t.shape.eraseIdx (t.shape.length - 2), fun i =>
      ((List.range rows).map fun k => t.data ((i / cols * rows + k) * cols + i % cols)).sum⟩
  else none

theorem sumRows_rows {t : Tensor R} {batch : List Nat} {n d : Nat} (hshape : t.shape = batch ++ [n, d]) :
    ∃ out, t.sumRows = some out ∧ out.shape = batch ++ [d] ∧ ∀ j, ∀ c < d,
      out.data (j * d + c) = ((List.range n).map fun k => t.data ((j * n + k) * d + c)).sum := by
  have hlen : t.shape.length - 2 = batch.length := by simp [hshape]
  have hrows : t.dim (t.shape.length - 2) = n := by simp [dim, hshape]
  have hcols : t.dim (t.shape.length - 1) = d := by simp [dim, hshape]
  have herase : (batch ++ [n, d]).eraseIdx batch.length = batch ++ [d] := by
    rw [List.eraseIdx_append_of_length_le (Nat.le_refl _), Nat.sub_self]
    rfl
  rw [sumRows, if_pos (by simp [hshape])]
  refine ⟨_, rfl, ?_, fun j c hc => ?_⟩
  · rw [hlen, hshape, herase]
  · simp only [hrows, hcols, div_row hc, mod_row hc]

/-- The rows of `x` times a matrix of `outDim` rows. -/
def matmulT (x : Tensor R) (weight : Nat → Nat → R) (inDim outDim : Nat) : Option (Tensor R) :=
  if 1 ≤ x.shape.length ∧ x.dim (x.shape.length - 1) = inDim then
    some ⟨x.shape.eraseIdx (x.shape.length - 1) ++ [outDim], fun i =>
      ((List.range inDim).map fun c => x.data (i / outDim * inDim + c) * weight (i % outDim) c).sum⟩
  else none

theorem matmulT_rows {x : Tensor R} {batch : List Nat} {inDim : Nat}
    (hx : x.shape = batch ++ [inDim]) (weight : Nat → Nat → R) (outDim : Nat) :
    ∃ out, x.matmulT weight inDim outDim = some out ∧ out.shape = batch ++ [outDim] ∧
      ∀ j, ∀ o < outDim, out.data (j * outDim + o) =
        ((List.range inDim).map fun c => x.row inDim j c * weight o c).sum := by
  have hlen : x.shape.length - 1 = batch.length := by simp [hx]
  have herase : x.shape.eraseIdx (x.shape.length - 1) = batch := by
    rw [hlen, hx, List.eraseIdx_append_of_length_le (Nat.le_refl _), Nat.sub_self]
    exact List.append_nil batch
  have hcols : x.dim (x.shape.length - 1) = inDim := by simp [dim, hx]
  rw [matmulT, if_pos ⟨by simp [hx], hcols⟩, herase]
  refine ⟨_, rfl, rfl, fun j o ho => ?_⟩
  simp only [div_row ho, mod_row ho, row]

/-- The matrices of `x` times the gathered ones, of `inDim` rows and `outDim` columns: the leading
axes of `x` are broadcast against those of the indices. -/
def gatherMm (x : Tensor R) (inds : Tensor Nat) (matrix : Nat → Nat → Nat → R)
    (inDim outDim : Nat) : Option (Tensor R) :=
  let batch := x.shape.take (x.shape.length - 2)
  let rows := x.dim (x.shape.length - 2)
  if 2 ≤ x.shape.length ∧ x.dim (x.shape.length - 1) = inDim then
    (broadcast batch inds.shape).map fun shape =>
      ⟨shape ++ [rows, outDim], fun i =>
        let j := i / (rows * outDim)
        ((List.range inDim).map fun c =>
          x.data ((stretched batch shape j * rows + i / outDim % rows) * inDim + c) *
            matrix (inds.data (stretched inds.shape shape j)) c (i % outDim)).sum⟩
  else none

/-- With one row each, every product is that of a row and the gathered matrix. -/
theorem gatherMm_rows {x : Tensor R} {inds : Tensor Nat} {matrix : Nat → Nat → Nat → R}
    {batch shape : List Nat} {inDim outDim : Nat} (hx : x.shape = batch ++ [1, inDim])
    (hshape : broadcast batch inds.shape = some shape) :
    ∃ out, gatherMm x inds matrix inDim outDim = some out ∧ out.shape = shape ++ [1, outDim] ∧
      ∀ j, ∀ o < outDim, out.data (j * outDim + o) = ((List.range inDim).map fun c =>
        x.data (stretched batch shape j * inDim + c) *
          matrix (inds.data (stretched inds.shape shape j)) c o).sum := by
  have hlen : x.shape.length - 2 = batch.length := by simp [hx]
  have hrows : x.dim (x.shape.length - 2) = 1 := by simp [dim, hx]
  have hcols : x.dim (x.shape.length - 1) = inDim := by simp [dim, hx]
  have hbatch : x.shape.take (x.shape.length - 2) = batch := by
    rw [hlen, hx, List.take_left]
  have htwo : 2 ≤ x.shape.length := by simp [hx]
  simp only [gatherMm]
  rw [if_pos ⟨htwo, hcols⟩, hbatch, hshape, hrows, Option.map_some]
  refine ⟨_, rfl, rfl, ?_⟩
  intro j o ho
  simp only [Nat.one_mul, Nat.mul_one, Nat.mod_one, Nat.add_zero, div_row ho, mod_row ho]

end Tensor

/-! ## Sorting positions -/

/-- An order of the positions in which the keys ascend; equal keys stand in any order. -/
structure Argsort (keys : Nat → Nat) (n : Nat) (order : Nat → Nat) : Prop where
  lt : ∀ i < n, order i < n
  inj : ∀ i < n, ∀ j < n, order i = order j → i = j
  mono : ∀ i j, i ≤ j → j < n → keys (order i) ≤ keys (order j)

/-- A strictly ascending map of the positions below `n` to themselves is the identity. -/
theorem ascending_id {f : Nat → Nat} {n : Nat} (hlt : ∀ i < n, f i < n)
    (hmono : ∀ i j, i < j → j < n → f i < f j) : ∀ i < n, f i = i := by
  have hlow : ∀ i < n, i ≤ f i := by
    intro i
    induction i with
    | zero => exact fun _ => Nat.zero_le _
    | succ i ih =>
      intro hi
      exact lt_of_le_of_lt (ih (Nat.lt_of_succ_lt hi)) (hmono i (i + 1) (Nat.lt_succ_self i) hi)
  have hhigh : ∀ d, ∀ i, i + d + 1 = n → f i ≤ i := by
    intro d
    induction d with
    | zero =>
      intro i hi
      exact Nat.le_of_lt_succ (lt_of_lt_of_eq (hlt i (by omega)) hi.symm)
    | succ d ih =>
      intro i hi
      have hnext := hmono i (i + 1) (Nat.lt_succ_self i) (by omega)
      exact Nat.le_of_lt_succ (lt_of_lt_of_le hnext (ih (i + 1) (by omega)))
  intro i hi
  exact Nat.le_antisymm (hhigh (n - 1 - i) i (by omega)) (hlow i hi)

/-- The sort of a sort's order is its inverse. -/
theorem Argsort.inverse {keys order inv : Nat → Nat} {n : Nat} (h : Argsort keys n order)
    (hinv : Argsort order n inv) : ∀ i < n, order (inv i) = i := by
  apply ascending_id
  · intro i hi
    exact h.lt _ (hinv.lt i hi)
  · intro i j hij hj
    refine lt_of_le_of_ne (hinv.mono i j hij.le hj) fun heq => ?_
    have hi := lt_trans hij hj
    have hsame := hinv.inj i hi j hj (h.inj _ (hinv.lt i hi) _ (hinv.lt j hj) heq)
    exact absurd hsame hij.ne

/-- The order that keeps equal keys as they stand. -/
def stableOrder (keys : Nat → Nat) (n i : Nat) : Nat :=
  ((List.range n).insertionSort fun a b => keys a ≤ keys b).getD i 0

theorem stableOrder_argsort (keys : Nat → Nat) (n : Nat) : Argsort keys n (stableOrder keys n) := by
  let sorted := (List.range n).insertionSort fun a b => keys a ≤ keys b
  have hperm : sorted.Perm (List.range n) := List.perm_insertionSort _ _
  have htotal : Std.Total fun a b => keys a ≤ keys b := ⟨fun a b => Nat.le_total _ _⟩
  have htrans : IsTrans Nat fun a b => keys a ≤ keys b := ⟨fun _ _ _ => Nat.le_trans⟩
  have hascend : sorted.Pairwise fun a b => keys a ≤ keys b := List.pairwise_insertionSort _ _
  have hlen : sorted.length = n := by rw [hperm.length_eq, List.length_range]
  have hget : ∀ i (hi : i < n), stableOrder keys n i = sorted[i] := fun i hi =>
    (List.getElem_eq_getD 0).symm
  constructor
  · intro i hi
    rw [hget i hi, ← List.mem_range, ← hperm.mem_iff]
    exact List.getElem_mem _
  · intro i hi j hj heq
    rw [hget i hi, hget j hj] at heq
    exact (hperm.nodup_iff.mpr List.nodup_range).getElem_inj_iff.mp heq
  · intro i j hij hj
    rw [hget i (lt_of_le_of_lt hij hj), hget j hj]
    rcases Nat.lt_or_eq_of_le hij with hlt | heq
    · exact List.pairwise_iff_getElem.mp hascend i j _ _ hlt
    · simp only [heq, Nat.le_refl]

end Mlxd.Lib
