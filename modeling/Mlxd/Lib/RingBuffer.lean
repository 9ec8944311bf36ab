import Mathlib.Data.List.Range
import Mathlib.Data.Nat.ModEq

/-!
# Ring buffers

A bounded queue in an array: `len` entries from `readPos` on, wrapping around at the
capacity. The contents in order are a list, and the operations are the queue's.
-/
namespace Mlxd.Lib

/-- A ring buffer with its bounds. -/
structure RingBuffer (α : Type) where
  slots : Nat → α
  cap : Nat
  len : Nat
  readPos : Nat
  len_le : len ≤ cap
  readPos_lt : readPos < cap

namespace RingBuffer

variable {α : Type}

/-- An empty ring whose slots hold `zero`. -/
def create (cap : Nat) (h : 0 < cap) (zero : α) : RingBuffer α :=
  ⟨fun _ => zero, cap, 0, 0, Nat.zero_le cap, h⟩

/-- The position of the entry number `i`. -/
def index (r : RingBuffer α) (i : Nat) : Nat := (r.readPos + i) % r.cap

/-- The entries in order. -/
def toList (r : RingBuffer α) : List α := (List.range r.len).map fun i => r.slots (r.index i)

def put (slots : Nat → α) (pos : Nat) (a : α) : Nat → α := fun j => if j = pos then a else slots j

/-- Append to a ring with room. -/
def push (r : RingBuffer α) (a : α) (h : r.len < r.cap) : RingBuffer α :=
  { r with slots := put r.slots (r.index r.len) a, len := r.len + 1, len_le := h }

/-- The oldest entry of a non-empty ring. -/
def front (r : RingBuffer α) : α := r.slots r.readPos

/-- Drop the oldest entry. -/
def pop (r : RingBuffer α) : RingBuffer α :=
  { r with readPos := (r.readPos + 1) % r.cap, len := r.len - 1,
           len_le := (Nat.sub_le r.len 1).trans r.len_le,
           readPos_lt := Nat.mod_lt _ (Nat.zero_lt_of_lt r.readPos_lt) }

/-- Overwrite the newest entry. -/
def replaceLast (r : RingBuffer α) (a : α) : RingBuffer α :=
  { r with slots := put r.slots (r.index (r.len - 1)) a }

@[simp] theorem create_toList (cap : Nat) (h : 0 < cap) (zero : α) :
    (create cap h zero).toList = [] := rfl

@[simp] theorem toList_length (r : RingBuffer α) : r.toList.length = r.len := by simp [toList]

theorem toList_eq_nil (r : RingBuffer α) : r.toList = [] ↔ r.len = 0 := by
  rw [← List.length_eq_zero_iff, toList_length]

/-- Different entries are at different positions. -/
theorem index_inj (r : RingBuffer α) {i j : Nat} (hi : i < r.cap) (hj : j < r.cap)
    (h : r.index i = r.index j) : i = j := by
  have hmod : (r.readPos + i) ≡ (r.readPos + j) [MOD r.cap] := h
  exact Nat.ModEq.eq_of_lt_of_lt (Nat.ModEq.add_left_cancel' r.readPos hmod) hi hj

theorem map_put (r : RingBuffer α) (n pos : Nat) (a : α) (hn : n ≤ pos) (hpos : pos < r.cap) :
    (List.range n).map (fun i => put r.slots (r.index pos) a (r.index i)) =
      (List.range n).map fun i => r.slots (r.index i) := by
  refine List.map_congr_left fun i hi => ?_
  have hlt : i < n := List.mem_range.mp hi
  have hne : r.index i ≠ r.index pos := by
    intro he
    have := r.index_inj (by omega) hpos he
    omega
  simp only [put, hne, ↓reduceIte]

theorem toList_push (r : RingBuffer α) (a : α) (h : r.len < r.cap) :
    (r.push a h).toList = r.toList ++ [a] := by
  have hold := r.map_put r.len r.len a (Nat.le_refl _) h
  have hnew : put r.slots (r.index r.len) a (r.index r.len) = a := by simp [put]
  rw [toList, push, List.range_succ, List.map_append]
  exact congrArg₂ (· ++ ·) hold (congrArg (fun x => [x]) hnew)

theorem toList_pop (r : RingBuffer α) (h : 0 < r.len) : r.toList = r.front :: r.pop.toList := by
  obtain ⟨n, hn⟩ : ∃ n, r.len = n + 1 := ⟨r.len - 1, by omega⟩
  have hfirst : r.index 0 = r.readPos := Nat.mod_eq_of_lt r.readPos_lt
  have hshift : ∀ i, r.pop.index i = r.index (i + 1) := by
    intro i
    simp only [index, pop, Nat.mod_add_mod]
    congr 1
    omega
  have hpop : r.pop.toList = (List.range n).map fun i => r.slots (r.index (i + 1)) := by
    have hlen : r.pop.len = n := by simp only [pop, hn, Nat.add_sub_cancel]
    rw [toList, hlen]
    exact List.map_congr_left fun i _ => congrArg r.slots (hshift i)
  rw [hpop, toList, hn, List.range_succ_eq_map, List.map_cons, hfirst, List.map_map]
  rfl

theorem toList_replaceLast (r : RingBuffer α) (a : α) (h : 0 < r.len) :
    (r.replaceLast a).toList = r.toList.dropLast ++ [a] := by
  obtain ⟨n, hn⟩ : ∃ n, r.len = n + 1 := ⟨r.len - 1, by omega⟩
  have hlt : n < r.cap := by
    have := r.len_le
    omega
  have hold := r.map_put n n a (Nat.le_refl n) hlt
  have hnew : put r.slots (r.index n) a (r.index n) = a := by simp [put]
  simp only [toList, hn, List.range_succ, List.map_append, List.map_cons, List.map_nil,
    List.dropLast_concat]
  change (List.range r.len).map (fun i => put r.slots (r.index (r.len - 1)) a (r.index i)) = _
  rw [hn, Nat.add_sub_cancel, List.range_succ, List.map_append, hold, List.map_cons, List.map_nil,
    hnew]

end RingBuffer

end Mlxd.Lib
