import Mathlib.Data.List.Infix
import Mathlib.Tactic.Common

/-!
# Checked buffers

Arrays of a fixed size whose accesses fail outside their range. A computation over them is an
`Option`: `none` is an access out of range, and `Safe` says that there is none.
-/
namespace Mlxd.Lib.Buffer

variable {α β : Type}

/-- No access of the computation is out of range, and its result satisfies `post`. -/
def Safe (m : Option α) (post : α → Prop) : Prop := ∃ a, m = some a ∧ post a

section Safe

variable {m : Option α} {post post' : α → Prop}

theorem Safe.of_some {a : α} (h : post a) : Safe (some a) post := ⟨a, rfl, h⟩

theorem Safe.of_eq {a : α} (he : m = some a) (h : post a) : Safe m post := ⟨a, he, h⟩

theorem Safe.mono (h : Safe m post) (hw : ∀ a, post a → post' a) : Safe m post' := by
  obtain ⟨a, he, ha⟩ := h
  exact ⟨a, he, hw a ha⟩

theorem Safe.bind {q : β → Prop} {f : α → Option β} (h : Safe m post)
    (hf : ∀ a, post a → Safe (f a) q) : Safe (m >>= f) q := by
  obtain ⟨a, rfl, ha⟩ := h
  exact hf a ha

theorem Safe.isSome (h : Safe m post) : m.isSome := by
  obtain ⟨a, rfl, -⟩ := h
  rfl

end Safe

/-! ## Accesses -/

def load (b : Array α) (i : Nat) : Option α := b[i]?

def store (b : Array α) (i : Nat) (x : α) : Option (Array α) :=
  if i < b.size then some (b.setIfInBounds i x) else none

/-- The cells from `i` on, up to `j`. -/
def loadSlice (b : List α) (i j : Nat) : Option (List α) :=
  if i ≤ j ∧ j ≤ b.length then some ((b.drop i).take (j - i)) else none

/-- Write consecutive cells from `i` on. -/
def storeSlice (b : Array α) (i : Nat) (xs : List α) : Option (Array α) :=
  if i + xs.length ≤ b.size then
    some (b.toList.take i ++ xs ++ b.toList.drop (i + xs.length)).toArray
  else none

theorem load_eq [Inhabited α] {b : Array α} {i : Nat} (h : i < b.size) : load b i = some b[i]! := by
  rw [load, Array.getElem?_eq_getElem h, getElem!_pos b i h]

theorem store_eq {b : Array α} {i : Nat} (h : i < b.size) (x : α) :
    store b i x = some (b.setIfInBounds i x) := if_pos h

theorem loadSlice_eq {b : List α} {i j : Nat} (h : i ≤ j) (hj : j ≤ b.length) :
    loadSlice b i j = some ((b.drop i).take (j - i)) := if_pos ⟨h, hj⟩

/-! ## Filling a buffer from its start -/

/-- The buffer starts with `xs`. -/
def Holds (b : Array α) (xs : List α) : Prop := xs <+: b.toList

theorem Holds.nil (b : Array α) : Holds b [] := List.nil_prefix

theorem Holds.length_le {b : Array α} {xs : List α} (h : Holds b xs) : xs.length ≤ b.size := by
  simpa using List.IsPrefix.length_le h

/-- Forget the last cells written. -/
theorem Holds.left {b : Array α} {xs ys : List α} (h : Holds b (xs ++ ys)) : Holds b xs :=
  (List.prefix_append xs ys).trans h

theorem Holds.take {b : Array α} {xs : List α} (h : Holds b xs) :
    b.toList.take xs.length = xs := (List.prefix_iff_eq_take.mp h).symm

theorem Holds.get {b : Array α} {xs : List α} (h : Holds b xs) {i : Nat} (hi : i < xs.length) :
    load b i = xs[i]? := by
  obtain ⟨rest, hrest⟩ := h
  rw [load, ← Array.getElem?_toList, ← hrest, List.getElem?_append_left hi]

theorem Holds.loadSlice {b : Array α} {xs : List α} (h : Holds b xs) {i j : Nat} (hij : i ≤ j)
    (hj : j ≤ xs.length) : loadSlice b.toList i j = some ((xs.drop i).take (j - i)) := by
  rw [loadSlice_eq hij (hj.trans (List.IsPrefix.length_le h))]
  obtain ⟨rest, hrest⟩ := h
  rw [← hrest, List.drop_append_of_le_length (hij.trans hj), List.take_append_of_le_length]
  simp only [List.length_drop]
  omega

/-- A store right after what is held appends it; what stood there before is lost. -/
theorem Holds.store {b : Array α} {xs : List α} (h : Holds b xs) (hlt : xs.length < b.size)
    (x : α) : Holds (b.setIfInBounds xs.length x) (xs ++ [x]) := by
  obtain ⟨rest, hrest⟩ := h
  have hlen := congrArg List.length hrest
  simp only [List.length_append, Array.length_toList] at hlen
  cases rest with
  | nil => simp only [List.length_nil] at hlen; omega
  | cons y rest =>
    refine ⟨rest, ?_⟩
    rw [Array.toList_setIfInBounds, ← hrest, List.set_append_right _ _ (Nat.le_refl _),
      Nat.sub_self, List.set_cons_zero, List.append_assoc, List.singleton_append]

theorem safe_store {b : Array α} {xs : List α} (h : Holds b xs) (hlt : xs.length < b.size)
    (x : α) : Safe (store b xs.length x) fun b' => b'.size = b.size ∧ Holds b' (xs ++ [x]) :=
  Safe.of_eq (store_eq hlt x) ⟨Array.size_setIfInBounds, h.store hlt x⟩

theorem storeSlice_size {b : Array α} {i : Nat} (xs : List α) (h : i + xs.length ≤ b.size) :
    Safe (storeSlice b i xs) fun b' => b'.size = b.size := by
  refine Safe.of_eq (if_pos h) ?_
  simp only [List.size_toArray, List.length_append, List.length_take, List.length_drop,
    Array.length_toList]
  omega

theorem safe_storeSlice {b : Array α} {xs : List α} (h : Holds b xs) (ys : List α)
    (hle : xs.length + ys.length ≤ b.size) : Safe (storeSlice b xs.length ys) fun b' =>
      b'.size = b.size ∧ Holds b' (xs ++ ys) := by
  obtain ⟨b', he, hsize⟩ := storeSlice_size ys hle
  refine ⟨b', he, hsize, ?_⟩
  rw [storeSlice, if_pos hle, Option.some.injEq] at he
  rw [← he, h.take]
  exact List.prefix_append _ _

theorem Holds.getElem! [Inhabited α] {b : Array α} {a : Array α} (h : Holds b a.toList) {i : Nat}
    (hi : i < a.size) : b[i]! = a[i]! := by
  have hget := h.get (show i < a.toList.length from hi)
  rw [load_eq (Nat.lt_of_lt_of_le hi h.length_le), Array.getElem?_toList,
    Array.getElem?_eq_getElem hi, Option.some.injEq] at hget
  rw [hget, getElem!_pos a i hi]

/-! ## What holds of the first cells -/

/-- The first `m` cells satisfy `P`. -/
def All (b : Array α) (m : Nat) (P : α → Prop) : Prop := ∀ k < m, ∀ x, load b k = some x → P x

section All

variable {b : Array α} {m : Nat} {P Q : α → Prop}

theorem All.zero : All b 0 P := fun k hk => absurd hk (Nat.not_lt_zero k)

theorem All.mono (h : All b m P) (hw : ∀ x, P x → Q x) : All b m Q :=
  fun k hk x hx => hw x (h k hk x hx)

theorem All.left {n : Nat} (h : All b m P) (hn : n ≤ m) : All b n P :=
  fun k hk => h k (Nat.lt_of_lt_of_le hk hn)

/-- A load inside the range reads a cell with the property. -/
theorem All.load (h : All b m P) {i : Nat} (hi : i < m) (hm : m ≤ b.size) :
    Safe (load b i) P :=
  have hlt := Nat.lt_of_lt_of_le hi hm
  have he : Buffer.load b i = some b[i] := Array.getElem?_eq_getElem hlt
  ⟨_, he, h i hi _ he⟩

/-- Overwriting a cell, or adding one right after the range, keeps the property. -/
theorem All.store (h : All b m P) {i : Nat} {x : α} (hx : P x) (hi : i < b.size) {n : Nat}
    (hn : n ≤ m ∨ n = m + 1 ∧ i = m) :
    Safe (store b i x) fun b' => b'.size = b.size ∧ All b' n P := by
  refine Safe.of_eq (store_eq hi x) ⟨Array.size_setIfInBounds, fun k hk y hy => ?_⟩
  rw [Buffer.load, Array.getElem?_setIfInBounds] at hy
  by_cases he : i = k
  · rw [if_pos he] at hy
    split at hy
    · exact Option.some.inj hy ▸ hx
    · contradiction
  · rw [if_neg he] at hy
    exact h k (by omega) y hy

end All

end Mlxd.Lib.Buffer
