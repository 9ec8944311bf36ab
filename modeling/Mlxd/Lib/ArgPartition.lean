import Mathlib.Data.Finset.Card
import Mathlib.Data.Finset.Max
import Mathlib.Data.Finset.Range
import Mathlib.Data.Finset.Dedup
import Mathlib.Data.List.Perm.Basic
import Mathlib.Data.List.Sort
import Mathlib.Tactic.Common

/-!
# Partial sorting of indices

A partition of the indices around a position puts the element of that rank there, nothing greater
in front of it and nothing less behind it; the order on both sides is free. So its first indices
are a least set of that size, and every least set comes first in some partition.
-/
namespace Mlxd.Lib

variable {R : Type} [LinearOrder R]

/-- The indices of `n` values, partitioned around position `kth`. -/
structure ArgPartition (xs : Nat → R) (n kth : Nat) (p : List Nat) : Prop where
  perm : p.Perm (List.range n)
  before : ∀ m, p[kth]? = some m → ∀ a ∈ p.take kth, xs a ≤ xs m
  after : ∀ m, p[kth]? = some m → ∀ b ∈ p.drop (kth + 1), xs m ≤ xs b

instance (xs : Nat → R) (n kth : Nat) (p : List Nat) : Decidable (ArgPartition xs n kth p) :=
  decidable_of_iff (p.Perm (List.range n) ∧
      (∀ m ∈ p[kth]?, ∀ a ∈ p.take kth, xs a ≤ xs m) ∧
      ∀ m ∈ p[kth]?, ∀ b ∈ p.drop (kth + 1), xs m ≤ xs b)
    ⟨fun h => ⟨h.1, h.2.1, h.2.2⟩, fun h => ⟨h.perm, h.before, h.after⟩⟩

namespace ArgPartition

variable {xs : Nat → R} {n kth : Nat} {p : List Nat}

theorem nodup (h : ArgPartition xs n kth p) : p.Nodup := h.perm.nodup_iff.mpr List.nodup_range

theorem mem_iff (h : ArgPartition xs n kth p) (i : Nat) : i ∈ p ↔ i < n := by
  rw [h.perm.mem_iff, List.mem_range]

theorem length (h : ArgPartition xs n kth p) : p.length = n := by
  rw [h.perm.length_eq, List.length_range]

/-- The first indices. -/
def front (p : List Nat) (kth : Nat) : Finset Nat := (p.take (kth + 1)).toFinset

theorem front_card (h : ArgPartition xs n kth p) (hk : kth < n) : (front p kth).card = kth + 1 := by
  rw [front, List.toFinset_card_of_nodup (h.nodup.sublist (List.take_sublist _ _)),
    List.length_take, h.length]
  omega

theorem front_subset (h : ArgPartition xs n kth p) : front p kth ⊆ Finset.range n := by
  intro i hi
  rw [front, List.mem_toFinset] at hi
  exact Finset.mem_range.mpr ((h.mem_iff i).mp (List.mem_of_mem_take hi))

/-- No value in front exceeds one that is not. -/
theorem front_le (h : ArgPartition xs n kth p) (hk : kth < n) {a b : Nat} (ha : a ∈ front p kth)
    (hb : b < n) (hnot : b ∉ front p kth) : xs a ≤ xs b := by
  have hlt : kth < p.length := h.length ▸ hk
  have hm : p[kth]? = some p[kth] := List.getElem?_eq_getElem hlt
  have hbehind : b ∈ p.drop (kth + 1) := by
    have hmem := (h.mem_iff b).mpr hb
    rw [← List.take_append_drop (kth + 1) p, List.mem_append] at hmem
    exact hmem.resolve_left fun hc => hnot (List.mem_toFinset.mpr hc)
  rw [front, List.mem_toFinset, List.take_add_one, hm, List.mem_append] at ha
  refine le_trans ?_ (h.after _ hm b hbehind)
  rcases ha with ha | ha
  · exact h.before _ hm a ha
  · rw [Option.toList_some, List.mem_singleton] at ha
    exact (congrArg xs ha).le

end ArgPartition

/-- A set of indices whose values are all at most the other values. -/
def Least (xs : Nat → R) (n : Nat) (D : Finset Nat) : Prop :=
  D ⊆ Finset.range n ∧ ∀ a ∈ D, ∀ b < n, b ∉ D → xs a ≤ xs b

/-- A set listed around one of its elements, and then the other indices. -/
theorem listing_perm {n : Nat} {D : Finset Nat} (hsub : D ⊆ Finset.range n) {m : Nat} (hm : m ∈ D) :
    ((D.erase m).toList ++ m :: (Finset.range n \ D).toList).Perm (List.range n) := by
  rw [List.perm_ext_iff_of_nodup]
  · intro i
    simp only [List.mem_append, Finset.mem_toList, Finset.mem_erase, List.mem_cons,
      Finset.mem_sdiff, Finset.mem_range, List.mem_range]
    constructor
    · rintro (⟨-, hi⟩ | rfl | ⟨hi, -⟩)
      · exact Finset.mem_range.mp (hsub hi)
      · exact Finset.mem_range.mp (hsub hm)
      · exact hi
    · intro hi
      by_cases him : i = m
      · exact .inr (.inl him)
      · by_cases hiD : i ∈ D
        · exact .inl ⟨him, hiD⟩
        · exact .inr (.inr ⟨hi, hiD⟩)
  · refine List.nodup_append.mpr ⟨Finset.nodup_toList _, List.nodup_cons.mpr
      ⟨by simp [hm], Finset.nodup_toList _⟩, ?_⟩
    rintro a ha b hb rfl
    simp only [Finset.mem_toList, Finset.mem_erase] at ha
    rcases List.mem_cons.mp hb with rfl | hb
    · exact ha.1 rfl
    · simp only [Finset.mem_toList, Finset.mem_sdiff] at hb
      exact hb.2 ha.2
  · exact List.nodup_range

/-- Every least set stands in front in some partition. -/
theorem exists_argPartition {xs : Nat → R} {n kth : Nat} {D : Finset Nat} (hD : Least xs n D)
    (hcard : D.card = kth + 1) : ∃ p, ArgPartition xs n kth p ∧ ArgPartition.front p kth = D := by
  obtain ⟨m, hm, hmax⟩ := D.exists_max_image xs (Finset.card_pos.mp (by omega))
  have hlen : (D.erase m).toList.length = kth := by
    rw [Finset.length_toList, Finset.card_erase_of_mem hm, hcard, Nat.add_sub_cancel]
  let rest := (Finset.range n \ D).toList
  have hget : ((D.erase m).toList ++ m :: rest)[kth]? = some m := by
    rw [List.getElem?_append_right (by omega), hlen, Nat.sub_self]
    rfl
  have hfront : ((D.erase m).toList ++ m :: rest).take (kth + 1) = (D.erase m).toList ++ [m] := by
    rw [List.take_append, hlen, List.take_of_length_le (by omega), Nat.add_sub_cancel_left]
    rfl
  refine ⟨(D.erase m).toList ++ m :: rest, ⟨listing_perm hD.1 hm, ?_, ?_⟩, ?_⟩
  · rintro m' hm' a ha
    obtain rfl := Option.some.inj (hget.symm.trans hm')
    rw [List.take_append_of_le_length (by omega), List.take_of_length_le (by omega)] at ha
    exact hmax a (Finset.mem_of_mem_erase (Finset.mem_toList.mp ha))
  · rintro m' hm' b hb
    obtain rfl := Option.some.inj (hget.symm.trans hm')
    have hdrop : ((D.erase m).toList ++ m :: rest).drop (kth + 1) = rest := by
      rw [List.drop_append, hlen, List.drop_of_length_le (by omega), Nat.add_sub_cancel_left]
      rfl
    rw [hdrop] at hb
    simp only [rest, Finset.mem_toList, Finset.mem_sdiff, Finset.mem_range] at hb
    exact hD.2 m hm b hb.1 hb.2
  · rw [ArgPartition.front, hfront]
    ext i
    simp only [List.toFinset_append, Finset.toList_toFinset, List.toFinset_cons, List.toFinset_nil,
      Finset.mem_union, Finset.mem_erase, Finset.mem_insert, Finset.notMem_empty, or_false]
    constructor
    · rintro (⟨-, hi⟩ | rfl)
      · exact hi
      · exact hm
    · intro hi
      by_cases him : i = m
      · exact .inr him
      · exact .inl ⟨him, hi⟩

/-- A least set grows, one least value at a time, to every size up to the number of values. -/
theorem Least.extend {xs : Nat → R} {n : Nat} {D : Finset Nat} (hD : Least xs n D) {k : Nat}
    (hk : D.card ≤ k) (hn : k ≤ n) : ∃ D', D ⊆ D' ∧ Least xs n D' ∧ D'.card = k := by
  induction k, hk using Nat.le_induction with
  | base => exact ⟨D, Finset.Subset.refl D, hD, rfl⟩
  | succ k _ ih =>
    obtain ⟨D', hsub, hleast, hcard⟩ := ih (by omega)
    have hne : (Finset.range n \ D').Nonempty := by
      rw [← Finset.card_pos, Finset.card_sdiff_of_subset hleast.1, Finset.card_range]
      omega
    obtain ⟨m, hm, hmin⟩ := Finset.exists_min_image _ xs hne
    rw [Finset.mem_sdiff, Finset.mem_range] at hm
    refine ⟨insert m D', hsub.trans (Finset.subset_insert _ _), ⟨?_, ?_⟩, ?_⟩
    · exact Finset.insert_subset (Finset.mem_range.mpr hm.1) hleast.1
    · intro a ha b hb hnot
      rw [Finset.mem_insert, not_or] at hnot
      rcases Finset.mem_insert.mp ha with rfl | ha
      · exact hmin b (Finset.mem_sdiff.mpr ⟨Finset.mem_range.mpr hb, hnot.2⟩)
      · exact hleast.2 a ha b hb hnot.2
    · rw [Finset.card_insert_of_notMem hm.2, hcard]

/-- A full sort is a partition around every position. -/
theorem sorted_argPartition (xs : Nat → R) {n kth : Nat} (hk : kth < n) :
    ArgPartition xs n kth ((List.range n).insertionSort fun a b => xs a ≤ xs b) := by
  let sorted := (List.range n).insertionSort fun a b => xs a ≤ xs b
  have hperm : sorted.Perm (List.range n) := List.perm_insertionSort _ _
  have htotal : Std.Total fun a b => xs a ≤ xs b := ⟨fun a b => le_total _ _⟩
  have htrans : IsTrans Nat fun a b => xs a ≤ xs b := ⟨fun _ _ _ => le_trans⟩
  have hascend : sorted.Pairwise fun a b => xs a ≤ xs b := List.pairwise_insertionSort _ _
  have hlt : kth < sorted.length := by rwa [hperm.length_eq, List.length_range]
  have hm : sorted[kth]? = some sorted[kth] := List.getElem?_eq_getElem hlt
  have hsplit : sorted = sorted.take kth ++ sorted[kth] :: sorted.drop (kth + 1) := by
    rw [← List.drop_eq_getElem_cons hlt, List.take_append_drop]
  rw [hsplit, List.pairwise_append, List.pairwise_cons] at hascend
  obtain ⟨-, ⟨hafter, -⟩, hbefore⟩ := hascend
  refine ⟨hperm, ?_, ?_⟩
  · rintro m hget a ha
    obtain rfl := Option.some.inj (hm.symm.trans hget)
    exact hbefore a ha _ List.mem_cons_self
  · rintro m hget b hb
    obtain rfl := Option.some.inj (hm.symm.trans hget)
    exact hafter b hb

end Mlxd.Lib
