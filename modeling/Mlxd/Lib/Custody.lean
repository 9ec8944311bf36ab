import Mathlib.Data.List.Perm.Basic
import Mathlib.Data.List.Nodup
import Mathlib.Logic.Function.Basic

/-!
# Custody of items

Items are handed over once, and from then on each is in one place: in a common list of placed
items or in the hand of one holder. Placing an item and taking items keep the account.
-/
namespace Mlxd.Lib

variable {α T : Type} {passed placed placed' : List α} {hand : T → List α}

/-- Every item that was passed is placed or in one hand, once. -/
structure Custody (passed placed : List α) (hand : T → List α) : Prop where
  once : placed.Nodup
  known : ∀ x ∈ placed, x ∈ passed
  held : ∀ t, ∀ x ∈ hand t, x ∈ passed ∧ x ∉ placed
  nodup : ∀ t, (hand t).Nodup
  apart : ∀ t u x, x ∈ hand t → x ∈ hand u → t = u
  kept : ∀ x ∈ passed, x ∈ placed ∨ ∃ t, x ∈ hand t

theorem Custody.empty : Custody ([] : List α) [] fun _ : T => [] :=
  ⟨List.nodup_nil, by simp, by simp, fun _ => List.nodup_nil, by simp, by simp⟩

namespace Custody

variable [DecidableEq T] {t : T}

theorem mem_update {hand : T → List α} {t u : T} {xs : List α} {x : α} :
    x ∈ Function.update hand t xs u ↔ u = t ∧ x ∈ xs ∨ u ≠ t ∧ x ∈ hand u := by
  by_cases hu : u = t
  · subst hu
    simp
  · simp [hu]

/-- A new item comes into an empty hand. -/
theorem pass {x : α} (h : Custody passed placed hand) (hnew : x ∉ passed) (ht : hand t = []) :
    Custody (x :: passed) placed (Function.update hand t [x]) := by
  have hother : ∀ u, x ∉ hand u := fun u hu => hnew (h.held u x hu).1
  refine ⟨h.once, fun y hy => List.mem_cons_of_mem _ (h.known y hy), ?_, fun u => ?_, ?_, ?_⟩
  · intro u y hin
    rcases mem_update.mp hin with ⟨-, hy⟩ | ⟨-, hy⟩
    · rw [List.mem_singleton.mp hy]
      exact ⟨List.mem_cons_self, fun hplaced => hnew (h.known x hplaced)⟩
    · exact ⟨List.mem_cons_of_mem _ (h.held u y hy).1, (h.held u y hy).2⟩
  · by_cases hu : u = t
    · rw [hu, Function.update_self]
      exact List.nodup_singleton x
    · rw [Function.update_of_ne hu]
      exact h.nodup u
  · intro u v y hu hv
    rcases mem_update.mp hu with ⟨rfl, hy⟩ | ⟨-, hy⟩ <;>
      rcases mem_update.mp hv with ⟨rfl, hy'⟩ | ⟨-, hy'⟩
    · rfl
    · rw [List.mem_singleton.mp hy] at hy'
      exact absurd hy' (hother v)
    · rw [List.mem_singleton.mp hy'] at hy
      exact absurd hy (hother u)
    · exact h.apart u v y hy hy'
  · intro y hy
    rcases List.mem_cons.mp hy with rfl | hy
    · exact .inr ⟨t, by simp⟩
    · refine (h.kept y hy).imp (fun hplaced => hplaced) fun ⟨u, hu⟩ => ⟨u, mem_update.mpr (.inr ⟨?_, hu⟩)⟩
      rintro rfl
      rw [ht] at hu
      simp at hu

/-- A holder places an item. -/
theorem place {x : α} {rest : List α} (h : Custody passed placed hand) (ht : hand t = x :: rest)
    (hperm : placed'.Perm (x :: placed)) :
    Custody passed placed' (Function.update hand t rest) := by
  have hx := h.held t x (by rw [ht]; simp)
  have hnodup := h.nodup t
  rw [ht] at hnodup
  have hrest : ∀ y ∈ rest, y ∈ hand t := fun y hy => by rw [ht]; exact List.mem_cons_of_mem _ hy
  have hmem : ∀ y, y ∈ placed' ↔ y = x ∨ y ∈ placed := fun y => by rw [hperm.mem_iff, List.mem_cons]
  refine ⟨hperm.nodup_iff.mpr (List.nodup_cons.mpr ⟨hx.2, h.once⟩), ?_, ?_, fun u => ?_, ?_, ?_⟩
  · intro y hy
    rcases (hmem y).mp hy with rfl | hy
    · exact hx.1
    · exact h.known y hy
  · intro u y hin
    rcases mem_update.mp hin with ⟨rfl, hy⟩ | ⟨hu, hy⟩
    · refine ⟨(h.held u y (hrest y hy)).1, fun hplaced => ?_⟩
      rcases (hmem y).mp hplaced with rfl | hplaced
      · exact (List.nodup_cons.mp hnodup).1 hy
      · exact (h.held u y (hrest y hy)).2 hplaced
    · refine ⟨(h.held u y hy).1, fun hplaced => ?_⟩
      rcases (hmem y).mp hplaced with rfl | hplaced
      · exact hu (h.apart u t y hy (by rw [ht]; simp))
      · exact (h.held u y hy).2 hplaced
  · by_cases hu : u = t
    · rw [hu, Function.update_self]
      exact (List.nodup_cons.mp hnodup).2
    · rw [Function.update_of_ne hu]
      exact h.nodup u
  · intro u v y hu hv
    rcases mem_update.mp hu with ⟨rfl, hy⟩ | ⟨-, hy⟩ <;>
      rcases mem_update.mp hv with ⟨rfl, hy'⟩ | ⟨-, hy'⟩
    · rfl
    · exact h.apart _ v y (hrest y hy) hy'
    · exact h.apart u _ y hy (hrest y hy')
    · exact h.apart u v y hy hy'
  · intro y hy
    rcases h.kept y hy with hplaced | ⟨u, hu⟩
    · exact .inl ((hmem y).mpr (.inr hplaced))
    · by_cases hut : u = t
      · rw [hut, ht] at hu
        rcases List.mem_cons.mp hu with rfl | hu
        · exact .inl ((hmem y).mpr (.inl rfl))
        · exact .inr ⟨t, mem_update.mpr (.inl ⟨rfl, hu⟩)⟩
      · exact .inr ⟨u, mem_update.mpr (.inr ⟨hut, hu⟩)⟩

/-- A holder with an empty hand takes placed items. -/
theorem take {xs : List α} (h : Custody passed placed hand) (ht : hand t = [])
    (hperm : placed.Perm (xs ++ placed')) : Custody passed placed' (Function.update hand t xs) := by
  have hnodup := List.nodup_append.mp (hperm.nodup_iff.mp h.once)
  have hmem : ∀ y, y ∈ placed ↔ y ∈ xs ∨ y ∈ placed' := fun y => by
    rw [hperm.mem_iff, List.mem_append]
  have hfree : ∀ u, ∀ y ∈ xs, y ∉ hand u := fun u y hy hu =>
    (h.held u y hu).2 ((hmem y).mpr (.inl hy))
  refine ⟨hnodup.2.1, fun y hy => h.known y ((hmem y).mpr (.inr hy)), ?_, fun u => ?_, ?_, ?_⟩
  · intro u y hin
    rcases mem_update.mp hin with ⟨rfl, hy⟩ | ⟨-, hy⟩
    · exact ⟨h.known y ((hmem y).mpr (.inl hy)), fun hplaced => hnodup.2.2 y hy y hplaced rfl⟩
    · exact ⟨(h.held u y hy).1, fun hplaced => (h.held u y hy).2 ((hmem y).mpr (.inr hplaced))⟩
  · by_cases hu : u = t
    · rw [hu, Function.update_self]
      exact hnodup.1
    · rw [Function.update_of_ne hu]
      exact h.nodup u
  · intro u v y hu hv
    rcases mem_update.mp hu with ⟨rfl, hy⟩ | ⟨-, hy⟩ <;>
      rcases mem_update.mp hv with ⟨rfl, hy'⟩ | ⟨-, hy'⟩
    · rfl
    · exact absurd hy' (hfree v y hy)
    · exact absurd hy (hfree u y hy')
    · exact h.apart u v y hy hy'
  · intro y hy
    rcases h.kept y hy with hplaced | ⟨u, hu⟩
    · rcases (hmem y).mp hplaced with hy | hplaced
      · exact .inr ⟨t, mem_update.mpr (.inl ⟨rfl, hy⟩)⟩
      · exact .inl hplaced
    · refine .inr ⟨u, mem_update.mpr (.inr ⟨?_, hu⟩)⟩
      rintro rfl
      rw [ht] at hu
      simp at hu

/-- A hand that stays as it is. -/
theorem same {xs : List α} (h : Custody passed placed hand) (ht : hand t = xs) :
    Custody passed placed (Function.update hand t xs) := by
  rw [← ht, Function.update_eq_self]
  exact h

end Custody

/-- With no item in a hand, every item is placed exactly once. -/
theorem Custody.count_eq_one [BEq α] [LawfulBEq α] {x : α} (h : Custody passed placed hand)
    (hx : x ∈ passed) (hfree : ∀ t, x ∉ hand t) : placed.count x = 1 := by
  rcases h.kept x hx with hplaced | ⟨t, ht⟩
  · exact List.count_eq_one_of_mem h.once hplaced
  · exact absurd ht (hfree t)

end Mlxd.Lib
