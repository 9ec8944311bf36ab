import Mathlib.Algebra.BigOperators.Group.Finset.Piecewise
import Mathlib.Algebra.Order.BigOperators.Group.Finset
import Mathlib.Data.Fin.Tuple.Sort
import Mathlib.Order.Interval.Finset.Fin

/-!
# Leading sets

A set of indices is leading when no value outside exceeds one inside: the first indices of some
descending order. Among the sets of one size a leading one has the greatest sum of any quantity that
grows with the value, so the upper ends of a sorted order decide which leading set is the shortest
to reach a bound.
-/
namespace Mlxd.Lib

section Leading

variable {ι α M : Type} [LinearOrder α]

def Leading (l : ι → α) (T : Finset ι) : Prop := ∀ a ∈ T, ∀ b ∉ T, l b ≤ l a

/-- The index belongs to a set or has a value of at least one of its members. -/
def WithTies (l : ι → α) (T : Finset ι) (i : ι) : Prop := ∃ t ∈ T, l t ≤ l i

variable [AddCommMonoid M] [LinearOrder M] [IsOrderedAddMonoid M]

/-- A shortest nonempty leading set whose sum reaches a bound. -/
structure Shortest (l : ι → α) (f : ι → M) (p : M) (T : Finset ι) : Prop where
  nonempty : T.Nonempty
  leading : Leading l T
  reaches : p ≤ ∑ i ∈ T, f i
  least : ∀ U : Finset ι, U.Nonempty → Leading l U → p ≤ ∑ i ∈ U, f i → T.card ≤ U.card

/-- A leading set has the greatest sum of its size. -/
theorem Leading.sum_le [DecidableEq ι] {l : ι → α} {f : ι → M} {T U : Finset ι}
    (hT : Leading l T) (hmono : ∀ a b, l a ≤ l b → f a ≤ f b) (hnonneg : ∀ i, 0 ≤ f i)
    (hcard : U.card ≤ T.card) : ∑ i ∈ U, f i ≤ ∑ i ∈ T, f i := by
  have hdiff : (U \ T).card ≤ (T \ U).card := Finset.card_sdiff_le_card_sdiff_iff.mpr hcard
  have hexchange : ∑ i ∈ U \ T, f i ≤ ∑ i ∈ T \ U, f i := by
    rcases (T \ U).eq_empty_or_nonempty with hempty | hne
    · rw [hempty, Finset.card_empty, Nat.le_zero, Finset.card_eq_zero] at hdiff
      rw [hempty, hdiff]
    · obtain ⟨m, hm, hmin⟩ := Finset.exists_min_image (T \ U) f hne
      have hupper : ∀ b ∈ U \ T, f b ≤ f m := by
        intro b hb
        exact hmono b m (hT m (Finset.mem_sdiff.mp hm).1 b (Finset.mem_sdiff.mp hb).2)
      calc ∑ i ∈ U \ T, f i ≤ (U \ T).card • f m := Finset.sum_le_card_nsmul _ _ _ hupper
        _ ≤ (T \ U).card • f m := nsmul_le_nsmul_left (hnonneg m) hdiff
        _ ≤ ∑ i ∈ T \ U, f i := Finset.card_nsmul_le_sum _ _ _ hmin
  calc ∑ i ∈ U, f i = ∑ i ∈ U ∩ T, f i + ∑ i ∈ U \ T, f i :=
        (Finset.sum_inter_add_sum_sdiff U T f).symm
    _ ≤ ∑ i ∈ T ∩ U, f i + ∑ i ∈ T \ U, f i := by
        rw [Finset.inter_comm]
        exact add_le_add_right hexchange _
    _ = ∑ i ∈ T, f i := Finset.sum_inter_add_sum_sdiff T U f

end Leading

/-! ## The upper ends of a sorted order -/

section Upper

variable {α M : Type} [LinearOrder α] {n : Nat} {l : Fin n → α}

/-- The indices whose sorted positions are in a set. -/
def atPositions (l : Fin n → α) (P : Finset (Fin n)) : Finset (Fin n) :=
  P.map (Tuple.sort l).toEmbedding

theorem mem_atPositions {P : Finset (Fin n)} {i : Fin n} :
    i ∈ atPositions l P ↔ (Tuple.sort l).symm i ∈ P := by
  rw [atPositions, Finset.mem_map_equiv]

theorem le_of_position {a b : Fin n} (h : (Tuple.sort l).symm b ≤ (Tuple.sort l).symm a) :
    l b ≤ l a := by
  have hle := Tuple.monotone_sort l h
  simpa only [Function.comp_apply, Equiv.apply_symm_apply] using hle

/-- A set of positions that is closed upwards is that of a leading set. -/
theorem atPositions_leading {P : Finset (Fin n)} (hP : ∀ a ∈ P, ∀ b, a ≤ b → b ∈ P) :
    Leading l (atPositions l P) := by
  intro a ha b hb
  rw [mem_atPositions] at ha hb
  apply le_of_position
  by_contra hlt
  exact hb (hP _ ha _ (not_le.mp hlt).le)

theorem withTies_upper {m i : Fin n} :
    WithTies l (atPositions l (Finset.Ici m)) i ↔ l (Tuple.sort l m) ≤ l i := by
  constructor
  · rintro ⟨t, ht, hle⟩
    rw [mem_atPositions, Finset.mem_Ici] at ht
    refine le_trans ?_ hle
    apply le_of_position
    rwa [Equiv.symm_apply_apply]
  · intro hle
    refine ⟨Tuple.sort l m, ?_, hle⟩
    rw [mem_atPositions, Equiv.symm_apply_apply, Finset.mem_Ici]

theorem sum_atPositions [AddCommMonoid M] (f : Fin n → M) (P : Finset (Fin n)) :
    ∑ i ∈ atPositions l P, f i = ∑ i ∈ P, f (Tuple.sort l i) := Finset.sum_map _ _ _

theorem card_atPositions (P : Finset (Fin n)) : (atPositions l P).card = P.card :=
  Finset.card_map _

/-- The upper end that just reaches the bound is a shortest leading set. -/
theorem shortest_upper [AddCommMonoid M] [LinearOrder M] [IsOrderedAddMonoid M] {f : Fin n → M}
    {p : M} {m : Fin n} (hmono : ∀ a b, l a ≤ l b → f a ≤ f b) (hnonneg : ∀ i, 0 ≤ f i)
    (hbelow : ∑ i ∈ Finset.Ioi m, f (Tuple.sort l i) < p)
    (hreach : p ≤ ∑ i ∈ Finset.Ici m, f (Tuple.sort l i)) :
    Shortest l f p (atPositions l (Finset.Ici m)) where
  nonempty := ⟨Tuple.sort l m, by rw [mem_atPositions, Equiv.symm_apply_apply, Finset.mem_Ici]⟩
  leading := by
    apply atPositions_leading
    intro a ha b hab
    exact Finset.mem_Ici.mpr (le_trans (Finset.mem_Ici.mp ha) hab)
  reaches := by rwa [sum_atPositions]
  least := by
    intro U _ _ hU
    by_contra hlt
    have hopen : Leading l (atPositions l (Finset.Ioi m)) := by
      apply atPositions_leading
      intro a ha b hab
      exact Finset.mem_Ioi.mpr (lt_of_lt_of_le (Finset.mem_Ioi.mp ha) hab)
    have hcard : U.card ≤ (atPositions l (Finset.Ioi m)).card := by
      rw [card_atPositions, Fin.card_Ici] at hlt
      rw [card_atPositions, Fin.card_Ioi]
      omega
    have hsum := hopen.sum_le hmono hnonneg hcard
    rw [sum_atPositions] at hsum
    exact absurd hU (not_le.mpr (lt_of_le_of_lt hsum hbelow))

end Upper

end Mlxd.Lib
