import Mathlib.Data.List.Basic
import Mathlib.Tactic.Common

/-!
# Greedy merging of adjacent pairs

The naive reference for pair merging: as long as some adjacent pair has a rank,
replace the pair of lowest rank, and the leftmost of these, by its join. The
symbols, the ranks and the join are arbitrary.
-/
namespace Mlxd.GreedyMerge

variable {α : Type} (rank : α → α → Option Nat) (join : α → α → α)

/-- The lowest rank of an adjacent pair, with the leftmost position having it. -/
def lowest : List α → Option (Nat × Nat)
  | x :: y :: t =>
    match rank x y, lowest (y :: t) with
    | none, none => none
    | none, some (r, k) => some (r, k + 1)
    | some r, none => some (r, 0)
    | some r, some (r', k) => if r ≤ r' then some (r, 0) else some (r', k + 1)
  | _ => none

/-- Replace the pair at position `k` by its join. -/
def mergeAt : List α → Nat → List α
  | x :: y :: t, 0 => join x y :: t
  | x :: t, k + 1 => x :: mergeAt t k
  | l, _ => l

theorem mergeAt_split (A : List α) (x y : α) (B : List α) :
    mergeAt join (A ++ x :: y :: B) A.length = A ++ join x y :: B := by
  induction A with
  | nil => rfl
  | cons a A ih => simp [mergeAt, ih]

/-- A position found by the scan is a ranked adjacent pair. -/
theorem lowest_split (l : List α) (r k : Nat) (h : lowest rank l = some (r, k)) :
    ∃ A x y B, l = A ++ x :: y :: B ∧ A.length = k ∧ rank x y = some r := by
  induction l generalizing r k with
  | nil => simp [lowest] at h
  | cons x t ih =>
    cases t with
    | nil => simp [lowest] at h
    | cons y t =>
      cases hr : rank x y with
      | none =>
        cases hl : lowest rank (y :: t) with
        | none => simp [lowest, hr, hl] at h
        | some p =>
          simp only [lowest, hr, hl, Option.some.injEq, Prod.mk.injEq] at h
          obtain ⟨A, u, v, B, he, hk, hu⟩ := ih p.1 p.2 hl
          exact ⟨x :: A, u, v, B, by simp [he], by simp; omega, by rw [hu, h.1]⟩
      | some q =>
        cases hl : lowest rank (y :: t) with
        | none =>
          simp only [lowest, hr, hl, Option.some.injEq, Prod.mk.injEq] at h
          exact ⟨[], x, y, t, rfl, h.2, by rw [hr, h.1]⟩
        | some p =>
          simp only [lowest, hr, hl] at h
          split at h
          · simp only [Option.some.injEq, Prod.mk.injEq] at h
            exact ⟨[], x, y, t, rfl, h.2, by rw [hr, h.1]⟩
          · simp only [Option.some.injEq, Prod.mk.injEq] at h
            obtain ⟨A, u, v, B, he, hk, hu⟩ := ih p.1 p.2 hl
            exact ⟨x :: A, u, v, B, by simp [he], by simp; omega, by rw [hu, h.1]⟩

/-- A ranked pair that no other pair beats is the one the scan finds. -/
theorem lowest_of_minimal (A : List α) (x y : α) (B : List α) (r : Nat)
    (hr : rank x y = some r)
    (hmin : ∀ A' x' y' B' r', A ++ x :: y :: B = A' ++ x' :: y' :: B' →
      rank x' y' = some r' → r < r' ∨ r = r' ∧ A.length ≤ A'.length) :
    lowest rank (A ++ x :: y :: B) = some (r, A.length) := by
  induction A with
  | nil =>
    simp only [List.nil_append, lowest, hr]
    cases hl : lowest rank (y :: B) with
    | none => rfl
    | some p =>
      obtain ⟨A', u, v, B', he, -, hu⟩ := lowest_split rank _ p.1 p.2 hl
      have := hmin (x :: A') u v B' p.1 (by simp [he]) hu
      simp only [if_pos (show r ≤ p.1 by omega), List.length_nil]
  | cons a A ih =>
    have hrest : lowest rank (A ++ x :: y :: B) = some (r, A.length) := by
      apply ih
      intro A' x' y' B' r' he hr'
      have := hmin (a :: A') x' y' B' r' (by simp [he]) hr'
      simp only [List.length_cons] at this
      omega
    obtain ⟨z, t, hz⟩ : ∃ z t, A ++ x :: y :: B = z :: t := by
      cases A with
      | nil => exact ⟨x, y :: B, rfl⟩
      | cons b A => exact ⟨b, A ++ x :: y :: B, rfl⟩
    rw [hz] at hrest
    simp only [List.cons_append, hz, lowest, hrest, List.length_cons]
    cases hq : rank a z with
    | none => rfl
    | some q =>
      have := hmin [] a z t q (by simp [hz]) hq
      simp only [List.length_cons, List.length_nil] at this
      simp only [if_neg (show ¬ q ≤ r by omega)]

theorem mergeAt_length (l : List α) (r k : Nat) (h : lowest rank l = some (r, k)) :
    (mergeAt join l k).length < l.length := by
  obtain ⟨A, x, y, B, rfl, rfl, -⟩ := lowest_split rank l r k h
  rw [mergeAt_split]
  simp

/-- Merge the lowest-ranked, leftmost pair until no adjacent pair has a rank. -/
def greedy (l : List α) : List α :=
  match h : lowest rank l with
  | none => l
  | some (r, k) =>
    have := mergeAt_length rank join l r k h
    greedy (mergeAt join l k)
termination_by l.length

theorem greedy_of_none (l : List α) (h : lowest rank l = none) : greedy rank join l = l := by
  rw [greedy]
  split <;> simp_all

theorem greedy_of_lowest (l : List α) (r k : Nat) (h : lowest rank l = some (r, k)) :
    greedy rank join l = greedy rank join (mergeAt join l k) := by
  rw [greedy]
  split <;> simp_all

/-- Merging a pair that no other pair beats is the first step of the reference. -/
theorem greedy_minimal (A : List α) (x y : α) (B : List α) (r : Nat)
    (hr : rank x y = some r)
    (hmin : ∀ A' x' y' B' r', A ++ x :: y :: B = A' ++ x' :: y' :: B' →
      rank x' y' = some r' → r < r' ∨ r = r' ∧ A.length ≤ A'.length) :
    greedy rank join (A ++ x :: y :: B) = greedy rank join (A ++ join x y :: B) := by
  rw [greedy_of_lowest rank join _ r A.length (lowest_of_minimal rank A x y B r hr hmin),
    mergeAt_split]

/-- Without a ranked adjacent pair the reference changes nothing. -/
theorem greedy_stuck (l : List α)
    (h : ∀ A x y B, l = A ++ x :: y :: B → rank x y = none) : greedy rank join l = l := by
  apply greedy_of_none
  cases hl : lowest rank l with
  | none => rfl
  | some p =>
    obtain ⟨A, x, y, B, he, -, hr⟩ := lowest_split rank l p.1 p.2 hl
    rw [h A x y B he] at hr
    contradiction

/-- Ranked adjacent pairs are replaced by their joins one after the other, in any order. -/
inductive Merges : List α → List α → Prop
  | refl (l : List α) : Merges l l
  | step (A : List α) {x y : α} (B : List α) {r : Nat} {l : List α} (hr : rank x y = some r)
      (h : Merges (A ++ join x y :: B) l) : Merges (A ++ x :: y :: B) l

theorem greedy_merges (l : List α) : Merges rank join l (greedy rank join l) := by
  induction l using greedy.induct rank join with
  | case1 l h =>
    rw [greedy_of_none rank join l h]
    exact .refl l
  | case2 l r k h _ ih =>
    rw [greedy_of_lowest rank join l r k h]
    obtain ⟨A, x, y, B, rfl, rfl, hr⟩ := lowest_split rank l r k h
    rw [mergeAt_split] at ih ⊢
    exact .step A B hr ih

variable {rank join}

theorem Merges.trans {l l' l'' : List α} (h : Merges rank join l l')
    (h' : Merges rank join l' l'') : Merges rank join l l'' := by
  induction h with
  | refl l => exact h'
  | step A B hr _ ih => exact .step A B hr (ih h')

/-- What holds of every symbol and survives a ranked join holds after any merges. -/
theorem Merges.forall {l l' : List α} (h : Merges rank join l l') (P : α → Prop)
    (hl : ∀ x ∈ l, P x) (hj : ∀ x y r, rank x y = some r → P x → P y → P (join x y)) :
    ∀ x ∈ l', P x := by
  induction h with
  | refl l => exact hl
  | step A B hr _ ih =>
    apply ih
    intro z hz
    simp only [List.mem_append, List.mem_cons] at hz hl
    rcases hz with hz | rfl | hz
    · exact hl z (.inl hz)
    · exact hj _ _ _ hr (hl _ (by simp)) (hl _ (by simp))
    · exact hl z (by simp [hz])

/-- A reading that turns joins into concatenations is unchanged by merging. -/
theorem Merges.flatMap {β : Type} {l l' : List α} (h : Merges rank join l l') (f : α → List β)
    (hf : ∀ x y, f (join x y) = f x ++ f y) : l'.flatMap f = l.flatMap f := by
  induction h with
  | refl l => rfl
  | step A B _ _ ih => simp [ih, hf]

end Mlxd.GreedyMerge
