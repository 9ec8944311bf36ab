import Mathlib.Tactic.Common

/-!
# Backtracking regular expressions

The semantics lists every way an expression can match a prefix of the input, by
what it leaves, in the order a backtracking engine tries them: left alternatives
first, and a star as greedily as it can. The match is the head of that list.
-/
namespace Mlxd.Regex

inductive Pattern (σ : Type) where
  | eps
  | set (p : σ → Bool)
  | seq (r r' : Pattern σ)
  | alt (r r' : Pattern σ)
  | star (r : Pattern σ)
  /-- Succeeds without consuming unless the next symbol is in the set. -/
  | notAhead (p : σ → Bool)

variable {σ : Type}

/-- Greedy iteration; a round that consumes nothing is not tried. -/
def rounds (f : List σ → List (List σ)) : Nat → List σ → List (List σ)
  | 0, s => [s]
  | n + 1, s => ((f s).filter fun t => t.length < s.length).flatMap (rounds f n) ++ [s]

/-- What the matches of a prefix leave, in backtracking order. -/
@[simp] def rests : Pattern σ → List σ → List (List σ)
  | .eps, s => [s]
  | .set _, [] => []
  | .set p, x :: t => if p x then [t] else []
  | .seq r r', s => (rests r s).flatMap (rests r')
  | .alt r r', s => rests r s ++ rests r' s
  | .star r, s => rounds (rests r) s.length s
  | .notAhead _, [] => [[]]
  | .notAhead p, x :: t => if p x then [] else [x :: t]

def Pattern.opt (r : Pattern σ) : Pattern σ := .alt r .eps

def Pattern.plus (r : Pattern σ) : Pattern σ := .seq r (.star r)

/-- The first of several alternatives; none matches nothing. -/
def alts : List (Pattern σ) → Pattern σ
  | [] => .set fun _ => false
  | r :: rs => .alt r (alts rs)

/-- What the match leaves, if there is one. -/
def firstRest (r : Pattern σ) (s : List σ) : Option (List σ) := (rests r s).head?

/-- The successive matches from the start; they stop where none consumes anything. -/
def findAll (r : Pattern σ) (s : List σ) : List (List σ) :=
  match firstRest r s with
  | none => []
  | some t =>
    if t.length < s.length then s.take (s.length - t.length) :: findAll r t else []
termination_by s.length

/-! ## The first match of each form -/

@[simp] theorem firstRest_eps (s : List σ) : firstRest .eps s = some s := rfl

@[simp] theorem firstRest_set_nil (p : σ → Bool) : firstRest (.set p) [] = none := rfl

@[simp] theorem firstRest_set_cons (p : σ → Bool) (x : σ) (t : List σ) :
    firstRest (.set p) (x :: t) = if p x then some t else none := by
  simp only [firstRest, rests]
  split <;> rfl

@[simp] theorem firstRest_notAhead_nil (p : σ → Bool) : firstRest (.notAhead p) [] = some [] := rfl

@[simp] theorem firstRest_notAhead_cons (p : σ → Bool) (x : σ) (t : List σ) :
    firstRest (.notAhead p) (x :: t) = if p x then none else some (x :: t) := by
  simp only [firstRest, rests]
  split <;> rfl

theorem firstRest_alt (r r' : Pattern σ) (s : List σ) :
    firstRest (.alt r r') s = (firstRest r s).or (firstRest r' s) := by
  simp [firstRest, rests, List.head?_append]

@[simp] theorem firstRest_alts_nil (s : List σ) : firstRest (alts []) s = none := by
  cases s <;> rfl

@[simp] theorem firstRest_alts_cons (r : Pattern σ) (rs : List (Pattern σ)) (s : List σ) :
    firstRest (alts (r :: rs)) s = (firstRest r s).or (firstRest (alts rs) s) :=
  firstRest_alt r (alts rs) s

/-- A sequence matches at the first way of its left part that the right part accepts. -/
theorem firstRest_seq (r r' : Pattern σ) (s : List σ) :
    firstRest (.seq r r') s = (rests r s).findSome? (firstRest r') := by
  rw [firstRest, rests, List.head?_flatMap]
  rfl

theorem firstRest_set_seq (p : σ → Bool) (r : Pattern σ) (s : List σ) :
    firstRest (.seq (.set p) r) s =
      match s with
      | [] => none
      | x :: t => if p x then firstRest r t else none := by
  rw [firstRest_seq]
  cases s with
  | nil => rfl
  | cons x t =>
    simp only [rests]
    split <;> simp

/-- An optional symbol is given back when the rest fails after it. -/
theorem firstRest_opt_seq (p : σ → Bool) (r : Pattern σ) (s : List σ) :
    firstRest (.seq (.opt (.set p)) r) s =
      (firstRest (.seq (.set p) r) s).or (firstRest r s) := by
  simp [firstRest_seq, Pattern.opt, rests, List.findSome?_append]

/-! ## Greedy runs of a set -/

/-- What the runs of `p` at the start can leave, the longest run first. -/
@[simp] def runs (p : σ → Bool) : List σ → List (List σ)
  | [] => [[]]
  | x :: t => if p x then runs p t ++ [x :: t] else [x :: t]

theorem rounds_set (p : σ → Bool) (s : List σ) (n : Nat) (hn : s.length ≤ n) :
    rounds (rests (.set p)) n s = runs p s := by
  induction s generalizing n with
  | nil => cases n <;> simp [rounds, rests, runs]
  | cons x t ih =>
    obtain ⟨n, rfl⟩ : ∃ m, n = m + 1 := ⟨n - 1, by simp at hn; omega⟩
    simp only [rounds, rests, runs]
    split
    · simp [ih n (by simpa using hn)]
    · simp

theorem rests_star_set (p : σ → Bool) (s : List σ) : rests (.star (.set p)) s = runs p s :=
  rounds_set p s s.length (Nat.le_refl _)

theorem runs_head (p : σ → Bool) (s : List σ) : (runs p s).head? = some (s.dropWhile p) := by
  induction s with
  | nil => rfl
  | cons x t ih =>
    simp only [runs, List.dropWhile_cons]
    split
    · rw [List.head?_append, ih]
      rfl
    · rfl

theorem firstRest_star_set (p : σ → Bool) (s : List σ) :
    firstRest (.star (.set p)) s = some (s.dropWhile p) := by
  rw [firstRest, rests_star_set, runs_head]

/-- A run that must be non-empty. -/
theorem firstRest_plus_set (p : σ → Bool) (s : List σ) :
    firstRest (.plus (.set p)) s =
      match s with
      | [] => none
      | x :: t => if p x then some (t.dropWhile p) else none := by
  simp only [Pattern.plus, firstRest_set_seq, firstRest_star_set]

theorem firstRest_star_seq (p : σ → Bool) (r : Pattern σ) (s : List σ) :
    firstRest (.seq (.star (.set p)) r) s = (runs p s).findSome? (firstRest r) := by
  rw [firstRest_seq, rests_star_set]

theorem firstRest_plus_seq (p : σ → Bool) (r : Pattern σ) (s : List σ) :
    firstRest (.seq (.plus (.set p)) r) s =
      match s with
      | [] => none
      | x :: t => if p x then (runs p t).findSome? (firstRest r) else none := by
  rw [firstRest_seq]
  cases s with
  | nil => rfl
  | cons x t =>
    simp only [Pattern.plus, rests, List.flatMap]
    split
    · simp [← rests_star_set, rests]
    · simp

@[simp] theorem findSome_runs_nil {β : Type} (p : σ → Bool) (f : List σ → Option β) :
    (runs p []).findSome? f = f [] := by
  simp [runs]

@[simp] theorem findSome_runs_cons {β : Type} (p : σ → Bool) (f : List σ → Option β) (x : σ)
    (t : List σ) : (runs p (x :: t)).findSome? f =
      if p x then ((runs p t).findSome? f).or (f (x :: t)) else f (x :: t) := by
  simp only [runs]
  split <;> simp [List.findSome?_append]

theorem findSome_runs_total {β : Type} (p : σ → Bool) (f : List σ → β) (s : List σ) :
    (runs p s).findSome? (fun t => some (f t)) = some (f (s.dropWhile p)) := by
  induction s with
  | nil => rfl
  | cons x t ih =>
    rw [findSome_runs_cons, List.dropWhile_cons]
    split
    · rw [ih]
      rfl
    · rfl

/-- A non-empty run of one set, then a run of another: neither gives anything back. -/
theorem firstRest_plus_star (p q : σ → Bool) (s : List σ) :
    firstRest (.seq (.plus (.set p)) (.star (.set q))) s =
      match s with
      | [] => none
      | x :: t => if p x then some ((t.dropWhile p).dropWhile q) else none := by
  have hf : firstRest (.star (.set q)) = fun t => some (t.dropWhile q) := by
    funext t
    exact firstRest_star_set q t
  rw [firstRest_plus_seq, hf]
  simp only [findSome_runs_total]

/-! ## Runs that give something back -/

/-- What follows the last symbol in `q` of the run of `p`. -/
def afterLast (p q : σ → Bool) : List σ → Option (List σ)
  | [] => none
  | x :: t => if p x then (afterLast p q t).or (if q x then some t else none) else none

/-- The last symbol of the run of `p` and what follows it. -/
def fromLast (p : σ → Bool) : List σ → Option (List σ)
  | [] => none
  | x :: t => if p x then (fromLast p t).or (some (x :: t)) else none

theorem fromLast_suffix (p : σ → Bool) (s u : List σ) (h : fromLast p s = some u) : u <:+ s := by
  induction s with
  | nil => simp [fromLast] at h
  | cons x t ih =>
    simp only [fromLast] at h
    split at h
    · cases ht : fromLast p t with
      | some v =>
        simp only [ht, Option.some_or, Option.some.injEq] at h
        exact (ih (by rw [ht, h])).trans (List.suffix_cons x t)
      | none =>
        simp only [ht, Option.none_or, Option.some.injEq] at h
        exact h ▸ List.suffix_refl _
    · contradiction

theorem afterLast_eq_none (p q : σ → Bool) (hq : ∀ x, q x = true → p x = true) (s : List σ)
    (h : afterLast p q s = none) : s.dropWhile q = s := by
  cases s with
  | nil => rfl
  | cons x t =>
    cases hx : q x with
    | false => simp [hx]
    | true => simp [afterLast, hx, hq x hx] at h

/-- The run before a tail of `q` gives back only up to its last symbol in `q`. -/
theorem firstRest_star_plus (p q : σ → Bool) (hq : ∀ x, q x = true → p x = true) (s : List σ) :
    firstRest (.seq (.star (.set p)) (.plus (.set q))) s = afterLast p q s := by
  rw [firstRest_star_seq]
  induction s with
  | nil => rfl
  | cons x t ih =>
    rw [findSome_runs_cons, ih, firstRest_plus_set, afterLast]
    simp only
    split
    · cases ht : afterLast p q t with
      | some u => rfl
      | none => rw [Option.none_or, Option.none_or, afterLast_eq_none p q hq t ht]
    · rename_i hp
      rw [if_neg fun h => hp (hq x h)]

/-- A run that may not be followed by other than `p` gives back its last symbol, unless it
ends the input. -/
theorem findSome_runs_notAhead (p : σ → Bool) (t : List σ) :
    (runs p t).findSome? (firstRest (.notAhead fun x => !p x)) =
      if t.dropWhile p = [] then some [] else fromLast p t := by
  induction t with
  | nil => rfl
  | cons x t ih =>
    rw [findSome_runs_cons, ih, List.dropWhile_cons, firstRest_notAhead_cons]
    cases hp : p x with
    | true =>
      simp only [↓reduceIte, Bool.not_true, Bool.false_eq_true, fromLast, hp]
      split <;> simp
    | false => simp [fromLast, hp]

/-! ## Successive matches -/

theorem rounds_suffix (f : List σ → List (List σ)) (hf : ∀ s, ∀ t ∈ f s, t <:+ s) (n : Nat)
    (s : List σ) : ∀ t ∈ rounds f n s, t <:+ s := by
  induction n generalizing s with
  | zero => simp [rounds]
  | succ n ih =>
    intro t ht
    simp only [rounds, List.mem_append, List.mem_flatMap, List.mem_filter,
      List.mem_singleton] at ht
    rcases ht with ⟨u, ⟨hu, -⟩, ht⟩ | rfl
    · exact (ih u t ht).trans (hf s u hu)
    · exact List.suffix_refl _

/-- A match consumes a prefix. -/
theorem rests_suffix (r : Pattern σ) (s : List σ) : ∀ t ∈ rests r s, t <:+ s := by
  induction r generalizing s with
  | eps => simp [rests]
  | set p =>
    cases s with
    | nil => simp [rests]
    | cons x s =>
      intro t ht
      simp only [rests] at ht
      split at ht
      · simp only [List.mem_singleton] at ht
        exact ht ▸ List.suffix_cons x s
      · contradiction
  | seq r r' ih ih' =>
    intro t ht
    simp only [rests, List.mem_flatMap] at ht
    obtain ⟨u, hu, ht⟩ := ht
    exact (ih' u t ht).trans (ih s u hu)
  | alt r r' ih ih' =>
    intro t ht
    simp only [rests, List.mem_append] at ht
    exact ht.elim (ih s t) (ih' s t)
  | star r ih => exact rounds_suffix _ ih _ s
  | notAhead p =>
    cases s with
    | nil => simp [rests]
    | cons x s =>
      intro t ht
      simp only [rests] at ht
      split at ht
      · contradiction
      · simp only [List.mem_singleton] at ht
        exact ht ▸ List.suffix_refl _

theorem firstRest_suffix (r : Pattern σ) (s t : List σ) (h : firstRest r s = some t) : t <:+ s :=
  rests_suffix r s t (List.mem_of_mem_head? h)

theorem findAll_nil (r : Pattern σ) : findAll r [] = [] := by
  rw [findAll]
  split <;> simp

/-- A match that consumes something comes first. -/
theorem findAll_of_rest (r : Pattern σ) (m t : List σ) (h : firstRest r (m ++ t) = some t)
    (hm : m ≠ []) : findAll r (m ++ t) = m :: findAll r t := by
  have hlen : t.length < (m ++ t).length := by
    have := List.length_pos_iff.mpr hm
    simp only [List.length_append]
    omega
  rw [findAll, h]
  simp only [if_pos hlen]
  simp

end Mlxd.Regex
