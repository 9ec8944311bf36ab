import Mathlib.Data.Finset.Card
import Mathlib.Data.Finset.Prod
import Mathlib.Data.List.Perm.Basic
import Mathlib.Data.List.Permutation
import Mathlib.Tactic.Common

/-!
# Array binary heaps

An array heap ordered by a Boolean strict comparison `less`. The two sift loops
are written as their usual index loops, and a fuel argument bounds the number of
iterations. Going up, `i` always suffices. Going down, the positions of the children
are computed modulo `w`: where they fit, the array size suffices, and where they wrap
around the loop may go on for ever. Nothing here depends on what the entries are.
-/
namespace Mlxd.BinaryHeap

variable {α : Type}

/-- `a` may stand above `b`: the comparison does not put `b` strictly first. -/
def Le (less : α → α → Bool) (a b : α) : Prop := less b a = false

/-- Move the entry at `i` up while it is less than its parent. -/
def siftUp (less : α → α → Bool) : Nat → Array α → Nat → Array α
  | 0, h, _ => h
  | n + 1, h, i =>
    if hi : 0 < i ∧ i < h.size then
      if less h[i] h[(i - 1) / 2] then
        siftUp less n (h.swap i ((i - 1) / 2)) ((i - 1) / 2)
      else h
    else h

/-- The lesser of two positions, where the second one may lie outside the array. -/
def pick (less : α → α → Bool) (h : Array α) (b c : Nat) : Nat :=
  if hc : b < h.size ∧ c < h.size then
    if less h[c] h[b] then c else b
  else b

/-- The position of the least entry among `i` and its two children, whose positions are
computed modulo `w`. -/
def smallest (w : Nat) (less : α → α → Bool) (h : Array α) (i : Nat) : Nat :=
  pick less h (pick less h i ((2 * i + 1) % w)) ((2 * i + 2) % w)

/-- The entry at `i` has a lesser child. -/
def Moves (w : Nat) (less : α → α → Bool) (h : Array α) (i : Nat) : Prop :=
  i < h.size ∧ smallest w less h i < h.size ∧ smallest w less h i ≠ i

instance (w : Nat) (less : α → α → Bool) (h : Array α) (i : Nat) :
    Decidable (Moves w less h i) := inferInstanceAs (Decidable (_ ∧ _ ∧ _))

/-- Move the entry at `i` down while a child is less than it; `none` when `n` rounds are
not enough. -/
def siftDown (w : Nat) (less : α → α → Bool) : Nat → Array α → Nat → Option (Array α)
  | 0, _, _ => none
  | n + 1, h, i =>
    if hs : Moves w less h i then
      siftDown w less n (h.swap i (smallest w less h i) hs.1 hs.2.1) (smallest w less h i)
    else some h

def push (less : α → α → Bool) (h : Array α) (x : α) : Array α :=
  siftUp less h.size (h.push x) h.size

/-- The last entry in the place of the root, before it moves down. -/
def moveLast (h : Array α) (hpos : 0 < h.size) : Array α := (h.set 0 h[h.size - 1]).pop

/-- Remove the root: the last entry takes its place and moves down. The rounds are more than
the entries have arrangements, so `none` stands for a sift that never ends. -/
def popRest (w : Nat) (less : α → α → Bool) (h : Array α) (hpos : 0 < h.size) :
    Option (Array α) :=
  siftDown w less (h.size.factorial * h.size) (moveLast h hpos) 0

/-- The first `n` rounds compute no child position of `w` or more. -/
def Fits (w : Nat) (less : α → α → Bool) : Nat → Array α → Nat → Prop
  | 0, _, _ => True
  | n + 1, h, i => 2 * i + 2 < w ∧
    ∀ hs : Moves w less h i,
      Fits w less n (h.swap i (smallest w less h i) hs.1 hs.2.1) (smallest w less h i)

def Ordered (less : α → α → Bool) (h : Array α) : Prop :=
  ∀ i (_ : 0 < i) (hi : i < h.size), Le less h[(i - 1) / 2] h[i]

/-! ## The loops only permute the entries -/

theorem siftUp_perm (less : α → α → Bool) (n : Nat) (h : Array α) (i : Nat) :
    (siftUp less n h i).toList.Perm h.toList := by
  induction n generalizing h i with
  | zero => exact List.Perm.refl _
  | succ n ih =>
    simp only [siftUp]
    split
    · split
      · exact (ih _ _).trans (Array.swap_perm _ _).toList
      · exact List.Perm.refl _
    · exact List.Perm.refl _

theorem siftDown_perm (w : Nat) (less : α → α → Bool) (n : Nat) {h h' : Array α} {i : Nat}
    (hs : siftDown w less n h i = some h') : h'.toList.Perm h.toList := by
  induction n generalizing h i with
  | zero => contradiction
  | succ n ih =>
    simp only [siftDown] at hs
    split at hs
    · exact (ih hs).trans (Array.swap_perm _ _).toList
    · rw [Option.some.inj hs]

theorem push_perm (less : α → α → Bool) (h : Array α) (x : α) :
    (push less h x).toList.Perm (x :: h.toList) := by
  refine (siftUp_perm less _ _ _).trans ?_
  simp

/-- Overwriting the head by the last entry and dropping the last removes the head. -/
theorem moveLast_perm (h : Array α) (hpos : 0 < h.size) :
    (h[0] :: (moveLast h hpos).toList).Perm h.toList := by
  obtain ⟨l⟩ := h
  cases l with
  | nil => simp at hpos
  | cons a t =>
    rcases List.eq_nil_or_concat t with rfl | ⟨u, b, rfl⟩
    · simp [moveLast]
    · simp [moveLast, List.concat_eq_append, List.dropLast_cons_of_ne_nil]
      exact @List.perm_append_comm _ [b] u

@[simp] theorem moveLast_size (h : Array α) (hpos : 0 < h.size) :
    (moveLast h hpos).size = h.size - 1 := by
  simp [moveLast]

theorem popRest_perm {w : Nat} {less : α → α → Bool} {h rest : Array α} (hpos : 0 < h.size)
    (hs : popRest w less h hpos = some rest) : (h[0] :: rest.toList).Perm h.toList :=
  ((siftDown_perm w less _ hs).cons _).trans (moveLast_perm h hpos)

/-! ## The rounds of the way down -/

section Rounds

variable {w : Nat} {less : α → α → Bool}

/-- A sift that ends gives the same array when it may go on for longer. -/
theorem siftDown_mono {n m : Nat} {h h' : Array α} {i : Nat} (hm : n ≤ m)
    (hs : siftDown w less n h i = some h') : siftDown w less m h i = some h' := by
  induction n generalizing h i m with
  | zero => contradiction
  | succ n ih =>
    obtain ⟨m, rfl⟩ : ∃ k, m = k + 1 := ⟨m - 1, by omega⟩
    simp only [siftDown] at hs ⊢
    split at hs
    · rename_i hmoves
      rw [dif_pos hmoves]
      exact ih (by omega) hs
    · rename_i hstops
      rw [dif_neg hstops]
      exact hs

theorem siftDown_det {n m : Nat} {h r r' : Array α} {i : Nat} (hr : siftDown w less n h i = some r)
    (hr' : siftDown w less m h i = some r') : r = r' :=
  Option.some.inj ((siftDown_mono (Nat.le_max_left n m) hr).symm.trans
    (siftDown_mono (Nat.le_max_right n m) hr'))

/-- One round: the entry changes places with its least child, if that is less. -/
def round (w : Nat) (less : α → α → Bool) (s : Array α × Nat) : Array α × Nat :=
  if hs : Moves w less s.1 s.2 then
    (s.1.swap s.2 (smallest w less s.1 s.2) hs.1 hs.2.1, smallest w less s.1 s.2)
  else s

theorem siftDown_eq_none (n : Nat) (h : Array α) (i : Nat) : siftDown w less n h i = none ↔
    ∀ k < n, Moves w less ((round w less)^[k] (h, i)).1 ((round w less)^[k] (h, i)).2 := by
  induction n generalizing h i with
  | zero => simp [siftDown]
  | succ n ih =>
    by_cases hmoves : Moves w less h i
    · have hround : round w less (h, i) =
          (h.swap i (smallest w less h i) hmoves.1 hmoves.2.1, smallest w less h i) :=
        dif_pos hmoves
      rw [siftDown, dif_pos hmoves, ih, ← hround]
      constructor
      · intro hall k hk
        cases k with
        | zero => exact hmoves
        | succ k => exact hall k (by omega)
      · exact fun hall k hk => hall (k + 1) (by omega)
    · rw [siftDown, dif_neg hmoves]
      exact ⟨fun hnone => by contradiction, fun hall => absurd (hall 0 (by omega)) hmoves⟩

theorem round_perm (s : Array α × Nat) : (round w less s).1.toList.Perm s.1.toList := by
  rw [round]
  split
  · exact (Array.swap_perm _ _).toList
  · exact List.Perm.refl _

theorem rounds_perm (s : Array α × Nat) (k : Nat) :
    ((round w less)^[k] s).1.toList.Perm s.1.toList := by
  induction k with
  | zero => exact List.Perm.refl _
  | succ k ih =>
    rw [Function.iterate_succ_apply']
    exact (round_perm _).trans ih

/-- A sift with more rounds than arrangements and positions repeats itself, so it never ends. -/
theorem siftDown_never {n : Nat} {h : Array α} {i : Nat} (hn : h.size.factorial * h.size < n)
    (hs : siftDown w less n h i = none) (m : Nat) : siftDown w less m h i = none := by
  classical
  rw [siftDown_eq_none] at hs ⊢
  have hmaps : ∀ k ∈ Finset.range n, (((round w less)^[k] (h, i)).1.toList,
      ((round w less)^[k] (h, i)).2) ∈
        h.toList.permutations.toFinset ×ˢ Finset.range h.size := by
    intro k hk
    have hperm := @rounds_perm α w less (h, i) k
    have hpos := (hs k (Finset.mem_range.mp hk)).1
    have hsize : ((round w less)^[k] (h, i)).1.size = h.size := by simpa using hperm.length_eq
    rw [Finset.mem_product, List.mem_toFinset, List.mem_permutations, Finset.mem_range]
    exact ⟨hperm, by omega⟩
  have hcard : (h.toList.permutations.toFinset ×ˢ Finset.range h.size).card <
      (Finset.range n).card := by
    have hle := List.toFinset_card_le h.toList.permutations
    rw [List.length_permutations, Array.length_toList] at hle
    rw [Finset.card_product, Finset.card_range, Finset.card_range]
    exact Nat.lt_of_le_of_lt (Nat.mul_le_mul_right _ hle) hn
  obtain ⟨a, ha, b, hb, hne, heq⟩ := Finset.exists_ne_map_eq_of_card_lt_of_maps_to hcard hmaps
  rw [Finset.mem_range] at ha hb
  wlog hab : a < b generalizing a b
  · exact this b hb a ha hne.symm heq.symm (by omega)
  have hrepeat : (round w less)^[a] (h, i) = (round w less)^[b] (h, i) :=
    Prod.ext (Array.toList_inj.mp (Prod.mk.inj heq).1) (Prod.mk.inj heq).2
  -- from the repeated state on, every state is one of those between the two
  refine fun k _ => ?_
  clear * - hs ha hb hab hrepeat
  induction k using Nat.strongRecOn with
  | ind k ih =>
    by_cases hk : k < n
    · exact hs k hk
    · have hback : (round w less)^[k] (h, i) = (round w less)^[k - b + a] (h, i) := by
        rw [Function.iterate_add_apply, hrepeat, ← Function.iterate_add_apply]
        congr 2
        omega
      rw [hback]
      exact ih (k - b + a) (by omega)

/-- A pop that has no result never ends, however long it may go on. -/
theorem popRest_never {h : Array α} (hpos : 0 < h.size) (hs : popRest w less h hpos = none)
    (m : Nat) : siftDown w less m (moveLast h hpos) 0 = none := by
  refine siftDown_never ?_ hs m
  obtain ⟨k, hk⟩ : ∃ k, h.size = k + 1 := ⟨h.size - 1, by omega⟩
  rw [moveLast_size, hk, Nat.add_sub_cancel, Nat.factorial_succ]
  calc k.factorial * k < k.factorial * (k + 1) :=
        Nat.mul_lt_mul_of_pos_left (Nat.lt_succ_self k) (Nat.factorial_pos k)
    _ = 1 * k.factorial * (k + 1) := by rw [Nat.one_mul]
    _ ≤ (k + 1) * k.factorial * (k + 1) :=
        Nat.mul_le_mul_right _ (Nat.mul_le_mul_right _ (Nat.succ_le_succ (Nat.zero_le k)))

theorem fits_of_size (n : Nat) (h : Array α) (i : Nat) (hw : 2 * h.size < w) (h2 : 2 < w)
    (hi : i < h.size ∨ i = 0) : Fits w less n h i := by
  induction n generalizing h i with
  | zero => trivial
  | succ n ih =>
    refine ⟨by omega, fun hs => ih _ _ (by simpa using hw) (.inl ?_)⟩
    simpa using hs.2.1

end Rounds

/-! ## The loops restore the order -/

section Order

variable {less : α → α → Bool}

/-- Every pair except the one above `i` is in order, and the children of `i`
are also in order with the parent of `i`. -/
structure UpOrder (less : α → α → Bool) (h : Array α) (i : Nat) : Prop where
  except : ∀ j (_ : 0 < j) (hj : j < h.size), j ≠ i → Le less h[(j - 1) / 2] h[j]
  grand : ∀ c (_ : 0 < i) (_ : 0 < c) (hc : c < h.size) (_ : (c - 1) / 2 = i),
    Le less h[(i - 1) / 2] h[c]

/-- Every pair except those below `i` is in order, and the children of `i` are
also in order with the parent of `i`. -/
structure DownOrder (less : α → α → Bool) (h : Array α) (i : Nat) : Prop where
  except : ∀ j (_ : 0 < j) (hj : j < h.size), (j - 1) / 2 ≠ i → Le less h[(j - 1) / 2] h[j]
  grand : ∀ c (_ : 0 < i) (_ : 0 < c) (hc : c < h.size) (_ : (c - 1) / 2 = i),
    Le less h[(i - 1) / 2] h[c]

theorem DownOrder.swap {h : Array α} {i s : Nat} (o : DownOrder less h i) (hi : i < h.size)
    (hs : s < h.size) (hpos : 0 < s) (hsp : (s - 1) / 2 = i) (hle : Le less h[s] h[i])
    (hmin : ∀ c (_ : 0 < c) (hc : c < h.size), (c - 1) / 2 = i → Le less h[s] h[c]) :
    DownOrder less (h.swap i s) s := by
  constructor
  · intro j hj hjs hne
    simp only [Array.size_swap] at hjs
    simp only [Array.getElem_swap]
    by_cases hji : j = i
    · subst j
      have hg := o.grand s hj hpos hs hsp
      simpa [show ¬ (i - 1) / 2 = i by omega, show ¬ (i - 1) / 2 = s by omega] using hg
    · by_cases hpi : (j - 1) / 2 = i
      · by_cases hjs' : j = s
        · subst j
          simpa [hpi, show ¬ s = i by omega] using hle
        · simpa [hpi, hji, hjs'] using hmin j hj hjs hpi
      · have hjs' : j ≠ s := by omega
        simpa [hpi, hne, hji, hjs'] using o.except j hj hjs hpi
  · intro c _ hc hcs hcp
    simp only [Array.size_swap] at hcs
    have hc' := o.except c hc hcs (by omega)
    simp only [hcp] at hc'
    simp only [Array.getElem_swap]
    simpa [hsp, show ¬ c = i by omega, show ¬ c = s by omega, show ¬ i = s by omega] using hc'

variable (hasymm : ∀ a b, less a b = true → less b a = false)
variable (htrans : ∀ a b c, Le less a b → Le less b c → Le less a c)

include hasymm

theorem le_refl (a : α) : Le less a a := by
  cases h : less a a with
  | false => exact h
  | true => exact hasymm a a h

theorem pick_spec (h : Array α) (b c : Nat) (hb : b < h.size) :
    ∃ hp : pick less h b c < h.size, (pick less h b c = b ∨ pick less h b c = c) ∧
      Le less h[pick less h b c] h[b] ∧ ∀ hc : c < h.size, Le less h[pick less h b c] h[c] := by
  by_cases hc : c < h.size
  · by_cases hlt : less h[c] h[b] = true
    · have hp : pick less h b c = c := by simp [pick, hb, hc, hlt]
      simp only [hp]
      exact ⟨hc, .inr trivial, hasymm _ _ hlt, fun _ => le_refl hasymm _⟩
    · have hp : pick less h b c = b := by simp [pick, hb, hc, hlt]
      simp only [hp]
      exact ⟨hb, .inl trivial, le_refl hasymm _, fun _ => by simpa [Le] using hlt⟩
  · have hp : pick less h b c = b := by simp [pick, hc]
    simp only [hp]
    exact ⟨hb, .inl trivial, le_refl hasymm _, fun h' => absurd h' hc⟩

include htrans

theorem UpOrder.swap {h : Array α} {i : Nat} (o : UpOrder less h i) (hi : 0 < i)
    (his : i < h.size) (hlt : less h[i] h[(i - 1) / 2] = true) :
    UpOrder less (h.swap i ((i - 1) / 2)) ((i - 1) / 2) := by
  constructor
  · intro j hj hjs hne
    simp only [Array.size_swap] at hjs
    simp only [Array.getElem_swap]
    by_cases hji : j = i
    · subst j
      simpa [show ¬ (i - 1) / 2 = i by omega, show ¬ i = (i - 1) / 2 by omega, Le] using hasymm _ _ hlt
    · have hup := o.except j hj hjs hji
      by_cases hpi : (j - 1) / 2 = i
      · have hg := o.grand j hi hj hjs hpi
        simpa [hpi, hji, hne] using hg
      · by_cases hpp : (j - 1) / 2 = (i - 1) / 2
        · have hle : Le less h[i] h[(i - 1) / 2] := hasymm _ _ hlt
          simp only [hpp] at hup
          simpa [hpi, hpp, hji, hne, show ¬ (i - 1) / 2 = i by omega] using htrans _ _ _ hle hup
        · simpa [hpi, hpp, hji, hne] using hup
  · intro c hp hc hcs hcp
    simp only [Array.size_swap] at hcs
    have hpair := o.except ((i - 1) / 2) hp (by omega) (by omega)
    simp only [Array.getElem_swap]
    by_cases hci : c = i
    · subst c
      simpa [show ¬ ((i - 1) / 2 - 1) / 2 = i by omega,
        show ¬ ((i - 1) / 2 - 1) / 2 = (i - 1) / 2 by omega] using hpair
    · have hc' := o.except c hc hcs hci
      simp only [hcp] at hc'
      simpa [show ¬ ((i - 1) / 2 - 1) / 2 = i by omega, hci,
        show ¬ ((i - 1) / 2 - 1) / 2 = (i - 1) / 2 by omega,
        show ¬ c = (i - 1) / 2 by omega] using htrans _ _ _ hpair hc'

theorem siftUp_ordered (n : Nat) (h : Array α) (i : Nat) (hn : i ≤ n)
    (o : UpOrder less h i) : Ordered less (siftUp less n h i) := by
  induction n generalizing h i with
  | zero => exact fun j hj hjs => o.except j hj hjs (by omega)
  | succ n ih =>
    simp only [siftUp]
    split
    · rename_i hi
      split
      · rename_i hlt
        exact ih _ _ (by omega) (o.swap hasymm htrans hi.1 hi.2 hlt)
      · rename_i hge
        intro j hj hjs
        by_cases hji : j = i
        · subst j
          simpa [Le] using hge
        · exact o.except j hj hjs hji
    · rename_i hi
      exact fun j hj hjs => o.except j hj hjs (by omega)

theorem push_ordered (h : Array α) (x : α) (ho : Ordered less h) :
    Ordered less (push less h x) := by
  apply siftUp_ordered hasymm htrans _ _ _ (Nat.le_refl _)
  constructor
  · intro j hj hjs hne
    simp only [Array.size_push] at hjs
    have hlt : j < h.size := by omega
    simpa [Array.getElem_push, hlt, show (j - 1) / 2 < h.size by omega] using ho j hj hlt
  · intro c hp hc hcs hcp
    simp only [Array.size_push] at hcs
    omega

/-- The chosen position is `i` or one of its children, and is below all three. -/
theorem smallest_spec {w : Nat} (h : Array α) (i : Nat) (hi : i < h.size) (hw : 2 * i + 2 < w) :
    ∃ hs : smallest w less h i < h.size,
      (smallest w less h i ≠ i → 0 < smallest w less h i ∧ (smallest w less h i - 1) / 2 = i) ∧
      Le less h[smallest w less h i] h[i] ∧
      ∀ c (_ : 0 < c) (hc : c < h.size), (c - 1) / 2 = i → Le less h[smallest w less h i] h[c] := by
  obtain ⟨hl, hlcase, hli, hll⟩ := pick_spec hasymm h i (2 * i + 1) hi
  obtain ⟨hr, hrcase, hrl, hrr⟩ :=
    pick_spec hasymm h (pick less h i (2 * i + 1)) (2 * i + 2) hl
  simp only [smallest, Nat.mod_eq_of_lt hw, Nat.mod_eq_of_lt (show 2 * i + 1 < w by omega)]
  refine ⟨hr, ?_, htrans _ _ _ hrl hli, ?_⟩
  · intro hne
    rcases hrcase with hrc | hrc <;> rcases hlcase with hlc | hlc <;> omega
  · intro c hc hcs hcp
    have : c = 2 * i + 1 ∨ c = 2 * i + 2 := by omega
    rcases this with rfl | rfl
    · exact htrans _ _ _ hrl (hll hcs)
    · exact hrr hcs

/-- While the child positions fit, the sift ends and restores the order. -/
theorem siftDown_ordered {w : Nat} (n : Nat) (h : Array α) (i : Nat) (hn : h.size < n + i)
    (hi : i ≤ h.size) (hf : Fits w less n h i) (o : DownOrder less h i) :
    ∃ h', siftDown w less n h i = some h' ∧ Ordered less h' := by
  induction n generalizing h i with
  | zero => omega
  | succ n ih =>
    obtain ⟨hw, hf⟩ := hf
    simp only [siftDown]
    by_cases his : i < h.size
    · obtain ⟨hs, hchild, hle, hmin⟩ := smallest_spec hasymm htrans h i his hw
      by_cases hne : smallest w less h i = i
      · rw [dif_neg (fun hs => hs.2.2 hne)]
        refine ⟨h, rfl, fun j hj hjs => ?_⟩
        by_cases hpi : (j - 1) / 2 = i
        · have := hmin j hj hjs hpi
          simpa only [hne, hpi] using this
        · exact o.except j hj hjs hpi
      · have hc := hchild hne
        rw [dif_pos ⟨his, hs, hne⟩]
        exact ih _ _ (by simp; omega) (by simp; omega) (hf ⟨his, hs, hne⟩)
          (o.swap his hs hc.1 hc.2 hle hmin)
    · rw [dif_neg (fun hs => his hs.1)]
      exact ⟨h, rfl, fun j hj hjs => o.except j hj hjs (by omega)⟩

theorem popRest_ordered {w : Nat} (h : Array α) (hpos : 0 < h.size) (ho : Ordered less h)
    (hf : Fits w less h.size (moveLast h hpos) 0) :
    ∃ rest, popRest w less h hpos = some rest ∧ Ordered less rest := by
  have hdown : DownOrder less (moveLast h hpos) 0 := by
    constructor
    · intro j hj hjs hne
      rw [moveLast_size] at hjs
      simpa [moveLast, Array.getElem_set, show ¬ 0 = (j - 1) / 2 by omega, show ¬ 0 = j by omega]
        using ho j hj (by omega)
    · intro c h0
      omega
  obtain ⟨rest, hrest, hordered⟩ :=
    siftDown_ordered hasymm htrans h.size _ 0 (by simp; omega) (Nat.zero_le _) hf hdown
  have hrounds : h.size ≤ h.size.factorial * h.size :=
    Nat.le_mul_of_pos_left _ (Nat.factorial_pos _)
  exact ⟨rest, siftDown_mono hrounds hrest, hordered⟩

/-- The root of an ordered heap is below every entry. -/
theorem root_le (h : Array α) (ho : Ordered less h) (i : Nat) (hi : i < h.size) :
    Le less h[0] h[i] := by
  induction i using Nat.strongRecOn with
  | ind i ih =>
    by_cases h0 : i = 0
    · subst i
      exact le_refl hasymm _
    · exact htrans _ _ _ (ih ((i - 1) / 2) (by omega) (by omega)) (ho i (by omega) hi)

end Order

end Mlxd.BinaryHeap
