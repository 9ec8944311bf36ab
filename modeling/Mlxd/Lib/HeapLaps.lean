import Mlxd.Lib.BinaryHeap

/-!
# Heaps that outgrow their positions

An entry below all others that is pushed and taken out again leaves the array as it was,
with what was pushed after it at the end. So an array can be grown to any size entry by
entry. At `2 ^ d` entries, with positions modulo `2 ^ (d + 1)`, the right child of the last
position is the root, and an entry that goes down the leftmost path goes round for ever.
-/
namespace Mlxd.BinaryHeap

variable {α : Type} {less : α → α → Bool} {w : Nat}

/-! ## Where an entry goes -/

theorem pick_right {h : Array α} {b c : Nat} (hb : b < h.size) (hc : c < h.size)
    (hlt : less h[c] h[b] = true) : pick less h b c = c := by
  rw [pick, dif_pos ⟨hb, hc⟩, if_pos hlt]

theorem pick_left {h : Array α} {b c : Nat}
    (hge : ∀ (hb : b < h.size) (hc : c < h.size), less h[c] h[b] = false) :
    pick less h b c = b := by
  rw [pick]
  split
  · rename_i hbc
    rw [hge hbc.1 hbc.2]
    rfl
  · rfl

/-- An entry that is not less than its parent stays at the end. -/
theorem push_eq (h : Array α) (x : α)
    (hx : ∀ _ : 0 < h.size, less x h[(h.size - 1) / 2] = false) : push less h x = h.push x := by
  rw [push]
  cases hn : h.size with
  | zero => rfl
  | succ n =>
    have hge := hx (by omega)
    rw [siftUp]
    split
    · simp only [← hn, Array.getElem_push_eq]
      rw [Array.getElem_push_lt (by omega), hge]
      rfl
    · rfl

/-- A child that is less than its parent and its sibling is the least of the three. -/
theorem smallest_eq_child (hasymm : ∀ a b, less a b = true → less b a = false) {h : Array α}
    {p i : Nat} (hi : i < h.size) (hpos : 0 < i) (hip : (i - 1) / 2 = p) (hw : 2 * p + 2 < w)
    (hlt : ∀ hp : p < h.size, less h[i] h[p] = true)
    (hs : ∀ s (hs : s < h.size), 0 < s → (s - 1) / 2 = p → s ≠ i → less h[i] h[s] = true) :
    smallest w less h p = i := by
  have hp : p < h.size := by omega
  rw [smallest, Nat.mod_eq_of_lt hw, Nat.mod_eq_of_lt (show 2 * p + 1 < w by omega)]
  obtain rfl | rfl : i = 2 * p + 1 ∨ i = 2 * p + 2 := by omega
  · rw [pick_right hp hi (hlt hp)]
    exact pick_left fun _ hr => hasymm _ _ (hs _ hr (by omega) (by omega) (by omega))
  · by_cases hleft : pick less h p (2 * p + 1) = p
    · rw [hleft, pick_right hp hi (hlt hp)]
    · have hl : 2 * p + 1 < h.size := by omega
      have hpick : pick less h p (2 * p + 1) = 2 * p + 1 := by
        rw [pick] at hleft ⊢
        split at hleft
        · rename_i hbc
          split at hleft
          · rename_i hless
            rw [dif_pos hbc, if_pos hless]
          · exact absurd rfl hleft
        · exact absurd rfl hleft
      rw [hpick, pick_right hl hi (hs _ hl (by omega) (by omega) (by omega))]

/-! ## Up and down the same way -/

section Undo

variable {A : Array α} {low g : α}

/-- `low` has come up from the end to `i`, and nothing above or beside `i` has changed. -/
structure Climbed (A : Array α) (low : α) (h : Array α) (i : Nat) : Prop where
  size : h.size = A.size + 1
  here : ∀ hi : i < h.size, h[i] = low
  onPath : i = A.size ∨ 2 * i + 1 ≤ A.size
  keep : ∀ j (hj : j < A.size) (hjs : j < h.size), 0 < i → j ≤ i + 1 → j ≠ i → h[j] = A[j]

theorem Climbed.lt {h : Array α} {i : Nat} (c : Climbed A low h i) : i < h.size := by
  have hsize := c.size
  have hpath := c.onPath
  omega

theorem Climbed.swap {h : Array α} {i p : Nat} (c : Climbed A low h i) (hi : 0 < i)
    (hip : (i - 1) / 2 = p) (hp : p < h.size) : Climbed A low (h.swap i p c.lt hp) p := by
  have hsize := c.size
  have hlt := c.lt
  refine ⟨by simpa using hsize, fun _ => ?_, by omega, fun j hj hjs hpos hle hne => ?_⟩
  · rw [Array.getElem_swap_right]
    exact c.here c.lt
  · rw [Array.getElem_swap_of_ne (by omega) hne]
    exact c.keep j hj (by omega) hi (by omega) (by omega)

variable (hasymm : ∀ a b, less a b = true → less b a = false)
  (hstrict : ∀ j (_ : 0 < j) (hj : j < A.size) (hp : (j - 1) / 2 < A.size),
    less A[(j - 1) / 2] A[j] = true)
  (hlow : ∀ j (hj : j < A.size), less low A[j] = true)
  (hg : ∀ j (hj : j < A.size), less A[j] g = true)
  (hw : 2 * A.size + 2 < w)

include hasymm hstrict hg hw

/-- The entry that came down from `p` to `i` goes up again: it is less than its sibling. -/
theorem Climbed.undo {h B : Array α} {i p f : Nat} (c : Climbed A low h i) (hi : 0 < i)
    (hip : (i - 1) / 2 = p) (hp : p < h.size) (hf : siftDown w less f (h.set i g c.lt) i = some B) :
    siftDown w less (f + 1) ((h.swap i p c.lt hp).set p g (by simpa using hp)) p = some B := by
  have hsize := c.size
  have hlt := c.lt
  have hparent : h[p] = A[p] := c.keep p (by omega) hp hi (by omega) (by omega)
  have hps : p < (h.swap i p hlt hp).size := by simpa using hp
  have his : i < (h.swap i p hlt hp).size := by simpa using hlt
  have hsmall : smallest w less ((h.swap i p hlt hp).set p g hps) p = i := by
    refine smallest_eq_child hasymm (by simpa using hlt) hi hip (by omega) (fun _ => ?_)
      fun s hs hpos hsp hne => ?_
    · rw [Array.getElem_set_self, Array.getElem_set_ne hps his (by omega),
        Array.getElem_swap_left, hparent]
      exact hg _ _
    · have hss : s < h.size := by simpa using hs
      have hss' : s < (h.swap i p hlt hp).size := by simpa using hs
      have hs' : s < A.size := by
        have := c.onPath
        omega
      rw [Array.getElem_set_ne hps his (by omega), Array.getElem_set_ne hps hss' (by omega),
        Array.getElem_swap_left, Array.getElem_swap_of_ne (by omega) (by omega), hparent,
        c.keep s hs' hss hi (by omega) hne]
      simpa only [hsp] using hstrict s hpos hs' (by omega)
  have hmoves : Moves w less ((h.swap i p hlt hp).set p g hps) p :=
    ⟨by simpa using hp, by rw [hsmall]; simpa using hlt, by rw [hsmall]; omega⟩
  have hback : ((h.swap i p hlt hp).set p g hps).swap p i (by simpa using hp)
      (by simpa using hlt) = h.set i g hlt := by
    refine Array.ext (by simp) fun j _ hj => ?_
    have hjh : j < h.size := by simpa using hj
    have hjs : j < (h.swap i p hlt hp).size := by simpa using hjh
    rw [Array.getElem_swap]
    by_cases hjp : j = p
    · subst hjp
      rw [if_pos rfl, Array.getElem_set_ne hps his (by omega), Array.getElem_swap_left,
        Array.getElem_set_ne hlt hjh (by omega)]
    · by_cases hji : j = i
      · subst hji
        rw [if_neg hjp, if_pos rfl, Array.getElem_set_self, Array.getElem_set_self]
      · rw [if_neg hjp, if_neg hji, Array.getElem_set_ne hps hjs (Ne.symm hjp),
          Array.getElem_set_ne hlt hjh (Ne.symm hji), Array.getElem_swap_of_ne hji hjp]
  rw [siftDown, dif_pos hmoves]
  simp only [hsmall, hback]
  exact hf

include hlow

/-- All the way up and down again, `g` ends where `low` began. -/
theorem siftUp_undo (n : Nat) {h B : Array α} {i f : Nat} (hn : i ≤ n) (c : Climbed A low h i)
    (hf : siftDown w less f (h.set i g c.lt) i = some B) :
    ∃ f' h0, siftDown w less f' ((siftUp less n h i).set 0 g h0) 0 = some B ∧
      (siftUp less n h i)[0] = low := by
  induction n generalizing h i f with
  | zero =>
    obtain rfl := Nat.le_zero.mp hn
    exact ⟨f, c.lt, hf, c.here c.lt⟩
  | succ n ih =>
    have hsize := c.size
    have hlt := c.lt
    by_cases hi : 0 < i
    · have hp : (i - 1) / 2 < h.size := by omega
      have hparent : h[(i - 1) / 2] = A[(i - 1) / 2] :=
        c.keep _ (by omega) hp hi (by omega) (by omega)
      rw [siftUp, dif_pos ⟨hi, hlt⟩, if_pos (by rw [c.here hlt, hparent]; exact hlow _ _)]
      exact ih (by omega) (c.swap hi rfl hp) (c.undo hasymm hstrict hg hw hi rfl hp hf)
    · obtain rfl : i = 0 := by omega
      rw [siftUp, dif_neg (fun h => hi h.1)]
      exact ⟨f, hlt, hf, c.here hlt⟩

omit hasymm hstrict hlow hg hw

theorem moveLast_push (h : Array α) (x : α) (h0 : 0 < h.size) (hpos : 0 < (h.push x).size) :
    moveLast (h.push x) hpos = h.set 0 x h0 := by
  refine Array.ext (by simp) fun j hj _ => ?_
  have hjh : j < h.size := by simpa using hj
  simp only [moveLast, Array.getElem_pop, Array.getElem_set, Array.size_push, Nat.add_sub_cancel,
    Array.getElem_push_eq, Array.getElem_push_lt hjh]

include hasymm hg

/-- The later push stays at the end, since it is greater than everything before it. -/
theorem push_push (hlg : less low g = true) :
    push less (push less A low) g = (push less A low).push g := by
  refine push_eq _ _ fun hpos => hasymm _ _ ?_
  have hmem : (push less A low)[((push less A low).size - 1) / 2] ∈ (push less A low).toList :=
    Array.getElem_mem_toList _
  rw [(push_perm less A low).mem_iff, List.mem_cons] at hmem
  rcases hmem with he | hmem
  · rw [he]
    exact hlg
  · obtain ⟨j, hj, he⟩ := Array.mem_iff_getElem.mp (Array.mem_toList_iff.mp hmem)
    rw [← he]
    exact hg j hj

include hstrict hlow hw

/-- Pushing `low` and `g` and taking `low` out leaves `g` at the end. -/
theorem popRest_push (hlg : less low g = true)
    (hpos : 0 < (push less (push less A low) g).size) :
    (push less (push less A low) g)[0] = low ∧
      popRest w less (push less (push less A low) g) hpos = some (A.push g) := by
  have hends : siftDown w less 1 ((A.push low).set A.size g (by simp)) A.size =
      some (A.push g) := by
    have hset : (A.push low).set A.size g (by simp) = A.push g := by
      refine Array.ext (by simp) fun j hj _ => ?_
      simp only [Array.getElem_set, Array.getElem_push]
      split_ifs <;> first | rfl | (simp at hj; omega)
    have hleaf : smallest w less (A.push g) A.size = A.size := by
      rw [smallest, Nat.mod_eq_of_lt (show 2 * A.size + 2 < w from hw),
        Nat.mod_eq_of_lt (show 2 * A.size + 1 < w by omega),
        pick_left fun _ hc => by simp at hc; omega, pick_left fun _ hc => by simp at hc; omega]
    rw [hset, siftDown, dif_neg fun hs => hs.2.2 hleaf]
  have hclimbed : Climbed A low (A.push low) A.size :=
    ⟨by simp, fun _ => by simp, .inl rfl, fun j hj _ _ _ _ => Array.getElem_push_lt hj⟩
  obtain ⟨f, h0, hf, hroot⟩ :=
    siftUp_undo hasymm hstrict hlow hg hw A.size (Nat.le_refl _) hclimbed hends
  change 0 < (push less A low).size at h0
  change siftDown w less f ((push less A low).set 0 g h0) 0 = _ at hf
  have hpush := push_push hasymm hg hlg
  simp only [hpush]
  refine ⟨by rw [Array.getElem_push_lt h0]; exact hroot, ?_⟩
  have hmove := moveLast_push (push less A low) g h0 (by simp)
  rw [← hmove] at hf
  cases hrest : popRest w less ((push less A low).push g) (by simp) with
  | none => rw [popRest_never _ hrest] at hf; contradiction
  | some rest => rw [siftDown_det hf hrest]

end Undo

/-! ## Round the leftmost path -/

theorem path_inj {j k : Nat} (h : 2 ^ j - 1 = 2 ^ k - 1) : j = k := by
  have hj := Nat.pow_pos (n := j) (show 0 < 2 by omega)
  have hk := Nat.pow_pos (n := k) (show 0 < 2 by omega)
  exact Nat.pow_right_injective (Nat.le_refl 2) (show 2 ^ j = 2 ^ k by omega)

theorem side_ne_path {j : Nat} (hj : 0 < j) (k : Nat) : 2 ^ j ≠ 2 ^ k - 1 := by
  obtain ⟨j, rfl⟩ : ∃ i, j = i + 1 := ⟨j - 1, by omega⟩
  have hpos := Nat.pow_pos (n := j) (show 0 < 2 by omega)
  cases k with
  | zero => rw [pow_succ]; omega
  | succ k =>
    have hk := Nat.pow_pos (n := k) (show 0 < 2 by omega)
    rw [pow_succ, pow_succ]
    omega

/-- The leftmost path of an array of `2 ^ d` entries is low but for its `k`-th entry, and the
siblings of its entries are high. -/
structure Rung (Low High : α → Prop) (d : Nat) (h : Array α) (k : Nat) : Prop where
  size : h.size = 2 ^ d
  le : k ≤ d
  path : ∀ j (hj : 2 ^ j - 1 < h.size), j ≤ d → j ≠ k → Low h[2 ^ j - 1]
  side : ∀ j (hj : 2 ^ j < h.size), 0 < j → High h[2 ^ j]

section Laps

variable {Low High : α → Prop} {d k : Nat} {h : Array α}

theorem Rung.lt (o : Rung Low High d h k) {j : Nat} (hj : j ≤ d) : 2 ^ j - 1 < h.size := by
  have hle : 2 ^ j ≤ 2 ^ d := Nat.pow_le_pow_right (by omega) hj
  have hpos := Nat.pow_pos (n := j) (show 0 < 2 by omega)
  rw [o.size]
  omega

theorem Rung.swap (o : Rung Low High d h k) {k' : Nat} (hk' : k' ≤ d) :
    Rung Low High d (h.swap (2 ^ k - 1) (2 ^ k' - 1) (o.lt o.le) (o.lt hk')) k' := by
  refine ⟨by simpa using o.size, hk', fun j _ hjd hne => ?_, fun j hj hpos => ?_⟩
  · rw [Array.getElem_swap]
    split
    · rename_i hjk
      exact o.path k' (o.lt hk') hk' fun hk => hne ((path_inj hjk).trans hk.symm)
    · rename_i hjk
      rw [if_neg fun he => hne (path_inj he)]
      exact o.path j (o.lt hjd) hjd fun he => hjk (by rw [he])
  · rw [Array.getElem_swap_of_ne (side_ne_path hpos k) (side_ne_path hpos k')]
    exact o.side j (by simpa using hj) hpos

/-- What goes up the leftmost path moves every entry of it one down. -/
theorem siftUp_rung (n : Nat) (o : Rung Low High d h k) (hn : k ≤ n) {x : α}
    (hlow : ∀ y, Low y → less x y = true) (hx : ∀ hk : 2 ^ k - 1 < h.size, h[2 ^ k - 1] = x) :
    Rung Low High d (siftUp less n h (2 ^ k - 1)) 0 := by
  induction n generalizing h k with
  | zero =>
    obtain rfl := Nat.le_zero.mp hn
    exact o
  | succ n ih =>
    cases k with
    | zero =>
      rw [siftUp, dif_neg (by simp)]
      exact o
    | succ k =>
      have hk : k ≤ d := Nat.le_of_succ_le o.le
      have hpos := Nat.pow_pos (n := k) (show 0 < 2 by omega)
      have hparent : (2 ^ (k + 1) - 1 - 1) / 2 = 2 ^ k - 1 := by
        rw [pow_succ]
        omega
      have hcur := o.lt o.le
      have hup := o.lt hk
      have hless : less h[2 ^ (k + 1) - 1] h[2 ^ k - 1] = true := by
        rw [hx]
        exact hlow _ (o.path k hup hk (by omega))
      rw [siftUp, dif_pos ⟨by rw [pow_succ]; omega, o.lt o.le⟩]
      simp only [hparent, hless, ↓reduceIte]
      exact ih (o.swap hk) (by omega) fun _ => by rw [Array.getElem_swap_right, hx]

/-- Going down the leftmost path never ends: its last entry has the root for a child. -/
theorem siftDown_laps (hasymm : ∀ a b, less a b = true → less b a = false) (n : Nat)
    (o : Rung Low High d h k) (hd : 0 < d) {x : α}
    (hlow : ∀ y, Low y → less y x = true) (hside : ∀ y z, Low y → High z → less y z = true)
    (hx : ∀ hk : 2 ^ k - 1 < h.size, h[2 ^ k - 1] = x) :
    siftDown (2 ^ (d + 1)) less n h (2 ^ k - 1) = none := by
  induction n generalizing h k with
  | zero => rfl
  | succ n ih =>
    have hsize := o.size
    have hk := o.le
    -- the entry's least child is the next of the path, and from the last one the root
    obtain ⟨k', hk', hne, hleast⟩ : ∃ k' ≤ d, k' ≠ k ∧
        smallest (2 ^ (d + 1)) less h (2 ^ k - 1) = 2 ^ k' - 1 := by
      have hpos := Nat.pow_pos (n := k) (show 0 < 2 by omega)
      by_cases hkd : k < d
      · refine ⟨k + 1, hkd, by omega, ?_⟩
        have hpow : 2 ^ (k + 1) ≤ 2 ^ d := Nat.pow_le_pow_right (by omega) hkd
        have hdouble : 2 ^ (d + 1) = 2 * 2 ^ d := by rw [pow_succ]; omega
        have hdown := o.lt hkd
        have hnext : Low h[2 ^ (k + 1) - 1] := o.path (k + 1) hdown hkd (by omega)
        rw [pow_succ] at hpow
        refine smallest_eq_child hasymm (o.lt hkd) (by rw [pow_succ]; omega)
          (by rw [pow_succ]; omega) (by omega) (fun _ => ?_) fun s hs hs0 hsp hsne => ?_
        · rw [hx]
          exact hlow _ hnext
        · obtain rfl : s = 2 ^ (k + 1) := by
            rw [pow_succ] at hsne ⊢
            omega
          exact hside _ _ hnext (o.side _ hs (by omega))
      · obtain rfl : k = d := by omega
        refine ⟨0, Nat.zero_le _, by omega, ?_⟩
        have htop := o.lt (Nat.zero_le k)
        have hroot : Low h[2 ^ 0 - 1] := o.path 0 htop (Nat.zero_le _) (by omega)
        have hwrap : (2 * (2 ^ k - 1) + 2) % 2 ^ (k + 1) = 2 ^ 0 - 1 := by
          rw [show 2 * (2 ^ k - 1) + 2 = 2 ^ (k + 1) by rw [pow_succ]; omega, Nat.mod_self]
          rfl
        have hleaf : pick less h (2 ^ k - 1) (2 * (2 ^ k - 1) + 1) = 2 ^ k - 1 :=
          pick_left fun _ hc => by omega
        rw [smallest, hwrap, Nat.mod_eq_of_lt (show 2 * (2 ^ k - 1) + 1 < 2 ^ (k + 1) by
          rw [pow_succ]; omega), hleaf]
        refine pick_right (o.lt hk) (o.lt (Nat.zero_le _)) ?_
        rw [hx]
        exact hlow _ hroot
    have hmoves : Moves (2 ^ (d + 1)) less h (2 ^ k - 1) :=
      ⟨o.lt hk, by rw [hleast]; exact o.lt hk', by rw [hleast]; exact fun he => hne (path_inj he)⟩
    rw [siftDown, dif_pos hmoves]
    simp only [hleast]
    exact ih (o.swap hk') fun _ => by rw [Array.getElem_swap_right, hx]

/-- An array that is one entry short of `2 ^ d`, with a low leftmost path: once something has
come and gone over it, the last entry never comes to rest. -/
theorem popRest_laps {A : Array α} {low g : α}
    (hasymm : ∀ a b, less a b = true → less b a = false) (hd : 0 < d) (hsize : A.size + 1 = 2 ^ d)
    (hpath : ∀ j (hj : 2 ^ j - 1 < A.size), Low A[2 ^ j - 1])
    (hsides : ∀ j (hj : 2 ^ j < A.size), 0 < j → High A[2 ^ j])
    (hlow : ∀ y, Low y → less low y = true)
    (hg : ∀ j (hj : j < A.size), less A[j] g = true) (hg' : ∀ y, Low y → less y g = true)
    (hside : ∀ y z, Low y → High z → less y z = true) (hlg : less low g = true)
    (hpos : 0 < (push less (push less A low) g).size) :
    popRest (2 ^ (d + 1)) less (push less (push less A low) g) hpos = none := by
  have hA : A.size = 2 ^ d - 1 := by omega
  have hrung : Rung Low High d (A.push low) d := by
    refine ⟨by simp [hsize], Nat.le_refl _, fun j hj hjd hne => ?_, fun j hj hj0 => ?_⟩
    · have hlt : 2 ^ j - 1 < A.size := by
        have hne' : 2 ^ j - 1 ≠ 2 ^ d - 1 := fun he => hne (path_inj he)
        simp only [Array.size_push] at hj
        omega
      rw [Array.getElem_push_lt hlt]
      exact hpath j hlt
    · have hlt : 2 ^ j < A.size := by
        have hne' : 2 ^ j ≠ 2 ^ d - 1 := side_ne_path hj0 d
        simp only [Array.size_push] at hj
        omega
      rw [Array.getElem_push_lt hlt]
      exact hsides j hlt hj0
  have hrung₀ : Rung Low High d (push less A low) 0 := by
    have hup := siftUp_rung A.size hrung (by rw [hA]; exact Nat.le_sub_one_of_lt Nat.lt_two_pow_self)
      hlow fun _ => by simp [← hA]
    rwa [← hA, ← push] at hup
  have h0 : 0 < (push less A low).size := hrung₀.lt (Nat.zero_le d)
  have hrung₁ : Rung Low High d ((push less A low).set 0 g h0) 0 := by
    refine ⟨by simpa using hrung₀.size, Nat.zero_le _, fun j hj hjd hne => ?_, fun j hj hj0 => ?_⟩
    · rw [Array.getElem_set_ne h0 (hrung₀.lt hjd) fun he => hne (path_inj he.symm)]
      exact hrung₀.path j _ hjd hne
    · have hlt : 2 ^ j < (push less A low).size := by simpa using hj
      rw [Array.getElem_set_ne h0 hlt (side_ne_path hj0 0).symm]
      exact hrung₀.side j hlt hj0
  have hpush := push_push hasymm hg hlg
  simp only [hpush, popRest, moveLast_push _ _ h0]
  exact siftDown_laps hasymm _ hrung₁ hd hg' hside fun _ => by simp

end Laps

end Mlxd.BinaryHeap
