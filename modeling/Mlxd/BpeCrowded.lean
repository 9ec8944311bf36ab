import Mlxd.Lib.HeapLaps
import Mlxd.BpeRefine

/-!
# A text whose merge never ends

Every pair of its letters waits in the heap, and behind them one symbol eats its way from
the last letter to the left. Each of its merges is popped as soon as it is pushed and leaves
one candidate more, which stays at the end of the heap. When `2 ^ 31` candidates are left,
the child positions of the last one wrap around.
-/
namespace Mlxd.BpeMerge

open Mlxd.Unicode Mlxd.TokLoad Mlxd.BinaryHeap

/-! ## The text and the merges -/

/-- `b` where the pair waits on the leftmost path of the heap, and `a` elsewhere. -/
def letter (j : Nat) : UInt8 := if ∃ k < 31, j + 1 = 2 ^ k then 0x62 else 0x61

def letters (m : Nat) : Bytes := (List.range m).map letter

/-- The letters from `j` on with the `x` behind them: what the growing symbol has eaten. -/
def eaten (m j : Nat) : Bytes := (letters m).drop j ++ [0x78]

def crowdedText (m : Nat) : Bytes := letters m ++ [0x78, 0x71]

/-- The next bite comes first, then the pairs of letters, and last what each bite leaves. -/
def crowdedRank (p : Bytes × Bytes) : Nat :=
  if p.2 = [0x71] then 2 + p.1.length
  else if p.2.getLast? = some 0x78 then 0
  else if p.1 = [0x62] then 1 else 2

def crowdedPairs (m : Nat) : List (Bytes × Bytes) :=
  (List.range m).map (fun j => ([letter j], [letter (j + 1)])) ++
    (List.range m).map (fun j => ([letter j], eaten m (j + 1))) ++
      (List.range (m + 1)).map fun j => (eaten m j, [0x71])

def putRanked (pairs : List (Bytes × Bytes)) : MergeMap :=
  pairs.foldl (fun merges p => merges.insert p (crowdedRank p)) ∅

def crowdedTok (m : Nat) : Tokenizer := { doubleA with merges := putRanked (crowdedPairs m) }

theorem putRanked_lookup (pairs : List (Bytes × Bytes)) {p : Bytes × Bytes} (hp : p ∈ pairs) :
    (putRanked pairs).lookup p = some (crowdedRank p) := by
  have hall : ∀ merges : MergeMap, p ∈ pairs ∨ merges.lookup p = some (crowdedRank p) →
      (pairs.foldl (fun merges p => merges.insert p (crowdedRank p)) merges).lookup p =
        some (crowdedRank p) := by
    clear hp
    induction pairs with
    | nil => exact fun merges h => h.resolve_left List.not_mem_nil
    | cons q pairs ih =>
      intro merges h
      refine ih _ ?_
      by_cases hpq : p = q
      · subst hpq
        exact .inr (AList.lookup_insert _)
      · rw [AList.lookup_insert_ne hpq]
        exact h.imp_left fun hmem => (List.mem_cons.mp hmem).resolve_left hpq
  exact hall ∅ (.inl hp)

theorem letter_cases (j : Nat) : letter j = 0x62 ∨ letter j = 0x61 := by
  unfold letter
  split
  · exact .inl rfl
  · exact .inr rfl

theorem letter_path {k : Nat} (hk : k < 31) : letter (2 ^ k - 1) = 0x62 := by
  have hpos := Nat.pow_pos (n := k) (show 0 < 2 by omega)
  rw [letter, if_pos ⟨k, hk, by omega⟩]

theorem letter_side {k : Nat} (hk : 0 < k) : letter (2 ^ k) = 0x61 := by
  rw [letter, if_neg]
  rintro ⟨i, -, hi⟩
  exact side_ne_path hk i (Nat.eq_sub_of_add_eq hi)

/-- Above a `b` there is a `b`. -/
theorem letter_parent {j : Nat} (hj : 0 < j) (h : letter j = 0x62) : letter ((j - 1) / 2) = 0x62 := by
  unfold letter at h ⊢
  split at h
  · rename_i hex
    obtain ⟨k, hk, hjk⟩ := hex
    cases k with
    | zero => omega
    | succ k =>
      rw [pow_succ] at hjk
      rw [if_pos ⟨k, by omega, by omega⟩]
  · exact absurd h (by decide)

section Ranks

variable {m j : Nat}

theorem rank_letters (hj : j < m) : mergeRank (crowdedTok m) [letter j] [letter (j + 1)] =
    some (if letter j = 0x62 then 1 else 2) := by
  have hmem : ([letter j], [letter (j + 1)]) ∈ crowdedPairs m := by
    refine List.mem_append_left _ (List.mem_append_left _ ?_)
    exact List.mem_map.mpr ⟨j, List.mem_range.mpr hj, rfl⟩
  refine (putRanked_lookup _ hmem).trans ?_
  rcases letter_cases (j + 1) with h | h <;> simp [crowdedRank, h]

theorem rank_bite (hj : j < m) : mergeRank (crowdedTok m) [letter j] (eaten m (j + 1)) = some 0 := by
  have hmem : ([letter j], eaten m (j + 1)) ∈ crowdedPairs m := by
    refine List.mem_append_left _ (List.mem_append_right _ ?_)
    exact List.mem_map.mpr ⟨j, List.mem_range.mpr hj, rfl⟩
  refine (putRanked_lookup _ hmem).trans ?_
  have hne : eaten m (j + 1) ≠ [0x71] := by
    intro he
    have := congrArg List.getLast? he
    simp [eaten] at this
  rw [crowdedRank, if_neg hne, if_pos (by simp [eaten])]

theorem rank_left (hj : j ≤ m) :
    mergeRank (crowdedTok m) (eaten m j) [0x71] = some (3 + (m - j)) := by
  have hmem : (eaten m j, [0x71]) ∈ crowdedPairs m := by
    refine List.mem_append_right _ ?_
    exact List.mem_map.mpr ⟨j, List.mem_range.mpr (by omega), rfl⟩
  refine (putRanked_lookup _ hmem).trans ?_
  simp [crowdedRank, eaten, letters]
  omega

/-- One bite: the letter before the growing symbol. -/
theorem eaten_cons (hj : j < m) : [letter j] ++ eaten m (j + 1) = eaten m j := by
  have hlt : j < (letters m).length := by simpa [letters] using hj
  rw [eaten, eaten, List.drop_eq_getElem_cons hlt]
  simp [letters]

end Ranks

/-! ## The heap -/

/-- The growing symbol's node has been merged into once, whatever it has eaten. -/
def headVer (k : Nat) : Nat := if k = 0 then 0 else 1

theorem headVer_succ (k : Nat) : headVer (k + 1) = 1 := if_neg (Nat.succ_ne_zero k)

def seed (j : Nat) : BpeCand := ⟨if letter j = 0x62 then 1 else 2, j, j + 1, 0, 0⟩

/-- The next pair of the growing symbol and the letter before it, after `k` bites. -/
def bite (m k : Nat) : BpeCand := ⟨0, m - 1 - k, m - k, 0, headVer k⟩

/-- The pair of the growing symbol and the `q` behind it, after `k` bites. -/
def leftover (m k : Nat) : BpeCand := ⟨3 + k, m - k, m + 1, headVer k, 0⟩

/-- The pairs of letters in text order, and behind them what the bites have left. -/
def crowdAt (m i : Nat) : BpeCand := if i < m - 1 then seed i else leftover m (i - (m - 1))

def crowd (m n : Nat) : Array BpeCand := ((List.range n).map (crowdAt m)).toArray

@[simp] theorem crowd_size (m n : Nat) : (crowd m n).size = n := by simp [crowd]

@[simp] theorem crowd_get (m n i : Nat) (hi : i < (crowd m n).size) :
    (crowd m n)[i] = crowdAt m i := by simp [crowd]

theorem crowd_push (m n : Nat) : (crowd m n).push (crowdAt m n) = crowd m (n + 1) := by
  simp [crowd, List.range_succ]

theorem less_iff (a b : BpeCand) : bpeCandLess a b = true ↔
    a.rank < b.rank ∨ a.rank = b.rank ∧ a.left < b.left := by
  unfold bpeCandLess
  split <;> simp <;> omega

theorem seed_rank (j : Nat) : (seed j).rank = 1 ∧ letter j = 0x62 ∨
    (seed j).rank = 2 ∧ letter j ≠ 0x62 := by
  by_cases h : letter j = 0x62
  · exact .inl ⟨if_pos h, h⟩
  · exact .inr ⟨if_neg h, h⟩

theorem crowdAt_rank (m i : Nat) : 1 ≤ (crowdAt m i).rank := by
  rw [crowdAt]
  split
  · rcases seed_rank i with h | h <;> omega
  · simp only [leftover]
    omega

theorem seed_strict {j : Nat} (hj : 0 < j) :
    bpeCandLess (seed ((j - 1) / 2)) (seed j) = true := by
  have hleft : (seed ((j - 1) / 2)).left < (seed j).left := by
    simp only [seed]
    omega
  rw [less_iff]
  rcases seed_rank j with ⟨hrank, hb⟩ | ⟨hrank, -⟩
  · rcases seed_rank ((j - 1) / 2) with ⟨hrank', -⟩ | ⟨-, hne⟩
    · exact .inr ⟨by omega, hleft⟩
    · exact absurd (letter_parent hj hb) hne
  · rcases seed_rank ((j - 1) / 2) with ⟨hrank', -⟩ | ⟨hrank', -⟩
    · exact .inl (by omega)
    · exact .inr ⟨by omega, hleft⟩

/-- What a bite leaves is greater than all that waits before it. -/
theorem crowdAt_lt {m i n : Nat} (hn : m - 1 ≤ n) (hi : i < n) :
    bpeCandLess (crowdAt m i) (crowdAt m n) = true := by
  have hlast : (crowdAt m n).rank = 3 + (n - (m - 1)) := by rw [crowdAt, if_neg (by omega), leftover]
  rw [less_iff, hlast, crowdAt]
  split
  · rcases seed_rank i with h | h <;> omega
  · simp only [leftover]
    omega

theorem crowdAt_strict (m : Nat) {j : Nat} (hj : 0 < j) :
    bpeCandLess (crowdAt m ((j - 1) / 2)) (crowdAt m j) = true := by
  by_cases hseed : j < m - 1
  · rw [crowdAt, crowdAt, if_pos (by omega), if_pos hseed]
    exact seed_strict hj
  · exact crowdAt_lt (by omega) (by omega)

theorem bite_lt (m k i : Nat) : bpeCandLess (bite m k) (crowdAt m i) = true := by
  have hrank := crowdAt_rank m i
  rw [less_iff]
  exact .inl hrank

/-! ## The nodes -/

/-- The live nodes when the growing symbol has come to `l`, at version `v`. -/
structure Eating (m l v : Nat) (nodes : Array BpeNode) : Prop where
  links : Links nodes (-1) (List.range (l + 1) ++ [m + 1])
  letters : ∀ i < l, symbol (crowdedText m) nodes[i]! = [letter i] ∧ nodes[i]!.ver = 0
  head : symbol (crowdedText m) nodes[l]! = eaten m l ∧ nodes[l]!.ver = v
  last : symbol (crowdedText m) nodes[m + 1]! = [0x71] ∧ nodes[m + 1]!.ver = 0

section Eating

variable {m l v : Nat} {nodes : Array BpeNode}

/-- One bite takes the growing symbol one node to the left. -/
theorem Eating.merge (h : Eating m (l + 1) v nodes) (hl : l < m) :
    Eating m l 1 (mergeNodes nodes l (l + 1)) := by
  have hL : List.range (l + 1 + 1) ++ [m + 1] = List.range l ++ l :: (l + 1) :: [m + 1] := by
    rw [List.range_succ, List.range_succ]
    simp
  have hlinks := h.links
  rw [hL] at hlinks
  have hsorted : (List.range l ++ l :: (l + 1) :: [m + 1]).Pairwise (· < ·) := by
    rw [← hL, List.pairwise_append]
    refine ⟨List.pairwise_lt_range, List.pairwise_singleton _ _, fun a ha b hb => ?_⟩
    rw [List.mem_range] at ha
    rw [List.mem_singleton.mp hb]
    omega
  have hbound := hlinks.mem
  rw [← hL] at hbound
  let s : Scratch := ⟨nodes, #[]⟩
  have hsym := @merged_symbol (crowdedText m) s _ _ _ _ hlinks hsorted
  have hver := @merged_ver s _ _ _ _ hlinks hsorted
  have hmerged := Links.merge (by simp) (@merged_get s _ _ _ _ hlinks hsorted) _ hlinks
    (hsorted.imp fun hlt => Nat.ne_of_lt hlt)
  refine ⟨?_, fun i hi => ?_, ?_, ?_⟩
  · rw [List.range_succ, List.append_assoc, List.singleton_append]
    exact hmerged
  · have his : i < nodes.size :=
      hbound i (List.mem_append_left _ (List.mem_range.mpr (by omega)))
    rw [hsym i his, hver i his, if_neg (by omega), if_neg (by omega)]
    exact h.letters i (by omega)
  · have hls : l < nodes.size := hbound l (List.mem_append_left _ (List.mem_range.mpr (by omega)))
    obtain ⟨hsl, hvl⟩ := h.letters l (by omega)
    rw [hsym l hls, hver l hls, if_pos rfl, if_pos (.inl rfl)]
    exact ⟨by rw [hsl, h.head.1, eaten_cons hl], by rw [hvl]⟩
  · have hqs : m + 1 < nodes.size := hbound _ (List.mem_append_right _ List.mem_cons_self)
    rw [hsym _ hqs, hver _ hqs, if_neg (by omega), if_neg (by omega)]
    exact h.last

theorem push_ranked {tok : Tokenizer} {input : Bytes} {heap : Array BpeCand} {l r ρ : Nat}
    (hρ : rankOf tok input nodes l r = some ρ) : bpePushCand tok input ⟨nodes, heap⟩ l r =
      ⟨nodes, push bpeCandLess heap (candOf nodes ρ l r)⟩ := by
  rw [bpePushCand_eq, hρ]

/-- The two candidates of the growing symbol. -/
theorem Eating.push (h : Eating m (l + 1) v nodes) (hl : l + 1 ≤ m) (heap : Array BpeCand) :
    pushNext (crowdedTok m) (crowdedText m)
      (pushPrev (crowdedTok m) (crowdedText m) ⟨nodes, heap⟩ (l + 1)) (l + 1) =
        ⟨nodes, BinaryHeap.push bpeCandLess (BinaryHeap.push bpeCandLess heap ⟨0, l, l + 1, 0, v⟩)
          ⟨3 + (m - (l + 1)), l + 1, m + 1, v, 0⟩⟩ := by
  have hlinks := h.links
  rw [List.range_succ, List.append_assoc, List.singleton_append] at hlinks
  obtain ⟨-, hprev, hnext, -⟩ := hlinks.split _ _ _
  rw [List.range_succ, lastOr_append] at hprev
  rw [headIdx] at hnext
  obtain ⟨hsl, hvl⟩ := h.letters l (by omega)
  have hbite : rankOf (crowdedTok m) (crowdedText m) nodes l (l + 1) = some 0 := by
    rw [rankOf, hsl, h.head.1, rank_bite (by omega)]
  have hleft : rankOf (crowdedTok m) (crowdedText m) nodes (l + 1) (m + 1) =
      some (3 + (m - (l + 1))) := by
    rw [rankOf, h.head.1, h.last.1, rank_left hl]
  have hpush : pushPrev (crowdedTok m) (crowdedText m) ⟨nodes, heap⟩ (l + 1) =
      ⟨nodes, BinaryHeap.push bpeCandLess heap ⟨0, l, l + 1, 0, v⟩⟩ := by
    rw [pushPrev, if_pos (by rw [hprev]; exact Int.natCast_nonneg l)]
    simp only [hprev, Int.toNat_natCast]
    rw [push_ranked hbite, candOf, hvl, h.head.2]
  rw [hpush, pushNext, if_pos (by rw [hnext]; exact Int.natCast_nonneg _)]
  simp only [hnext, Int.toNat_natCast]
  rw [push_ranked hleft, candOf, h.head.2, h.last.2]

end Eating

/-! ## The run -/

/-- The scratch after `k` bites, with the next one waiting at the root. -/
structure Bitten (m k : Nat) (s : Scratch) : Prop where
  nodes : Eating m (m - k) (headVer k) s.nodes
  heap : s.heap = push bpeCandLess (push bpeCandLess (crowd m (m - 1 + k)) (bite m k)) (leftover m k)

theorem Bitten.size {m k : Nat} {s : Scratch} (h : Bitten m k s) :
    s.heap.size = m - 1 + k + 2 := by
  have hsize : ∀ (A : Array BpeCand) (c : BpeCand), (push bpeCandLess A c).size = A.size + 1 :=
    fun A c => by simpa using (push_perm bpeCandLess A c).length_eq
  rw [h.heap, hsize, hsize, crowd_size]

theorem leftover_eq (m k : Nat) : leftover m k = crowdAt m (m - 1 + k) := by
  rw [crowdAt, if_neg (by omega), Nat.add_sub_cancel_left]

section Crowd

variable {m k : Nat}

theorem crowd_strict (j : Nat) (hj : 0 < j) (hjs : j < (crowd m (m - 1 + k)).size)
    (hp : (j - 1) / 2 < (crowd m (m - 1 + k)).size) :
    bpeCandLess (crowd m (m - 1 + k))[(j - 1) / 2] (crowd m (m - 1 + k))[j] = true := by
  simpa using crowdAt_strict m hj

theorem crowd_lt_leftover (j : Nat) (hj : j < (crowd m (m - 1 + k)).size) :
    bpeCandLess (crowd m (m - 1 + k))[j] (leftover m k) = true := by
  rw [crowd_size] at hj
  simpa [leftover_eq] using crowdAt_lt (Nat.le_add_right _ _) hj

theorem bite_lt_leftover : bpeCandLess (bite m k) (leftover m k) = true := by
  rw [leftover_eq]
  exact bite_lt m k _

end Crowd

/-- While the heap is small enough, a bite is popped, made, and followed by the next. -/
theorem Bitten.step {m k : Nat} {s : Scratch} (h : Bitten m k s) (hk : k + 1 < m)
    (hw : 2 * (m - 1 + k) + 2 < UINT32_SIZE) (hpos : 0 < s.heap.size) :
    ∃ s', bpeStep (crowdedTok m) (crowdedText m) s hpos = some s' ∧ Bitten m (k + 1) s' := by
  obtain ⟨nodes, heap⟩ := s
  obtain ⟨hnodes, rfl⟩ := h
  simp only at hnodes
  obtain ⟨hroot, hrest⟩ := popRest_push candLess_asymm crowd_strict
    (fun j _ => by simpa using bite_lt m k j) crowd_lt_leftover (by simpa using hw)
    bite_lt_leftover hpos
  have hpush : (crowd m (m - 1 + k)).push (leftover m k) = crowd m (m - 1 + (k + 1)) := by
    rw [leftover_eq, crowd_push]
    rfl
  rw [hpush] at hrest
  obtain ⟨l, hl⟩ : ∃ l, m - k = l + 1 + 1 := ⟨m - k - 2, by omega⟩
  rw [hl] at hnodes
  have hmerged := hnodes.merge (by omega)
  have hfresh : ¬ (nodes[(bite m k).left]!.ver ≠ (bite m k).lver ∨
      nodes[(bite m k).right]!.ver ≠ (bite m k).rver) := by
    simp only [bite, show m - 1 - k = l + 1 by omega, hl, (hnodes.letters (l + 1) (by omega)).2,
      hnodes.head.2, ne_eq, not_true_eq_false, or_self, not_false_eq_true]
  refine ⟨bpeApply (crowdedTok m) (crowdedText m) (bite m k) ⟨nodes, crowd m (m - 1 + (k + 1))⟩,
    ?_, ?_⟩
  · simp only [bpeStep, bpeHeapPop, hrest, hroot, Option.map_some]
  · rw [bpeApply, if_neg hfresh]
    simp only [bite, hl, show m - 1 - k = l + 1 by omega]
    rw [hmerged.push (by omega)]
    refine ⟨?_, ?_⟩
    · simpa only [headVer_succ, show m - (k + 1) = l + 1 by omega] using hmerged
    · simp only [bite, leftover, headVer_succ, show m - (k + 1) = l + 1 by omega,
        show m - 1 - (k + 1) = l by omega, show m - (l + 1) = k + 1 by omega]

/-- With `2 ^ 31` candidates left behind the root, its successor never comes to rest. -/
theorem Bitten.stuck {m k : Nat} {s : Scratch} (h : Bitten m k s) (hm : 1073741824 < m)
    (hsize : m + k = 2147483648) (hpos : 0 < s.heap.size) :
    bpeStep (crowdedTok m) (crowdedText m) s hpos = none := by
  obtain ⟨nodes, heap⟩ := s
  obtain ⟨-, rfl⟩ := h
  have hrest : popRest UINT32_SIZE bpeCandLess (push bpeCandLess
      (push bpeCandLess (crowd m (m - 1 + k)) (bite m k)) (leftover m k)) hpos = none := by
    refine @popRest_laps _ bpeCandLess (fun c => c.rank = 1) (fun c => 2 ≤ c.rank) 31 _ _ _
      candLess_asymm (by omega) (by rw [crowd_size]; omega) (fun j hj => ?_) (fun j hj hj0 => ?_)
      (fun c hc => (less_iff _ _).mpr (.inl (by simp only [bite]; omega))) crowd_lt_leftover
      (fun c hc => (less_iff _ _).mpr (.inl (by simp only [leftover]; omega)))
      (fun c c' hc hc' => (less_iff _ _).mpr (.inl (by omega))) bite_lt_leftover hpos
    · rw [crowd_size] at hj
      have hj31 : j < 31 := by
        by_contra hge
        have hle : 2 ^ 31 ≤ 2 ^ j := Nat.pow_le_pow_right (by omega) (by omega)
        omega
      have hle : 2 ^ j ≤ 2 ^ 30 := Nat.pow_le_pow_right (by omega) (by omega)
      rw [crowd_get, crowdAt, if_pos (by omega), seed, if_pos (letter_path hj31)]
    · rw [crowd_get, crowdAt]
      split
      · rw [seed, letter_side hj0, if_neg (by decide)]
      · simp only [leftover]
        omega
  simp only [bpeStep, bpeHeapPop, hrest, Option.map_none]

/-- No run that has come to a stage of the growing symbol empties the heap. -/
theorem Bitten.endless {m : Nat} (hm : m = 1073741825) (fuel : Nat) {k : Nat} {s s' : Scratch}
    (h : Bitten m k s) (hk : m + k ≤ 2147483648)
    (hs : bpeLoop (crowdedTok m) (crowdedText m) fuel s = some s') : s'.heap.size ≠ 0 := by
  have hsize := h.size
  induction fuel generalizing k s with
  | zero =>
    obtain rfl := Option.some.inj hs
    omega
  | succ fuel ih =>
    have hpos : 0 < s.heap.size := by omega
    rw [bpeLoop, dif_pos hpos] at hs
    by_cases hlast : m + k = 2147483648
    · rw [h.stuck (by omega) hlast hpos] at hs
      contradiction
    · obtain ⟨s₁, hs₁, h₁⟩ := h.step (by omega) (by simp only [UINT32_SIZE]; omega) hpos
      rw [hs₁, Option.bind_some] at hs
      exact ih h₁ (by omega) hs h₁.size

/-! ## The start -/

theorem codepoints_ascii (s : Bytes) (h : ∀ b ∈ s, b < 0x80) :
    codepoints s = s.map fun b => [b] := by
  have hloop : ∀ fuel, s.length ≤ fuel → codepointsLoop fuel s = s.map fun b => [b] := by
    induction s with
    | nil => exact fun fuel _ => codepointsLoop_nil fuel
    | cons b s ih =>
      intro fuel hf
      obtain ⟨fuel, rfl⟩ : ∃ f, fuel = f + 1 := ⟨fuel - 1, by simp at hf; omega⟩
      have hlen : (decodeHead (b :: s)).len = 1 := by
        rw [decodeHead, if_pos (h b List.mem_cons_self)]
      rw [codepointsLoop, if_neg (List.cons_ne_nil b s), hlen, List.take_succ_cons, List.take_zero,
        List.drop_succ_cons, List.drop_zero, List.map_cons,
        ih (fun x hx => h x (List.mem_cons_of_mem b hx)) fuel (by simpa using hf)]
  exact hloop _ (Nat.le_refl _)

theorem splitNodes_ver (input : Bytes) (fuel pos : Nat) (nodes : Array BpeNode)
    (h : ∀ i : Nat, nodes[i]!.ver = 0) (i : Nat) :
    (splitNodes input fuel pos nodes)[i]!.ver = 0 := by
  induction fuel generalizing pos nodes with
  | zero => exact h i
  | succ fuel ih =>
    simp only [splitNodes]
    split
    · refine ih _ _ fun j => ?_
      rw [getElem!_push]
      split
      · rfl
      · exact h j
    · exact h i

theorem letters_length (m : Nat) : (letters m).length = m := by simp [letters]

theorem crowdedText_length (m : Nat) : (crowdedText m).length = m + 2 := by
  simp [crowdedText, letters_length]

theorem crowdedText_ascii (m : Nat) : ∀ b ∈ crowdedText m, b < 0x80 := by
  intro b hb
  rcases List.mem_append.mp hb with hb | hb
  · obtain ⟨j, -, rfl⟩ := List.mem_map.mp hb
    rcases letter_cases j with h | h <;> rw [h] <;> decide
  · simp only [List.mem_cons, List.not_mem_nil, or_false] at hb
    rcases hb with rfl | rfl <;> decide

theorem seedHeap_nodes (tok : Tokenizer) (input : Bytes) (nodes : Array BpeNode) :
    (seedHeap tok input nodes).nodes = nodes := by
  have hfold : ∀ (js : List Nat) (s : Scratch),
      (js.foldl (fun s j => bpePushCand tok input s j (j + 1)) s).nodes = s.nodes := by
    intro js
    induction js with
    | nil => exact fun _ => rfl
    | cons j js ih => exact fun s => (ih _).trans (push_nodes tok input s j (j + 1))
  exact hfold _ _

/-- Before the first bite every letter, the `x` and the `q` have a node of their own. -/
theorem eating_start (m : Nat) :
    Eating m m 0 (splitNodes (crowdedText m) (crowdedText m).length 0 #[]) ∧
      (splitNodes (crowdedText m) (crowdedText m).length 0 #[]).size = m + 2 := by
  have hseeded := seedHeap_seeded (crowdedTok m) (crowdedText m)
  have hcps := codepoints_ascii _ (crowdedText_ascii m)
  have hn : (codepoints (crowdedText m)).length = m + 2 := by
    rw [hcps, List.length_map, crowdedText_length]
  have hlinks := hseeded.inv.links
  have hsize := hseeded.size
  have hsyms := hseeded.symbols
  rw [hn] at hlinks hsize hsyms
  rw [seedHeap_nodes] at hlinks hsize hsyms
  have hver := splitNodes_ver (crowdedText m) (crowdedText m).length 0 #[] fun _ => rfl
  generalize splitNodes (crowdedText m) (crowdedText m).length 0 #[] = nodes at *
  have hsym : ∀ i < m + 2, ∀ b, (crowdedText m)[i]? = some b →
      symbol (crowdedText m) nodes[i]! = [b] := by
    intro i hi b hb
    have hget := congrArg (fun L : List Bytes => L[i]?) hsyms
    simpa [hcps, symbolsOf, hi, hb] using hget
  refine ⟨⟨?_, fun i hi => ⟨?_, hver i⟩, ⟨?_, hver m⟩, ⟨?_, hver (m + 1)⟩⟩, hsize⟩
  · rw [← List.range_succ]
    exact hlinks
  · refine hsym i (by omega) _ ?_
    rw [crowdedText, List.getElem?_append_left (by rw [letters_length]; exact hi)]
    simp [letters, hi]
  · rw [hsym m (by omega) 0x78 (by simp [crowdedText, letters])]
    simp [eaten, letters]
  · exact hsym (m + 1) (by omega) _ (by simp [crowdedText, letters])

/-- The pairs of letters are pushed in an order that moves none of them. -/
theorem seeds_crowd {m : Nat} {nodes : Array BpeNode} (h : Eating m m 0 nodes) (n : Nat)
    (hn : n ≤ m - 1) : (List.range n).foldl (fun s j =>
      bpePushCand (crowdedTok m) (crowdedText m) s j (j + 1)) ⟨nodes, #[]⟩ = ⟨nodes, crowd m n⟩ := by
  induction n with
  | zero => rfl
  | succ n ih =>
    obtain ⟨hsn, hvn⟩ := h.letters n (by omega)
    obtain ⟨hsn', hvn'⟩ := h.letters (n + 1) (by omega)
    have hρ : rankOf (crowdedTok m) (crowdedText m) nodes n (n + 1) =
        some (if letter n = 0x62 then 1 else 2) := by
      rw [rankOf, hsn, hsn', rank_letters (by omega)]
    have hseed : crowdAt m n = seed n := if_pos (by omega)
    rw [List.range_succ, List.foldl_append, ih (by omega), List.foldl_cons, List.foldl_nil,
      push_ranked hρ, candOf, hvn, hvn', ← crowd_push, hseed, ← seed, push_eq]
    intro hpos
    have hlast := crowdAt_strict m (j := n) (by simpa using hpos)
    rw [crowd_get, crowd_size, ← hseed]
    exact candLess_asymm _ _ hlast

theorem bitten_start {m : Nat} (hm : 0 < m) : Bitten m 0 (seedHeap (crowdedTok m) (crowdedText m)
    (splitNodes (crowdedText m) (crowdedText m).length 0 #[])) := by
  obtain ⟨h, hsize⟩ := eating_start m
  have hbite : rankOf (crowdedTok m) (crowdedText m)
      (splitNodes (crowdedText m) (crowdedText m).length 0 #[]) (m - 1) m = some 0 := by
    have hrank := rank_bite (show m - 1 < m by omega)
    rw [Nat.sub_add_cancel hm] at hrank
    rw [rankOf, (h.letters (m - 1) (by omega)).1, h.head.1, hrank]
  have hleft : rankOf (crowdedTok m) (crowdedText m)
      (splitNodes (crowdedText m) (crowdedText m).length 0 #[]) m (m + 1) = some 3 := by
    rw [rankOf, h.head.1, h.last.1, rank_left (Nat.le_refl m), Nat.sub_self]
  have hrange : List.range (m + 2 - 1) = List.range (m - 1) ++ [m - 1, m] := by
    obtain ⟨l, rfl⟩ : ∃ l, m = l + 1 := ⟨m - 1, by omega⟩
    rw [show l + 1 + 2 - 1 = l + 1 + 1 by omega, List.range_succ, List.range_succ]
    simp
  refine ⟨by rw [seedHeap_nodes]; exact h, ?_⟩
  rw [seedHeap, hsize, hrange, List.foldl_append, seeds_crowd h _ (Nat.le_refl _)]
  simp only [List.foldl_cons, List.foldl_nil, Nat.sub_add_cancel hm]
  rw [push_ranked hbite, push_ranked hleft, candOf, candOf, (h.letters (m - 1) (by omega)).2,
    h.head.2, h.last.2]
  rfl

end Mlxd.BpeMerge
