import Mlxd.BpeLinks

/-!
# The invariant of the merge loop

The scratch represents the list of live nodes in text order: the links walk that
list, every ranked adjacent pair has a fresh candidate in the heap, and every
candidate that is still fresh describes an adjacent pair. None of this depends on the
order of the heap.
-/
namespace Mlxd.BpeMerge

open Mlxd.Unicode Mlxd.TokLoad

/-! ## The invariant -/

/-- The scratch represents the live nodes `L`, except that ranked pairs in `todo`
may still lack their candidate. -/
structure Inv (tok : Tokenizer) (input : Bytes) (todo : Nat → Nat → Prop) (s : Scratch)
    (L : List Nat) : Prop where
  links : Links s.nodes (-1) L
  sorted : L.Pairwise (· < ·)
  covered : ∀ i j ρ, Adj L i j → ¬ todo i j → rankOf tok input s.nodes i j = some ρ →
    candOf s.nodes ρ i j ∈ s.heap
  bounded : ∀ c ∈ s.heap, c.left < s.nodes.size ∧ c.right < s.nodes.size ∧
    c.lver ≤ s.nodes[c.left]!.ver ∧ c.rver ≤ s.nodes[c.right]!.ver
  fresh : ∀ c ∈ s.heap, c.lver = s.nodes[c.left]!.ver → c.rver = s.nodes[c.right]!.ver →
    Adj L c.left c.right ∧ rankOf tok input s.nodes c.left c.right = some c.rank

section Inv

variable {tok : Tokenizer} {input : Bytes} {todo : Nat → Nat → Prop} {s : Scratch} {L : List Nat}

theorem Inv.weaken (h : Inv tok input todo s L) {todo' : Nat → Nat → Prop}
    (hw : ∀ i j, Adj L i j → todo i j → todo' i j) : Inv tok input todo' s L :=
  { h with covered := fun i j ρ ha ht => h.covered i j ρ ha fun ht' => ht (hw i j ha ht') }

/-- Pushing a pair takes it off the list of missing candidates. -/
theorem Inv.push (h : Inv tok input todo s L) {l r : Nat} (ha : Adj L l r) :
    Inv tok input (fun i j => todo i j ∧ ¬ (i = l ∧ j = r)) (bpePushCand tok input s l r) L where
  links := by simpa using h.links
  sorted := h.sorted
  covered := by
    intro i j ρ hij ht hρ
    simp only [push_nodes] at hρ ⊢
    rw [push_mem]
    by_cases hlr : i = l ∧ j = r
    · obtain ⟨rfl, rfl⟩ := hlr
      exact .inr ⟨ρ, hρ, rfl⟩
    · exact .inl (h.covered i j ρ hij (fun ht' => ht ⟨ht', hlr⟩) hρ)
  bounded := by
    intro c hc
    simp only [push_nodes]
    rcases (push_mem tok input s l r c).mp hc with hc | ⟨ρ, -, rfl⟩
    · exact h.bounded c hc
    · exact ⟨h.links.mem l ha.mem.1, h.links.mem r ha.mem.2, Nat.le_refl _, Nat.le_refl _⟩
  fresh := by
    intro c hc hl hr
    simp only [push_nodes] at hl hr ⊢
    rcases (push_mem tok input s l r c).mp hc with hc | ⟨ρ, hρ, rfl⟩
    · exact h.fresh c hc hl hr
    · exact ⟨ha, hρ⟩

variable (hpos : 0 < s.heap.size) {rest : Array BpeCand}
  (hrest : BinaryHeap.popRest UINT32_SIZE bpeCandLess s.heap hpos = some rest)

include hrest

theorem mem_popRest (c : BpeCand) : c ∈ s.heap ↔ c = s.heap[0] ∨ c ∈ rest := by
  rw [← Array.mem_toList_iff, ← (BinaryHeap.popRest_perm hpos hrest).mem_iff]
  simp

theorem popRest_size : rest.size + 1 = s.heap.size := by
  simpa using (BinaryHeap.popRest_perm hpos hrest).length_eq

/-- A stale candidate covers no pair, so dropping it loses nothing. -/
theorem Inv.stale (h : Inv tok input todo s L)
    (hstale : s.nodes[s.heap[0].left]!.ver ≠ s.heap[0].lver ∨
      s.nodes[s.heap[0].right]!.ver ≠ s.heap[0].rver) :
    Inv tok input todo { s with heap := rest } L where
  links := h.links
  sorted := h.sorted
  covered := by
    intro i j ρ hij ht hρ
    rcases (mem_popRest hpos hrest _).mp (h.covered i j ρ hij ht hρ) with he | hc
    · rw [← he] at hstale
      simp [candOf] at hstale
    · exact hc
  bounded := fun c hc => h.bounded c ((mem_popRest hpos hrest c).mpr (.inr hc))
  fresh := fun c hc => h.fresh c ((mem_popRest hpos hrest c).mpr (.inr hc))

omit hrest in
theorem slice_append (t : Bytes) (a b c : Nat) (hab : a ≤ b) (hbc : b ≤ c) :
    slice t a c = slice t a b ++ slice t b c := by
  unfold slice
  have h1 : c - a = (b - a) + (c - b) := by omega
  have h2 : t.drop b = (t.drop a).drop (b - a) := by simp [show a + (b - a) = b by omega]
  rw [h1, h2, List.take_add]

end Inv

/-- The merged scratch, before the two new pairs are pushed. -/
def mergedScratch (s : Scratch) (hpos : 0 < s.heap.size) (rest : Array BpeCand) : Scratch :=
  ⟨mergeNodes s.nodes s.heap[0].left s.heap[0].right, rest⟩

section Merge

variable {tok : Tokenizer} {input : Bytes} {s : Scratch} {A B : List Nat} {l r : Nat}

/-- The nodes after merging two neighbours of a linked list. -/
theorem merged_get (h : Links s.nodes (-1) (A ++ l :: r :: B))
    (hs : (A ++ l :: r :: B).Pairwise (· < ·)) (i : Nat) (hi : i < s.nodes.size) :
    (mergeNodes s.nodes l r)[i]! =
      if i = l then { s.nodes[l]! with
        stop := s.nodes[r]!.stop, ver := s.nodes[l]!.ver + 1, next := headIdx B }
      else if i = r then { s.nodes[r]! with ver := s.nodes[r]!.ver + 1 }
      else if (i : Int) = headIdx B then { s.nodes[i]! with prev := l }
      else s.nodes[i]! := by
  have hnext : s.nodes[r]!.next = headIdx B := by
    have := Links.split (A ++ [l]) r B (by simpa using h)
    exact this.2.2.1
  have hlrB := (List.pairwise_append.mp hs).2.1
  have hlt := List.pairwise_cons.mp hlrB
  have hrB := List.pairwise_cons.mp hlt.2
  have hne : headIdx B ≠ l ∧ headIdx B ≠ r := by
    cases B with
    | nil => simp [headIdx]
    | cons b B =>
      have h1 := hlt.1 b (by simp)
      have h2 := hrB.1 b (by simp)
      simp only [headIdx]
      omega
  have hlr := hlt.1 r (by simp)
  rw [mergeNodes_get _ _ _ _ hi (by omega) (by rw [hnext]; exact hne.1)
    (by rw [hnext]; exact hne.2), hnext]

variable (input) in
/-- Only the left node's symbol changes, and it becomes the join of both. -/
theorem merged_symbol (h : Links s.nodes (-1) (A ++ l :: r :: B))
    (hs : (A ++ l :: r :: B).Pairwise (· < ·)) (i : Nat) (hi : i < s.nodes.size) :
    symbol input (mergeNodes s.nodes l r)[i]! =
      if i = l then symbol input s.nodes[l]! ++ symbol input s.nodes[r]!
      else symbol input s.nodes[i]! := by
  rw [merged_get h hs i hi]
  split
  · obtain ⟨-, -, -, hle, hc, -, -, -, hle', -⟩ := h.split A l (r :: B)
    have hcr := hc r rfl
    simp only [symbol]
    rw [slice_append input _ _ _ hle (by omega), hcr]
  · split
    · simp_all [symbol]
    · split <;> rfl

theorem merged_ver (h : Links s.nodes (-1) (A ++ l :: r :: B))
    (hs : (A ++ l :: r :: B).Pairwise (· < ·)) (i : Nat) (hi : i < s.nodes.size) :
    (mergeNodes s.nodes l r)[i]!.ver = s.nodes[i]!.ver + if i = l ∨ i = r then 1 else 0 := by
  rw [merged_get h hs i hi]
  by_cases hl : i = l
  · simp [hl]
  · by_cases hr : i = r
    · subst hr
      simp [hl]
    · simp only [hl, hr, or_self, ↓reduceIte]
      split <;> rfl

theorem not_mem_of_sorted (hs : (A ++ l :: r :: B).Pairwise (· < ·)) :
    l ∉ A ∧ l ∉ B ∧ r ∉ A ∧ r ∉ B := by
  have hnd : (A ++ l :: r :: B).Nodup := hs.imp (fun h => Nat.ne_of_lt h)
  simp only [List.nodup_append, List.nodup_cons, List.mem_cons, not_or] at hnd
  refine ⟨fun h => ?_, hnd.2.1.1.2, fun h => ?_, hnd.2.1.2.1⟩
  · exact hnd.2.2 l h l (.inl rfl) rfl
  · exact hnd.2.2 r h r (.inr (.inl rfl)) rfl

/-- A candidate that touches a merged node has a smaller version, so it is stale now. -/
theorem merged_fresh (h : Links s.nodes (-1) (A ++ l :: r :: B))
    (hs : (A ++ l :: r :: B).Pairwise (· < ·)) {c : BpeCand} (h1 : c.left < s.nodes.size)
    (h2 : c.right < s.nodes.size) (h3 : c.lver ≤ s.nodes[c.left]!.ver)
    (h4 : c.rver ≤ s.nodes[c.right]!.ver)
    (hl : c.lver = (mergeNodes s.nodes l r)[c.left]!.ver)
    (hr : c.rver = (mergeNodes s.nodes l r)[c.right]!.ver) :
    (c.left ≠ l ∧ c.left ≠ r) ∧ (c.right ≠ l ∧ c.right ≠ r) ∧
      c.lver = s.nodes[c.left]!.ver ∧ c.rver = s.nodes[c.right]!.ver := by
  simp only [merged_ver h hs _ h1, merged_ver h hs _ h2] at hl hr
  split at hl
  · omega
  · split at hr
    · omega
    · rename_i hnl hnr
      simp only [not_or] at hnl hnr
      exact ⟨hnl, hnr, hl, hr⟩

/-- Neighbours other than the merged nodes stay neighbours. -/
theorem Adj.unmerge {i j : Nat} (h : Adj (A ++ l :: r :: B) i j) (hi : i ≠ l ∧ i ≠ r)
    (hj : j ≠ l ∧ j ≠ r) : Adj (A ++ l :: B) i j := by
  rcases adj_split A l (r :: B) _ _ h with hA | ⟨-, he⟩ | ⟨he, -⟩ | hrB'
  · exact hA.append_right _
  · exact absurd he hj.1
  · exact absurd he hi.1
  · rcases adj_split [] r B _ _ hrB' with ⟨X, Y, he⟩ | ⟨-, he⟩ | ⟨he, -⟩ | hB
    · simp at he
    · exact absurd he hj.2
    · exact absurd he hi.2
    · simpa using hB.append_left (A ++ [l])

/-- Merging the popped pair keeps the invariant; only pairs at `l` lack candidates. -/
theorem Inv.merge (hpos : 0 < s.heap.size) {rest : Array BpeCand}
    (hrest : BinaryHeap.popRest UINT32_SIZE bpeCandLess s.heap hpos = some rest)
    (hleft : s.heap[0].left = l) (hright : s.heap[0].right = r)
    (h : Inv tok input (fun _ _ => False) s (A ++ l :: r :: B)) :
    Inv tok input (fun i j => i = l ∨ j = l) (mergedScratch s hpos rest) (A ++ l :: B) := by
  obtain ⟨hlA, hlB, hrA, hrB⟩ := not_mem_of_sorted h.sorted
  have hver := merged_ver h.links h.sorted
  have hsym := merged_symbol input h.links h.sorted
  have hold : ∀ c ∈ (mergedScratch s hpos rest).heap, c ∈ s.heap :=
    fun c hc => (mem_popRest hpos hrest c).mpr (.inr hc)
  have hrank : ∀ i j, i ≠ l → j ≠ l → i < s.nodes.size → j < s.nodes.size →
      rankOf tok input (mergeNodes s.nodes l r) i j = rankOf tok input s.nodes i j := by
    intro i j hi hj his hjs
    simp only [rankOf, hsym i his, hsym j hjs, if_neg hi, if_neg hj]
  simp only [mergedScratch, hleft, hright] at hold ⊢
  constructor
  case links =>
    refine Links.merge (by simp) (merged_get h.links h.sorted) A h.links ?_
    exact h.sorted.imp (fun h => Nat.ne_of_lt h)
  case sorted => exact h.sorted.sublist (by simp)
  case covered =>
    intro i j ρ hij ht hρ
    have hAB : Adj A i j ∨ Adj B i j := by
      rcases adj_split A l B i j hij with hA | ⟨-, rfl⟩ | ⟨rfl, -⟩ | hB
      · exact .inl hA
      · exact absurd (.inr rfl) ht
      · exact absurd (.inl rfl) ht
      · exact .inr hB
    have hL : Adj (A ++ l :: r :: B) i j := by
      rcases hAB with hA | hB
      · exact hA.append_right _
      · simpa using hB.append_left (A ++ [l, r])
    have hr : i ≠ r ∧ j ≠ r := by
      rcases hAB with hA | hB
      · exact ⟨fun e => hrA (e ▸ hA.mem.1), fun e => hrA (e ▸ hA.mem.2)⟩
      · exact ⟨fun e => hrB (e ▸ hB.mem.1), fun e => hrB (e ▸ hB.mem.2)⟩
    simp only [not_or] at ht
    have his := h.links.mem i hL.mem.1
    have hjs := h.links.mem j hL.mem.2
    rw [hrank i j ht.1 ht.2 his hjs] at hρ
    have hc := h.covered i j ρ hL (fun f => f) hρ
    have he : candOf (mergeNodes s.nodes l r) ρ i j = candOf s.nodes ρ i j := by
      simp [candOf, hver i his, hver j hjs, ht.1, ht.2, hr.1, hr.2]
    rw [he]
    rcases (mem_popRest hpos hrest _).mp hc with hc | hc
    · rw [← hc] at hleft
      exact absurd hleft ht.1
    · exact hc
  case bounded =>
    intro c hc
    obtain ⟨h1, h2, h3, h4⟩ := h.bounded c (hold c hc)
    simp only [mergeNodes_size, hver _ h1, hver _ h2]
    exact ⟨h1, h2, by omega, by omega⟩
  case fresh =>
    intro c hc hl hr
    obtain ⟨h1, h2, h3, h4⟩ := h.bounded c (hold c hc)
    obtain ⟨hleft, hright, hl, hr⟩ := merged_fresh h.links h.sorted h1 h2 h3 h4 hl hr
    obtain ⟨hadj, hρ⟩ := h.fresh c (hold c hc) hl hr
    rw [hrank _ _ hleft.1 hright.1 h1 h2]
    exact ⟨hadj.unmerge hleft hright, hρ⟩

/-- The first push leaves only the pair to the right of `l` without a candidate. -/
theorem Inv.pushPrev (h : Inv tok input (fun i j => i = l ∨ j = l) s (A ++ l :: B)) :
    Inv tok input (fun i _ => i = l) (pushPrev tok input s l) (A ++ l :: B) := by
  have hnd : (A ++ l :: B).Nodup := h.sorted.imp (fun h => Nat.ne_of_lt h)
  have hlA : l ∉ A := fun hm => (List.nodup_append.mp hnd).2.2 l hm l (by simp) rfl
  have hlB : l ∉ B := (List.nodup_cons.mp (List.nodup_append.mp hnd).2.1).1
  obtain ⟨-, hprev, -⟩ := h.links.split A l B
  unfold BpeMerge.pushPrev
  rcases List.eq_nil_or_concat A with rfl | ⟨A', a, rfl⟩
  · rw [if_neg (by rw [hprev]; decide)]
    refine h.weaken fun i j hij ht => ?_
    rcases adj_split [] l B i j hij with hA | ⟨⟨A', hA'⟩, -⟩ | ⟨he, -⟩ | hB
    · exact absurd hA.mem.1 (by simp)
    · simp at hA'
    · exact he
    · rcases ht with he | he
      · exact he
      · exact absurd (he ▸ hB.mem.2) hlB
  · simp only [List.concat_eq_append, lastOr_append] at hprev hlA h ⊢
    rw [if_pos (by rw [hprev]; omega), hprev, Int.toNat_natCast]
    have ha : Adj (A' ++ [a] ++ l :: B) a l := ⟨A', B, by simp⟩
    refine (h.push ha).weaken fun i j hij ht => ?_
    rcases adj_split (A' ++ [a]) l B i j hij with hA | ⟨⟨X, hX⟩, he⟩ | ⟨he, -⟩ | hB
    · rcases ht.1 with he | he
      · exact he
      · exact absurd (he ▸ hA.mem.2) hlA
    · have hai : a = i := by simpa using congrArg List.getLast? hX
      exact absurd ⟨hai.symm, he⟩ ht.2
    · exact he
    · rcases ht.1 with he | he
      · exact he
      · exact absurd (he ▸ hB.mem.2) hlB

/-- The second push restores the full invariant. -/
theorem Inv.pushNext (h : Inv tok input (fun i _ => i = l) s (A ++ l :: B)) :
    Inv tok input (fun _ _ => False) (pushNext tok input s l) (A ++ l :: B) := by
  have hnd : (A ++ l :: B).Nodup := h.sorted.imp (fun h => Nat.ne_of_lt h)
  have hlA : l ∉ A := fun hm => (List.nodup_append.mp hnd).2.2 l hm l (by simp) rfl
  have hlB : l ∉ B := (List.nodup_cons.mp (List.nodup_append.mp hnd).2.1).1
  obtain ⟨-, -, hnext, -⟩ := h.links.split A l B
  unfold BpeMerge.pushNext
  cases B with
  | nil =>
    simp only [headIdx] at hnext
    rw [if_neg (by rw [hnext]; decide)]
    refine h.weaken fun i j hij ht => ?_
    rcases adj_split A l [] i j hij with hA | ⟨⟨X, hX⟩, -⟩ | ⟨-, ⟨B', hB'⟩⟩ | hB
    · exact hlA (ht ▸ hA.mem.1)
    · exact hlA (by rw [hX, ← ht]; simp)
    · simp at hB'
    · exact absurd hB.mem.1 (by simp)
  | cons b B =>
    simp only [headIdx] at hnext
    rw [if_pos (by rw [hnext]; omega), hnext, Int.toNat_natCast]
    have hb : Adj (A ++ l :: b :: B) l b := ⟨A, B, rfl⟩
    refine (h.push hb).weaken fun i j hij ht => ?_
    rcases adj_split A l (b :: B) i j hij with hA | ⟨⟨X, hX⟩, -⟩ | ⟨-, ⟨B', hB'⟩⟩ | hB
    · exact hlA (ht.1 ▸ hA.mem.1)
    · exact hlA (by rw [hX, ← ht.1]; simp)
    · simp only [List.cons.injEq] at hB'
      exact ht.2 ⟨ht.1, hB'.1.symm⟩
    · exact hlB (ht.1 ▸ hB.mem.1)

end Merge

end Mlxd.BpeMerge
