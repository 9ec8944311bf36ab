import Mathlib.Data.List.Perm.Basic
import Mlxd.Lib.GreedyMerge
import Mlxd.BpeInvariant

/-!
# The heap-driven merge equals the naive reference

Every pair of the reference has its candidate in the heap, so the least fresh
candidate is the lowest-ranked, leftmost pair; a stale candidate changes nothing.
A pop keeps the heap in order as long as its child positions fit in 32 bits. Whatever
the order is, the loop merges ranked pairs only.
-/
namespace Mlxd.BpeMerge

open Mlxd.Unicode Mlxd.Json Mlxd.TokLoad Mlxd.GreedyMerge

/-! ## The reference -/

/-- One symbol per codepoint; an invalid byte is a symbol of its own. -/
def codepointsLoop : Nat → Bytes → List Bytes
  | 0, _ => []
  | fuel + 1, s =>
    if s = [] then []
    else s.take (decodeHead s).len :: codepointsLoop fuel (s.drop (decodeHead s).len)

def codepoints (input : Bytes) : List Bytes := codepointsLoop input.length input

/-- The naive reference: merge the lowest-ranked, leftmost pair until none has a rank. -/
def naiveMerge (tok : Tokenizer) (input : Bytes) : List Bytes :=
  greedy (mergeRank tok) (· ++ ·) (codepoints input)

/-! ## The loop -/

/-- The symbols of the listed nodes. -/
def symbolsOf (input : Bytes) (nodes : Array BpeNode) (L : List Nat) : List Bytes :=
  L.map fun i => symbol input nodes[i]!

/-- The work left: every iteration pops one candidate, and a merge that pushes two
also removes a node. -/
def work (s : Scratch) (L : List Nat) : Nat := s.heap.size + 2 * L.length

section Loop

variable {tok : Tokenizer} {input : Bytes} {s : Scratch} {L : List Nat}

@[simp] theorem pushPrev_nodes (s : Scratch) (l : Nat) :
    (pushPrev tok input s l).nodes = s.nodes := by
  unfold pushPrev
  split <;> simp

@[simp] theorem pushNext_nodes (s : Scratch) (l : Nat) :
    (pushNext tok input s l).nodes = s.nodes := by
  unfold pushNext
  split <;> simp

variable (tok input) in
theorem pushPrev_size_le (s : Scratch) (l : Nat) :
    (pushPrev tok input s l).heap.size ≤ s.heap.size + 1 := by
  unfold pushPrev
  split
  · exact push_size_le _ _ _ _ _
  · exact Nat.le_succ _

variable (tok input) in
theorem pushNext_size_le (s : Scratch) (l : Nat) :
    (pushNext tok input s l).heap.size ≤ s.heap.size + 1 := by
  unfold pushNext
  split
  · exact push_size_le _ _ _ _ _
  · exact Nat.le_succ _

theorem pushPrev_ordered (s : Scratch) (l : Nat) (h : BinaryHeap.Ordered bpeCandLess s.heap) :
    BinaryHeap.Ordered bpeCandLess (pushPrev tok input s l).heap := by
  unfold pushPrev
  split
  · exact push_heap_ordered _ _ _ _ _ h
  · exact h

theorem pushNext_ordered (s : Scratch) (l : Nat) (h : BinaryHeap.Ordered bpeCandLess s.heap) :
    BinaryHeap.Ordered bpeCandLess (pushNext tok input s l).heap := by
  unfold pushNext
  split
  · exact push_heap_ordered _ _ _ _ _ h
  · exact h

/-- What the popped candidate `c` does to the symbols: nothing, or it joins its pair. -/
def Popped (tok : Tokenizer) (input : Bytes) (c : BpeCand) (s : Scratch) (L : List Nat)
    (syms : List Bytes) : Prop :=
  syms = symbolsOf input s.nodes L ∨
    ∃ A r B, L = A ++ c.left :: r :: B ∧ rankOf tok input s.nodes c.left r = some c.rank ∧
      syms = symbolsOf input s.nodes A ++
        (symbol input s.nodes[c.left]! ++ symbol input s.nodes[r]!) :: symbolsOf input s.nodes B

theorem Popped.merges {c : BpeCand} {syms : List Bytes} (h : Popped tok input c s L syms) :
    Merges (mergeRank tok) (· ++ ·) (symbolsOf input s.nodes L) syms := by
  rcases h with rfl | ⟨A, r, B, rfl, hρ, rfl⟩
  · exact .refl _
  · simp only [symbolsOf, List.map_append, List.map_cons]
    exact .step _ _ hρ (.refl _)

/-- From an ordered heap, the pair joined is the lowest-ranked, leftmost one. -/
theorem Popped.greedy (hpos : 0 < s.heap.size) (ho : BinaryHeap.Ordered bpeCandLess s.heap)
    (h : Inv tok input (fun _ _ => False) s L) {syms : List Bytes}
    (hp : Popped tok input s.heap[0] s L syms) :
    greedy (mergeRank tok) (· ++ ·) syms =
      greedy (mergeRank tok) (· ++ ·) (symbolsOf input s.nodes L) := by
  rcases hp with rfl | ⟨A, r, B, rfl, hρ, rfl⟩
  · rfl
  simp only [symbolsOf, List.map_append, List.map_cons]
  symm
  apply greedy_minimal (mergeRank tok) (· ++ ·) _ _ _ _ _ hρ
  intro A' x' y' B' r' he hr'
  rw [← List.map_cons (f := fun i => symbol input s.nodes[i]!),
    ← List.map_cons (f := fun i => symbol input s.nodes[i]!), ← List.map_append] at he
  obtain ⟨L₁, L₂, hL, hA', hL₂⟩ := List.map_eq_append_iff.mp he
  obtain ⟨i, L₃, rfl, hx, hL₃⟩ := List.map_eq_cons_iff.mp hL₂
  obtain ⟨j, L₄, rfl, hy, -⟩ := List.map_eq_cons_iff.mp hL₃
  have hij : Adj (A ++ s.heap[0].left :: r :: B) i j := ⟨L₁, L₄, hL⟩
  have hc := h.covered i j r' hij (fun f => f) (by rw [rankOf, hx, hy]; exact hr')
  obtain ⟨k, hk, hck⟩ := Array.mem_iff_getElem.mp hc
  have hle := BinaryHeap.root_le candLess_asymm candLe_trans s.heap ho k hk
  rw [hck, le_iff] at hle
  simp only [candOf] at hle
  rcases hle with hlt | ⟨heq, hle⟩
  · exact .inl hlt
  · refine .inr ⟨heq, ?_⟩
    have := length_le_of_le h.sorted rfl hL hle
    rw [← hA']
    simpa using this

@[simp] theorem bpeApply_nodes_size (c : BpeCand) (s : Scratch) :
    (bpeApply tok input c s).nodes.size = s.nodes.size := by
  simp only [bpeApply]
  split <;> simp

theorem bpeApply_ordered (c : BpeCand) (s : Scratch)
    (h : BinaryHeap.Ordered bpeCandLess s.heap) :
    BinaryHeap.Ordered bpeCandLess (bpeApply tok input c s).heap := by
  simp only [bpeApply]
  split
  · exact h
  · exact pushNext_ordered _ _ (pushPrev_ordered _ _ h)

/-- One iteration keeps the invariant and lessens the work, whatever the order of the heap. -/
theorem bpeApply_spec (hpos : 0 < s.heap.size) {rest : Array BpeCand}
    (hrest : BinaryHeap.popRest UINT32_SIZE bpeCandLess s.heap hpos = some rest)
    (h : Inv tok input (fun _ _ => False) s L) {s' : Scratch}
    (hs : bpeApply tok input s.heap[0] { s with heap := rest } = s') :
    ∃ L', Inv tok input (fun _ _ => False) s' L' ∧ work s' L' < work s L ∧
      s'.heap.size + L'.length ≤ s.heap.size + L.length ∧ headIdx L' = headIdx L ∧
      Popped tok input s.heap[0] s L (symbolsOf input s'.nodes L') := by
  have hsize := popRest_size hpos hrest
  by_cases hstale : s.nodes[s.heap[0].left]!.ver ≠ s.heap[0].lver ∨
      s.nodes[s.heap[0].right]!.ver ≠ s.heap[0].rver
  · rw [bpeApply, if_pos hstale] at hs
    subst hs
    exact ⟨L, h.stale hpos hrest hstale, by simp only [work]; omega, by simp only; omega, rfl,
      .inl rfl⟩
  · have hmem : s.heap[0] ∈ s.heap := Array.getElem_mem hpos
    obtain ⟨⟨A, B, rfl⟩, hρ⟩ := h.fresh _ hmem (by omega) (by omega)
    have hm := h.merge hpos hrest rfl rfl
    have hsym := merged_symbol input h.links h.sorted
    have he : s' = pushNext tok input
        (pushPrev tok input (mergedScratch s hpos rest) s.heap[0].left) s.heap[0].left := by
      rw [← hs, bpeApply, if_neg hstale]
      rfl
    have h0 : (mergedScratch s hpos rest).heap.size = rest.size := rfl
    have h1 := pushPrev_size_le tok input (mergedScratch s hpos rest) s.heap[0].left
    have h2 := pushNext_size_le tok input
      (pushPrev tok input (mergedScratch s hpos rest) s.heap[0].left) s.heap[0].left
    rw [← he] at h2
    refine ⟨_, he ▸ hm.pushPrev.pushNext, ?_, ?_, headIdx_append A _ _ _, .inr ⟨A, _, B, rfl, hρ, ?_⟩⟩
    · simp only [work, List.length_append, List.length_cons]
      omega
    · simp only [List.length_append, List.length_cons]
      omega
    · obtain ⟨hlA, hlB, -, -⟩ := not_mem_of_sorted h.sorted
      have hmap : ∀ X, s.heap[0].left ∉ X → (∀ i ∈ X, i < s.nodes.size) →
          symbolsOf input (mergeNodes s.nodes s.heap[0].left s.heap[0].right) X =
            symbolsOf input s.nodes X := by
        intro X hX hXs
        refine List.map_congr_left fun i hi => ?_
        rw [hsym i (hXs i hi), if_neg (by rintro rfl; exact hX hi)]
      have hbnd := h.links.mem
      rw [he, pushNext_nodes, pushPrev_nodes, mergedScratch, symbolsOf, List.map_append,
        List.map_cons]
      change symbolsOf _ _ A ++ _ :: symbolsOf _ _ B = _
      rw [hmap A hlA (fun i hi => hbnd i (by simp [hi])),
        hmap B hlB (fun i hi => hbnd i (by simp [hi])),
        hsym _ (hbnd _ (by simp)), if_pos rfl]

/-- Where the loop can be after any number of iterations. -/
structure Reached (tok : Tokenizer) (input : Bytes) (s : Scratch) (L : List Nat) (s' : Scratch)
    (L' : List Nat) : Prop where
  inv : Inv tok input (fun _ _ => False) s' L'
  size : s'.nodes.size = s.nodes.size
  room : s'.heap.size + L'.length ≤ s.heap.size + L.length
  head : headIdx L' = headIdx L
  merges : Merges (mergeRank tok) (· ++ ·) (symbolsOf input s.nodes L) (symbolsOf input s'.nodes L')

theorem Reached.refl (h : Inv tok input (fun _ _ => False) s L) : Reached tok input s L s L :=
  ⟨h, rfl, Nat.le_refl _, rfl, .refl _⟩

theorem Reached.trans {s₁ s₂ : Scratch} {L₁ L₂ : List Nat} (h : Reached tok input s L s₁ L₁)
    (h' : Reached tok input s₁ L₁ s₂ L₂) : Reached tok input s L s₂ L₂ :=
  ⟨h'.inv, h'.size.trans h.size, h'.room.trans h.room, h'.head.trans h.head,
    h.merges.trans h'.merges⟩

theorem bpeStep_spec {hpos : 0 < s.heap.size} (h : Inv tok input (fun _ _ => False) s L)
    {s' : Scratch} (hs : bpeStep tok input s hpos = some s') :
    ∃ L', Reached tok input s L s' L' ∧ work s' L' < work s L ∧
      Popped tok input s.heap[0] s L (symbolsOf input s'.nodes L') := by
  obtain ⟨popped, hpop, rfl⟩ := Option.map_eq_some_iff.mp hs
  obtain ⟨rest, hrest, rfl⟩ := Option.map_eq_some_iff.mp hpop
  obtain ⟨L', h', hw, hroom, hhead, hp⟩ := bpeApply_spec hpos hrest h rfl
  exact ⟨L', ⟨h', bpeApply_nodes_size _ _, hroom, hhead, hp.merges⟩, hw, hp⟩

/-- Every run merges ranked pairs only, and enough fuel empties the heap. -/
theorem bpeLoop_reached (fuel : Nat) {s s' : Scratch} {L : List Nat}
    (h : Inv tok input (fun _ _ => False) s L) (hs : bpeLoop tok input fuel s = some s') :
    ∃ L', Reached tok input s L s' L' ∧ (work s L ≤ fuel → s'.heap.size = 0) := by
  induction fuel generalizing s L with
  | zero =>
    obtain rfl := Option.some.inj hs
    exact ⟨L, .refl h, fun hf => by simp only [work] at hf; omega⟩
  | succ fuel ih =>
    simp only [bpeLoop] at hs
    split at hs
    · obtain ⟨s₁, hs₁, hs⟩ := Option.bind_eq_some_iff.mp hs
      obtain ⟨L₁, hr₁, hw, -⟩ := bpeStep_spec h hs₁
      obtain ⟨L', hr, h0⟩ := ih hr₁.inv hs
      exact ⟨L', hr₁.trans hr, fun hf => h0 (by omega)⟩
    · obtain rfl := Option.some.inj hs
      exact ⟨L, .refl h, fun _ => by omega⟩

/-- The child positions that a pop computes fit in 32 bits. -/
def PopFits (s : Scratch) (hpos : 0 < s.heap.size) : Prop :=
  BinaryHeap.Fits UINT32_SIZE bpeCandLess s.heap.size (BinaryHeap.moveLast s.heap hpos) 0

theorem bpeStep_ordered (hpos : 0 < s.heap.size) (ho : BinaryHeap.Ordered bpeCandLess s.heap)
    (hfits : PopFits s hpos) :
    ∃ s', bpeStep tok input s hpos = some s' ∧ BinaryHeap.Ordered bpeCandLess s'.heap := by
  obtain ⟨rest, hrest, hordered⟩ :=
    BinaryHeap.popRest_ordered candLess_asymm candLe_trans _ hpos ho hfits
  refine ⟨bpeApply tok input s.heap[0] { s with heap := rest }, ?_, bpeApply_ordered _ _ hordered⟩
  simp only [bpeStep, bpeHeapPop, hrest, Option.map_some]

/-- An empty heap covers no pair, so the reference is stuck as well. -/
theorem Inv.stuck (h : Inv tok input (fun _ _ => False) s L) (h0 : s.heap.size = 0) :
    greedy (mergeRank tok) (· ++ ·) (symbolsOf input s.nodes L) = symbolsOf input s.nodes L := by
  refine greedy_stuck _ _ _ fun A x y B he => ?_
  obtain ⟨L₁, L₂, hL, -, hL₂⟩ := List.map_eq_append_iff.mp he
  obtain ⟨i, L₃, rfl, hx, hL₃⟩ := List.map_eq_cons_iff.mp hL₂
  obtain ⟨j, L₄, rfl, hy, -⟩ := List.map_eq_cons_iff.mp hL₃
  cases hr : mergeRank tok x y with
  | none => rfl
  | some ρ =>
    have hc := h.covered i j ρ ⟨L₁, L₄, hL⟩ (fun f => f) (by rw [rankOf, hx, hy]; exact hr)
    rw [Array.eq_empty_of_size_eq_zero h0] at hc
    simp at hc

/-- While the child positions fit, the loop ends with the reference's symbols. -/
theorem bpeLoop_greedy (fuel : Nat) {s : Scratch} {L : List Nat}
    (h : Inv tok input (fun _ _ => False) s L) (ho : BinaryHeap.Ordered bpeCandLess s.heap)
    (hfits : ∀ k s' (hpos : 0 < s'.heap.size), bpeLoop tok input k s = some s' → PopFits s' hpos)
    (hf : work s L ≤ fuel) :
    ∃ s' L', bpeLoop tok input fuel s = some s' ∧ Reached tok input s L s' L' ∧
      s'.heap.size = 0 ∧ symbolsOf input s'.nodes L' =
        greedy (mergeRank tok) (· ++ ·) (symbolsOf input s.nodes L) := by
  induction fuel generalizing s L with
  | zero =>
    have h0 : s.heap.size = 0 := by simp only [work] at hf; omega
    exact ⟨s, L, rfl, .refl h, h0, (h.stuck h0).symm⟩
  | succ fuel ih =>
    simp only [bpeLoop]
    split
    · rename_i hpos
      obtain ⟨s₁, hs₁, ho₁⟩ := bpeStep_ordered hpos ho (hfits 0 s hpos rfl)
      obtain ⟨L₁, hr₁, hw, hp⟩ := bpeStep_spec h hs₁
      have hfits₁ : ∀ k s' (hpos : 0 < s'.heap.size), bpeLoop tok input k s₁ = some s' →
          PopFits s' hpos := by
        intro k s' hpos' hs'
        refine hfits (k + 1) s' hpos' ?_
        rw [bpeLoop, dif_pos hpos, hs₁, Option.bind_some, hs']
      obtain ⟨s', L', hs', hr, h0, hg⟩ := ih hr₁.inv ho₁ hfits₁ (by omega)
      rw [hs₁, Option.bind_some]
      exact ⟨s', L', hs', hr₁.trans hr, h0, hg.trans (hp.greedy hpos ho h)⟩
    · exact ⟨s, L, rfl, .refl h, by omega, (h.stuck (by omega)).symm⟩

end Loop

/-! ## The first nodes and the seeded heap -/

section Init

variable (tok : Tokenizer) (input : Bytes)

theorem getElem!_push (a : Array BpeNode) (v : BpeNode) (i : Nat) :
    (a.push v)[i]! = if i = a.size then v else a[i]! := by
  rcases Nat.lt_trichotomy i a.size with h | h | h
  · rw [getElem!_pos (a.push v) i (by simp; omega), getElem!_pos a i h, if_neg (by omega),
      Array.getElem_push_lt h]
  · simp [h]
  · rw [getElem!_neg (a.push v) i (by simp; omega), getElem!_neg a i (by omega),
      if_neg (by omega)]

/-- `R` is `nodes` followed by `n` linked nodes for the codepoints from `pos` on. -/
structure Appended (input : Bytes) (fuel pos : Nat) (nodes R : Array BpeNode) (n : Nat) :
    Prop where
  size : R.size = nodes.size + n
  empty_iff : n = 0 ↔ input.length ≤ pos
  keep : ∀ i < nodes.size, R[i]! = nodes[i]!
  start : pos < input.length → R[nodes.size]!.start = pos
  links : Links R ((nodes.size : Int) - 1) (List.range' nodes.size n)
  symbols : symbolsOf input R (List.range' nodes.size n) = codepointsLoop fuel (input.drop pos)

/-- The `k`-th node when it is first made. -/
def nodeAt (input : Bytes) (pos stop k : Nat) : BpeNode where
  start := pos
  stop := stop
  prev := (k : Int) - 1
  next := if stop < input.length then (k : Int) + 1 else -1
  ver := 0

theorem splitNodes_succ (fuel pos : Nat) (nodes : Array BpeNode) (h : pos < input.length) :
    splitNodes input (fuel + 1) pos nodes =
      splitNodes input fuel (pos + (decodeHead (input.drop pos)).len)
        (nodes.push (nodeAt input pos (pos + (decodeHead (input.drop pos)).len) nodes.size)) := by
  rw [splitNodes, if_pos h]
  rfl

theorem splitNodes_done (fuel pos : Nat) (nodes : Array BpeNode) (h : input.length ≤ pos) :
    splitNodes input fuel pos nodes = nodes := by
  cases fuel with
  | zero => rfl
  | succ fuel => simp only [splitNodes, if_neg (Nat.not_lt.mpr h)]

theorem codepointsLoop_nil (fuel : Nat) : codepointsLoop fuel [] = [] := by
  cases fuel <;> rfl

theorem appended_end (fuel : Nat) {pos : Nat} (nodes : Array BpeNode) (h : input.length ≤ pos) :
    Appended input fuel pos nodes (splitNodes input fuel pos nodes) 0 := by
  rw [splitNodes_done input fuel pos nodes h]
  refine ⟨rfl, by omega, fun _ _ => rfl, fun hlt => by omega, trivial, ?_⟩
  rw [List.drop_eq_nil_of_le h, codepointsLoop_nil]
  rfl

/-- Where there is input left, the node behind the next one follows it. -/
theorem Appended.next {fuel stop : Nat} {nodes R : Array BpeNode} {n : Nat}
    (h : Appended input fuel stop nodes R n) (k : Nat) :
    ((List.range' k n).head? = if stop < input.length then some k else none) ∧
      headIdx (List.range' k n) = if stop < input.length then (k : Int) else -1 := by
  have hempty := h.empty_iff
  cases n with
  | zero => rw [if_neg (by omega), if_neg (by omega)]; exact ⟨rfl, rfl⟩
  | succ n => rw [if_pos (by omega), if_pos (by omega)]; exact ⟨rfl, rfl⟩

/-- A node for the next codepoint goes before the nodes of the rest. -/
theorem Appended.cons {fuel pos : Nat} {nodes R : Array BpeNode} {n : Nat}
    (hpos : pos < input.length)
    (h : Appended input fuel (pos + (decodeHead (input.drop pos)).len) (nodes.push (nodeAt input pos
      (pos + (decodeHead (input.drop pos)).len) nodes.size)) R n) :
    Appended input (fuel + 1) pos nodes R (n + 1) := by
  have hne : input.drop pos ≠ [] := by simpa using hpos
  have hlen := decodeHead_len_pos _ hne
  generalize hstop : pos + (decodeHead (input.drop pos)).len = stop at h
  generalize hv : nodeAt input pos stop nodes.size = v at h
  have hhead : R[nodes.size]! = v := by
    rw [h.keep _ (by simp), getElem!_push, if_pos rfl]
  obtain ⟨hhd, hidx⟩ := h.next input (nodes.size + 1)
  have hsize := h.size
  have hlinks := h.links
  have hsyms := h.symbols
  have hstart := h.start
  simp only [Array.size_push] at hsize hlinks hsyms hstart
  have hv₁ : v.start = pos := by rw [← hv, nodeAt]
  have hv₂ : v.stop = stop := by rw [← hv, nodeAt]
  have hv₃ : v.prev = (nodes.size : Int) - 1 := by rw [← hv, nodeAt]
  have hv₄ : v.next = headIdx (List.range' (nodes.size + 1) n) := by
    rw [← hv, nodeAt, hidx, Int.natCast_add, Int.natCast_one]
  refine ⟨by omega, by omega, fun i hi => ?_, fun _ => ?_, ?_, ?_⟩
  · rw [h.keep i (by simp; omega), getElem!_push, if_neg (by omega)]
  · rw [hhead, hv₁]
  · rw [List.range'_succ]
    refine ⟨by omega, by rw [hhead, hv₃], by rw [hhead, hv₄], by rw [hhead]; omega,
      fun j hj => ?_, by simpa using hlinks⟩
    rw [hhd] at hj
    split at hj
    · rename_i hs
      rw [← Option.some.inj hj, hstart hs, hhead, hv₂]
    · contradiction
  · have hhd' : symbol input R[nodes.size]! =
        (input.drop pos).take (decodeHead (input.drop pos)).len := by
      rw [hhead, symbol, slice, hv₁, hv₂]
      congr 1
      omega
    rw [List.range'_succ, symbolsOf, List.map_cons, hhd', codepointsLoop, if_neg hne,
      List.drop_drop, hstop, ← hsyms]
    rfl

/-- Splitting keeps the nodes it has and appends the linked nodes of the rest. -/
theorem splitNodes_spec (fuel pos : Nat) (nodes : Array BpeNode)
    (hf : input.length ≤ pos + fuel) :
    ∃ n, Appended input fuel pos nodes (splitNodes input fuel pos nodes) n := by
  induction fuel generalizing pos nodes with
  | zero => exact ⟨0, appended_end input 0 nodes (by omega)⟩
  | succ fuel ih =>
    by_cases hpos : input.length ≤ pos
    · exact ⟨0, appended_end input (fuel + 1) nodes hpos⟩
    · have hlen := decodeHead_len_pos (input.drop pos) (by simpa using hpos)
      rw [splitNodes_succ input fuel pos nodes (Nat.lt_of_not_le hpos)]
      obtain ⟨n, hrest⟩ := ih (pos + (decodeHead (input.drop pos)).len) (nodes.push (nodeAt input
        pos (pos + (decodeHead (input.drop pos)).len) nodes.size)) (by omega)
      exact ⟨n + 1, hrest.cons input (Nat.lt_of_not_le hpos)⟩

/-- Adjacent entries of a range are consecutive. -/
theorem adj_range (n i j : Nat) (h : Adj (List.range n) i j) : i + 1 = j ∧ i < n - 1 := by
  obtain ⟨A, B, he⟩ := h
  have hlen : A.length + 1 < n := by
    have := congrArg List.length he
    simp at this
    omega
  have hi : (List.range n)[A.length]? = some i := by rw [he]; simp
  have hj : (List.range n)[A.length + 1]? = some j := by rw [he]; simp
  rw [List.getElem?_range (by omega), Option.some.injEq] at hi hj
  omega

theorem range_adj (n i : Nat) (h : i < n - 1) : Adj (List.range n) i (i + 1) := by
  refine ⟨List.range i, List.range' (i + 2) (n - i - 2), ?_⟩
  rw [List.range_eq_range', List.range_eq_range',
    show n = i + (n - i - 2 + 1 + 1) by omega, ← List.range'_append_1, List.range'_succ,
    List.range'_succ]
  simp

/-- Before the merge loop the nodes are the codepoints and every ranked pair waits. -/
theorem seedHeap_spec (s₀ : Array BpeNode) (n : Nat)
    (hlinks : Links s₀ (-1) (List.range n)) (m : Nat) (hm : m ≤ n - 1) :
    let s := (List.range m).foldl (fun s j => bpePushCand tok input s j (j + 1)) ⟨s₀, #[]⟩
    Inv tok input (fun i _ => m ≤ i) s (List.range n) ∧ s.nodes = s₀ ∧ s.heap.size ≤ m ∧
      BinaryHeap.Ordered bpeCandLess s.heap := by
  induction m with
  | zero =>
    refine ⟨⟨hlinks, List.pairwise_lt_range, ?_, ?_, ?_⟩, rfl, Nat.le_refl _, ?_⟩
    · exact fun i j ρ _ ht => absurd (Nat.zero_le i) ht
    · exact fun c hc => by simp at hc
    · exact fun c hc => by simp at hc
    · exact fun i _ hi => absurd hi (Nat.not_lt_zero i)
  | succ m ih =>
    obtain ⟨h, hnodes, hheap, ho⟩ := ih (by omega)
    simp only [List.range_succ, List.foldl_append, List.foldl_cons, List.foldl_nil]
    refine ⟨(h.push (range_adj n m (by omega))).weaken fun i j hij ht => ?_, ?_, ?_,
      push_heap_ordered _ _ _ _ _ ho⟩
    · obtain ⟨rfl, -⟩ := adj_range n i j hij
      omega
    · rw [push_nodes, hnodes]
    · have := push_size_le tok input
        ((List.range m).foldl (fun s j => bpePushCand tok input s j (j + 1)) ⟨s₀, #[]⟩) m (m + 1)
      omega

/-- Walking the links from the first node meets exactly the live nodes. -/
theorem survivors_links (nodes : Array BpeNode) (L : List Nat) (p : Int)
    (h : Links nodes p L) (fuel : Nat) (hf : L.length ≤ fuel) :
    survivors nodes fuel (headIdx L) = L := by
  induction L generalizing p fuel with
  | nil => cases fuel <;> simp [survivors, headIdx]
  | cons i t ih =>
    obtain ⟨fuel, rfl⟩ : ∃ f, fuel = f + 1 := ⟨fuel - 1, by simp at hf; omega⟩
    obtain ⟨-, -, hn, -, -, ht⟩ := h
    rw [survivors, headIdx, if_pos (Int.natCast_nonneg i), Int.toNat_natCast, hn,
      ih _ ht fuel (by simpa using hf)]

theorem codepointsLoop_length (fuel : Nat) (s : Bytes) : (codepointsLoop fuel s).length ≤ fuel := by
  induction fuel generalizing s with
  | zero => exact Nat.le_refl 0
  | succ fuel ih =>
    simp only [codepointsLoop]
    split
    · exact Nat.zero_le _
    · simpa using ih _

/-- The scratch the merge loop starts from, for an input of `n` codepoints. -/
structure Seeded (tok : Tokenizer) (input : Bytes) (n : Nat) (s : Scratch) : Prop where
  inv : Inv tok input (fun _ _ => False) s (List.range n)
  size : s.nodes.size = n
  heap : s.heap.size ≤ n - 1
  ordered : BinaryHeap.Ordered bpeCandLess s.heap
  symbols : symbolsOf input s.nodes (List.range n) = codepoints input

theorem seedHeap_seeded : Seeded tok input (codepoints input).length
    (seedHeap tok input (splitNodes input input.length 0 #[])) := by
  obtain ⟨n, hR⟩ := splitNodes_spec input input.length 0 #[] (by omega)
  have hsize : (splitNodes input input.length 0 #[]).size = n := by simpa using hR.size
  have hlinks : Links (splitNodes input input.length 0 #[]) (-1) (List.range n) := by
    simpa [List.range_eq_range'] using hR.links
  have hsyms : symbolsOf input (splitNodes input input.length 0 #[]) (List.range n) =
      codepoints input := by
    simpa [List.range_eq_range', codepoints] using hR.symbols
  have hn : (codepoints input).length = n := by
    rw [← hsyms, symbolsOf, List.length_map, List.length_range]
  obtain ⟨hinv, hnodes, hheap, ho⟩ :=
    seedHeap_spec tok input _ n hlinks (n - 1) (Nat.le_refl _)
  rw [hn, seedHeap, hsize]
  refine ⟨hinv.weaken fun i j hij ht => ?_, by rw [hnodes, hsize], hheap, ho, by rw [hnodes, hsyms]⟩
  have := adj_range n i j hij
  omega

section Reached

variable {tok input} {n : Nat} {s s' : Scratch} {L' : List Nat}

theorem Reached.length_le (h : Seeded tok input n s)
    (hr : Reached tok input s (List.range n) s' L') : L'.length ≤ n := by
  have hsub : L'.Subperm (List.range n) :=
    List.subperm_of_subset (hr.inv.sorted.imp fun h => Nat.ne_of_lt h) fun i hi =>
      List.mem_range.mpr (h.size ▸ hr.size ▸ hr.inv.links.mem i hi)
  simpa using hsub.length_le

/-- The walk over the survivors meets the symbols of the live nodes. -/
theorem Reached.symbols_eq (h : Seeded tok input n s)
    (hr : Reached tok input s (List.range n) s' L') :
    symbols input s'.nodes = symbolsOf input s'.nodes L' := by
  have hsize : s'.nodes.size = n := hr.size.trans h.size
  have hfirst : (if 0 < s'.nodes.size then (0 : Int) else -1) = headIdx L' := by
    rw [hr.head, hsize]
    cases n with
    | zero => rfl
    | succ n => simp [List.range_succ_eq_map, headIdx]
  rw [symbols, hfirst, survivors_links _ _ _ hr.inv.links _ (by rw [hsize]; exact hr.length_le h)]
  rfl

/-- Heap and live nodes together never outgrow the seeds and the codepoints. -/
theorem Reached.heap_le (h : Seeded tok input n s)
    (hr : Reached tok input s (List.range n) s' L') : s'.heap.size ≤ 2 * (n - 1) := by
  have hroom := hr.room
  have hheap := h.heap
  have hhead := hr.head
  rw [List.length_range] at hroom
  cases n with
  | zero => omega
  | succ n =>
    cases L' with
    | nil => simp [List.range_succ_eq_map, headIdx] at hhead
    | cons i L' =>
      simp only [List.length_cons] at hroom
      omega

end Reached

theorem seed_work {n : Nat} {s : Scratch} (h : Seeded tok input n s) (hn : n ≤ input.length) :
    work s (List.range n) ≤ 3 * input.length := by
  have hheap := h.heap
  simp only [work, List.length_range]
  omega

theorem codepoints_length : (codepoints input).length ≤ input.length :=
  codepointsLoop_length input.length input

/-- Whatever the order of the heap, the symbols come from merging ranked pairs, and enough
fuel leaves no candidate. -/
theorem bpeRun_merges {fuel : Nat} {s : Scratch} (hs : bpeRun tok input fuel = some s) :
    Merges (mergeRank tok) (· ++ ·) (codepoints input) (symbols input s.nodes) ∧
      s.heap.size ≤ 2 * ((codepoints input).length - 1) ∧
      (3 * input.length ≤ fuel → s.heap.size = 0) := by
  have h := seedHeap_seeded tok input
  obtain ⟨L', hr, h0⟩ := bpeLoop_reached fuel h.inv hs
  refine ⟨?_, hr.heap_le h, fun hf => h0 ((seed_work tok input h (codepoints_length input)).trans hf)⟩
  rw [hr.symbols_eq h, ← h.symbols]
  exact hr.merges

/-- No pop of the run computes a child position that does not fit in 32 bits. -/
def PopsFit (tok : Tokenizer) (input : Bytes) : Prop :=
  ∀ fuel s (hpos : 0 < s.heap.size), bpeRun tok input fuel = some s → PopFits s hpos

/-- The heap of a text of at most `2 ^ 30 + 1` codepoints is too small for such a position. -/
theorem popsFit_of_length (hlen : (codepoints input).length ≤ 1073741825) :
    PopsFit tok input := by
  intro fuel s hpos hs
  have hheap := (bpeRun_merges tok input hs).2.1
  refine BinaryHeap.fits_of_size _ _ _ ?_ (by decide) (.inr rfl)
  rw [BinaryHeap.moveLast_size, UINT32_SIZE]
  omega

/-- After enough iterations no candidate is left and the survivors are the reference's. -/
theorem bpeRun_spec (hfits : PopsFit tok input) (fuel : Nat) (hf : 3 * input.length ≤ fuel) :
    ∃ s, bpeRun tok input fuel = some s ∧ s.heap.size = 0 ∧
      symbols input s.nodes = naiveMerge tok input := by
  have h := seedHeap_seeded tok input
  obtain ⟨s, L', hs, hr, h0, hg⟩ := bpeLoop_greedy fuel h.inv h.ordered hfits
    ((seed_work tok input h (codepoints_length input)).trans hf)
  exact ⟨s, hs, h0, by rw [hr.symbols_eq h, hg, h.symbols, naiveMerge]⟩

end Init

/-- The ids of a merge whose child positions fit, by the reference. -/
theorem bpeMerge_eq {tok : Tokenizer} {input : Bytes} (htype : tok.type ≠ .wordpiece)
    (hlen : input.length ≤ INT32_MAX) (hfits : PopsFit tok input) :
    bpeMerge tok input = some ((naiveMerge tok input).flatMap (bpeEmitSymbol tok)) := by
  obtain ⟨s, hs, -, hsyms⟩ := bpeRun_spec tok input hfits _ (Nat.le_refl _)
  rw [bpeMerge, if_neg htype, if_neg (Nat.not_lt.mpr hlen), hs, Option.map_some, hsyms]

/-- Byte-level tokenizer whose only merge joins two letters `a`. -/
def doubleA : Tokenizer where
  type := .bpe
  vocab := (∅ : StrMap).insert (ascii "a") 0 |>.insert (ascii "aa") 1
  merges := (∅ : MergeMap).insert (ascii "a", ascii "a") 0
  specialTokens := ∅
  addedSpecial := ∅
  idToToken := fun id => [ascii "a", ascii "aa"][id]?
  idToTokenCap := 2
  vocabSize := 2
  bosId := -1
  eosId := -1
  unkId := -1
  normForm := .none
  addDummyPrefix := false
  wpPrefix := ascii "##"
  wpCleanup := true
  byteFallbackIds := fun b => if b = 97 then 0 else -1
  bytesUnicode := ucBuildBytesToUnicode

end Mlxd.BpeMerge
