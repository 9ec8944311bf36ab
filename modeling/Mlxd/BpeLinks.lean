import Mlxd.BpeMerge

/-!
# Candidates and linked nodes

What a push adds to the heap, what a merge does to the nodes, and the predicate
that the links of the nodes walk a given list, from left to right.
-/
namespace Mlxd.BpeMerge

open Mlxd.Unicode Mlxd.TokLoad

def mergeRank (tok : Tokenizer) (x y : Bytes) : Option Nat := tok.merges.lookup (x, y)

/-! ## Candidates and pushes -/

theorem le_iff (a b : BpeCand) : BinaryHeap.Le bpeCandLess a b ↔
    a.rank < b.rank ∨ a.rank = b.rank ∧ a.left ≤ b.left := by
  unfold BinaryHeap.Le bpeCandLess
  split <;> simp <;> omega

theorem candLess_asymm (a b : BpeCand) (h : bpeCandLess a b = true) : bpeCandLess b a = false := by
  unfold bpeCandLess at *
  split at h <;> split <;> simp_all <;> omega

theorem candLe_trans (a b c : BpeCand) (h₁ : BinaryHeap.Le bpeCandLess a b)
    (h₂ : BinaryHeap.Le bpeCandLess b c) : BinaryHeap.Le bpeCandLess a c := by
  rw [le_iff] at *
  omega

/-- The merge rank of the current symbols of two nodes. -/
def rankOf (tok : Tokenizer) (input : Bytes) (nodes : Array BpeNode) (i j : Nat) : Option Nat :=
  mergeRank tok (symbol input nodes[i]!) (symbol input nodes[j]!)

/-- The candidate that describes the pair `(i, j)` as it is now. -/
def candOf (nodes : Array BpeNode) (rank i j : Nat) : BpeCand :=
  ⟨rank, i, j, nodes[i]!.ver, nodes[j]!.ver⟩

section Push

variable (tok : Tokenizer) (input : Bytes) (s : Scratch) (l r : Nat)

theorem bpePushCand_eq : bpePushCand tok input s l r =
    match rankOf tok input s.nodes l r with
    | none => s
    | some ρ => { s with heap := BinaryHeap.push bpeCandLess s.heap (candOf s.nodes ρ l r) } := rfl

@[simp] theorem push_nodes : (bpePushCand tok input s l r).nodes = s.nodes := by
  rw [bpePushCand_eq]
  split <;> rfl

theorem push_mem (c : BpeCand) : c ∈ (bpePushCand tok input s l r).heap ↔
    c ∈ s.heap ∨ ∃ ρ, rankOf tok input s.nodes l r = some ρ ∧ c = candOf s.nodes ρ l r := by
  rw [bpePushCand_eq]
  split
  · rename_i h
    simp [h]
  · rename_i ρ h
    rw [← Array.mem_toList_iff, (BinaryHeap.push_perm _ _ _).mem_iff]
    simp [h, or_comm]

theorem push_heap_ordered (h : BinaryHeap.Ordered bpeCandLess s.heap) :
    BinaryHeap.Ordered bpeCandLess (bpePushCand tok input s l r).heap := by
  rw [bpePushCand_eq]
  split
  · exact h
  · exact BinaryHeap.push_ordered candLess_asymm candLe_trans _ _ h

theorem push_size_le : (bpePushCand tok input s l r).heap.size ≤ s.heap.size + 1 := by
  rw [bpePushCand_eq]
  split
  · exact Nat.le_succ _
  · rename_i ρ _
    have h := (BinaryHeap.push_perm bpeCandLess s.heap (candOf s.nodes ρ l r)).length_eq
    simp only [Array.length_toList, List.length_cons] at h
    exact Nat.le_of_eq h

end Push

/-! ## Linked nodes -/

/-- The index of the first node, or -1. -/
def headIdx : List Nat → Int
  | [] => -1
  | i :: _ => i

/-- Following the links from a node after `p` meets exactly the listed nodes, whose
symbols are contiguous. -/
def Links (nodes : Array BpeNode) : Int → List Nat → Prop
  | _, [] => True
  | p, i :: t =>
    i < nodes.size ∧ nodes[i]!.prev = p ∧ nodes[i]!.next = headIdx t ∧
      nodes[i]!.start ≤ nodes[i]!.stop ∧
      (∀ j, t.head? = some j → nodes[i]!.stop = nodes[j]!.start) ∧ Links nodes i t

/-- `i` and `j` stand next to each other in the list. -/
def Adj (L : List Nat) (i j : Nat) : Prop := ∃ A B, L = A ++ i :: j :: B

theorem getElem!_setIfInBounds (a : Array BpeNode) (i j : Nat) (v : BpeNode) (hj : j < a.size) :
    (a.setIfInBounds i v)[j]! = if i = j then v else a[j]! := by
  rw [getElem!_pos (a.setIfInBounds i v) j (by simpa using hj), getElem!_pos a j hj,
    Array.getElem_setIfInBounds hj]

@[simp] theorem mergeNodes_size (nodes : Array BpeNode) (l r : Nat) :
    (mergeNodes nodes l r).size = nodes.size := by
  simp only [mergeNodes]
  split <;> simp

/-- What a merge does to each node. -/
theorem mergeNodes_get (nodes : Array BpeNode) (l r i : Nat) (hi : i < nodes.size) (hlr : l ≠ r)
    (hl : nodes[r]!.next ≠ l) (hr : nodes[r]!.next ≠ r) :
    (mergeNodes nodes l r)[i]! =
      if i = l then { nodes[l]! with
        stop := nodes[r]!.stop, ver := nodes[l]!.ver + 1, next := nodes[r]!.next }
      else if i = r then { nodes[r]! with ver := nodes[r]!.ver + 1 }
      else if (i : Int) = nodes[r]!.next then { nodes[i]! with prev := l }
      else nodes[i]! := by
  simp only [mergeNodes]
  split
  · rename_i hnext
    rw [getElem!_setIfInBounds _ _ _ _ (by simpa using hi)]
    by_cases hin : nodes[r]!.next.toNat = i
    · have hil : i ≠ l := by omega
      have hir : i ≠ r := by omega
      rw [if_pos hin, hin, getElem!_setIfInBounds _ _ _ _ (by simpa using hi),
        getElem!_setIfInBounds _ _ _ _ hi]
      simp only [if_neg hil, if_neg hir, if_neg (Ne.symm hil), if_neg (Ne.symm hir)]
      rw [if_pos (by omega)]
    · rw [if_neg hin, getElem!_setIfInBounds _ _ _ _ (by simpa using hi),
        getElem!_setIfInBounds _ _ _ _ hi, if_neg (show ¬ (i : Int) = nodes[r]!.next by omega)]
      by_cases hil : i = l
      · subst i; simp [Ne.symm hlr]
      · by_cases hir : i = r
        · subst i; simp [hil]
        · simp [hil, hir, Ne.symm hil, Ne.symm hir]
  · rename_i hnext
    rw [getElem!_setIfInBounds _ _ _ _ (by simpa using hi),
      getElem!_setIfInBounds _ _ _ _ hi, if_neg (show ¬ (i : Int) = nodes[r]!.next by omega)]
    by_cases hil : i = l
    · subst i; simp [Ne.symm hlr]
    · by_cases hir : i = r
      · subst i; simp [hil]
      · simp [hil, hir, Ne.symm hil, Ne.symm hir]

/-- The last index of the list, or `p` when it is empty. -/
def lastOr (p : Int) : List Nat → Int
  | [] => p
  | i :: t => lastOr i t

theorem lastOr_append (p : Int) (A : List Nat) (i : Nat) : lastOr p (A ++ [i]) = i := by
  induction A generalizing p with
  | nil => rfl
  | cons a A ih => exact ih a

theorem headIdx_append (A : List Nat) (l : Nat) (t u : List Nat) :
    headIdx (A ++ l :: t) = headIdx (A ++ l :: u) := by
  cases A <;> rfl

section Links

variable {nodes nodes' : Array BpeNode} {p : Int} {L : List Nat}

theorem Links.mem (h : Links nodes p L) : ∀ i ∈ L, i < nodes.size := by
  induction L generalizing p with
  | nil => simp
  | cons a t ih =>
    intro i hi
    rcases List.mem_cons.mp hi with rfl | hi
    · exact h.1
    · exact ih h.2.2.2.2.2 i hi

/-- The links and the slices are all that matters. -/
theorem Links.frame (hsize : nodes'.size = nodes.size) (h : Links nodes p L)
    (hsame : ∀ i ∈ L, nodes'[i]!.prev = nodes[i]!.prev ∧ nodes'[i]!.next = nodes[i]!.next ∧
      nodes'[i]!.start = nodes[i]!.start ∧ nodes'[i]!.stop = nodes[i]!.stop) :
    Links nodes' p L := by
  induction L generalizing p with
  | nil => trivial
  | cons a t ih =>
    obtain ⟨h1, h2, h3, h4, h5, h6⟩ := h
    obtain ⟨e1, e2, e3, e4⟩ := hsame a (by simp)
    refine ⟨by omega, by rw [e1, h2], by rw [e2, h3], by omega, ?_,
      ih h6 fun i hi => hsame i (by simp [hi])⟩
    intro j hj
    obtain ⟨-, -, e, -⟩ := hsame j (by simp [List.mem_of_mem_head? hj])
    rw [e4, e, h5 j hj]

/-- The neighbours of a node inside the list. -/
theorem Links.split (A : List Nat) (l : Nat) (t : List Nat) (h : Links nodes p (A ++ l :: t)) :
    Links nodes (lastOr p A) (l :: t) := by
  induction A generalizing p with
  | nil => exact h
  | cons a A ih => exact ih h.2.2.2.2.2

/-- Merging `r` into its left neighbour `l` unlinks `r` and keeps everything else. -/
theorem Links.merge {l r : Nat} {B : List Nat} (hsize : nodes'.size = nodes.size)
    (hget : ∀ i, i < nodes.size → nodes'[i]! =
      if i = l then { nodes[l]! with
        stop := nodes[r]!.stop, ver := nodes[l]!.ver + 1, next := headIdx B }
      else if i = r then { nodes[r]! with ver := nodes[r]!.ver + 1 }
      else if (i : Int) = headIdx B then { nodes[i]! with prev := l }
      else nodes[i]!)
    (A : List Nat) (h : Links nodes p (A ++ l :: r :: B)) (hnd : (A ++ l :: r :: B).Nodup) :
    Links nodes' p (A ++ l :: B) := by
  have hstart : ∀ i, i < nodes.size → nodes'[i]!.start = nodes[i]!.start := by
    intro i hi
    rw [hget i hi]
    split
    · simp_all
    · split
      · simp_all
      · split <;> rfl
  induction A generalizing p with
  | nil =>
    obtain ⟨hl, hp, -, hle, hc, hr, -, -, hle', hc', hB⟩ := h
    have hcr := hc r rfl
    have hlr : l ≠ r := by rintro rfl; simp at hnd
    have hnl : nodes'[l]! = _ := (hget l hl).trans (if_pos rfl)
    refine ⟨by omega, by rw [hnl]; exact hp, by rw [hnl], by rw [hnl]; simp only; omega, ?_, ?_⟩
    · intro j hj
      rw [hnl, hstart j (hB.mem j (List.mem_of_mem_head? hj))]
      exact hc' j hj
    · cases B with
      | nil => trivial
      | cons b B =>
        obtain ⟨hb, -, hbn, hble, hbc, hB'⟩ := hB
        simp only [List.nil_append, List.nodup_cons, List.mem_cons, not_or] at hnd
        have hnb : nodes'[b]! = _ := (hget b hb).trans
          ((if_neg (Ne.symm hnd.1.2.1)).trans ((if_neg (Ne.symm hnd.2.1.1)).trans (if_pos rfl)))
        refine ⟨by omega, by rw [hnb], by rw [hnb]; exact hbn, by rw [hnb]; exact hble, ?_, ?_⟩
        · intro j hj
          rw [hnb, hstart j (hB'.mem j (List.mem_of_mem_head? hj))]
          exact hbc j hj
        · refine hB'.frame hsize fun i hi => ?_
          have hil : i ≠ l := by rintro rfl; exact hnd.1.2.2 hi
          have hir : i ≠ r := by rintro rfl; exact hnd.2.1.2 hi
          have hib : i ≠ b := by rintro rfl; exact hnd.2.2.1 hi
          have hib' : (i : Int) ≠ b := fun he => hib (Int.ofNat.inj he)
          simp [hget i (hB'.mem i hi), hil, hir, headIdx, hib']
  | cons a A ih =>
    obtain ⟨ha, hp, hn, hle, hc, hrest⟩ := h
    have hnd' := (List.nodup_cons.mp hnd).2
    have hmem := (List.nodup_cons.mp hnd).1
    simp only [List.append_eq, List.mem_append, List.mem_cons, not_or] at hmem
    have hab : (a : Int) ≠ headIdx B := by
      cases B with
      | nil => simp [headIdx]
      | cons b B =>
        intro hab
        obtain rfl := Int.ofNat.inj hab
        simp at hmem
    have hna : nodes'[a]! = nodes[a]! := by
      simp [hget a ha, hmem.2.1, hmem.2.2.1, hab]
    refine ⟨by omega, by rw [hna]; exact hp, ?_, by rw [hna]; exact hle, ?_, ih hrest hnd'⟩
    · rw [hna, hn]
      exact headIdx_append A l _ _
    · intro j hj
      have hj' : (A ++ l :: r :: B).head? = some j := by
        cases A <;> simpa using hj
      rw [hna, hstart j (hrest.mem j (List.mem_of_mem_head? hj'))]
      exact hc j hj'

end Links

/-! ## Adjacency -/

theorem adj_split (A : List Nat) (l : Nat) (B : List Nat) (i j : Nat) (h : Adj (A ++ l :: B) i j) :
    Adj A i j ∨ (∃ A', A = A' ++ [i]) ∧ j = l ∨ i = l ∧ (∃ B', B = j :: B') ∨ Adj B i j := by
  obtain ⟨X, Y, he⟩ := h
  rcases List.append_eq_append_iff.mp he with ⟨as, hX, hl⟩ | ⟨cs, hA, hl⟩
  · cases as with
    | nil =>
      simp only [List.nil_append, List.cons.injEq] at hl
      exact .inr (.inr (.inl ⟨hl.1.symm, Y, hl.2⟩))
    | cons a as =>
      simp only [List.cons_append, List.cons.injEq] at hl
      exact .inr (.inr (.inr ⟨as, Y, hl.2⟩))
  · rcases cs with _ | ⟨a, _ | ⟨b, cs⟩⟩
    · simp only [List.nil_append, List.cons.injEq] at hl
      exact .inr (.inr (.inl ⟨hl.1, Y, hl.2.symm⟩))
    · simp only [List.cons_append, List.nil_append, List.cons.injEq] at hl
      obtain ⟨rfl, rfl, -⟩ := hl
      exact .inr (.inl ⟨⟨X, hA⟩, rfl⟩)
    · simp only [List.cons_append, List.cons.injEq] at hl
      obtain ⟨rfl, rfl, -⟩ := hl
      exact .inl ⟨X, cs, hA⟩

theorem Adj.append_left {B : List Nat} {i j : Nat} (h : Adj B i j) (A : List Nat) :
    Adj (A ++ B) i j := by
  obtain ⟨X, Y, rfl⟩ := h
  exact ⟨A ++ X, Y, by simp⟩

theorem Adj.append_right {A : List Nat} {i j : Nat} (h : Adj A i j) (B : List Nat) :
    Adj (A ++ B) i j := by
  obtain ⟨X, Y, rfl⟩ := h
  exact ⟨X, Y ++ B, by simp⟩

theorem Adj.mem {L : List Nat} {i j : Nat} (h : Adj L i j) : i ∈ L ∧ j ∈ L := by
  obtain ⟨A, B, rfl⟩ := h
  simp

/-- In a sorted list the lesser entry stands first. -/
theorem length_le_of_le {L A A' X X' : List Nat} {l i : Nat} (hs : L.Pairwise (· < ·))
    (h : L = A ++ l :: X) (h' : L = A' ++ i :: X') (hle : l ≤ i) : A.length ≤ A'.length := by
  by_contra hlt
  have hl : A.length < L.length := by rw [h]; simp
  have hi : A'.length < L.length := by omega
  have hlt' := List.pairwise_iff_getElem.mp hs A'.length A.length hi hl (by omega)
  have e1 : L[A.length] = l := by simp [h]
  have e2 : L[A'.length] = i := by simp [h']
  omega

end Mlxd.BpeMerge
