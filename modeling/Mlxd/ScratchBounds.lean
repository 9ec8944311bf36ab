import Mlxd.BpeRefine
import Mlxd.Wordpiece

/-!
# The scratch buffers are large enough

Candidates are pushed for seeded pairs and for the two neighbours of a merge, and every merge
takes a node out. So the candidates in the heap, with two more for every live node, never exceed
three a byte, whatever the merges are, and every index that is followed stays in range.
-/
namespace Mlxd.ScratchBounds

open Mlxd.Unicode Mlxd.TokLoad Mlxd.Lib.Buffer
open Mlxd.BpeMerge hiding bpeHeapPop
open Mlxd.TokScratch hiding siftUp bpePushCand splitNodes seedHeap mergeNodes bpeStep bpeLoop
  bpeEmitSymbol bpeMerge
open Mlxd.Pretokenize (PretokSlice sliceEnd sliceEnd_bounds decode_bounds)

/-! ## The heap -/

section Heap

variable {P : BpeCand → Prop} {m : Nat}

/-- Moving up keeps what holds of the candidates. -/
theorem siftUp_all (n : Nat) {heap : Array BpeCand} {i : Nat} (hi : i < m) (hm : m ≤ heap.size)
    (h : All heap m P) :
    Safe (TokScratch.siftUp n heap i) fun heap' => heap'.size = heap.size ∧ All heap' m P := by
  induction n generalizing heap i with
  | zero => exact Safe.of_some ⟨rfl, h⟩
  | succ n ih =>
    rw [TokScratch.siftUp]
    split
    · have hp : (i - 1) / 2 < m := by omega
      refine (h.load hi hm).bind fun c hc => (h.load hp hm).bind fun p hpp => ?_
      split
      · refine (h.store hc (by omega) (.inl (Nat.le_refl m))).bind ?_
        rintro heap₁ ⟨hsize₁, h₁⟩
        refine (h₁.store hpp (by omega) (.inl (Nat.le_refl m))).bind ?_
        rintro heap₂ ⟨hsize₂, h₂⟩
        refine (ih hp (by omega) h₂).mono ?_
        rintro heap' ⟨hsize, hall⟩
        exact ⟨by omega, hall⟩
      · exact Safe.of_some ⟨rfl, h⟩
    · exact Safe.of_some ⟨rfl, h⟩

theorem pickChild_lt {heap : Array BpeCand} {least : Nat} (c : Nat) (hm : m ≤ heap.size)
    (hl : 0 < m → least < m) :
    Safe (pickChild heap m least c) fun least' => least' = least ∨ least' < m := by
  rw [pickChild]
  split
  · rename_i hc
    have hload : ∀ {i}, i < m → Safe (load heap i) fun _ => True := fun hi =>
      (All.load (P := fun _ => True) (fun _ _ _ _ => trivial) hi hm)
    refine (hload hc).bind fun x _ => (hload (hl (by omega))).bind fun y _ => ?_
    split
    · exact Safe.of_some (.inr hc)
    · exact Safe.of_some (.inl rfl)
  · exact Safe.of_some (.inl rfl)

/-- Moving down keeps what holds of the candidates, however the positions wrap. -/
theorem siftDown_all (n : Nat) {heap : Array BpeCand} {i : Nat} (hi : 0 < m → i < m)
    (hm : m ≤ heap.size) (h : All heap m P) :
    Safe (siftDown m n heap i) fun heap' => heap'.size = heap.size ∧ All heap' m P := by
  induction n generalizing heap i with
  | zero => exact Safe.of_some ⟨rfl, h⟩
  | succ n ih =>
    rw [siftDown]
    refine (pickChild_lt (uint32 (2 * i + 1)) hm hi).bind fun a ha => ?_
    refine (pickChild_lt (uint32 (2 * i + 2)) hm (by omega)).bind fun b hb => ?_
    split
    · exact Safe.of_some ⟨rfl, h⟩
    · have hbm : b < m := by omega
      have him := hi (by omega)
      refine (h.load hbm hm).bind fun x hx => (h.load him hm).bind fun y hy => ?_
      refine (h.store hy (by omega) (.inl (Nat.le_refl m))).bind ?_
      rintro heap₁ ⟨hsize₁, h₁⟩
      refine (h₁.store hx (by omega) (.inl (Nat.le_refl m))).bind ?_
      rintro heap₂ ⟨hsize₂, h₂⟩
      refine (ih (fun _ => hbm) (by omega) h₂).mono ?_
      rintro heap' ⟨hsize, hall⟩
      exact ⟨by omega, hall⟩

/-- Popping returns one of the candidates and keeps the others. -/
theorem heapPop_all (sift : Nat) {s : EncodeScratch} (hpos : 0 < s.heapLen)
    (hm : s.heapLen ≤ s.heap.cells.size) (h : All s.heap.cells s.heapLen P) :
    Safe (bpeHeapPop sift s) fun r => P r.1 ∧ ∃ heap, heap.size = s.heap.cells.size ∧
      All heap (s.heapLen - 1) P ∧
      r.2 = { s with heap := ⟨heap, s.heap.cap⟩, heapLen := s.heapLen - 1 } := by
  rw [bpeHeapPop]
  refine (h.load hpos hm).bind fun top htop => ?_
  refine (h.load (show s.heapLen - 1 < s.heapLen by omega) hm).bind fun last hlast => ?_
  refine (h.store hlast (by omega) (.inl (Nat.sub_le _ 1))).bind ?_
  rintro heap₁ ⟨hsize₁, h₁⟩
  refine (siftDown_all sift (fun h => h) (by omega) h₁).bind ?_
  rintro heap ⟨hsize, hall⟩
  exact Safe.of_some ⟨htop, heap, by omega, hall, rfl⟩

end Heap

/-! ## Pushes and merges -/

/-- The live nodes `L` are linked in text order, and their symbols are non-empty slices of the
input. -/
structure Live (input : Bytes) (nodes : Array BpeNode) (L : List Nat) : Prop where
  links : Links nodes (-1) L
  sorted : L.Pairwise (· < ·)
  solid : ∀ i ∈ L, nodes[i]!.start < nodes[i]!.stop
  inside : ∀ i ∈ L, nodes[i]!.stop ≤ input.length

/-- The candidate's nodes exist, and while their versions match they are neighbours. -/
structure Known (nodes : Array BpeNode) (L : List Nat) (c : BpeCand) : Prop where
  left : c.left < nodes.size
  right : c.right < nodes.size
  lver : c.lver ≤ nodes[c.left]!.ver
  rver : c.rver ≤ nodes[c.right]!.ver
  adj : c.lver = nodes[c.left]!.ver → c.rver = nodes[c.right]!.ver → Adj L c.left c.right

/-- Nothing but node and heap cells has changed since `s₀`, and no buffer its size. -/
structure Kept (s₀ s : EncodeScratch) : Prop where
  ids : s.ids = s₀.ids
  pretoks : s.pretoks = s₀.pretoks
  text : s.text = s₀.text
  out : s.out = s₀.out
  cand : s.cand = s₀.cand
  nodesCap : s.nodes.cap = s₀.nodes.cap
  nodesSize : s.nodes.cells.size = s₀.nodes.cells.size
  heapCap : s.heap.cap = s₀.heap.cap
  heapSize : s.heap.cells.size = s₀.heap.cells.size

/-- A scratch in the middle of a merge. -/
structure Merging (s₀ : EncodeScratch) (input : Bytes) (s : EncodeScratch) (L : List Nat) :
    Prop where
  kept : Kept s₀ s
  live : Live input s.nodes.cells L
  known : All s.heap.cells s.heapLen (Known s.nodes.cells L)

section Merge

variable {tok : Tokenizer} {input : Bytes} {s₀ s : EncodeScratch} {L : List Nat}
variable (hcap : s₀.heap.cap = s₀.heap.cells.size)

theorem Live.symbol {nodes : Array BpeNode} (h : Live input nodes L) {i : Nat} (hi : i ∈ L) :
    load nodes i = some nodes[i]! ∧
      loadSlice input nodes[i]!.start nodes[i]!.stop = some (symbol input nodes[i]!) :=
  ⟨load_eq (h.links.mem i hi), loadSlice_eq (Nat.le_of_lt (h.solid i hi)) (h.inside i hi)⟩

include hcap in
/-- A push adds at most one candidate, which describes neighbours. -/
theorem push_merging (h : Merging s₀ input s L) {l r : Nat} (ha : Adj L l r)
    (hroom : s.heapLen < s₀.heap.cap) :
    Safe (TokScratch.bpePushCand tok input s l r) fun s' =>
      Merging s₀ input s' L ∧ s'.nodes = s.nodes ∧ s'.heapLen ≤ s.heapLen + 1 := by
  obtain ⟨hl, hlsym⟩ := h.live.symbol ha.mem.1
  obtain ⟨hr, hrsym⟩ := h.live.symbol ha.mem.2
  rw [TokScratch.bpePushCand, hl, hr]
  simp only [Option.bind_eq_bind, Option.bind_some, hlsym, hrsym]
  cases tok.merges.lookup (symbol input s.nodes.cells[l]!, symbol input s.nodes.cells[r]!) with
  | none => exact Safe.of_some ⟨h, rfl, Nat.le_succ _⟩
  | some rank =>
    have hsize := h.kept.heapSize
    have hnew : Known s.nodes.cells L
        ⟨rank, l, r, s.nodes.cells[l]!.ver, s.nodes.cells[r]!.ver⟩ :=
      ⟨h.live.links.mem l ha.mem.1, h.live.links.mem r ha.mem.2, Nat.le_refl _, Nat.le_refl _,
        fun _ _ => ha⟩
    simp only [h.kept.heapCap, if_pos hroom]
    refine (h.known.store hnew (by omega) (.inr ⟨rfl, rfl⟩)).bind ?_
    rintro heap₁ ⟨hsize₁, h₁⟩
    refine (siftUp_all s.heapLen (Nat.lt_succ_self _) (by omega) h₁).bind ?_
    rintro heap ⟨hsize', hall⟩
    refine Safe.of_some ⟨⟨?_, h.live, hall⟩, rfl, Nat.le_refl _⟩
    exact { h.kept with heapCap := rfl, heapSize := by simp only; omega }

/-- The checked merge of neighbours is the merge. -/
theorem mergeNodes_some {nodes : Array BpeNode} {A B : List Nat} {l r : Nat}
    (h : Links nodes (-1) (A ++ l :: r :: B)) :
    TokScratch.mergeNodes nodes l r = some (mergeNodes nodes l r) := by
  have hl := h.mem l (by simp)
  have hr := h.mem r (by simp)
  obtain ⟨-, -, hnext, -⟩ := Links.split (A ++ [l]) r B (by simpa using h)
  rw [TokScratch.mergeNodes, load_eq hl, load_eq hr]
  simp only [Option.bind_eq_bind, Option.bind_some, mergeNodes]
  rw [store_eq hl, Option.bind_some, store_eq (by simpa using hr), Option.bind_some]
  split
  · rename_i hge
    have hn : nodes[r]!.next.toNat < nodes.size := by
      cases B with
      | nil => rw [hnext] at hge; exact absurd hge (by decide)
      | cons b B =>
        rw [hnext, headIdx, Int.toNat_natCast]
        exact h.mem b (by simp)
    rw [load_eq (by simpa using hn), Option.bind_some, store_eq (by simpa using hn)]
  · rfl

/-- After merging two neighbours one node less is live. -/
theorem Live.merge {nodes : Array BpeNode} {A B : List Nat} {l r : Nat}
    (h : Live input nodes (A ++ l :: r :: B)) :
    Live input (mergeNodes nodes l r) (A ++ l :: B) := by
  have hnodup : (A ++ l :: r :: B).Nodup := h.sorted.imp fun h => Nat.ne_of_lt h
  have hget := merged_get (s := ⟨nodes, #[]⟩) h.links h.sorted
  have hlr : nodes[l]!.stop = nodes[r]!.start :=
    (Links.split A l (r :: B) h.links).2.2.2.2.1 r rfl
  have hsub : ∀ i ∈ A ++ l :: B, i ∈ A ++ l :: r :: B := fun i hi => by
    simp only [List.mem_append, List.mem_cons] at hi ⊢
    tauto
  have hspan : ∀ i ∈ A ++ l :: B, (mergeNodes nodes l r)[i]!.start = nodes[i]!.start ∧
      ((mergeNodes nodes l r)[i]!.stop = nodes[i]!.stop ∨
        i = l ∧ (mergeNodes nodes l r)[i]!.stop = nodes[r]!.stop) := by
    intro i hi
    simp only at hget
    rw [hget i (h.links.mem i (hsub i hi))]
    split
    · rename_i he
      exact ⟨by rw [he], .inr ⟨he, rfl⟩⟩
    · split
      · rename_i he
        exact ⟨by rw [he], .inl (by rw [he])⟩
      · split <;> exact ⟨rfl, .inl rfl⟩
  have hsolidl := h.solid l (by simp)
  have hsolidr := h.solid r (by simp)
  refine ⟨Links.merge (by simp) hget A h.links hnodup, h.sorted.sublist (by simp), ?_, ?_⟩
  · intro i hi
    obtain ⟨hstart, hstop⟩ := hspan i hi
    have := h.solid i (hsub i hi)
    rcases hstop with hstop | ⟨rfl, hstop⟩ <;> omega
  · intro i hi
    obtain ⟨-, hstop⟩ := hspan i hi
    have := h.inside i (hsub i hi)
    have := h.inside r (by simp)
    rcases hstop with hstop | ⟨rfl, hstop⟩ <;> omega

/-- A candidate stays known over a merge: those of the merged nodes become stale. -/
theorem Known.merge {nodes : Array BpeNode} {A B : List Nat} {l r : Nat} {c : BpeCand}
    (h : Live input nodes (A ++ l :: r :: B)) (hc : Known nodes (A ++ l :: r :: B) c) :
    Known (mergeNodes nodes l r) (A ++ l :: B) c := by
  have hver := merged_ver (s := ⟨nodes, #[]⟩) h.links h.sorted
  simp only at hver
  have h3 := hc.lver
  have h4 := hc.rver
  refine ⟨by simpa using hc.left, by simpa using hc.right, by rw [hver _ hc.left]; omega,
    by rw [hver _ hc.right]; omega, fun hl hr => ?_⟩
  obtain ⟨hleft, hright, hl, hr⟩ := merged_fresh (s := ⟨nodes, #[]⟩) h.links h.sorted hc.left
    hc.right h3 h4 hl hr
  exact (hc.adj hl hr).unmerge hleft hright

theorem lastOr_neg {A : List Nat} (h : 0 ≤ lastOr (-1) A) : ∃ A' a, A = A' ++ [a] := by
  rcases List.eq_nil_or_concat A with rfl | ⟨A', a, rfl⟩
  · exact absurd h (by decide)
  · exact ⟨A', a, List.concat_eq_append⟩

include hcap in
/-- After a merge the pairs on both sides of the merged node are offered. -/
theorem offer_merging {A B : List Nat} {l : Nat} (h : Merging s₀ input s (A ++ l :: B))
    (hroom : s.heapLen + 1 < s₀.heap.cap) :
    Safe (do
      let ln ← load s.nodes.cells l
      let s ← (if 0 ≤ ln.prev then TokScratch.bpePushCand tok input s ln.prev.toNat l else some s)
      let ln ← load s.nodes.cells l
      if 0 ≤ ln.next then TokScratch.bpePushCand tok input s l ln.next.toNat else some s)
      fun s' => Merging s₀ input s' (A ++ l :: B) ∧ s'.heapLen ≤ s.heapLen + 2 := by
  obtain ⟨hl, hprev, hnext, -⟩ := Links.split A l B h.live.links
  have hload := load_eq hl
  rw [hload, Option.bind_eq_bind, Option.bind_some, hprev]
  have hfirst : Safe (if 0 ≤ lastOr (-1) A then
      TokScratch.bpePushCand tok input s (lastOr (-1) A).toNat l else some s) fun s' =>
        Merging s₀ input s' (A ++ l :: B) ∧ s'.nodes = s.nodes ∧ s'.heapLen ≤ s.heapLen + 1 := by
    split
    · rename_i hge
      obtain ⟨A', a, rfl⟩ := lastOr_neg hge
      rw [lastOr_append, Int.toNat_natCast]
      exact push_merging hcap h ⟨A', B, by simp⟩ (by omega)
    · exact Safe.of_some ⟨h, rfl, Nat.le_succ _⟩
  refine hfirst.bind ?_
  rintro s₁ ⟨h₁, hnodes, hle⟩
  rw [hnodes, hload, Option.bind_some, hnext]
  split
  · rename_i hge
    cases B with
    | nil => exact absurd hge (by decide)
    | cons b B =>
      rw [headIdx, Int.toNat_natCast]
      refine (push_merging hcap h₁ ⟨A, B, rfl⟩ (by omega)).mono ?_
      rintro s₂ ⟨h₂, -, hle₂⟩
      exact ⟨h₂, by omega⟩
  · exact Safe.of_some ⟨h₁, by omega⟩

include hcap in
/-- An iteration takes a candidate out; where it adds two, it takes a node out as well. -/
theorem step_merging (sift : Nat) (h : Merging s₀ input s L) (hpos : 0 < s.heapLen)
    (hroom : s.heapLen + 2 * L.length ≤ s₀.heap.cap) :
    Safe (TokScratch.bpeStep tok input sift s) fun s' => ∃ L', Merging s₀ input s' L' ∧
      s'.heapLen + 2 * L'.length < s.heapLen + 2 * L.length ∧ L'.length ≤ L.length ∧
        headIdx L' = headIdx L := by
  have hsize := h.kept.heapSize
  rw [TokScratch.bpeStep]
  refine (heapPop_all sift hpos (by omega) h.known).bind ?_
  rintro ⟨c, s₁⟩ ⟨hc, heap, hheap, hall, rfl⟩
  have hkept : Kept s₀ { s with heap := ⟨heap, s.heap.cap⟩, heapLen := s.heapLen - 1 } :=
    { h.kept with heapSize := hheap.trans hsize }
  simp only
  rw [load_eq hc.left, load_eq hc.right]
  simp only [Option.bind_eq_bind, Option.bind_some]
  split
  · exact Safe.of_some ⟨L, ⟨hkept, h.live, hall⟩, by simp only; omega, Nat.le_refl _, rfl⟩
  · rename_i hfresh
    simp only [not_or, not_not] at hfresh
    obtain ⟨A, B, rfl⟩ := hc.adj hfresh.1.symm hfresh.2.symm
    rw [mergeNodes_some h.live.links, Option.bind_some]
    have hmerged : Merging s₀ input
        { s with nodes := ⟨mergeNodes s.nodes.cells c.left c.right, s.nodes.cap⟩,
                 heap := ⟨heap, s.heap.cap⟩, heapLen := s.heapLen - 1 } (A ++ c.left :: B) := by
      refine ⟨?_, h.live.merge, hall.mono fun c' hc' => hc'.merge h.live⟩
      exact { hkept with nodesSize := by simpa using h.kept.nodesSize }
    simp only [List.length_append, List.length_cons] at hroom ⊢
    refine (@offer_merging tok _ _ _ hcap _ _ _ hmerged (by simp only; omega)).mono ?_
    rintro s' ⟨h', hle⟩
    refine ⟨_, h', ?_, ?_, headIdx_append A c.left _ _⟩
    · simp only [List.length_append, List.length_cons] at hle ⊢
      omega
    · simp only [List.length_append, List.length_cons]
      omega

include hcap in
/-- The loop stays inside its buffers and runs out of candidates. -/
theorem loop_merging (sift n : Nat) (h : Merging s₀ input s L)
    (hroom : s.heapLen + 2 * L.length ≤ s₀.heap.cap) (hn : s.heapLen + 2 * L.length ≤ n) :
    Safe (TokScratch.bpeLoop tok input sift n s) fun s' => ∃ L', Merging s₀ input s' L' ∧
      s'.heapLen = 0 ∧ L'.length ≤ L.length ∧ headIdx L' = headIdx L := by
  induction n generalizing s L with
  | zero => exact Safe.of_some ⟨L, h, by omega, Nat.le_refl _, rfl⟩
  | succ n ih =>
    rw [TokScratch.bpeLoop]
    split
    · rename_i hpos
      refine (step_merging hcap sift h hpos hroom).bind ?_
      rintro s' ⟨L', h', hlt, hle, hhead⟩
      refine (ih h' (by omega) (by omega)).mono ?_
      rintro s'' ⟨L'', h'', h0, hle', hhead'⟩
      exact ⟨L'', h'', h0, hle'.trans hle, hhead'.trans hhead⟩
    · exact Safe.of_some ⟨L, h, by omega, Nat.le_refl _, rfl⟩

include hcap in
/-- Seeding adds at most one candidate for each adjacent pair. -/
theorem seed_merging (n : Nat) (m j : Nat) (hm : j + m + 1 ≤ n ∨ m = 0)
    (h : Merging s₀ input s (List.range n)) (hlen : s.heapLen ≤ j) (hroom : n ≤ s₀.heap.cap) :
    Safe (TokScratch.seedHeap tok input m j s) fun s' =>
      Merging s₀ input s' (List.range n) ∧ s'.heapLen ≤ j + m := by
  induction m generalizing j s with
  | zero => exact Safe.of_some ⟨h, hlen⟩
  | succ m ih =>
    rw [TokScratch.seedHeap]
    refine (push_merging hcap h (range_adj n j (by omega)) (by omega)).bind ?_
    rintro s' ⟨h', -, hle⟩
    refine (ih (j + 1) (by omega) h' (by omega)).mono ?_
    rintro s'' ⟨h'', hle'⟩
    exact ⟨h'', by omega⟩

end Merge

/-! ## The first nodes -/

section Split

variable {input : Bytes}

/-- A node whose symbol is a non-empty slice of the input. -/
def Solid (input : Bytes) (v : BpeNode) : Prop := v.start < v.stop ∧ v.stop ≤ input.length

/-- The node cells are filled with the nodes of the split, which are solid. -/
theorem split_holds (n pos : Nat) {b nodes : Array BpeNode} (hb : Holds b nodes.toList)
    (hsolid : All b nodes.size (Solid input)) (hroom : nodes.size + (input.length - pos) ≤ b.size) :
    Safe (TokScratch.splitNodes input n pos b nodes.size) fun r => r.1.size = b.size ∧
      Holds r.1 (splitNodes input n pos nodes).toList ∧
      r.2 = (splitNodes input n pos nodes).size ∧ All r.1 r.2 (Solid input) := by
  induction n generalizing pos b nodes with
  | zero => exact Safe.of_some ⟨rfl, hb, rfl, hsolid⟩
  | succ n ih =>
    rw [TokScratch.splitNodes, splitNodes]
    split
    · rename_i hlt
      have hlen := decode_bounds input pos hlt
      dsimp only
      generalize hstop : pos + (ucDecodeCodepoint input pos).len = stop at hlen
      generalize hv : BpeNode.mk pos stop ((nodes.size : Int) - 1)
        (if stop < input.length then (nodes.size : Int) + 1 else -1) 0 = v
      have hnew : Solid input v := by
        rw [← hv]
        exact ⟨by simp only; omega, hlen.2⟩
      obtain ⟨b', hb', hsize, hall⟩ := hsolid.store hnew (by omega) (.inr ⟨rfl, rfl⟩)
      obtain ⟨b'', hb'', -, hholds⟩ := safe_store hb (by simp only [Array.length_toList]; omega) v
      obtain rfl : b' = b'' := Option.some.inj (hb'.symm.trans (by simpa using hb''))
      rw [hb', Option.bind_eq_bind, Option.bind_some]
      have hpush := @ih stop b' (nodes.push v) (by simpa using hholds)
        (by simpa using hall) (by simp only [Array.size_push]; omega)
      rw [Array.size_push] at hpush
      refine hpush.mono ?_
      rintro r ⟨hsize', hrest⟩
      exact ⟨hsize'.trans hsize, hrest⟩
    · exact Safe.of_some ⟨rfl, hb, rfl, hsolid⟩

/-- Linked nodes at the start of a buffer are linked there. -/
theorem links_holds {a b : Array BpeNode} (hb : Holds b a.toList) {p : Int} {L : List Nat}
    (h : Links a p L) : Links b p L := by
  induction L generalizing p with
  | nil => trivial
  | cons i t ih =>
    obtain ⟨hi, hprev, hnext, hle, hadj, ht⟩ := h
    have hget := hb.getElem! hi
    have hsize : a.size ≤ b.size := by simpa using hb.length_le
    refine ⟨by omega, by rw [hget]; exact hprev, by rw [hget]; exact hnext, by rw [hget]; exact hle,
      fun j hj => ?_, ih ht⟩
    rw [hget, hb.getElem! (ht.mem j (List.mem_of_mem_head? hj))]
    exact hadj j hj

/-- The split leaves at most one live node a byte. -/
theorem split_live {b : Array BpeNode} (hroom : input.length ≤ b.size) :
    Safe (TokScratch.splitNodes input input.length 0 b 0) fun r => r.1.size = b.size ∧
      Live input r.1 (List.range r.2) ∧ r.2 ≤ input.length := by
  refine (@split_holds input input.length 0 _ #[] (Holds.nil b) All.zero
    (by simpa using hroom)).mono ?_
  rintro ⟨nodes, n⟩ ⟨hsize, hholds, rfl, hall⟩
  obtain ⟨n, hR⟩ := splitNodes_spec input input.length 0 #[] (by omega)
  have hn : (splitNodes input input.length 0 #[]).size = n := by simpa using hR.size
  have hlinks : Links (splitNodes input input.length 0 #[]) (-1) (List.range n) := by
    simpa [List.range_eq_range'] using hR.links
  have hlen := codepointsLoop_length input.length (input.drop 0)
  rw [← hR.symbols, symbolsOf, List.length_map, List.length_range'] at hlen
  simp only [hn] at hall ⊢
  have hsolid : ∀ i ∈ List.range n, Solid input nodes[i]! := fun i hi =>
    hall i (List.mem_range.mp hi) _ (load_eq ((links_holds hholds hlinks).mem i hi))
  exact ⟨hsize, ⟨links_holds hholds hlinks, List.pairwise_lt_range, fun i hi => (hsolid i hi).1,
    fun i hi => (hsolid i hi).2⟩, hlen⟩

end Split

/-! ## Emitting -/

section Emit

variable (tok : Tokenizer) {input : Bytes} {nodes : Array BpeNode}

theorem emitIds_spec (new : List Int) {ids : Array Int} {done : List Int} (h : Holds ids done)
    (hroom : done.length + new.length ≤ ids.size) :
    Safe (emitIds new ids done.length) fun r => r.1.size = ids.size ∧ Holds r.1 (done ++ new) ∧
      r.2 = (done ++ new).length := by
  induction new generalizing ids done with
  | nil => exact Safe.of_some ⟨rfl, by simpa using h, by simp⟩
  | cons id new ih =>
    rw [emitIds]
    simp only [List.length_cons] at hroom
    refine (safe_store h (by omega) id).bind ?_
    rintro ids' ⟨hsize, hholds⟩
    have hrest := ih hholds (by simp only [List.length_append, List.length_singleton]; omega)
    rw [List.length_append, List.length_singleton] at hrest
    refine hrest.mono ?_
    rintro r ⟨hsize', hholds', hcount⟩
    exact ⟨hsize'.trans hsize, by simpa using hholds', by simpa using hcount⟩

theorem flatMap_length_le {f : UInt8 → List Int} (h : ∀ b, (f b).length ≤ 1) (bytes : Bytes) :
    (bytes.flatMap f).length ≤ bytes.length := by
  induction bytes with
  | nil => exact Nat.le_refl _
  | cons b rest ih =>
    have := h b
    simp only [List.flatMap_cons, List.length_append, List.length_cons]
    omega

/-- A non-empty symbol gets at most one id a byte. -/
theorem emitSymbol_length {sym : Bytes} (h : 0 < sym.length) :
    (bpeEmitSymbol tok sym).length ≤ sym.length := by
  rw [bpeEmitSymbol]
  cases tok.vocab.lookup sym with
  | some id => exact h
  | none =>
    refine flatMap_length_le (fun b => ?_) sym
    dsimp only
    split
    · exact Nat.le_refl 1
    · split
      · exact Nat.le_refl 1
      · exact Nat.zero_le 1

/-- Following the links emits the symbols of the live nodes, at most one id a byte. -/
theorem emitLoop_spec (L : List Nat) {p : Int} (hlinks : Links nodes p L)
    (hsolid : ∀ i ∈ L, Solid input nodes[i]!) (n : Nat) (hn : L.length ≤ n) {ids : Array Int}
    {done : List Int} (h : Holds ids done) (hroom : input.length ≤ ids.size)
    (hdone : done.length ≤ input.length)
    (hhead : ∀ i, L.head? = some i → done.length ≤ nodes[i]!.start) :
    Safe (emitLoop tok input nodes n (headIdx L) ids done.length) fun r => r.1.size = ids.size ∧
      Holds r.1 (done ++ L.flatMap fun i => bpeEmitSymbol tok (symbol input nodes[i]!)) ∧
      r.2 = (done ++ L.flatMap fun i => bpeEmitSymbol tok (symbol input nodes[i]!)).length ∧
      r.2 ≤ input.length := by
  induction L generalizing n p ids done with
  | nil =>
    cases n <;> exact Safe.of_some ⟨rfl, by simpa using h, by simp, hdone⟩
  | cons i t ih =>
    obtain ⟨n, rfl⟩ : ∃ m, n = m + 1 := ⟨n - 1, by simp only [List.length_cons] at hn; omega⟩
    obtain ⟨hi, -, hnext, -, hadj, ht⟩ := hlinks
    obtain ⟨hlt, hin⟩ := hsolid i List.mem_cons_self
    have hstart := hhead i rfl
    have hsym : (symbol input nodes[i]!).length = nodes[i]!.stop - nodes[i]!.start := by
      simp only [symbol, slice, List.length_take, List.length_drop]
      omega
    have hfew := @emitSymbol_length tok (symbol input nodes[i]!) (by omega)
    rw [emitLoop, headIdx, if_pos (Int.natCast_nonneg i), Int.toNat_natCast, load_eq hi]
    simp only [Option.bind_eq_bind, Option.bind_some, TokScratch.bpeEmitSymbol]
    rw [loadSlice_eq (Nat.le_of_lt hlt) hin, Option.bind_some]
    refine (emitIds_spec (bpeEmitSymbol tok (symbol input nodes[i]!)) h (by omega)).bind ?_
    rintro ⟨ids', count⟩ ⟨hsize, hholds, rfl⟩
    rw [hnext]
    have hlen : (done ++ bpeEmitSymbol tok (symbol input nodes[i]!)).length ≤ nodes[i]!.stop := by
      rw [List.length_append]
      omega
    refine (ih ht (fun j hj => hsolid j (List.mem_cons_of_mem _ hj)) n
      (by simp only [List.length_cons] at hn; omega) hholds (by rw [hsize]; exact hroom) (by omega)
      fun j hj => by rw [← hadj j hj]; exact hlen).mono ?_
    rintro r ⟨hsize', hholds', hcount, hle⟩
    exact ⟨hsize'.trans hsize, by simpa using hholds', by simpa using hcount, hle⟩

end Emit

/-! ## The merge -/

/-- Every capacity is still honest and no buffer has changed its size. -/
structure Frame (s s' : EncodeScratch) : Prop where
  sized : Sized s'
  nodes : s'.nodes.cells.size = s.nodes.cells.size
  heap : s'.heap.cells.size = s.heap.cells.size
  ids : s'.ids.cells.size = s.ids.cells.size
  pretoks : s'.pretoks.cells.size = s.pretoks.cells.size
  text : s'.text.cells.size = s.text.cells.size
  out : s'.out.cells.size = s.out.cells.size

theorem Frame.refl {s : EncodeScratch} (h : Sized s) : Frame s s :=
  ⟨h, rfl, rfl, rfl, rfl, rfl, rfl⟩

theorem Frame.trans {s₁ s₂ s₃ : EncodeScratch} (h : Frame s₁ s₂) (h' : Frame s₂ s₃) :
    Frame s₁ s₃ :=
  ⟨h'.sized, h'.nodes.trans h.nodes, h'.heap.trans h.heap, h'.ids.trans h.ids,
    h'.pretoks.trans h.pretoks, h'.text.trans h.text, h'.out.trans h.out⟩

/-- The buffers of the merge have room for an input of `len` bytes. -/
structure MergeRoom (s : EncodeScratch) (len : Nat) : Prop where
  nodes : len ≤ s.nodes.cells.size
  heap : 3 * len ≤ s.heap.cells.size
  ids : len ≤ s.ids.cells.size

theorem MergeRoom.frame {s s' : EncodeScratch} {len : Nat} (h : MergeRoom s len) (hf : Frame s s') :
    MergeRoom s' len := by
  obtain ⟨h1, h2, h3⟩ := h
  exact ⟨by rw [hf.nodes]; exact h1, by rw [hf.heap]; exact h2, by rw [hf.ids]; exact h3⟩

theorem MergeRoom.mono {s : EncodeScratch} {len len' : Nat} (h : MergeRoom s len)
    (hle : len' ≤ len) : MergeRoom s len' := by
  obtain ⟨h1, h2, h3⟩ := h
  exact ⟨by omega, by omega, by omega⟩

theorem headIdx_range (n : Nat) :
    headIdx (List.range n) = if 0 < n then 0 else -1 := by
  cases n with
  | zero => rfl
  | succ n =>
    rw [if_pos (Nat.succ_pos n), List.range_succ_eq_map]
    rfl

/-- With room for its input a merge makes no access out of range, and emits at most one id a
byte. -/
theorem bpeMerge_safe (tok : Tokenizer) (sift : Nat) {s : EncodeScratch} (hs : Sized s)
    {input : Bytes} (hroom : MergeRoom s input.length) :
    Safe (TokScratch.bpeMerge tok sift s input) fun r => Frame s r.1 ∧ r.1.pretoks = s.pretoks ∧
      ∀ count, r.2 = some count → count ≤ input.length := by
  rw [TokScratch.bpeMerge]
  split
  · exact Safe.of_some ⟨.refl hs, rfl, by simp⟩
  · split
    · exact Safe.of_some ⟨.refl hs, rfl, by simp⟩
    · have hheap := hroom.heap
      have hcap : s.heap.cap = s.heap.cells.size := hs.heap
      refine (split_live hroom.nodes).bind ?_
      rintro ⟨nodes, n⟩ ⟨hsize, hlive, hn⟩
      have hstart : Merging s input { s with nodes := ⟨nodes, s.nodes.cap⟩, heapLen := 0 }
          (List.range n) :=
        ⟨⟨rfl, rfl, rfl, rfl, rfl, rfl, hsize, rfl, rfl⟩, hlive, All.zero⟩
      simp only at hn ⊢
      refine (seed_merging hcap n (n - 1) 0 (by omega) hstart (Nat.le_refl _) (by omega)).bind ?_
      rintro s₁ ⟨h₁, hlen₁⟩
      have hbudget : s₁.heapLen + 2 * (List.range n).length ≤ 3 * input.length := by
        rw [List.length_range]
        omega
      refine (loop_merging hcap sift (3 * input.length) h₁ (by omega) hbudget).bind ?_
      rintro s₂ ⟨L, h₂, -, hL, hhead⟩
      rw [List.length_range] at hL
      rw [← headIdx_range, ← hhead]
      have hids : s₂.ids.cells.size = s.ids.cells.size := by rw [h₂.kept.ids]
      refine (emitLoop_spec tok L h₂.live.links
        (fun i hi => ⟨h₂.live.solid i hi, h₂.live.inside i hi⟩) n hL
        (Holds.nil s₂.ids.cells) (by rw [hids]; exact hroom.ids) (Nat.zero_le _)
        (fun _ _ => Nat.zero_le _)).bind ?_
      rintro ⟨ids, count⟩ ⟨hidsize, -, -, hcount⟩
      refine Safe.of_some ⟨⟨⟨?_, ?_, ?_, ?_, ?_, ?_, ?_⟩, h₂.kept.nodesSize, h₂.kept.heapSize,
        hidsize.trans hids, by rw [h₂.kept.pretoks], by rw [h₂.kept.text], by rw [h₂.kept.out]⟩,
        h₂.kept.pretoks, ?_⟩
      · exact h₂.kept.nodesCap.trans (hs.nodes.trans h₂.kept.nodesSize.symm)
      · exact h₂.kept.heapCap.trans (hs.heap.trans h₂.kept.heapSize.symm)
      · rw [h₂.kept.ids] at hidsize ⊢
        exact hs.ids.trans hidsize.symm
      · simp only [h₂.kept.pretoks]
        exact hs.pretoks
      · simp only [h₂.kept.text]
        exact hs.text
      · simp only [h₂.kept.out]
        exact hs.out
      · simp only [h₂.kept.cand]
        exact hs.cand
      · rintro _ ⟨⟩
        exact hcount

/-! ## The byte-level encoder -/

/-- An encoder gives up where its reservation fails, and goes on with room for the text. -/
theorem reserve_safe (mem : Memory) {s : EncodeScratch} (hs : Sized s) {inputLen : Nat}
    {mask : Mask} {encode : EncodeScratch → Option (EncodeScratch × Option Nat)}
    {Q : EncodeScratch × Option Nat → Prop} (hfail : ∀ s', Sized s' → Q (s', none))
    (hok : ∀ s', Sized s' → Reserved s' (max 1 inputLen) mask → Safe (encode s') Q) :
    Safe (match scratchReserveMask mem s inputLen mask with
      | .error s' => some (s', none)
      | .ok s' => encode s') Q := by
  have hends := reserve_ends mem hs inputLen mask
  cases hres : scratchReserveMask mem s inputLen mask with
  | error s' =>
    rw [hres] at hends
    exact Safe.of_some (hfail s' hends)
  | ok s' =>
    rw [hres] at hends
    exact hok s' hends.1 hends.2.2

section ByteLevel

open Mlxd.Pretokenize (slicesFrom Partition partition_le slicesFrom_partition)
open Mlxd.ByteLevel (expand expand_length_le)

variable (T : UcTables) (tok : Tokenizer) (text : Bytes)

/-- With a capacity of the length the slices are stored completely. -/
theorem pretokLoop_holds (cap : Nat) (hcap : text.length ≤ cap) (n i : Nat)
    {pretoks : Array PretokSlice} {done : List PretokSlice} (h : Holds pretoks done)
    (hdone : done.length ≤ i) (hsize : pretoks.size = cap) :
    Safe (TokScratch.pretokLoop T cap text n i pretoks done.length) fun r => r.1.size = cap ∧
      Holds r.1 (done ++ slicesFrom T text n i) ∧
      r.2 = some (done ++ slicesFrom T text n i).length := by
  induction n generalizing i pretoks done with
  | zero => exact Safe.of_some ⟨hsize, by simpa [slicesFrom] using h, by simp [slicesFrom]⟩
  | succ n ih =>
    rw [TokScratch.pretokLoop, slicesFrom]
    split
    · rename_i hlt
      have hgt := (sliceEnd_bounds T text i hlt).1
      rw [if_neg (by omega)]
      refine (safe_store h (by omega) (⟨i, sliceEnd T text i - i⟩ : PretokSlice)).bind ?_
      rintro pretoks' ⟨hsize', hholds⟩
      have hrest := ih (sliceEnd T text i) hholds
        (by simp only [List.length_append, List.length_singleton]; omega) (hsize'.trans hsize)
      rw [List.length_append, List.length_singleton] at hrest
      refine hrest.mono ?_
      rintro r ⟨hcap', hholds', hcount⟩
      exact ⟨hcap', by simpa using hholds', by simpa using hcount⟩
    · exact Safe.of_some ⟨hsize, by simpa using h, by simp⟩

/-- The pretokenizer stores the slices of the whole text. -/
theorem gpt2Pretokenize_safe {s : EncodeScratch} (hs : Sized s)
    (hroom : text.length ≤ s.pretoks.cells.size) :
    Safe (TokScratch.gpt2Pretokenize T s text) fun r => Frame s r.1 ∧
      ∀ n, r.2 = some n → n = (slicesFrom T text text.length 0).length ∧
        Holds r.1.pretoks.cells (slicesFrom T text text.length 0) := by
  rw [TokScratch.gpt2Pretokenize]
  split
  · exact Safe.of_some ⟨.refl hs, by simp⟩
  · have hcap : s.pretoks.cap = s.pretoks.cells.size := hs.pretoks
    refine (pretokLoop_holds T text s.pretoks.cap (by omega) text.length 0
      (Holds.nil s.pretoks.cells) (Nat.zero_le _) hcap.symm).bind ?_
    rintro ⟨pretoks, count⟩ ⟨hsize, hholds, hcount⟩
    refine Safe.of_some ⟨?_, ?_⟩
    · exact { Frame.refl hs with
        sized := { hs with pretoks := hsize.symm }
        pretoks := hsize.trans hcap }
    · simp only [List.nil_append] at hcount hholds ⊢
      rintro n rfl
      exact ⟨Option.some.inj hcount, hholds⟩

variable (htable : tok.bytesUnicode = ucBuildBytesToUnicode)

include htable in
/-- The words take at most two ids a byte between them. -/
theorem wordsLoop_safe (sift : Nat) (rest : List PretokSlice) {done : List PretokSlice} {i : Nat}
    (hrest : Partition i text.length rest) {s : EncodeScratch} (hs : Sized s)
    (hpretoks : Holds s.pretoks.cells (done ++ rest)) (hroom : MergeRoom s (2 * text.length))
    (htext : 2 * text.length ≤ s.text.cells.size) (hout : 2 * text.length ≤ s.out.cells.size)
    {total : Nat} (htotal : total ≤ 2 * i) :
    Safe (TokScratch.wordsLoop tok sift text rest.length done.length s total) fun r =>
      Frame s r.1 ∧ ∀ count, r.2 = some count → count ≤ 2 * text.length := by
  induction rest generalizing done i s total with
  | nil =>
    obtain rfl : i = text.length := hrest
    exact Safe.of_some ⟨.refl hs, by rintro _ ⟨⟩; exact htotal⟩
  | cons word rest ih =>
    obtain ⟨hoff, -, hrest'⟩ := hrest
    have hle := partition_le hrest'
    rw [List.length_cons, TokScratch.wordsLoop, hpretoks.get (by simp)]
    simp only [List.getElem?_append_right (Nat.le_refl _), Nat.sub_self, List.getElem?_cons_zero,
      Option.bind_eq_bind, Option.bind_some]
    rw [loadSlice_eq (Nat.le_add_right _ _) (by omega), Option.bind_some]
    -- the word is spelled at the start of the text buffer
    generalize hbytes : (text.drop word.off).take (word.off + word.len - word.off) = bytes
    have hlen : bytes.length = word.len := by
      rw [← hbytes]
      simp only [List.length_take, List.length_drop]
      omega
    have hexpand : (bytes.flatMap fun b => byteSymbol tok.bytesUnicode b.toNat).length ≤
        2 * word.len := by
      have := expand_length_le bytes
      rw [htable, ← hlen]
      exact this
    refine (spellBytes_spec (fun b => byteSymbol tok.bytesUnicode b.toNat) bytes
      (Holds.nil s.text.cells) (by rw [List.length_nil]; omega)).bind ?_
    rintro ⟨cells, tlen⟩ ⟨hsize, hholds, htlen⟩
    simp only [List.nil_append, List.length_nil, Nat.zero_add] at hsize hholds htlen ⊢
    have hs₁ : Sized { s with text := ⟨cells, s.text.cap⟩ } :=
      { hs with text := hs.text.trans hsize.symm }
    have hframe₁ : Frame s { s with text := ⟨cells, s.text.cap⟩ } :=
      { Frame.refl hs with sized := hs₁, text := hsize }
    rw [hholds.loadSlice (Nat.zero_le _) (by omega)]
    simp only [Option.bind_some, List.drop_zero, Nat.sub_zero, htlen, List.take_length]
    refine (bpeMerge_safe tok sift hs₁ ((hroom.frame hframe₁).mono (by omega))).bind ?_
    rintro ⟨s₂, count⟩ ⟨hframe₂, hsame, hcount⟩
    simp only at hframe₂ hsame hcount ⊢
    have hframe := hframe₁.trans hframe₂
    cases count with
    | none => exact Safe.of_some ⟨hframe, by simp⟩
    | some count =>
      have hfew := hcount count rfl
      have hids := hframe.ids
      have hroomIds := hroom.ids
      simp only
      rw [loadSlice_eq (Nat.zero_le _) (by simp only [Array.length_toList]; omega),
        Option.bind_some]
      refine (storeSlice_size _ ?_).bind fun out hosize => ?_
      · simp only [List.length_take, List.length_drop, Array.length_toList, hframe.out]
        omega
      have hframe₃ : Frame s { s₂ with out := ⟨out, s₂.out.cap⟩ } :=
        { hframe with
          sized := { hframe.sized with out := hframe.sized.out.trans hosize.symm }
          out := hosize.trans hframe.out }
      have hnext := @ih (done ++ [word]) _ hrest' _ hframe₃.sized
        (by simpa [hsame] using hpretoks) (hroom.frame hframe₃)
        (by rw [hframe₃.text]; exact htext) (by rw [hframe₃.out]; exact hout)
        (total + count) (by omega)
      rw [List.length_append, List.length_singleton] at hnext
      refine hnext.mono ?_
      rintro r ⟨hframe', hcount'⟩
      exact ⟨hframe₃.trans hframe', hcount'⟩

include htable in
theorem encodeByteLevel_safe (mem : Memory) (sift : Nat) {s : EncodeScratch} (hs : Sized s) :
    Safe (TokScratch.encodeByteLevel mem T tok sift s text) fun r =>
      Sized r.1 ∧ ∀ count, r.2 = some count → count ≤ 2 * text.length := by
  rw [TokScratch.encodeByteLevel]
  split
  · exact Safe.of_some ⟨hs, by simp⟩
  · refine reserve_safe mem hs (fun s' hs' => ⟨hs', by simp⟩) fun s' hs' hroom => ?_
    have hnodes := hroom.nodes rfl
    have hheap := hroom.heap rfl
    have hids := hroom.ids rfl
    have hpretoks := hroom.pretoks rfl
    have htext := hroom.text rfl
    have hout := hroom.out rfl
    refine (gpt2Pretokenize_safe T text hs' (by omega)).bind ?_
    rintro ⟨s'', count⟩ ⟨hframe, hcount⟩
    cases count with
    | none => exact Safe.of_some ⟨hframe.sized, by simp⟩
    | some n =>
      obtain ⟨rfl, hholds⟩ := hcount n rfl
      refine (@wordsLoop_safe tok text htable sift (slicesFrom T text text.length 0) [] _
        (slicesFrom_partition T text text.length 0 (Nat.zero_le _) (by omega)) _ hframe.sized hholds
        ((show MergeRoom s' (2 * text.length) from ⟨by omega, by omega, by omega⟩).frame hframe)
        (by rw [hframe.text]; omega) (by rw [hframe.out]; omega) _ (Nat.zero_le _)).mono ?_
      rintro r ⟨hframe', hcount'⟩
      exact ⟨hframe'.sized, hcount'⟩

end ByteLevel

/-! ## All encoders -/

theorem spExpand_length_le (text : Bytes) : (Encode.spExpand text).length ≤ 3 * text.length := by
  induction text with
  | nil => exact Nat.le_refl _
  | cons b text ih =>
    have hone : (if b = 0x20 then [0xE2, 0x96, 0x81] else [b] : Bytes).length ≤ 3 := by
      split <;> simp
    simp only [Encode.spExpand, List.flatMap_cons, List.length_append, List.length_cons] at ih ⊢
    omega

theorem encodeSentencepiece_safe (mem : Memory) (tok : Tokenizer) (sift : Nat) {s : EncodeScratch}
    (hs : Sized s) (text : Bytes) :
    Safe (TokScratch.encodeSentencepiece mem tok sift s text) fun r =>
      Sized r.1 ∧ ∀ count, r.2 = some count → count ≤ 3 * text.length := by
  rw [TokScratch.encodeSentencepiece]
  split
  · exact Safe.of_some ⟨hs, by simp⟩
  · refine reserve_safe mem hs (fun s' hs' => ⟨hs', by simp⟩) fun s' hs' hroom => ?_
    have hnodes := hroom.nodes rfl
    have hheap := hroom.heap rfl
    have hids := hroom.ids rfl
    have htext := hroom.text rfl
    have hexpand := spExpand_length_le text
    rw [Encode.spExpand] at hexpand
    refine (spellBytes_spec (fun b => if b = 0x20 then [0xE2, 0x96, 0x81] else [b]) text
      (Holds.nil s'.text.cells) (by rw [List.length_nil]; omega)).bind ?_
    rintro ⟨cells, tlen⟩ ⟨hsize, hholds, htlen⟩
    simp only [List.nil_append, List.length_nil, Nat.zero_add] at hsize hholds htlen ⊢
    have hs₁ : Sized { s' with text := ⟨cells, s'.text.cap⟩ } :=
      { hs' with text := hs'.text.trans hsize.symm }
    rw [hholds.loadSlice (Nat.zero_le _) (by omega)]
    simp only [Option.bind_eq_bind, Option.bind_some, List.drop_zero, Nat.sub_zero, htlen,
      List.take_length]
    refine (bpeMerge_safe tok sift hs₁ ⟨by simp only; omega, by simp only; omega,
      by simp only; omega⟩).mono ?_
    rintro r ⟨hframe, -, hcount⟩
    exact ⟨hframe.sized, fun count hc => (hcount count hc).trans hexpand⟩

section Claim

variable (mem : Memory) (T : UcTables) (tok : Tokenizer) (sift : Nat)

/-- Whatever the allocator, the merges and the text are, the encoders make no access out of
range, and neither do the merge and the pretokenizer after a public reservation; no 32-bit size
wraps, and the expansions stay within their factors. -/
theorem encode_in_bounds (s : EncodeScratch) (hs : Sized s)
    (htable : tok.bytesUnicode = ucBuildBytesToUnicode) (text : Bytes) :
    Safe (encodeByteLevel mem T tok sift s text) (fun r =>
      Sized r.1 ∧ ∀ count, r.2 = some count → count ≤ 2 * text.length) ∧
    Safe (encodeSentencepiece mem tok sift s text) (fun r =>
      Sized r.1 ∧ ∀ count, r.2 = some count → count ≤ 3 * text.length) ∧
    Safe (encodeWordpiece mem tok s text) (fun r =>
      Sized r.1 ∧ ∀ count, r.2 = some count → count ≤ text.length) ∧
    (∀ s', scratchReserveMask mem s text.length SCRATCH_ALL = .ok s' →
      Safe (TokScratch.bpeMerge tok sift s' text) (fun r =>
        Sized r.1 ∧ ∀ count, r.2 = some count → count ≤ text.length) ∧
      Safe (gpt2Pretokenize T s' text) fun r => Sized r.1) ∧
    (∀ inputLen ≤ UINT32_MAX / 3, uint32 inputLen = inputLen ∧
      uint32 (3 * max 1 inputLen) = 3 * max 1 inputLen ∧
      uint32 (max 1 inputLen + 2) = max 1 inputLen + 2) ∧
    (∀ word, (ByteLevel.expand tok.bytesUnicode word).length ≤ 2 * word.length) ∧
    (Encode.spExpand text).length ≤ 3 * text.length ∧
    (∀ word pos stop, (Wordpiece.pieceKey tok word pos stop).length ≤
      tok.wpPrefix.length + word.length) := by
  refine ⟨encodeByteLevel_safe T tok text htable mem sift hs,
    encodeSentencepiece_safe mem tok sift hs text, ?_, fun s' hres => ?_,
    fun _ h => uint32_exact h, fun word => htable ▸ ByteLevel.expand_length_le word,
    spExpand_length_le text, fun word pos stop => ?_⟩
  · refine (Wordpiece.encodeWordpiece_spec mem tok text hs).mono ?_
    rintro r ⟨hsized, -, hids⟩
    exact ⟨hsized, fun count hc => by
      obtain ⟨_, -, -, -, hle⟩ := hids count hc
      exact hle⟩
  · have hends := reserve_ends mem hs text.length SCRATCH_ALL
    rw [hres] at hends
    obtain ⟨hs', -, hroom⟩ := hends
    have hnodes := hroom.nodes rfl
    have hheap := hroom.heap rfl
    have hids := hroom.ids rfl
    have hpretoks := hroom.pretoks rfl
    constructor
    · refine (bpeMerge_safe tok sift hs' ⟨by omega, by omega, by omega⟩).mono ?_
      rintro r ⟨hframe, -, hcount⟩
      exact ⟨hframe.sized, hcount⟩
    · refine (gpt2Pretokenize_safe T text hs' (by omega)).mono ?_
      rintro r ⟨hframe, -⟩
      exact hframe.sized
  · have hslice : (slice word pos stop).length ≤ word.length := by
      simp only [slice, List.length_take, List.length_drop]
      omega
    rw [Wordpiece.pieceKey]
    split
    · rw [List.length_append]
      omega
    · omega

end Claim

/-- The bounds hold from a fresh scratch on. -/
theorem encode_in_bounds_fresh : Sized Wordpiece.emptyScratch ∧
    doubleA.bytesUnicode = ucBuildBytesToUnicode ∧
    Safe (encodeByteLevel Wordpiece.zeroedMemory ⟨#[], #[], #[]⟩ doubleA 9 Wordpiece.emptyScratch
      (Json.ascii "aaa")) fun r =>
        Sized r.1 ∧ ∀ count, r.2 = some count → count ≤ 2 * (Json.ascii "aaa").length := by
  have htable : doubleA.bytesUnicode = ucBuildBytesToUnicode := by rw [doubleA]
  have h := encode_in_bounds Wordpiece.zeroedMemory ⟨#[], #[], #[]⟩ doubleA 9
    Wordpiece.emptyScratch Wordpiece.emptyScratch_sized htable (Json.ascii "aaa")
  exact ⟨Wordpiece.emptyScratch_sized, htable, h.1⟩

end Mlxd.ScratchBounds
