import Mlxd.Encode
import Mlxd.Lib.Buffer

/-!
# The encoders on their scratch buffers

The encoders write into buffers that are reserved up front and never grow on the way. Here they
stand access by access, with 32-bit capacities: `none` is an access out of range or a failed
assertion, and nothing else.
-/
namespace Mlxd.TokScratch

open Mlxd.Unicode Mlxd.TokLoad Mlxd.BpeMerge Mlxd.Pretokenize Mlxd.Encode Mlxd.Lib.Buffer

/-- A result stored in a `uint32_t`. -/
def uint32 (n : Nat) : Nat := n % 4294967296

/-! ## Reserving -/

/-- A buffer and the capacity recorded for it. -/
structure Slot (α : Type) where
  cells : Array α
  cap : Nat

/-- `realloc` on one buffer: it may fail, else there are as many cells as asked for, and
nothing is known about the new ones. -/
def Allocator (α : Type) : Type :=
  { realloc : Array α → Nat → Option (Array α) //
    ∀ b n b', realloc b n = some b' → b'.size = n }

structure Memory where
  nodes : Allocator BpeNode
  heap : Allocator BpeCand
  ids : Allocator Int
  pretoks : Allocator PretokSlice
  text : Allocator UInt8
  out : Allocator Int
  cand : Allocator UInt8

structure EncodeScratch where
  nodes : Slot BpeNode
  heap : Slot BpeCand
  heapLen : Nat
  ids : Slot Int
  pretoks : Slot PretokSlice
  text : Slot UInt8
  out : Slot Int
  cand : Slot UInt8

/-- The buffers a reservation is about. -/
structure Mask where
  nodes : Bool
  heap : Bool
  ids : Bool
  pretoks : Bool
  text : Bool
  out : Bool
  cand : Bool

def SCRATCH_ALL : Mask := ⟨true, true, true, true, true, true, true⟩

/-- Grow a slot to `count` cells where `short` holds, and record the capacity `cap`. -/
def Slot.grow {α : Type} (alloc : Allocator α) (slot : Slot α) (short : Bool) (count cap : Nat) :
    Option (Slot α) :=
  if short then (alloc.1 slot.cells count).map fun cells => ⟨cells, cap⟩ else some slot

/-- Store a grown slot; a failed allocation leaves the scratch as it is so far. -/
def keep {α : Type} (s : EncodeScratch) (grown : Option (Slot α))
    (put : Slot α → EncodeScratch) : Except EncodeScratch EncodeScratch :=
  match grown with
  | none => .error s
  | some slot => .ok (put slot)

/-- Reserve for an input; the error carries the scratch a failed reservation leaves. -/
def scratchReserveMask (mem : Memory) (s : EncodeScratch) (inputLen : Nat) (mask : Mask) :
    Except EncodeScratch EncodeScratch :=
  if UINT32_MAX / 3 < inputLen then .error s
  else do
    let len := if inputLen = 0 then 1 else uint32 inputLen
    let s ← keep s (s.nodes.grow mem.nodes (mask.nodes && s.nodes.cap < len) len len)
      fun slot => { s with nodes := slot }
    let s ← keep s (s.ids.grow mem.ids (mask.ids && s.ids.cap < len) len len)
      fun slot => { s with ids := slot }
    let s ← keep s (s.heap.grow mem.heap (mask.heap && s.heap.cap / 3 < len) (3 * len)
      (uint32 (3 * len))) fun slot => { s with heap := slot }
    let s ← keep s (s.pretoks.grow mem.pretoks (mask.pretoks && s.pretoks.cap < len) len len)
      fun slot => { s with pretoks := slot }
    let s ← keep s (s.text.grow mem.text (mask.text && s.text.cap < len) len len)
      fun slot => { s with text := slot }
    let s ← keep s (s.out.grow mem.out (mask.out && s.out.cap < len) len len)
      fun slot => { s with out := slot }
    keep s (s.cand.grow mem.cand (mask.cand && s.cand.cap < uint32 (len + 2)) (len + 2)
      (uint32 (len + 2))) fun slot => { s with cand := slot }

/-! ## What a reservation guarantees -/

/-- The recorded capacity is the number of cells. -/
def Slot.Sized {α : Type} (slot : Slot α) : Prop := slot.cap = slot.cells.size

structure Sized (s : EncodeScratch) : Prop where
  nodes : s.nodes.Sized
  heap : s.heap.Sized
  ids : s.ids.Sized
  pretoks : s.pretoks.Sized
  text : s.text.Sized
  out : s.out.Sized
  cand : s.cand.Sized

/-- The buffers of the mask have the cells an input of `len` bytes needs. -/
structure Reserved (s : EncodeScratch) (len : Nat) (mask : Mask) : Prop where
  nodes : mask.nodes = true → len ≤ s.nodes.cells.size
  heap : mask.heap = true → 3 * len ≤ s.heap.cells.size
  ids : mask.ids = true → len ≤ s.ids.cells.size
  pretoks : mask.pretoks = true → len ≤ s.pretoks.cells.size
  text : mask.text = true → len ≤ s.text.cells.size
  out : mask.out = true → len ≤ s.out.cells.size
  cand : mask.cand = true → len + 2 ≤ s.cand.cells.size

/-- No 32-bit computation of a reservation wraps. -/
theorem uint32_exact {inputLen : Nat} (h : inputLen ≤ UINT32_MAX / 3) :
    uint32 inputLen = inputLen ∧ uint32 (3 * max 1 inputLen) = 3 * max 1 inputLen ∧
      uint32 (max 1 inputLen + 2) = max 1 inputLen + 2 := by
  simp only [UINT32_MAX] at h
  simp only [uint32]
  omega

/-- A reservation ends in a scratch with `ok`, or fails in one with `err`. -/
def Ends (m : Except EncodeScratch EncodeScratch) (err ok : EncodeScratch → Prop) : Prop :=
  match m with
  | .error s => err s
  | .ok s => ok s

theorem Ends.bind {m : Except EncodeScratch EncodeScratch}
    {f : EncodeScratch → Except EncodeScratch EncodeScratch} {err ok ok' : EncodeScratch → Prop}
    (h : Ends m err ok) (hf : ∀ s, ok s → Ends (f s) err ok') : Ends (m >>= f) err ok' := by
  cases m with
  | error s => exact h
  | ok s => exact hf s h

theorem Ends.mono {m : Except EncodeScratch EncodeScratch} {err ok ok' : EncodeScratch → Prop}
    (h : Ends m err ok) (hw : ∀ s, ok s → ok' s) : Ends m err ok' := by
  cases m with
  | error s => exact h
  | ok s => exact hw s h

/-- Growing a slot keeps its capacity honest, and makes it large enough where it is asked to. -/
theorem keep_ends {α : Type} {alloc : Allocator α} {slot : Slot α} {s : EncodeScratch}
    {put : Slot α → EncodeScratch} {mask short : Bool} {count cap : Nat} (hslot : slot.Sized)
    (hs : Sized s) (hcap : cap = count) (henough : short = false → count ≤ slot.cap) :
    Ends (keep s (slot.grow alloc (mask && short) count cap) put) Sized fun s' =>
      ∃ slot', s' = put slot' ∧ slot'.Sized ∧ (mask = true → count ≤ slot'.cells.size) := by
  rw [Slot.grow]
  cases hshort : mask && short with
  | false =>
    rw [if_neg (by decide)]
    refine ⟨slot, rfl, hslot, fun hm => ?_⟩
    rw [← hslot]
    exact henough (by simpa [hm] using hshort)
  | true =>
    rw [if_pos rfl]
    cases hres : alloc.1 slot.cells count with
    | none => exact hs
    | some cells =>
      have hsize := alloc.2 _ _ _ hres
      exact ⟨⟨cells, cap⟩, rfl, hcap.trans hsize.symm, fun _ => Nat.le_of_eq hsize.symm⟩

/-- Whatever `realloc` does, no recorded capacity exceeds its buffer, and a reservation that
succeeds has room for the length, which is small enough. -/
theorem reserve_ends (mem : Memory) {s : EncodeScratch} (hs : Sized s) (inputLen : Nat)
    (mask : Mask) : Ends (scratchReserveMask mem s inputLen mask) Sized fun s' =>
      Sized s' ∧ inputLen ≤ UINT32_MAX / 3 ∧ Reserved s' (max 1 inputLen) mask := by
  rw [scratchReserveMask]
  split
  · exact hs
  · rename_i hlen
    have hle := Nat.le_of_not_lt hlen
    obtain ⟨hexact, hthree, htwo⟩ := uint32_exact hle
    have hmax : (if inputLen = 0 then 1 else uint32 inputLen) = max 1 inputLen := by
      rw [hexact]
      split <;> omega
    simp only [hmax, hthree, htwo]
    refine (keep_ends hs.nodes hs rfl fun h => Nat.le_of_not_lt (of_decide_eq_false h)).bind ?_
    rintro _ ⟨nodes, rfl, hnodes, hnodes'⟩
    have hs : Sized { s with nodes := nodes } := { hs with nodes := hnodes }
    refine (keep_ends hs.ids hs rfl fun h => Nat.le_of_not_lt (of_decide_eq_false h)).bind ?_
    rintro _ ⟨ids, rfl, hids, hids'⟩
    have hs : Sized { s with nodes := nodes, ids := ids } := { hs with ids := hids }
    refine (keep_ends hs.heap hs rfl fun h => ?_).bind ?_
    · have := of_decide_eq_false h
      simp only at this ⊢
      omega
    rintro _ ⟨heap, rfl, hheap, hheap'⟩
    have hs : Sized { s with nodes := nodes, ids := ids, heap := heap } := { hs with heap := hheap }
    refine (keep_ends hs.pretoks hs rfl fun h => Nat.le_of_not_lt (of_decide_eq_false h)).bind ?_
    rintro _ ⟨pretoks, rfl, hpretoks, hpretoks'⟩
    have hs : Sized { s with nodes := nodes, ids := ids, heap := heap, pretoks := pretoks } :=
      { hs with pretoks := hpretoks }
    refine (keep_ends hs.text hs rfl fun h => Nat.le_of_not_lt (of_decide_eq_false h)).bind ?_
    rintro _ ⟨text, rfl, htext, htext'⟩
    have hs : Sized { s with nodes := nodes, ids := ids, heap := heap, pretoks := pretoks,
                             text := text } := { hs with text := htext }
    refine (keep_ends hs.out hs rfl fun h => Nat.le_of_not_lt (of_decide_eq_false h)).bind ?_
    rintro _ ⟨out, rfl, hout, hout'⟩
    have hs : Sized { s with nodes := nodes, ids := ids, heap := heap, pretoks := pretoks,
                             text := text, out := out } := { hs with out := hout }
    refine (keep_ends hs.cand hs rfl fun h => Nat.le_of_not_lt (of_decide_eq_false h)).mono ?_
    rintro _ ⟨cand, rfl, hcand, hcand'⟩
    exact ⟨{ hs with cand := hcand }, hle,
      ⟨hnodes', hheap', hids', hpretoks', htext', hout', hcand'⟩⟩

/-! ## The merge loop -/

/-- Move the candidate at `i` up while it is less than its parent. -/
def siftUp : Nat → Array BpeCand → Nat → Option (Array BpeCand)
  | 0, heap, _ => some heap
  | n + 1, heap, i =>
    if 0 < i then do
      let c ← load heap i
      let p ← load heap ((i - 1) / 2)
      if bpeCandLess c p then do
        let heap ← store heap ((i - 1) / 2) c
        let heap ← store heap i p
        siftUp n heap ((i - 1) / 2)
      else some heap
    else some heap

/-- Push the pair `(l, r)` if its current symbols have a merge rank. -/
def bpePushCand (tok : Tokenizer) (input : Bytes) (s : EncodeScratch) (l r : Nat) :
    Option EncodeScratch := do
  let ln ← load s.nodes.cells l
  let rn ← load s.nodes.cells r
  let ltext ← loadSlice input ln.start ln.stop
  let rtext ← loadSlice input rn.start rn.stop
  match tok.merges.lookup (ltext, rtext) with
  | none => some s
  | some rank =>
    if s.heapLen < s.heap.cap then do
      let heap ← store s.heap.cells s.heapLen ⟨rank, l, r, ln.ver, rn.ver⟩
      let heap ← siftUp s.heapLen heap s.heapLen
      some { s with heap := ⟨heap, s.heap.cap⟩, heapLen := s.heapLen + 1 }
    else none

/-- The child at `c`, where it is inside the heap and less than the least so far. -/
def pickChild (heap : Array BpeCand) (len least c : Nat) : Option Nat :=
  if c < len then do
    let x ← load heap c
    let y ← load heap least
    some (if bpeCandLess x y then c else least)
  else some least

/-- Move the candidate at `i` down; the positions of the children are 32 bits wide. -/
def siftDown (len : Nat) : Nat → Array BpeCand → Nat → Option (Array BpeCand)
  | 0, heap, _ => some heap
  | n + 1, heap, i => do
    let least ← pickChild heap len i (uint32 (2 * i + 1))
    let least ← pickChild heap len least (uint32 (2 * i + 2))
    if least = i then some heap
    else do
      let x ← load heap least
      let y ← load heap i
      let heap ← store heap least y
      let heap ← store heap i x
      siftDown len n heap least

/-- Take the root out; `sift` bounds the rounds of the way down. -/
def bpeHeapPop (sift : Nat) (s : EncodeScratch) : Option (BpeCand × EncodeScratch) := do
  let top ← load s.heap.cells 0
  let last ← load s.heap.cells (s.heapLen - 1)
  let heap ← store s.heap.cells 0 last
  let heap ← siftDown (s.heapLen - 1) sift heap 0
  some (top, { s with heap := ⟨heap, s.heap.cap⟩, heapLen := s.heapLen - 1 })

/-- One node per codepoint; returns the cells and the number of nodes. -/
def splitNodes (input : Bytes) : Nat → Nat → Array BpeNode → Nat → Option (Array BpeNode × Nat)
  | 0, _, nodes, count => some (nodes, count)
  | n + 1, pos, nodes, count =>
    if pos < input.length then do
      let stop := pos + (ucDecodeCodepoint input pos).len
      let nodes ← store nodes count {
        start := pos
        stop := stop
        prev := (count : Int) - 1
        next := if stop < input.length then (count : Int) + 1 else -1
        ver := 0 }
      splitNodes input n stop nodes (count + 1)
    else some (nodes, count)

/-- Push the pairs `(j, j + 1)` for the `n` positions from `j` on. -/
def seedHeap (tok : Tokenizer) (input : Bytes) : Nat → Nat → EncodeScratch → Option EncodeScratch
  | 0, _, s => some s
  | n + 1, j, s => do
    let s ← bpePushCand tok input s j (j + 1)
    seedHeap tok input n (j + 1) s

/-- Merge node `r` into node `l`: extend, bump both versions, unlink. -/
def mergeNodes (nodes : Array BpeNode) (l r : Nat) : Option (Array BpeNode) := do
  let ln ← load nodes l
  let rn ← load nodes r
  let nodes ← store nodes l { ln with stop := rn.stop, ver := ln.ver + 1, next := rn.next }
  let nodes ← store nodes r { rn with ver := rn.ver + 1 }
  if 0 ≤ rn.next then do
    let nn ← load nodes rn.next.toNat
    store nodes rn.next.toNat { nn with prev := l }
  else some nodes

/-- One iteration: pop, and merge unless the candidate is stale. -/
def bpeStep (tok : Tokenizer) (input : Bytes) (sift : Nat) (s : EncodeScratch) :
    Option EncodeScratch := do
  let (c, s) ← bpeHeapPop sift s
  let ln ← load s.nodes.cells c.left
  let rn ← load s.nodes.cells c.right
  if ln.ver ≠ c.lver ∨ rn.ver ≠ c.rver then some s
  else do
    let nodes ← mergeNodes s.nodes.cells c.left c.right
    let s : EncodeScratch := { s with nodes := ⟨nodes, s.nodes.cap⟩ }
    let ln ← load s.nodes.cells c.left
    let s ← (if 0 ≤ ln.prev then bpePushCand tok input s ln.prev.toNat c.left else some s)
    let ln ← load s.nodes.cells c.left
    if 0 ≤ ln.next then bpePushCand tok input s c.left ln.next.toNat else some s

/-- At most `n` iterations of the merge loop. -/
def bpeLoop (tok : Tokenizer) (input : Bytes) (sift : Nat) :
    Nat → EncodeScratch → Option EncodeScratch
  | 0, s => some s
  | n + 1, s =>
    if 0 < s.heapLen then do
      let s ← bpeStep tok input sift s
      bpeLoop tok input sift n s
    else some s

/-- Store ids one after the other. -/
def emitIds : List Int → Array Int → Nat → Option (Array Int × Nat)
  | [], ids, count => some (ids, count)
  | id :: rest, ids, count => do
    let ids ← store ids count id
    emitIds rest ids (count + 1)

/-- The ids of one surviving symbol. -/
def bpeEmitSymbol (tok : Tokenizer) (input : Bytes) (node : BpeNode) (ids : Array Int)
    (count : Nat) : Option (Array Int × Nat) := do
  let sym ← loadSlice input node.start node.stop
  emitIds (BpeMerge.bpeEmitSymbol tok sym) ids count

/-- Emit the symbols of the nodes met by following `next` from `cur`. -/
def emitLoop (tok : Tokenizer) (input : Bytes) (nodes : Array BpeNode) :
    Nat → Int → Array Int → Nat → Option (Array Int × Nat)
  | 0, _, ids, count => some (ids, count)
  | n + 1, cur, ids, count =>
    if 0 ≤ cur then do
      let node ← load nodes cur.toNat
      let (ids, count) ← bpeEmitSymbol tok input node ids count
      emitLoop tok input nodes n node.next ids count
    else some (ids, count)

/-- The scratch and the number of ids in `ids`; no number for the error return. -/
def bpeMerge (tok : Tokenizer) (sift : Nat) (s : EncodeScratch) (input : Bytes) :
    Option (EncodeScratch × Option Nat) :=
  if tok.type = .wordpiece then some (s, none)
  else if INT32_MAX < input.length then some (s, none)
  else do
    let (nodes, nNodes) ← splitNodes input input.length 0 s.nodes.cells 0
    let s : EncodeScratch := { s with nodes := ⟨nodes, s.nodes.cap⟩, heapLen := 0 }
    let s ← seedHeap tok input (nNodes - 1) 0 s
    let s ← bpeLoop tok input sift (3 * input.length) s
    let (ids, count) ← emitLoop tok input s.nodes.cells nNodes (if 0 < nNodes then 0 else -1)
      s.ids.cells 0
    some ({ s with ids := ⟨ids, s.ids.cap⟩ }, some count)

/-! ## The byte-level and SentencePiece encoders -/

/-- The slices from `i` on; no number when they do not fit the recorded capacity. -/
def pretokLoop (T : UcTables) (cap : Nat) (text : Bytes) :
    Nat → Nat → Array PretokSlice → Nat → Option (Array PretokSlice × Option Nat)
  | 0, _, pretoks, count => some (pretoks, some count)
  | n + 1, i, pretoks, count =>
    if i < text.length then
      if cap ≤ count then some (pretoks, none)
      else do
        let stop := sliceEnd T text i
        let pretoks ← store pretoks count ⟨i, stop - i⟩
        pretokLoop T cap text n stop pretoks (count + 1)
    else some (pretoks, some count)

def gpt2Pretokenize (T : UcTables) (s : EncodeScratch) (text : Bytes) :
    Option (EncodeScratch × Option Nat) :=
  if INT32_MAX < text.length then some (s, none)
  else do
    let (pretoks, count) ← pretokLoop T s.pretoks.cap text text.length 0 s.pretoks.cells 0
    some ({ s with pretoks := ⟨pretoks, s.pretoks.cap⟩ }, count)

/-- Write the spelling of every byte after the `tlen` bytes written so far. -/
def spellBytes (spell : UInt8 → Bytes) : Bytes → Array UInt8 → Nat → Option (Array UInt8 × Nat)
  | [], text, tlen => some (text, tlen)
  | b :: rest, text, tlen => do
    let text ← storeSlice text tlen (spell b)
    spellBytes spell rest text (tlen + (spell b).length)

theorem spellBytes_spec (spell : UInt8 → Bytes) (bytes : Bytes) {text : Array UInt8}
    {done : Bytes} (h : Holds text done)
    (hle : done.length + (bytes.flatMap spell).length ≤ text.size) :
    Safe (spellBytes spell bytes text done.length) fun r => r.1.size = text.size ∧
      Holds r.1 (done ++ bytes.flatMap spell) ∧
      r.2 = done.length + (bytes.flatMap spell).length := by
  induction bytes generalizing text done with
  | nil => exact Safe.of_some ⟨rfl, by simpa using h, by simp⟩
  | cons b rest ih =>
    simp only [List.flatMap_cons, List.length_append] at hle ⊢
    refine (safe_storeSlice h (spell b) (by omega)).bind ?_
    rintro text' ⟨hsize, hholds⟩
    have hrest := ih hholds (by simp only [List.length_append]; omega)
    rw [List.length_append] at hrest
    refine hrest.mono ?_
    rintro ⟨text'', tlen⟩ ⟨hsize', hholds', htlen⟩
    exact ⟨hsize'.trans hsize, by simpa using hholds', by simp only at htlen ⊢; omega⟩

/-- Spell, merge and append the `n` words from word `w` on. -/
def wordsLoop (tok : Tokenizer) (sift : Nat) (text : Bytes) :
    Nat → Nat → EncodeScratch → Nat → Option (EncodeScratch × Option Nat)
  | 0, _, s, total => some (s, some total)
  | n + 1, w, s, total => do
    let word ← load s.pretoks.cells w
    let bytes ← loadSlice text word.off (word.off + word.len)
    let (cells, tlen) ← spellBytes (fun b => byteSymbol tok.bytesUnicode b.toNat) bytes
      s.text.cells 0
    let s : EncodeScratch := { s with text := ⟨cells, s.text.cap⟩ }
    let input ← loadSlice s.text.cells.toList 0 tlen
    let (s, count) ← bpeMerge tok sift s input
    match count with
    | none => some (s, none)
    | some count => do
      let ids ← loadSlice s.ids.cells.toList 0 count
      let out ← storeSlice s.out.cells total ids
      wordsLoop tok sift text n (w + 1) { s with out := ⟨out, s.out.cap⟩ } (total + count)

def encodeByteLevel (mem : Memory) (T : UcTables) (tok : Tokenizer) (sift : Nat)
    (s : EncodeScratch) (text : Bytes) : Option (EncodeScratch × Option Nat) :=
  if INT32_MAX < text.length then some (s, none)
  else
    match scratchReserveMask mem s (2 * text.length)
      ⟨true, true, true, true, true, true, false⟩ with
    | .error s => some (s, none)
    | .ok s => do
      let (s, count) ← gpt2Pretokenize T s text
      match count with
      | none => some (s, none)
      | some nWords => wordsLoop tok sift text nWords 0 s 0

def encodeSentencepiece (mem : Memory) (tok : Tokenizer) (sift : Nat) (s : EncodeScratch)
    (text : Bytes) : Option (EncodeScratch × Option Nat) :=
  if INT32_MAX < text.length then some (s, none)
  else
    match scratchReserveMask mem s (3 * text.length)
      ⟨true, true, true, false, true, false, false⟩ with
    | .error s => some (s, none)
    | .ok s => do
      let (cells, tlen) ← spellBytes (fun b => if b = 0x20 then [0xE2, 0x96, 0x81] else [b]) text
        s.text.cells 0
      let s : EncodeScratch := { s with text := ⟨cells, s.text.cap⟩ }
      let input ← loadSlice s.text.cells.toList 0 tlen
      bpeMerge tok sift s input

/-! ## The WordPiece encoder -/

/-- Step back over continuation bytes of the word at `wstart`, not below `pos`. -/
def wpShrink (text : Array UInt8) (wstart pos : Nat) : Nat → Option Nat
  | 0 => some 0
  | stop + 1 =>
    if pos < stop + 1 then do
      let c ← load text (wstart + (stop + 1))
      if isContinuation c then wpShrink text wstart pos stop else some (stop + 1)
    else some (stop + 1)

/-- Look up the first `stop - pos + plen` bytes of the key, shrinking `stop` on a miss. -/
def wpProbe (tok : Tokenizer) (text : Array UInt8) (wstart pos : Nat) (key : List UInt8)
    (kstart plen : Nat) : Nat → Nat → Option (Option (Nat × Nat))
  | 0, _ => some none
  | n + 1, stop =>
    if pos < stop then do
      let sym ← loadSlice key kstart (kstart + (stop - pos + plen))
      match tok.vocab.lookup sym with
      | some id => some (some (id, stop))
      | none => do
        let stop ← wpShrink text wstart pos (stop - 1)
        wpProbe tok text wstart pos key kstart plen n stop
    else some none

/-- The output cells, the key buffer and the number of ids. -/
structure WpOut where
  out : Array Int
  cand : Array UInt8
  total : Nat

/-- The prefix and the rest of the word, copied into the key buffer. -/
def fillCand (tok : Tokenizer) (text : Array UInt8) (wstart pos wlen : Nat) (cand : Array UInt8) :
    Option (Array UInt8) := do
  let rest ← loadSlice text.toList (wstart + pos) (wstart + wlen)
  let cand ← storeSlice cand 0 tok.wpPrefix
  storeSlice cand tok.wpPrefix.length rest

/-- The pieces of a word from `pos` on; a miss goes back to `start` and emits `unk`. -/
def wpEmitLoop (tok : Tokenizer) (text : Array UInt8) (wstart wlen : Nat) (unk : Int)
    (start : Nat) : Nat → Nat → WpOut → Option WpOut
  | 0, _, o => some o
  | n + 1, pos, o =>
    if pos < wlen then do
      let cand ← (if 0 < pos then fillCand tok text wstart pos wlen o.cand else some o.cand)
      let found ← (if 0 < pos then
          wpProbe tok text wstart pos cand.toList 0 tok.wpPrefix.length wlen wlen
        else wpProbe tok text wstart pos text.toList (wstart + pos) 0 wlen wlen)
      match found with
      | some (id, stop) => do
        let out ← store o.out o.total id
        wpEmitLoop tok text wstart wlen unk start n stop ⟨out, cand, o.total + 1⟩
      | none => do
        let out ← store o.out start unk
        some ⟨out, cand, start + 1⟩
    else some o

def wpEmitWord (tok : Tokenizer) (text : Array UInt8) (wstart wlen : Nat) (unk : Int)
    (o : WpOut) : Option WpOut :=
  wpEmitLoop tok text wstart wlen unk o.total wlen 0 o

/-- Split at spaces and punctuation; returns the ids and the start of the last word. -/
def wpWords (tok : Tokenizer) (text : Array UInt8) (len : Nat) (unk : Int) :
    Nat → Nat → Nat → WpOut → Option (WpOut × Nat)
  | 0, _, wstart, o => some (o, wstart)
  | n + 1, i, wstart, o =>
    if i < len then do
      let c ← load text i
      if wpIsSpace c then do
        let o ← (if wstart < i then wpEmitWord tok text wstart (i - wstart) unk o else some o)
        wpWords tok text len unk n (i + 1) (i + 1) o
      else if wpIsPunct c then do
        let o ← (if wstart < i then wpEmitWord tok text wstart (i - wstart) unk o else some o)
        let o ← wpEmitWord tok text i 1 unk o
        wpWords tok text len unk n (i + 1) (i + 1) o
      else wpWords tok text len unk n (i + 1) wstart o
    else some (o, wstart)

/-- The text, the output and the key buffer. -/
def wpMask : Mask := ⟨false, false, false, false, true, true, true⟩

def encodeWordpiece (mem : Memory) (tok : Tokenizer) (s : EncodeScratch) (text : Bytes) :
    Option (EncodeScratch × Option Nat) :=
  if INT32_MAX < text.length then some (s, none)
  else
    match scratchReserveMask mem s (text.length + tok.wpPrefix.length) wpMask with
    | .error s => some (s, none)
    | .ok s => do
      let (cells, _) ← spellBytes (fun c => [lowerAscii c]) text s.text.cells 0
      let s : EncodeScratch := { s with text := ⟨cells, s.text.cap⟩ }
      let unk := if 0 ≤ tok.unkId then tok.unkId else 0
      let (o, wstart) ← wpWords tok cells text.length unk text.length 0 0
        ⟨s.out.cells, s.cand.cells, 0⟩
      let o ← (if wstart < text.length then
          wpEmitWord tok cells wstart (text.length - wstart) unk o
        else some o)
      some ({ s with out := ⟨o.out, s.out.cap⟩, cand := ⟨o.cand, s.cand.cap⟩ }, some o.total)

end Mlxd.TokScratch
