import Mlxd.Lib.BinaryHeap
import Mlxd.TokLoad

/-!
# The BPE merge loop

Symbols are slices of the input, kept in an array of doubly linked nodes. Ranked
adjacent pairs wait in a binary heap; a merge bumps the versions of both nodes,
so a candidate whose versions differ from its nodes' versions is stale and skipped.
-/
namespace Mlxd.BpeMerge

open Mlxd.Unicode Mlxd.TokLoad

def INT32_MAX : Nat := 2147483647

/-- One symbol `input[start..stop)` in the worklist; -1 stands for no neighbour. -/
structure BpeNode where
  start : Nat
  stop : Nat
  prev : Int
  next : Int
  ver : Nat
  deriving DecidableEq, Repr, Inhabited

/-- A candidate pair with the versions its nodes had when it was pushed. -/
structure BpeCand where
  rank : Nat
  left : Nat
  right : Nat
  lver : Nat
  rver : Nat
  deriving DecidableEq, Repr

structure Scratch where
  nodes : Array BpeNode
  heap : Array BpeCand

/-- The bytes of a node's symbol. -/
def symbol (input : Bytes) (n : BpeNode) : Bytes := slice input n.start n.stop

def bpeCandLess (a b : BpeCand) : Bool :=
  if a.rank ≠ b.rank then a.rank < b.rank else a.left < b.left

/-- Push the pair `(l, r)` if its current symbols have a merge rank. -/
def bpePushCand (tok : Tokenizer) (input : Bytes) (s : Scratch) (l r : Nat) : Scratch :=
  let ln := s.nodes[l]!
  let rn := s.nodes[r]!
  match tok.merges.lookup (symbol input ln, symbol input rn) with
  | none => s
  | some rank => { s with heap := BinaryHeap.push bpeCandLess s.heap ⟨rank, l, r, ln.ver, rn.ver⟩ }

/-- One node per codepoint; the fuel bounds the codepoints left. -/
def splitNodes (input : Bytes) : Nat → Nat → Array BpeNode → Array BpeNode
  | 0, _, nodes => nodes
  | fuel + 1, pos, nodes =>
    if pos < input.length then
      let stop := pos + (ucDecodeCodepoint input pos).len
      splitNodes input fuel stop (nodes.push {
        start := pos
        stop := stop
        prev := (nodes.size : Int) - 1
        next := if stop < input.length then (nodes.size : Int) + 1 else -1
        ver := 0 })
    else nodes

/-- Seed the heap with every ranked adjacent pair, left to right. -/
def seedHeap (tok : Tokenizer) (input : Bytes) (nodes : Array BpeNode) : Scratch :=
  (List.range (nodes.size - 1)).foldl (fun s j => bpePushCand tok input s j (j + 1)) ⟨nodes, #[]⟩

/-- Merge node `r` into node `l`: extend, unlink, and bump both versions. -/
def mergeNodes (nodes : Array BpeNode) (l r : Nat) : Array BpeNode :=
  let ln := nodes[l]!
  let rn := nodes[r]!
  let nodes := nodes.setIfInBounds l
    { ln with stop := rn.stop, ver := ln.ver + 1, next := rn.next }
  let nodes := nodes.setIfInBounds r { rn with ver := rn.ver + 1 }
  if 0 ≤ rn.next then
    nodes.setIfInBounds rn.next.toNat { nodes[rn.next.toNat]! with prev := l }
  else nodes

/-- Offer the pair of a node and its left neighbour. -/
def pushPrev (tok : Tokenizer) (input : Bytes) (s : Scratch) (l : Nat) : Scratch :=
  if 0 ≤ s.nodes[l]!.prev then bpePushCand tok input s s.nodes[l]!.prev.toNat l else s

/-- Offer the pair of a node and its right neighbour. -/
def pushNext (tok : Tokenizer) (input : Bytes) (s : Scratch) (l : Nat) : Scratch :=
  if 0 ≤ s.nodes[l]!.next then bpePushCand tok input s l s.nodes[l]!.next.toNat else s

/-- The positions in the heap are `uint32_t`. -/
def UINT32_SIZE : Nat := 4294967296

/-- Pop the least candidate; `none` where the last entry never comes to rest. -/
def bpeHeapPop (s : Scratch) (h : 0 < s.heap.size) : Option (BpeCand × Scratch) :=
  (BinaryHeap.popRest UINT32_SIZE bpeCandLess s.heap h).map fun heap =>
    (s.heap[0], { s with heap := heap })

/-- Skip the popped candidate when it is stale, else merge its pair and push the two new ones. -/
def bpeApply (tok : Tokenizer) (input : Bytes) (c : BpeCand) (s : Scratch) : Scratch :=
  if s.nodes[c.left]!.ver ≠ c.lver ∨ s.nodes[c.right]!.ver ≠ c.rver then s
  else
    let s : Scratch := { s with nodes := mergeNodes s.nodes c.left c.right }
    pushNext tok input (pushPrev tok input s c.left) c.left

/-- One iteration of the merge loop. -/
def bpeStep (tok : Tokenizer) (input : Bytes) (s : Scratch) (h : 0 < s.heap.size) :
    Option Scratch :=
  (bpeHeapPop s h).map fun popped => bpeApply tok input popped.1 popped.2

/-- At most `fuel` iterations of the loop `while (heap_len > 0)`. -/
def bpeLoop (tok : Tokenizer) (input : Bytes) : Nat → Scratch → Option Scratch
  | 0, s => some s
  | fuel + 1, s =>
    if h : 0 < s.heap.size then (bpeStep tok input s h).bind (bpeLoop tok input fuel) else some s

/-- The ids of one surviving symbol: its vocabulary id, else one id per byte. -/
def bpeEmitSymbol (tok : Tokenizer) (sym : Bytes) : List Int :=
  match tok.vocab.lookup sym with
  | some id => [(id : Int)]
  | none => sym.flatMap fun b =>
      let fid := tok.byteFallbackIds b.toNat
      if 0 ≤ fid then [fid] else if 0 ≤ tok.unkId then [tok.unkId] else []

/-- The nodes met by following `next` from `cur`, at most `fuel` of them. -/
def survivors (nodes : Array BpeNode) : Nat → Int → List Nat
  | 0, _ => []
  | fuel + 1, cur =>
    if 0 ≤ cur then cur.toNat :: survivors nodes fuel nodes[cur.toNat]!.next else []

/-- The surviving symbols of a scratch, left to right. -/
def symbols (input : Bytes) (nodes : Array BpeNode) : List Bytes :=
  (survivors nodes nodes.size (if 0 < nodes.size then 0 else -1)).map
    fun i => symbol input nodes[i]!

/-- The scratch after at most `fuel` iterations of the merge loop; `none` where one of them
never ends. -/
def bpeRun (tok : Tokenizer) (input : Bytes) (fuel : Nat) : Option Scratch :=
  bpeLoop tok input fuel (seedHeap tok input (splitNodes input input.length 0 #[]))

/-- The emitted ids; `none` for the error return, and where a pop never ends. Three iterations
per input byte are enough for the loop to run out of candidates. -/
def bpeMerge (tok : Tokenizer) (input : Bytes) : Option (List Int) :=
  if tok.type = .wordpiece then none
  else if INT32_MAX < input.length then none
  else
    (bpeRun tok input (3 * input.length)).map fun s =>
      (symbols input s.nodes).flatMap (bpeEmitSymbol tok)

end Mlxd.BpeMerge
