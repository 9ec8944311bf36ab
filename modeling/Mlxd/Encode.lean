import Mlxd.ByteLevel

/-!
# The encoders and the special-token scan

`encodeAllocImpl` splits the text around the added special tokens, in the order the
map iterates over them, and encodes the gaps with the mode's encoder. Unicode
normalization is outside the repository and stays a parameter.
-/
namespace Mlxd.Encode

open Mlxd.Unicode Mlxd.TokLoad Mlxd.BpeMerge Mlxd.Pretokenize Mlxd.ByteLevel

/-! ## SentencePiece -/

/-- The text with every space spelled U+2581. -/
def spExpand (text : Bytes) : Bytes :=
  text.flatMap fun b => if b = 0x20 then [0xE2, 0x96, 0x81] else [b]

def encodeSentencepiece (tok : Tokenizer) (text : Bytes) : Option (List Int) :=
  if INT32_MAX < text.length then none
  else if UINT32_MAX / 3 < 3 * text.length then none
  else bpeMerge tok (spExpand text)

/-! ## WordPiece -/

def wpIsPunct (c : UInt8) : Bool :=
  (0x21 ≤ c && c ≤ 0x2F) || (0x3A ≤ c && c ≤ 0x40) || (0x5B ≤ c && c ≤ 0x60) ||
    (0x7B ≤ c && c ≤ 0x7E)

def isContinuation (c : UInt8) : Bool := c &&& 0xC0 == 0x80

/-- Step back over continuation bytes, not below `pos`. -/
def wpShrink (word : Bytes) (pos : Nat) : Nat → Nat
  | 0 => 0
  | stop + 1 =>
    if pos < stop + 1 ∧ isContinuation (byteAt word (stop + 1)) then wpShrink word pos stop
    else stop + 1

/-- The longest vocabulary entry from `pos` on, with the position after it. -/
def wpProbe (tok : Tokenizer) (word : Bytes) (pos : Nat) : Nat → Nat → Option (Nat × Nat)
  | 0, _ => none
  | fuel + 1, stop =>
    if pos < stop then
      let key := if 0 < pos then tok.wpPrefix ++ slice word pos stop else slice word pos stop
      match tok.vocab.lookup key with
      | some id => some (id, stop)
      | none => wpProbe tok word pos fuel (wpShrink word pos (stop - 1))
    else none

/-- The pieces of a word; `none` when nothing matches at some position. -/
def wpPieces (tok : Tokenizer) (word : Bytes) : Nat → Nat → Option (List Int)
  | 0, _ => some []
  | fuel + 1, pos =>
    if pos < word.length then
      match wpProbe tok word pos word.length word.length with
      | none => none
      | some (id, stop) => (wpPieces tok word fuel stop).map ((id : Int) :: ·)
    else some []

/-- A word without a match at some position is one unknown token. -/
def wpEmitWord (tok : Tokenizer) (word : Bytes) (unk : Int) : List Int :=
  (wpPieces tok word word.length 0).getD [unk]

def wpIsSpace (c : UInt8) : Bool := c == 0x20 || c == 0x09 || c == 0x0A || c == 0x0D

/-- Split at spaces and punctuation; returns the ids and the start of the last word. -/
def wpWords (tok : Tokenizer) (text : Bytes) (unk : Int) :
    Nat → Nat → Nat → List Int → List Int × Nat
  | 0, _, wstart, total => (total, wstart)
  | fuel + 1, i, wstart, total =>
    if i < text.length then
      let c := byteAt text i
      let upTo := if wstart < i then total ++ wpEmitWord tok (slice text wstart i) unk else total
      if wpIsSpace c then wpWords tok text unk fuel (i + 1) (i + 1) upTo
      else if wpIsPunct c then
        wpWords tok text unk fuel (i + 1) (i + 1)
          (upTo ++ wpEmitWord tok (slice text i (i + 1)) unk)
      else wpWords tok text unk fuel (i + 1) wstart total
    else (total, wstart)

def lowerAscii (c : UInt8) : UInt8 := if 0x41 ≤ c ∧ c ≤ 0x5A then c + 32 else c

def encodeWordpiece (tok : Tokenizer) (text : Bytes) : Option (List Int) :=
  if INT32_MAX < text.length then none
  else if UINT32_MAX / 3 < text.length + tok.wpPrefix.length then none
  else
    let text := text.map lowerAscii
    let unk := if 0 ≤ tok.unkId then tok.unkId else 0
    let (total, wstart) := wpWords tok text unk text.length 0 0 []
    some (if wstart < text.length then
      total ++ wpEmitWord tok (slice text wstart text.length) unk else total)

/-! ## Special tokens -/

/-- The first position of a byte among the `n` positions from `start` on. -/
def memchr (hay : Bytes) (b : UInt8) : Nat → Nat → Option Nat
  | 0, _ => none
  | n + 1, start => if byteAt hay start = b then some start else memchr hay b n (start + 1)

def findSubLoop (hay needle : Bytes) : Nat → Nat → Option Nat
  | 0, _ => none
  | fuel + 1, start =>
    if start + needle.length ≤ hay.length then
      match memchr hay (byteAt needle 0) (hay.length - needle.length - start + 1) start with
      | none => none
      | some pos =>
        if slice hay pos (pos + needle.length) = needle then some pos
        else findSubLoop hay needle fuel (pos + 1)
    else none

/-- The first occurrence of the needle at or after `start`. -/
def findSub (hay : Bytes) (start : Nat) (needle : Bytes) : Option Nat :=
  if needle.length = 0 ∨ hay.length < needle.length then none
  else findSubLoop hay needle (hay.length + 1) start

/-- A special token with its cached next occurrence. -/
structure SpecialSite where
  key : Bytes
  id : Int
  next : Option Nat

/-- Search again once the cached occurrence falls behind the cursor. -/
def refresh (text : Bytes) (pos : Nat) (site : SpecialSite) : SpecialSite :=
  match site.next with
  | none => site
  | some next => if next < pos then { site with next := findSub text pos site.key } else site

/-- The earlier site wins, the longer one on a tie, the one met first after that. -/
def better (best : Option (SpecialSite × Nat)) (site : SpecialSite) :
    Option (SpecialSite × Nat) :=
  match site.next with
  | none => best
  | some next =>
    match best with
    | none => some (site, next)
    | some (b, bnext) =>
      if next < bnext ∨ next = bnext ∧ b.key.length < site.key.length then some (site, next)
      else best

section Scan

variable (T : UcTables) (tok : Tokenizer)

/-- Encode a piece of text without special tokens. -/
def encodeSegment (text : Bytes) : Option (List Int) :=
  match tok.type with
  | .bpe => encodeByteLevel T tok text
  | .wordpiece => none
  | .sentencepieceBpe => encodeSentencepiece tok text

/-- The ids from `pos` on; the fuel bounds the special tokens still to come. -/
def scanLoop (text : Bytes) : Nat → Nat → List SpecialSite → Option (List Int)
  | 0, _, _ => none
  | fuel + 1, pos, sites =>
    if pos < text.length then
      let sites := sites.map (refresh text pos)
      match sites.foldl better none with
      | none => encodeSegment T tok (slice text pos text.length)
      | some (best, next) =>
        match (if pos < next then encodeSegment T tok (slice text pos next) else some []),
          scanLoop text fuel (next + best.key.length) sites with
        | some seg, some rest => some (seg ++ best.id :: rest)
        | _, _ => none
    else some []

/-- The sites in the order the map iterates, each with its first occurrence. -/
def specialSites (iterate : StrMap → List (Bytes × Nat)) (text : Bytes) : List SpecialSite :=
  (iterate tok.specialTokens).map fun e => ⟨e.1, e.2, findSub text 0 e.1⟩

def encodeAllocImpl (iterate : StrMap → List (Bytes × Nat)) (text : Bytes)
    (parseSpecial : Bool) : Option (List Int) :=
  let out :=
    if tok.type = .wordpiece then
      (encodeWordpiece tok text).map fun seg =>
        (if 0 ≤ tok.bosId then [tok.bosId] else []) ++ seg ++
          (if 0 ≤ tok.eosId then [tok.eosId] else [])
    else
      scanLoop T tok text (text.length + 1) 0
        (if parseSpecial then specialSites tok iterate text else [])
  match out with
  | none => none
  | some ids => if INT32_MAX < ids.length then none else some ids

/-- `normalize` gives the normal form of valid UTF-8, or `none` when it fails. -/
def tokenizerEncodeAlloc (iterate : StrMap → List (Bytes × Nat))
    (normalize : NormForm → Bytes → Option Bytes) (text : Bytes) (parseSpecial : Bool) :
    Option (List Int) :=
  if INT32_MAX < text.length then none
  else if tok.normForm ≠ .none ∧ 0 < text.length ∧ ucUtf8Scan text = .valid then
    match normalize tok.normForm text with
    | none => none
    | some norm => encodeAllocImpl T tok iterate norm parseSpecial
  else encodeAllocImpl T tok iterate text parseSpecial

end Scan

end Mlxd.Encode
