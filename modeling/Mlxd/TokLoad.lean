import Mathlib.Data.List.AList
import Mlxd.Json

/-!
# The tokenizer and its JSON loader

The tokenizer holds the vocabulary, the merge ranks and the tables resolved once
at load. The two maps are finite maps; a put on a present key replaces its value.
The loader follows `tokenizer_load_json` pass by pass over the parsed document.
-/
namespace Mlxd.TokLoad

open Mlxd.Unicode Mlxd.Json

abbrev StrMap := AList (fun _ : Bytes => Nat)

/-- Ordered pair of symbols to merge rank. -/
abbrev MergeMap := AList (fun _ : Bytes × Bytes => Nat)

def MLXD_TOK_MAX_ID : Int := 4194303

inductive NormForm where
  | none | nfc | nfkc
  deriving DecidableEq, Repr

inductive TokenizerType where
  | bpe | wordpiece | sentencepieceBpe
  deriving DecidableEq, Repr

structure Tokenizer where
  type : TokenizerType
  vocab : StrMap
  merges : MergeMap
  /-- All added tokens, special or not. -/
  specialTokens : StrMap
  /-- Only the added tokens flagged special. -/
  addedSpecial : StrMap
  idToToken : Nat → Option Bytes
  idToTokenCap : Nat
  vocabSize : Nat
  bosId : Int
  eosId : Int
  unkId : Int
  normForm : NormForm
  addDummyPrefix : Bool
  wpPrefix : Bytes
  wpCleanup : Bool
  byteFallbackIds : Nat → Int
  bytesUnicode : BytesUnicode

/-- The C string of a token id. -/
def tokenizerDecodeToken (tok : Tokenizer) (id : Int) : Option Bytes :=
  if id < 0 ∨ (tok.idToTokenCap : Int) ≤ id then none
  else (tok.idToToken id.toNat).map cstr

/-! ## Parts of the document -/

/-- One merge entry: a pair of strings, or a string split at its first space. -/
def parseMergePair : Value → Option (Bytes × Bytes)
  | .arr (lv :: rv :: _) =>
    match lv, rv with
    | .str l, .str r => some (l, r)
    | _, _ => none
  | .str s =>
    if 0x20 ∈ s then some (s.takeWhile (· ≠ 0x20), (s.dropWhile (· ≠ 0x20)).tail) else none
  | _ => none

/-- The entries of an optional array member: absent and null mean none, and any
other shape fails the load. -/
def jsonArrOrAbsent : Option Value → Option (List Value)
  | none => some []
  | some .null => some []
  | some (.arr items) => some items
  | some _ => none

mutual
/-- Whether a pre_tokenizer contains ByteLevel; `none` for a malformed Sequence. -/
def hasByteLevel (pt : Value) : Option Bool :=
  match getStr (objGet (some pt) (ascii "type")) with
  | none => some false
  | some t =>
    if cstr t = ascii "ByteLevel" then some true
    else if cstr t = ascii "Sequence" then
      match h : objGet (some pt) (ascii "pretokenizers") with
      | none => some false
      | some .null => some false
      | some (.arr subs) =>
        have := sizeOf_objGet pt _ _ h
        hasByteLevelSeq subs
      | some _ => none
    else some false
termination_by sizeOf pt
decreasing_by simp_all; omega

def hasByteLevelSeq : List Value → Option Bool
  | [] => some false
  | sub :: rest =>
    match hasByteLevel sub with
    | none => none
    | some true => some true
    | some false => hasByteLevelSeq rest
termination_by subs => sizeOf subs
end

/-- What the normalizer member sets: the normal form and the dummy prefix. -/
structure NormState where
  normForm : NormForm
  addDummyPrefix : Bool

mutual
def parseNormalizer (norm : Value) (st : NormState) : Option NormState :=
  match getStr (objGet (some norm) (ascii "type")) with
  | none => some st
  | some t =>
    if cstr t = ascii "Prepend" then
      match getStr (objGet (some norm) (ascii "prepend")) with
      | some p => some (if cstr p = [0xE2, 0x96, 0x81] then { st with addDummyPrefix := true } else st)
      | none => some st
    else if cstr t = ascii "Sequence" then
      match h : objGet (some norm) (ascii "normalizers") with
      | none => some st
      | some .null => some st
      | some (.arr subs) =>
        have := sizeOf_objGet norm _ _ h
        parseNormalizerSeq subs st
      | some _ => none
    else if cstr t = ascii "NFC" then
      some (if st.normForm = .nfkc then st else { st with normForm := .nfc })
    else if cstr t = ascii "NFKC" then some { st with normForm := .nfkc }
    -- Replace, BertNormalizer, the unimplemented and the unknown types change nothing
    else some st
termination_by sizeOf norm
decreasing_by simp_all; omega

def parseNormalizerSeq : List Value → NormState → Option NormState
  | [], st => some st
  | sub :: rest, st =>
    match parseNormalizer sub st with
    | none => none
    | some st => parseNormalizerSeq rest st
termination_by subs => sizeOf subs
end

/-- An integer id in the accepted range. Values above the signed range read back
negative, so they fail as well. -/
def validId : Option Value → Option Nat
  | some (.int i) => if 0 ≤ i ∧ i ≤ MLXD_TOK_MAX_ID then some i.toNat else none
  | _ => none

/-- The vocabulary members with their ids; `none` when an id is not acceptable. -/
def vocabEntries : List (Bytes × Value) → Option (List (Bytes × Nat))
  | [] => some []
  | (key, val) :: rest =>
    match validId (some val), vocabEntries rest with
    | some id, some entries => some ((key, id) :: entries)
    | _, _ => none

/-- One added token: its content, its id and whether it is flagged special. -/
structure AddedToken where
  content : Bytes
  id : Nat
  special : Bool

/-- The non-empty added tokens; `none` when an entry is malformed. -/
def addedEntries : List Value → Option (List AddedToken)
  | [] => some []
  | entry :: rest =>
    match getStr (objGet (some entry) (ascii "content")) with
    | none => none
    | some [] => addedEntries rest
    | some content =>
      match validId (objGet (some entry) (ascii "id")), addedEntries rest with
      | some id, some entries =>
        let special := match objGet (some entry) (ascii "special") with
          | some (.bool b) => b
          | _ => false
        some (⟨content, id, special⟩ :: entries)
      | _, _ => none

/-! ## The passes of the loader -/

/-- Vocabulary entries go into the map in document order. -/
def putVocab (vocab : StrMap) : List (Bytes × Nat) → StrMap
  | [] => vocab
  | (key, id) :: rest => putVocab (vocab.insert key id) rest

/-- The maps the added tokens are folded into. -/
structure AddedState where
  vocab : StrMap
  specialTokens : StrMap
  addedSpecial : StrMap

/-- Fold in the added tokens: new contents join the vocabulary, and a content
already there under another id fails the load. -/
def foldAdded : List AddedToken → AddedState → Option AddedState
  | [], st => some st
  | t :: rest, st =>
    let st' : AddedState := { st with
      specialTokens := st.specialTokens.insert t.content t.id
      addedSpecial := if t.special then st.addedSpecial.insert t.content t.id else st.addedSpecial }
    match st.vocab.lookup t.content with
    | none => foldAdded rest { st' with vocab := st.vocab.insert t.content t.id }
    | some have_ => if have_ = t.id then foldAdded rest st' else none

/-- Base vocabulary strings claim their ids in document order. -/
def fillVocab (table : Nat → Option Bytes) : List (Bytes × Nat) → Nat → Option Bytes
  | [] => table
  | (key, id) :: rest => fillVocab (Function.update table id (some key)) rest

/-- Added tokens claim their ids after that; an id held by a different C string
fails the load. -/
def fillAdded : List AddedToken → (Nat → Option Bytes) → Option (Nat → Option Bytes)
  | [], table => some table
  | t :: rest, table =>
    match table t.id with
    | some have_ =>
      if cstr have_ = cstr t.content then fillAdded rest (Function.update table t.id (some t.content))
      else none
    | none => fillAdded rest (Function.update table t.id (some t.content))

/-- Merge entries take their array index as rank; malformed entries are skipped. -/
def putMerges (merges : MergeMap) : Nat → List Value → MergeMap
  | _, [] => merges
  | idx, entry :: rest =>
    match parseMergePair entry with
    | none => putMerges merges (idx + 1) rest
    | some pair => putMerges (merges.insert pair idx) (idx + 1) rest

def bosNames : List Bytes :=
  [ascii "<bos>", ascii "<s>", ascii "<|begin_of_text|>", ascii "<|startoftext|>", ascii "[CLS]"]

def eosNames : List Bytes :=
  [ascii "<eos>", ascii "</s>", ascii "<|end_of_text|>", ascii "<|eot_id|>", ascii "<|im_end|>",
    ascii "<|endoftext|>", ascii "[SEP]"]

/-- The id of a name among the added tokens, else in the vocabulary, else -1. -/
def resolveTokenName (specialTokens vocab : StrMap) (name : Bytes) : Int :=
  match specialTokens.lookup name with
  | some id => id
  | none =>
    match vocab.lookup name with
    | some id => id
    | none => -1

/-- The first name that resolves, else -1. -/
def resolveFirst (specialTokens vocab : StrMap) : List Bytes → Int
  | [] => -1
  | name :: rest =>
    let id := resolveTokenName specialTokens vocab name
    if 0 ≤ id then id else resolveFirst specialTokens vocab rest

/-- BERT vocabularies probe `own` before the ordered name list. -/
def resolveWrap (type : TokenizerType) (specialTokens vocab : StrMap) (own : Bytes)
    (names : List Bytes) : Int :=
  let id := if type = .wordpiece then resolveTokenName specialTokens vocab own else -1
  if id < 0 then resolveFirst specialTokens vocab names else id

/-- The symbol of a byte in byte-level mode. -/
def byteSymbol (bu : BytesUnicode) (b : Nat) : Bytes := ucEncodeCodepoint (bu.byteToCp b)

def hexDigit (n : Nat) : UInt8 := UInt8.ofNat (if n < 10 then 0x30 + n else 0x41 + n - 10)

/-- The name `<0xNN>` of a byte in SentencePiece mode. -/
def byteName (b : Nat) : Bytes := [0x3C, 0x30, 0x78, hexDigit (b / 16), hexDigit (b % 16), 0x3E]

def idOr (o : Option Nat) (dflt : Int) : Int :=
  match o with
  | some id => id
  | none => dflt

/-- The per-byte fallback ids, resolved once. -/
def byteFallback (type : TokenizerType) (vocab : StrMap) (b : Nat) : Int :=
  match type with
  | .bpe => idOr (vocab.lookup (byteSymbol ucBuildBytesToUnicode b)) (-1)
  | .sentencepieceBpe => idOr (vocab.lookup (byteName b)) (-1)
  | .wordpiece => -1

/-- The largest id of the vocabulary and the added tokens. -/
def maxId (entries : List (Bytes × Nat)) (added : List AddedToken) : Nat :=
  (entries.map Prod.snd ++ added.map AddedToken.id).foldl max 0

/-- The tokenizer kind; `none` for an unknown type or a malformed pre_tokenizer. -/
def classify (root : Value) (type : Bytes) : Option TokenizerType :=
  if cstr type = ascii "WordPiece" then some .wordpiece
  else if cstr type = ascii "BPE" then
    match objGet (some root) (ascii "pre_tokenizer") with
    | none => some .sentencepieceBpe
    | some pt => (hasByteLevel pt).map fun bl => if bl then .bpe else .sentencepieceBpe
  else none

def wpCleanupOf (root : Value) : Bool :=
  let decoder := objGet (some root) (ascii "decoder")
  if (getStr (objGet decoder (ascii "type"))).map cstr = some (ascii "WordPiece") then
    match objGet decoder (ascii "cleanup") with
    | some (.bool b) => b
    | _ => true
  else true

/-- What the passes over the document leave behind. -/
structure Parts where
  type : TokenizerType
  norm : NormState
  entries : List (Bytes × Nat)
  added : List AddedToken
  maps : AddedState
  table : Nat → Option Bytes
  mergesVal : List Value

def modelMember (root : Value) (key : Bytes) : Option Value :=
  objGet (objGet (some root) (ascii "model")) key

/-- The entries of `model.vocab`, in document order. -/
def modelVocab (root : Value) : Option (List (Bytes × Nat)) :=
  match modelMember root (ascii "vocab") with
  | some (.obj members) => vocabEntries members
  | _ => none

def normalizerOf (root : Value) : Option NormState :=
  match objGet (some root) (ascii "normalizer") with
  | none => some ⟨.none, false⟩
  | some norm => parseNormalizer norm ⟨.none, false⟩

/-- Every check of the loader; `none` when one fails. -/
def loadParts (root : Value) : Option Parts := do
  let entries ← modelVocab root
  let mergesVal ← jsonArrOrAbsent (modelMember root (ascii "merges"))
  let type ← classify root (← getStr (modelMember root (ascii "type")))
  let norm ← normalizerOf root
  let added ← addedEntries (← jsonArrOrAbsent (objGet (some root) (ascii "added_tokens")))
  let maps ← foldAdded added ⟨putVocab ∅ entries, ∅, ∅⟩
  let table ← fillAdded added (fillVocab (fun _ => none) entries)
  return ⟨type, norm, entries, added, maps, table, mergesVal⟩

/-- The tokenizer made of the accepted parts. -/
def assemble (root : Value) (p : Parts) : Tokenizer :=
  let vocab := p.maps.vocab
  let specialTokens := p.maps.specialTokens
  let unk := idOr ((putVocab ∅ p.entries).lookup (ascii "<unk>")) (-1)
  { type := p.type
    vocab := vocab
    merges := putMerges ∅ 0 p.mergesVal
    specialTokens := specialTokens
    addedSpecial := p.maps.addedSpecial
    idToToken := p.table
    idToTokenCap := if vocab.keys.isEmpty then 0 else maxId p.entries p.added + 1
    vocabSize := vocab.keys.length
    bosId := resolveWrap p.type specialTokens vocab (ascii "[CLS]") bosNames
    eosId := resolveWrap p.type specialTokens vocab (ascii "[SEP]") eosNames
    unkId := if p.type = .wordpiece then idOr (vocab.lookup (ascii "[UNK]")) unk else unk
    normForm := p.norm.normForm
    addDummyPrefix := p.norm.addDummyPrefix
    wpPrefix := (getStr (modelMember root (ascii "continuing_subword_prefix"))).getD (ascii "##")
    wpCleanup := wpCleanupOf root
    byteFallbackIds := byteFallback p.type vocab
    bytesUnicode := ucBuildBytesToUnicode }

def tokenizerLoadJson (root : Value) : Option Tokenizer := (loadParts root).map (assemble root)

/-! ## Overrides of tokenizer_config.json -/

/-- The name a config member gives: a string, or the content of an object. -/
def overrideName : Option Value → Option Bytes
  | some (.obj members) => getStr (objGet (some (.obj members)) (ascii "content"))
  | v => getStr v

/-- A name that resolves replaces the id; any other keeps it. -/
def applyOneOverride (tok : Tokenizer) (v : Option Value) (slot : Int) : Int :=
  match overrideName v with
  | none => slot
  | some [] => slot
  | some name =>
    let id := resolveTokenName tok.specialTokens tok.vocab (cstr name)
    if 0 ≤ id then id else slot

/-- The config is optional; one that is absent, does not parse or is no object changes nothing. -/
def applyConfigOverrides (tok : Tokenizer) : Option Value → Tokenizer
  | some (.obj members) =>
    let config : Option Value := some (.obj members)
    { tok with
      bosId := applyOneOverride tok (objGet config (ascii "bos_token")) tok.bosId
      eosId := applyOneOverride tok (objGet config (ascii "eos_token")) tok.eosId }
  | _ => tok

end Mlxd.TokLoad
