import Mlxd.BpeRefine
import Mlxd.Pretokenize
import Mlxd.TokTables

/-!
# The byte-level encoder and decoder

Every byte becomes one codepoint of the byte table, the words of the pretokenizer are
merged one by one, and decoding maps the codepoints back. Over a vocabulary that is
closed under the merges the two are inverse to each other, whatever the bytes.
-/
namespace Mlxd.ByteLevel

open Mlxd.Unicode Mlxd.Json Mlxd.TokLoad Mlxd.BpeMerge Mlxd.Pretokenize Mlxd.GreedyMerge

/-- A word with every byte spelled as its codepoint of the byte table. -/
def expand (bu : BytesUnicode) (word : Bytes) : Bytes :=
  word.flatMap fun b => byteSymbol bu b.toNat

/-- The ids of the words, in order; `none` when one of them cannot be merged. -/
def encodeWords (tok : Tokenizer) (text : Bytes) : List PretokSlice → Option (List Int)
  | [] => some []
  | w :: rest =>
    match bpeMerge tok (expand tok.bytesUnicode (slice text w.off (w.off + w.len))),
      encodeWords tok text rest with
    | some ids, some total => some (ids ++ total)
    | _, _ => none

/-- The scratch is reserved for twice the length, and at least for one entry. -/
def encodeByteLevel (T : UcTables) (tok : Tokenizer) (text : Bytes) : Option (List Int) :=
  if INT32_MAX < text.length then none
  else if UINT32_MAX / 3 < 2 * text.length then none
  else
    match gpt2Pretokenize T (max 1 (2 * text.length)) text with
    | none => none
    | some words => encodeWords tok text words

/-- The bytes of one token; the fuel bounds its codepoints. -/
def decodeTokenLoop (bu : BytesUnicode) : Nat → Bytes → Bytes
  | 0, _ => []
  | fuel + 1, token =>
    if token = [] then []
    else
      let c := decodeHead token
      let out :=
        if c.cp < UC_BYTES_UNICODE_REV_SIZE ∧ bu.cpToByte c.cp ≠ UINT16_MAX then
          [UInt8.ofNat (bu.cpToByte c.cp)]
        else token.take c.len
      out ++ decodeTokenLoop bu fuel (token.drop c.len)

def decodeToken (bu : BytesUnicode) (token : Bytes) : Bytes :=
  decodeTokenLoop bu token.length token

/-- The bytes of the output buffer; a NUL may stand among them. -/
def decodeByteLevel (tok : Tokenizer) : List Int → Option Bytes
  | [] => some []
  | id :: ids =>
    match tokenizerDecodeToken tok id with
    | none => decodeByteLevel tok ids
    | some token =>
      if UINT32_MAX < token.length then none
      else (decodeByteLevel tok ids).map (decodeToken tok.bytesUnicode token ++ ·)

/-! ## Symbols of bytes -/

section Symbols

/-- The symbol of a byte is one codepoint of the table. -/
theorem decodeHead_symbol (b : UInt8) (rest : Bytes) :
    decodeHead (byteSymbol ucBuildBytesToUnicode b.toNat ++ rest) =
      ⟨ucBuildBytesToUnicode.byteToCp b.toNat,
        (byteSymbol ucBuildBytesToUnicode b.toNat).length⟩ := by
  have h := byteToCp_lt b.toNat b.toNat_lt
  simp only [UC_BYTES_UNICODE_REV_SIZE] at h
  exact decodeHead_encode _ rest (by omega) (.inl (by omega))

theorem symbol_shape : ∀ cp < UC_BYTES_UNICODE_REV_SIZE, 0 < cp →
    (0 : UInt8) ∉ ucEncodeCodepoint cp ∧ 0 < (ucEncodeCodepoint cp).length ∧
      (ucEncodeCodepoint cp).length ≤ 2 := by
  decide +kernel

theorem byteSymbol_shape (b : UInt8) : (0 : UInt8) ∉ byteSymbol ucBuildBytesToUnicode b.toNat ∧
    0 < (byteSymbol ucBuildBytesToUnicode b.toNat).length ∧
    (byteSymbol ucBuildBytesToUnicode b.toNat).length ≤ 2 :=
  symbol_shape _ (byteToCp_lt b.toNat b.toNat_lt) (byteToCp_pos b.toNat b.toNat_lt)

@[simp] theorem expand_nil (bu : BytesUnicode) : expand bu [] = [] := rfl

theorem expand_cons (bu : BytesUnicode) (b : UInt8) (word : Bytes) :
    expand bu (b :: word) = byteSymbol bu b.toNat ++ expand bu word := rfl

theorem expand_append (bu : BytesUnicode) (v w : Bytes) :
    expand bu (v ++ w) = expand bu v ++ expand bu w := List.flatMap_append ..

theorem expand_length_le (word : Bytes) :
    (expand ucBuildBytesToUnicode word).length ≤ 2 * word.length := by
  induction word with
  | nil => exact Nat.le_refl _
  | cons b word ih =>
    have := (byteSymbol_shape b).2.2
    simp only [expand_cons, List.length_append, List.length_cons]
    omega

theorem length_le_expand (word : Bytes) :
    word.length ≤ (expand ucBuildBytesToUnicode word).length := by
  induction word with
  | nil => exact Nat.le_refl _
  | cons b word ih =>
    have := (byteSymbol_shape b).2.1
    simp only [expand_cons, List.length_append, List.length_cons]
    omega

/-- Spelled-out bytes contain no NUL, so they are a C string. -/
theorem cstr_expand (word : Bytes) :
    cstr (expand ucBuildBytesToUnicode word) = expand ucBuildBytesToUnicode word := by
  refine cstr_of_not_mem _ fun hx => ?_
  obtain ⟨b, -, hb⟩ := List.mem_flatMap.mp hx
  exact (byteSymbol_shape b).1 hb

theorem decodeTokenLoop_expand (word : Bytes) (fuel : Nat) (hf : word.length ≤ fuel) :
    decodeTokenLoop ucBuildBytesToUnicode fuel (expand ucBuildBytesToUnicode word) = word := by
  induction word generalizing fuel with
  | nil => cases fuel <;> rfl
  | cons b word ih =>
    obtain ⟨fuel, rfl⟩ : ∃ n, fuel = n + 1 := ⟨fuel - 1, by simp at hf; omega⟩
    have hpos := (byteSymbol_shape b).2.1
    have hne : expand ucBuildBytesToUnicode (b :: word) ≠ [] := by
      rw [expand_cons]
      exact fun h => by simp [(List.append_eq_nil_iff.mp h).1] at hpos
    have hb := cpToByte_byteToCp b.toNat b.toNat_lt
    have hlt := b.toNat_lt
    rw [decodeTokenLoop, if_neg hne]
    simp only [expand_cons, decodeHead_symbol, hb, List.drop_left']
    rw [if_pos ⟨byteToCp_lt b.toNat hlt, by simp only [UINT16_MAX]; omega⟩,
      ih fuel (by simpa using hf)]
    simp

/-- Decoding undoes the spelling of bytes. -/
theorem decodeToken_expand (word : Bytes) :
    decodeToken ucBuildBytesToUnicode (expand ucBuildBytesToUnicode word) = word :=
  decodeTokenLoop_expand word _ (length_le_expand word)

/-- The codepoints of a spelled word are the symbols of its bytes. -/
theorem codepoints_expand (word : Bytes) : codepoints (expand ucBuildBytesToUnicode word) =
    word.map fun b => byteSymbol ucBuildBytesToUnicode b.toNat := by
  have hloop : ∀ fuel, word.length ≤ fuel →
      codepointsLoop fuel (expand ucBuildBytesToUnicode word) =
        word.map fun b => byteSymbol ucBuildBytesToUnicode b.toNat := by
    induction word with
    | nil => exact fun fuel _ => codepointsLoop_nil fuel
    | cons b word ih =>
      intro fuel hf
      obtain ⟨fuel, rfl⟩ : ∃ n, fuel = n + 1 := ⟨fuel - 1, by simp at hf; omega⟩
      have hpos := (byteSymbol_shape b).2.1
      have hne : byteSymbol ucBuildBytesToUnicode b.toNat ++ expand ucBuildBytesToUnicode word ≠
          [] := fun h => by simp [(List.append_eq_nil_iff.mp h).1] at hpos
      rw [expand_cons, codepointsLoop, if_neg hne]
      simp only [decodeHead_symbol, List.take_left', List.drop_left', List.map_cons]
      rw [ih fuel (by simpa using hf)]
  exact hloop _ (length_le_expand word)

end Symbols

/-! ## The round trip -/

/-- The vocabulary holds the symbol of every byte and every product of a merge, and its
ids decode back to their strings. -/
structure Closed (tok : Tokenizer) : Prop where
  type : tok.type = .bpe
  table : tok.bytesUnicode = ucBuildBytesToUnicode
  bytes : ∀ b < 256, (tok.vocab.lookup (byteSymbol ucBuildBytesToUnicode b)).isSome
  merges : ∀ l r rank, tok.merges.lookup (l, r) = some rank → (tok.vocab.lookup (l ++ r)).isSome
  decodes : ∀ k id, tok.vocab.lookup k = some id → tokenizerDecodeToken tok id = some (cstr k)

section RoundTrip

variable {tok : Tokenizer}

/-- Every symbol that survives merging a spelled word spells bytes and has an id. -/
theorem naiveMerge_symbols (h : Closed tok) (word : Bytes) :
    ∀ x ∈ naiveMerge tok (expand ucBuildBytesToUnicode word),
      (∃ bs, x = expand ucBuildBytesToUnicode bs) ∧ (tok.vocab.lookup x).isSome := by
  refine (greedy_merges _ _ _).forall _ (fun x hx => ?_) fun x y r hr hx hy => ?_
  · rw [codepoints_expand] at hx
    obtain ⟨b, -, rfl⟩ := List.mem_map.mp hx
    exact ⟨⟨[b], by simp [expand]⟩, h.bytes b.toNat b.toNat_lt⟩
  · obtain ⟨⟨bs, rfl⟩, -⟩ := hx
    obtain ⟨⟨cs, rfl⟩, -⟩ := hy
    exact ⟨⟨bs ++ cs, (expand_append _ _ _).symm⟩, h.merges _ _ r hr⟩

variable (tok) in
/-- Merging only groups the symbols. -/
theorem naiveMerge_flatten (word : Bytes) :
    (naiveMerge tok (expand ucBuildBytesToUnicode word)).flatten =
      expand ucBuildBytesToUnicode word := by
  have h := (greedy_merges (mergeRank tok) (· ++ ·)
    (codepoints (expand ucBuildBytesToUnicode word))).flatMap id (fun _ _ => rfl)
  rw [List.flatMap_id, List.flatMap_id, codepoints_expand] at h
  rw [naiveMerge, codepoints_expand, h]
  rfl

variable (tok) in
/-- The heap of a spelled word is small: it has one codepoint a byte. -/
theorem expand_popsFit (word : Bytes) (hlen : 2 * word.length ≤ INT32_MAX) :
    PopsFit tok (expand ucBuildBytesToUnicode word) := by
  refine popsFit_of_length tok _ ?_
  rw [codepoints_expand, List.length_map]
  simp only [INT32_MAX] at hlen
  omega

theorem decodeByteLevel_append (ids ids' : List Int) (s s' : Bytes)
    (h : decodeByteLevel tok ids = some s) (h' : decodeByteLevel tok ids' = some s') :
    decodeByteLevel tok (ids ++ ids') = some (s ++ s') := by
  induction ids generalizing s with
  | nil =>
    simp only [decodeByteLevel, Option.some.injEq] at h
    simp [← h, h']
  | cons id ids ih =>
    simp only [List.cons_append, decodeByteLevel] at h ⊢
    split at h
    · exact ih s h
    · split at h
      · contradiction
      · rename_i hlen
        obtain ⟨t, ht, rfl⟩ := Option.map_eq_some_iff.mp h
        rw [if_neg hlen, ih t ht]
        simp

/-- The ids of symbols that spell bytes decode to these bytes. -/
theorem decode_symbols (h : Closed tok) (L : List Bytes) (bound : ∀ x ∈ L, x.length ≤ UINT32_MAX)
    (hL : ∀ x ∈ L, (∃ bs, x = expand ucBuildBytesToUnicode bs) ∧ (tok.vocab.lookup x).isSome) :
    decodeByteLevel tok (L.flatMap (bpeEmitSymbol tok)) =
      some (L.flatMap (decodeToken ucBuildBytesToUnicode)) := by
  induction L with
  | nil => rfl
  | cons x L ih =>
    obtain ⟨⟨bs, hx⟩, hid⟩ := hL x (by simp)
    obtain ⟨id, hid⟩ := Option.isSome_iff_exists.mp hid
    have hdec := h.decodes x id hid
    rw [hx, cstr_expand, ← hx] at hdec
    have hemit : bpeEmitSymbol tok x = [(id : Int)] := by simp only [bpeEmitSymbol, hid]
    have hlen := bound x (by simp)
    simp only [List.flatMap_cons, hemit]
    refine decodeByteLevel_append _ _ _ _ ?_
      (ih (fun y hy => bound y (by simp [hy])) fun y hy => hL y (by simp [hy]))
    simp only [decodeByteLevel, hdec, if_neg (Nat.not_lt.mpr hlen), h.table, Option.map_some,
      List.append_nil]

/-- Spelling is injective, so spelled pieces of a spelled word decode to the word. -/
theorem spelled_decode {L : List Bytes} {word : Bytes}
    (hspell : ∀ x ∈ L, ∃ bs, x = expand ucBuildBytesToUnicode bs)
    (hflat : L.flatten = expand ucBuildBytesToUnicode word) :
    L.flatMap (decodeToken ucBuildBytesToUnicode) = word := by
  have hspelled : expand ucBuildBytesToUnicode (L.flatMap (decodeToken ucBuildBytesToUnicode)) =
      L.flatten := by
    clear hflat
    induction L with
    | nil => rfl
    | cons x L ih =>
      obtain ⟨bs, rfl⟩ := hspell x List.mem_cons_self
      rw [List.flatMap_cons, expand_append, decodeToken_expand, List.flatten_cons,
        ih fun y hy => hspell y (List.mem_cons_of_mem _ hy)]
  rw [← decodeToken_expand (L.flatMap _), hspelled, hflat, decodeToken_expand]

theorem spelled_small {L : List Bytes} {word : Bytes} (hlen : 2 * word.length ≤ INT32_MAX)
    (hflat : L.flatten = expand ucBuildBytesToUnicode word) :
    ∀ x ∈ L, x.length ≤ UINT32_MAX := by
  intro x hx
  have hexp := expand_length_le word
  have hpiece : x.length ≤ L.flatten.length := (List.sublist_flatten_of_mem hx).length_le
  rw [hflat] at hpiece
  simp only [INT32_MAX] at hlen
  simp only [UINT32_MAX]
  omega

/-- Decoding the merged ids of a word gives the word back. -/
theorem bpeMerge_decode (h : Closed tok) (word : Bytes) (hlen : 2 * word.length ≤ INT32_MAX) :
    ∃ ids, bpeMerge tok (expand ucBuildBytesToUnicode word) = some ids ∧
      decodeByteLevel tok ids = some word := by
  have hexp := expand_length_le word
  have hle : (expand ucBuildBytesToUnicode word).length ≤ INT32_MAX := by omega
  have htype : tok.type ≠ .wordpiece := by
    rw [h.type]
    decide
  have hmerge : bpeMerge tok (expand ucBuildBytesToUnicode word) =
      some ((naiveMerge tok (expand ucBuildBytesToUnicode word)).flatMap (bpeEmitSymbol tok)) :=
    bpeMerge_eq htype hle (expand_popsFit tok word hlen)
  refine ⟨_, hmerge, ?_⟩
  have hflat := naiveMerge_flatten tok word
  have hsym := naiveMerge_symbols h word
  generalize naiveMerge tok (expand ucBuildBytesToUnicode word) = L at hflat hsym
  rw [decode_symbols h L (spelled_small hlen hflat) hsym,
    spelled_decode (fun x hx => (hsym x hx).1) hflat]

/-- The words of a partition decode to the text between its ends. -/
theorem encodeWords_decode (h : Closed tok) (text : Bytes) (hlen : 2 * text.length ≤ INT32_MAX)
    (words : List PretokSlice) (i stop : Nat) (hstop : stop ≤ text.length)
    (hp : Partition i stop words) :
    ∃ ids, encodeWords tok text words = some ids ∧
      decodeByteLevel tok ids = some (slice text i stop) := by
  induction words generalizing i with
  | nil =>
    obtain rfl : i = stop := hp
    exact ⟨[], rfl, by simp [decodeByteLevel, slice]⟩
  | cons w words ih =>
    obtain ⟨rfl, hw, hp⟩ := hp
    have hle : w.off + w.len ≤ stop := partition_le hp
    obtain ⟨ids, hids, hdec⟩ := bpeMerge_decode h (slice text w.off (w.off + w.len))
      (by simp only [slice, List.length_take, List.length_drop]; omega)
    obtain ⟨ids', hids', hdec'⟩ := ih (w.off + w.len) hp
    refine ⟨ids ++ ids', ?_, ?_⟩
    · simp only [encodeWords, h.table, hids, hids']
    · rw [slice_append text w.off (w.off + w.len) stop (by omega) hle]
      exact decodeByteLevel_append _ _ _ _ hdec hdec'

theorem encodeByteLevel_decode (h : Closed tok) (T : UcTables) (text : Bytes)
    (hlen : 2 * text.length ≤ UINT32_MAX / 3) :
    ∃ ids, encodeByteLevel T tok text = some ids ∧ decodeByteLevel tok ids = some text := by
  simp only [UINT32_MAX] at hlen
  have hint : text.length ≤ INT32_MAX := by simp only [INT32_MAX]; omega
  obtain ⟨ids, hids, hdec⟩ := encodeWords_decode h text (by simp only [INT32_MAX]; omega)
    (slicesFrom T text text.length 0) 0 text.length (Nat.le_refl _)
    (slicesFrom_partition T text text.length 0 (Nat.zero_le _) (by omega))
  refine ⟨ids, ?_, ?_⟩
  · rw [encodeByteLevel, if_neg (Nat.not_lt.mpr hint), if_neg (by simp only [UINT32_MAX]; omega),
      gpt2Pretokenize_eq T _ text hint (by omega)]
    exact hids
  · simpa [slice] using hdec

end RoundTrip

/-- A loaded byte-level tokenizer whose vocabulary holds the symbols of all bytes and the
products of its merges decodes what it encodes to the same bytes. -/
theorem byteLevel_roundTrip (T : UcTables) (root : Value) (tok : Tokenizer)
    (hload : tokenizerLoadJson root = some tok) (htype : tok.type = .bpe)
    (hdistinct : ∀ entries, modelVocab root = some entries → DistinctIds entries)
    (hbytes : ∀ b < 256, (tok.vocab.lookup (byteSymbol tok.bytesUnicode b)).isSome)
    (hmerges : ∀ l r rank, tok.merges.lookup (l, r) = some rank →
      (tok.vocab.lookup (l ++ r)).isSome) (text : Bytes) :
    (∀ ids, encodeByteLevel T tok text = some ids → decodeByteLevel tok ids = some text) ∧
      (2 * text.length ≤ UINT32_MAX / 3 → ∃ ids, encodeByteLevel T tok text = some ids) := by
  have htable : tok.bytesUnicode = ucBuildBytesToUnicode := by
    obtain ⟨p, -, rfl⟩ := Option.map_eq_some_iff.mp hload
    simp only [assemble]
  have hclosed : Closed tok :=
    ⟨htype, htable, htable ▸ hbytes, hmerges, load_decodes hload hdistinct⟩
  refine ⟨fun ids hids => ?_, fun hlen => ?_⟩
  · have hlen : 2 * text.length ≤ UINT32_MAX / 3 := by
      by_contra hlen
      rw [encodeByteLevel, if_pos (Nat.lt_of_not_le hlen)] at hids
      split at hids <;> contradiction
    obtain ⟨ids', hids', hdec⟩ := encodeByteLevel_decode hclosed T text hlen
    rw [hids] at hids'
    exact Option.some.inj hids' ▸ hdec
  · obtain ⟨ids, hids, -⟩ := encodeByteLevel_decode hclosed T text hlen
    exact ⟨ids, hids⟩

/-! ## The plain byte vocabulary -/

/-- Every byte's name under the byte's number. -/
def namedBytes (name : Nat → Bytes) : List (Bytes × Nat) := (List.range 256).map fun b => (name b, b)

def byteVocab : List (Bytes × Nat) := namedBytes (byteSymbol ucBuildBytesToUnicode)

/-- A tokenizer.json with the byte symbols, further entries and merges. -/
def byteRoot (extra : List (Bytes × Nat)) (merges : List Value) : Value := .obj [
  (ascii "pre_tokenizer", .obj [(ascii "type", .str (ascii "ByteLevel"))]),
  (ascii "model", .obj [(ascii "type", .str (ascii "BPE")),
    (ascii "vocab", .obj ((byteVocab ++ extra).map fun e => (e.1, .int e.2))),
    (ascii "merges", .arr merges)])]

theorem vocabEntries_int (l : List (Bytes × Nat)) (h : ∀ e ∈ l, (e.2 : Int) ≤ MLXD_TOK_MAX_ID) :
    vocabEntries (l.map fun e => (e.1, .int e.2)) = some l := by
  induction l with
  | nil => rfl
  | cons e l ih =>
    rw [List.map_cons, vocabEntries, ih fun e he => h e (by simp [he]), validId,
      if_pos ⟨Int.natCast_nonneg _, h e (by simp)⟩]
    rfl

section ByteRoot

variable {extra : List (Bytes × Nat)} (merges : List Value) (name : Nat → Bytes)

theorem namedBytes_max (hmax : ∀ e ∈ extra, (e.2 : Int) ≤ MLXD_TOK_MAX_ID) :
    ∀ e ∈ namedBytes name ++ extra, (e.2 : Int) ≤ MLXD_TOK_MAX_ID := by
  intro e he
  rcases List.mem_append.mp he with he | he
  · obtain ⟨b, hb, rfl⟩ := List.mem_map.mp he
    have := List.mem_range.mp hb
    simp only [MLXD_TOK_MAX_ID]
    omega
  · exact hmax e he

theorem namedBytes_distinct (hbig : ∀ e ∈ extra, 256 ≤ e.2) (hextra : DistinctIds extra) :
    DistinctIds (namedBytes name ++ extra) := by
  have hlt : ∀ k id, (k, id) ∈ namedBytes name → id < 256 ∧ k = name id := by
    intro k id hk
    obtain ⟨b, hb, he⟩ := List.mem_map.mp hk
    obtain ⟨rfl, rfl⟩ := Prod.mk.inj he
    exact ⟨List.mem_range.mp hb, rfl⟩
  intro k k' id hk hk'
  rcases List.mem_append.mp hk with hk | hk <;> rcases List.mem_append.mp hk' with hk' | hk'
  · rw [(hlt k id hk).2, (hlt k' id hk').2]
  · exact absurd (hbig _ hk') (Nat.not_le.mpr (hlt k id hk).1)
  · exact absurd (hbig _ hk) (Nat.not_le.mpr (hlt k' id hk').1)
  · exact hextra k k' id hk hk'

theorem namedBytes_isSome {b : Nat} (hb : b < 256) :
    ((putVocab ∅ (namedBytes name ++ extra)).lookup (name b)).isSome := by
  refine putVocab_isSome _ ∅ _ (.inl ⟨b, List.mem_append_left _ ?_⟩)
  exact List.mem_map.mpr ⟨b, List.mem_range.mpr hb, rfl⟩

theorem byteRoot_vocab (hmax : ∀ e ∈ extra, (e.2 : Int) ≤ MLXD_TOK_MAX_ID) :
    modelVocab (byteRoot extra merges) = some (byteVocab ++ extra) :=
  vocabEntries_int _ (namedBytes_max _ hmax)

theorem byteRoot_load (hmax : ∀ e ∈ extra, (e.2 : Int) ≤ MLXD_TOK_MAX_ID) :
    ∃ tok, tokenizerLoadJson (byteRoot extra merges) = some tok ∧ tok.type = .bpe ∧
      tok.vocab = putVocab ∅ (byteVocab ++ extra) ∧ tok.merges = putMerges ∅ 0 merges ∧
      tok.bytesUnicode = ucBuildBytesToUnicode := by
  have hparts : loadParts (byteRoot extra merges) = some ⟨.bpe, ⟨.none, false⟩, byteVocab ++ extra,
      [], ⟨putVocab ∅ (byteVocab ++ extra), ∅, ∅⟩, fillVocab (fun _ => none) (byteVocab ++ extra),
      merges⟩ := by
    have htype : getStr (modelMember (byteRoot extra merges) (ascii "type")) =
        some (ascii "BPE") := rfl
    have hmerges : jsonArrOrAbsent (modelMember (byteRoot extra merges) (ascii "merges")) =
        some merges := rfl
    have hnorm : normalizerOf (byteRoot extra merges) = some ⟨.none, false⟩ := rfl
    have hadded : jsonArrOrAbsent (objGet (some (byteRoot extra merges)) (ascii "added_tokens")) =
        some [] := rfl
    have hclassify : classify (byteRoot extra merges) (ascii "BPE") = some .bpe :=
      classify_byteLevel rfl hasByteLevel_type
    simp only [loadParts, byteRoot_vocab merges hmax, htype, hmerges, hnorm, hadded, hclassify,
      addedEntries, foldAdded, fillAdded, Option.bind_eq_bind, Option.bind_some, Option.pure_def]
  refine ⟨_, by rw [tokenizerLoadJson, hparts, Option.map_some], ?_⟩
  simp only [assemble, and_self]

theorem byteVocab_bytes {tok : Tokenizer} (hvocab : tok.vocab = putVocab ∅ (byteVocab ++ extra))
    (htable : tok.bytesUnicode = ucBuildBytesToUnicode) :
    ∀ b < 256, (tok.vocab.lookup (byteSymbol tok.bytesUnicode b)).isSome := fun b hb => by
  rw [hvocab, htable]
  exact namedBytes_isSome _ hb

end ByteRoot

theorem merge_ab : putMerges ∅ 0 [.str (ascii "a b")] =
    (∅ : MergeMap).insert (ascii "a", ascii "b") 0 := by
  have hpair : parseMergePair (.str (ascii "a b")) = some (ascii "a", ascii "b") := by decide
  simp only [putMerges, hpair]

theorem lookup_merge_ab {l r : Bytes} {rank : Nat}
    (h : ((∅ : MergeMap).insert (ascii "a", ascii "b") 0).lookup (l, r) = some rank) :
    l = ascii "a" ∧ r = ascii "b" := by
  by_cases hlr : (l, r) = (ascii "a", ascii "b")
  · exact Prod.mk.inj hlr
  · rw [AList.lookup_insert_ne hlr] at h
    simp at h

/-- A merged pair, a NUL and a stray continuation byte come back. -/
theorem byteLevel_roundTrip_merged : ∃ tok ids,
    tokenizerLoadJson (byteRoot [(ascii "ab", 256)] [.str (ascii "a b")]) = some tok ∧
    tok.merges.lookup (ascii "a", ascii "b") = some 0 ∧
    encodeByteLevel ⟨#[], #[], #[]⟩ tok [0x61, 0x62, 0x00, 0x80] = some ids ∧
    decodeByteLevel tok ids = some [0x61, 0x62, 0x00, 0x80] := by
  have hmax : ∀ e ∈ [((ascii "ab", 256) : Bytes × Nat)], (e.2 : Int) ≤ MLXD_TOK_MAX_ID := by decide
  obtain ⟨tok, hload, htype, hvocab, hmerges, htable⟩ := byteRoot_load [.str (ascii "a b")] hmax
  rw [merge_ab] at hmerges
  have h := byteLevel_roundTrip ⟨#[], #[], #[]⟩ _ tok hload htype
    (fun entries he => by
      rw [← Option.some.inj ((byteRoot_vocab _ hmax).symm.trans he)]
      refine namedBytes_distinct _ (by decide) fun k k' id hk hk' => ?_
      simp only [List.mem_singleton, Prod.mk.injEq] at hk hk'
      rw [hk.1, hk'.1])
    (byteVocab_bytes hvocab htable)
    (fun l r rank hr => by
      obtain ⟨rfl, rfl⟩ := lookup_merge_ab (hmerges ▸ hr)
      rw [hvocab]
      refine putVocab_isSome _ ∅ _ (.inl ⟨256, List.mem_append_right _ ?_⟩)
      exact List.mem_singleton.mpr rfl)
    [0x61, 0x62, 0x00, 0x80]
  obtain ⟨ids, hids⟩ := h.2 (by decide)
  exact ⟨tok, ids, hload, by rw [hmerges, AList.lookup_insert], hids, h.1 ids hids⟩

end Mlxd.ByteLevel
