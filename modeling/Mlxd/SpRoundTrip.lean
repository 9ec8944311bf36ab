import Mlxd.Decode
import Mlxd.Injection

/-!
# The SentencePiece round trip

Merging only groups the bytes of the expanded text. Every symbol is emitted as its own token
or as the byte entries of its bytes, and either way it comes back; undoing the markers then
gives the text.
-/
namespace Mlxd.Decode

open Mlxd.Unicode Mlxd.Json Mlxd.TokLoad Mlxd.BpeMerge Mlxd.GreedyMerge Mlxd.Encode

/-! ## Markers -/

def marker : Bytes := [0xE2, 0x96, 0x81]

theorem spExpand_space (t : Bytes) : spExpand (0x20 :: t) = marker ++ spExpand t := rfl

theorem spExpand_cons {b : UInt8} (hb : b ≠ 0x20) (t : Bytes) :
    spExpand (b :: t) = b :: spExpand t := by
  simp [spExpand, hb]

/-- A byte that starts no marker stands for itself. -/
theorem spExpand_head {t : Bytes} {c : UInt8} {u : Bytes} (hc : c ≠ 0xE2)
    (h : spExpand t = c :: u) : ∃ t', t = c :: t' ∧ u = spExpand t' := by
  cases t with
  | nil => contradiction
  | cons b t =>
    by_cases hb : b = 0x20
    · subst hb
      rw [spExpand_space] at h
      exact absurd (List.cons.inj h).1.symm hc
    · rw [spExpand_cons hb] at h
      obtain ⟨rfl, rfl⟩ := List.cons.inj h
      exact ⟨t, rfl, rfl⟩

/-- Without a marker of its own the text comes back from its expansion. -/
theorem replaceMarkers_spExpand (text : Bytes) (h : ¬ marker <:+: text) :
    replaceMarkers (spExpand text) = text := by
  induction text with
  | nil => rfl
  | cons b t ih =>
    have ht : ¬ marker <:+: t := fun hm => h (hm.trans (List.suffix_cons b t).isInfix)
    by_cases hb : b = 0x20
    · subst hb
      rw [spExpand_space, marker, List.cons_append, List.cons_append, List.cons_append,
        List.nil_append, replaceMarkers_marker, ih ht]
    · rw [spExpand_cons hb, replaceMarkers_cons, ih ht]
      intro u hu
      obtain ⟨rfl, hrest⟩ := List.cons.inj hu
      -- the other two bytes of such a marker are the text's own
      obtain ⟨t', rfl, hlast⟩ := spExpand_head (by decide) hrest
      obtain ⟨t'', rfl, -⟩ := spExpand_head (by decide) hlast.symm
      exact h (List.prefix_append marker t'').isInfix

theorem spExpand_length (text : Bytes) : (spExpand text).length ≤ 3 * text.length := by
  induction text with
  | nil => exact Nat.zero_le _
  | cons b t ih =>
    by_cases hb : b = 0x20
    · subst hb
      rw [spExpand_space, List.length_append, List.length_cons]
      simp only [marker, List.length_cons, List.length_nil]
      omega
    · rw [spExpand_cons hb, List.length_cons, List.length_cons]
      omega

theorem zero_not_mem_spExpand {text : Bytes} (h : (0 : UInt8) ∉ text) :
    (0 : UInt8) ∉ spExpand text := by
  intro hm
  obtain ⟨b, hb, hm⟩ := List.mem_flatMap.mp hm
  split at hm
  · exact absurd hm (by decide)
  · exact h (List.mem_singleton.mp hm ▸ hb)

/-- A space is no continuation byte and neither is the head of its marker. -/
theorem continuation_spExpand {n cp cp' : Nat} {t : Bytes}
    (h : continuation n cp (spExpand t) = some cp') :
    (spExpand t).drop n = spExpand (t.drop n) := by
  induction n generalizing cp t with
  | zero => rfl
  | succ n ih =>
    cases t with
    | nil => contradiction
    | cons b t =>
      by_cases hb : b = 0x20
      · subst hb
        rw [spExpand_space, marker, List.cons_append, continuation, if_neg (by decide)] at h
        contradiction
      · rw [spExpand_cons hb] at h ⊢
        simp only [continuation] at h
        split at h
        · exact ih h
        · contradiction

/-- No codepoint reaches into a marker. -/
theorem spExpand_drop {b : UInt8} (hb : b ≠ 0x20) (t : Bytes) :
    (spExpand (b :: t)).drop (decodeHead (spExpand (b :: t))).len =
      spExpand ((b :: t).drop (decodeHead (spExpand (b :: t))).len) := by
  have hpos := decodeHead_len_pos (spExpand (b :: t)) (by rw [spExpand_cons hb]; simp)
  rw [spExpand_cons hb] at hpos ⊢
  obtain ⟨k, hk⟩ : ∃ k, (decodeHead (b :: spExpand t)).len = k + 1 :=
    ⟨(decodeHead (b :: spExpand t)).len - 1, by omega⟩
  rw [hk, List.drop_succ_cons, List.drop_succ_cons]
  rcases decodeHead_lead b with ⟨info, hlen, hinfo⟩ | ⟨n, cp, hmb⟩
  · rw [hinfo, hlen] at hk
    rw [show k = 0 by omega, List.drop_zero, List.drop_zero]
  · rw [hmb, decodeMultibyte] at hk
    split at hk
    · rw [show k = 0 by simp only [invalid] at hk; omega, List.drop_zero, List.drop_zero]
    · rename_i cp' hc
      split at hk
      · rw [show k = 0 by simp only [invalid] at hk; omega, List.drop_zero, List.drop_zero]
      · simp only at hk
        rw [show n - 1 = k by omega] at hc
        exact continuation_spExpand hc

/-- The expansion has at most one codepoint for every byte of the text. -/
theorem codepoints_spExpand (text : Bytes) : (codepoints (spExpand text)).length ≤ text.length := by
  rw [codepoints]
  generalize (spExpand text).length = fuel
  induction fuel generalizing text with
  | zero => exact Nat.zero_le _
  | succ fuel ih =>
    simp only [codepointsLoop]
    split
    · exact Nat.zero_le _
    · rename_i hne
      have hpos := decodeHead_len_pos _ hne
      cases text with
      | nil => exact absurd rfl hne
      | cons b t =>
        rw [List.length_cons]
        by_cases hb : b = 0x20
        · subst hb
          have hdrop : (spExpand (0x20 :: t)).drop (decodeHead (spExpand (0x20 :: t))).len =
              spExpand t := rfl
          rw [hdrop, List.length_cons]
          exact Nat.succ_le_succ (ih t)
        · have hrest := ih ((b :: t).drop (decodeHead (spExpand (b :: t))).len)
          rw [List.length_drop, List.length_cons] at hrest
          rw [spExpand_drop hb, List.length_cons]
          omega

/-! ## Grouping -/

theorem codepointsLoop_flatten {fuel : Nat} {s : Bytes} (h : s.length ≤ fuel) :
    (codepointsLoop fuel s).flatten = s := by
  induction fuel generalizing s with
  | zero => rw [List.eq_nil_of_length_eq_zero (Nat.le_zero.mp h)]; rfl
  | succ fuel ih =>
    simp only [codepointsLoop]
    split
    · rename_i hnil
      rw [hnil]
      rfl
    · rename_i hne
      have hpos := decodeHead_len_pos s hne
      rw [List.flatten_cons, ih (by rw [List.length_drop]; omega), List.take_append_drop]

/-- Merging regroups the input and loses nothing. -/
theorem merges_flatten {tok : Tokenizer} {input : Bytes} {syms : List Bytes}
    (h : Merges (mergeRank tok) (· ++ ·) (codepoints input) syms) : syms.flatten = input := by
  have hflat := h.flatMap id (fun _ _ => rfl)
  rw [List.flatMap_id, List.flatMap_id, codepoints, codepointsLoop_flatten (le_refl _)] at hflat
  exact hflat

/-! ## Byte entries -/

theorem spByteFallback_byteName (b : UInt8) : spByteFallback (byteName b.toNat) = some b := by
  have hall : ∀ n < 256, spByteFallback (byteName n) = some (UInt8.ofNat n) := by decide +kernel
  rw [hall _ b.toNat_lt, UInt8.ofNat_toNat]

theorem cstr_byteName (b : UInt8) : cstr (byteName b.toNat) = byteName b.toNat := by
  have hall : ∀ n < 256, cstr (byteName n) = byteName n := by decide +kernel
  exact hall _ b.toNat_lt

/-- A codepoint is shorter than a byte entry. -/
theorem isCodepoint_not_byteEntry {s : Bytes} (h : IsCodepoint s) : spByteFallback s = none := by
  cases hs : spByteFallback s with
  | none => rfl
  | some b =>
    simp only [spByteFallback] at hs
    split at hs
    · simp [IsCodepoint, decodeHead] at h
    · contradiction

/-! ## One symbol -/

/-- What the round trip needs of a tokenizer: every string of the vocabulary is the token of
its id, every byte has its entry, and no merge makes one. -/
structure SpClosed (tok : Tokenizer) : Prop where
  type : tok.type = .sentencepieceBpe
  decodes : ∀ k id, tok.vocab.lookup k = some id → tokenizerDecodeToken tok id = some (cstr k)
  fallback : tok.byteFallbackIds = byteFallback tok.type tok.vocab
  bytes : ∀ b < 256, (tok.vocab.lookup (byteName b)).isSome
  merges : ∀ l r, (tok.merges.lookup (l, r)).isSome → spByteFallback (l ++ r) = none

section Symbols

variable {tok : Tokenizer}

theorem SpClosed.not_byteEntry (h : SpClosed tok) {sym : Bytes} (hsym : Reachable tok sym) :
    spByteFallback sym = none := by
  rcases hsym with hcp | ⟨l, r, hmerge, rfl⟩
  · exact isCodepoint_not_byteEntry hcp
  · exact h.merges l r hmerge

/-- The fallback of a byte is the entry that decodes to it. -/
theorem SpClosed.fallback_raw (h : SpClosed tok) (b : UInt8) :
    0 ≤ tok.byteFallbackIds b.toNat ∧ spRaw tok (tok.byteFallbackIds b.toNat) = [b] := by
  obtain ⟨id, hid⟩ := Option.isSome_iff_exists.mp (h.bytes b.toNat b.toNat_lt)
  have hfid : tok.byteFallbackIds b.toNat = id := by
    rw [h.fallback, h.type]
    simp only [byteFallback, hid, idOr]
  rw [hfid, spRaw, h.decodes _ id hid, cstr_byteName]
  simp only [spByteFallback_byteName, Int.natCast_nonneg, and_self]

/-- A symbol comes back from its ids. -/
theorem SpClosed.emit_raw (h : SpClosed tok) {sym : Bytes} (hsym : Reachable tok sym)
    (hnul : (0 : UInt8) ∉ sym) : (bpeEmitSymbol tok sym).flatMap (spRaw tok) = sym := by
  simp only [bpeEmitSymbol]
  split
  · rename_i id hid
    rw [List.flatMap_singleton, spRaw, h.decodes sym id hid, cstr_of_not_mem sym hnul]
    simp only [h.not_byteEntry hsym]
  · have hbyte : ∀ b : UInt8, (if 0 ≤ tok.byteFallbackIds b.toNat then
        [tok.byteFallbackIds b.toNat] else if 0 ≤ tok.unkId then [tok.unkId] else []).flatMap
          (spRaw tok) = [b] := by
      intro b
      obtain ⟨hpos, hraw⟩ := h.fallback_raw b
      rw [if_pos hpos, List.flatMap_singleton, hraw]
    simp only [List.flatMap_assoc, hbyte, List.flatMap_singleton']

/-- The ids of a merge come back as its input. -/
theorem SpClosed.merge_raw (h : SpClosed tok) {input : Bytes} (hnul : (0 : UInt8) ∉ input)
    {ids : List Int} (hids : bpeMerge tok input = some ids) : ids.flatMap (spRaw tok) = input := by
  obtain ⟨syms, hmerges, rfl⟩ := bpeMerge_ids hids
  have hflat := merges_flatten hmerges
  have hall : ∀ L : List Bytes, (∀ sym ∈ L, Reachable tok sym) → (0 : UInt8) ∉ L.flatten →
      (L.flatMap (bpeEmitSymbol tok)).flatMap (spRaw tok) = L.flatten := by
    intro L
    induction L with
    | nil => exact fun _ _ => rfl
    | cons sym L ih =>
      intro hreach hzero
      rw [List.flatten_cons, List.mem_append, not_or] at hzero
      rw [List.flatMap_cons, List.flatMap_append, List.flatten_cons,
        h.emit_raw (hreach sym List.mem_cons_self) hzero.1,
        ih (fun x hx => hreach x (List.mem_cons_of_mem _ hx)) hzero.2]
  rw [hall _ (merges_reachable hmerges) (by rwa [hflat]), hflat]

end Symbols

theorem loaded_decodes {root : Value} {config : Option Value} {tok : Tokenizer}
    (h : Loaded root config tok)
    (hd : ∀ entries, modelVocab root = some entries → DistinctIds entries) (k : Bytes) (id : Nat)
    (hk : tok.vocab.lookup k = some id) : tokenizerDecodeToken tok id = some (cstr k) := by
  obtain ⟨base, hload, rfl⟩ := h
  have hbase := load_decodes hload hd k id
  simp only [applyConfigOverrides] at hk ⊢
  split at hk
  · exact hbase hk
  · exact hbase hk

/-- Text without NUL and without U+2581 comes back, whatever its bytes, and every text that
fits is encoded. -/
theorem sentencepiece_roundTrip {root : Value} {config : Option Value} {tok : Tokenizer}
    (h : Loaded root config tok) (htype : tok.type = .sentencepieceBpe)
    (hdistinct : ∀ entries, modelVocab root = some entries → DistinctIds entries)
    (hbytes : ∀ b < 256, (tok.vocab.lookup (byteName b)).isSome)
    (hmerges : ∀ l r, (tok.merges.lookup (l, r)).isSome → spByteFallback (l ++ r) = none)
    (text : Bytes) (hnul : (0 : UInt8) ∉ text) (hmarker : ¬ marker <:+: text) :
    (∀ ids, encodeSentencepiece tok text = some ids → decodeSentencepiece tok ids false = text) ∧
      (3 * text.length ≤ UINT32_MAX / 3 → ∃ ids, encodeSentencepiece tok text = some ids) := by
  have hclosed : SpClosed tok :=
    ⟨htype, loaded_decodes h hdistinct, loaded_fallback h, hbytes, hmerges⟩
  refine ⟨fun ids hids => ?_, fun hlen => ?_⟩
  · simp only [encodeSentencepiece] at hids
    split at hids
    · contradiction
    · split at hids
      · contradiction
      · have hraw := hclosed.merge_raw (zero_not_mem_spExpand hnul) hids
        simp only [decodeSentencepiece, hraw, Bool.false_eq_true, false_and, ↓reduceIte]
        exact replaceMarkers_spExpand text hmarker
  · have hexpand := spExpand_length text
    have hcount := codepoints_spExpand text
    have hbound : UINT32_MAX / 3 ≤ INT32_MAX := by decide
    have hfits : PopsFit tok (spExpand text) :=
      popsFit_of_length tok _ (by simp only [UINT32_MAX] at hlen; omega)
    rw [encodeSentencepiece, if_neg (by omega), if_neg (by omega)]
    exact ⟨_, bpeMerge_eq (by rw [htype]; decide) (by omega) hfits⟩

/-! ## Byte entries and a merge -/

/-- An entry for each byte, for the marker, and for a merged pair. -/
def pairEntries : List (Bytes × Nat) :=
  ByteLevel.namedBytes byteName ++ [(ascii "ab", 256), (marker, 257)]

def pairRoot : Value := .obj [
  (ascii "model", .obj [(ascii "type", .str (ascii "BPE")),
    (ascii "vocab", .obj (pairEntries.map fun e => (e.1, .int e.2))),
    (ascii "merges", .arr [.str (ascii "a b")])])]

theorem pairRoot_vocab : modelVocab pairRoot = some pairEntries :=
  ByteLevel.vocabEntries_int _ (ByteLevel.namedBytes_max _ (by decide))

theorem pairEntries_distinct : DistinctIds pairEntries := by
  refine ByteLevel.namedBytes_distinct _ (by decide) fun k k' id hk hk' => ?_
  simp only [List.mem_cons, Prod.mk.injEq, List.not_mem_nil, or_false] at hk hk'
  rcases hk with ⟨rfl, rfl⟩ | ⟨rfl, rfl⟩ <;> rcases hk' with ⟨rfl, hid⟩ | ⟨rfl, hid⟩
  · rfl
  · omega
  · omega
  · rfl

theorem pairRoot_load : ∃ tok, Loaded pairRoot none tok ∧ tok.type = .sentencepieceBpe ∧
    tok.vocab = putVocab ∅ pairEntries ∧
    tok.merges = (∅ : MergeMap).insert (ascii "a", ascii "b") 0 := by
  have hparts : loadParts pairRoot = some ⟨.sentencepieceBpe, ⟨.none, false⟩, pairEntries, [],
      ⟨putVocab ∅ pairEntries, ∅, ∅⟩, fillVocab (fun _ => none) pairEntries,
      [.str (ascii "a b")]⟩ := by
    have htype : getStr (modelMember pairRoot (ascii "type")) = some (ascii "BPE") := rfl
    have hmerges : jsonArrOrAbsent (modelMember pairRoot (ascii "merges")) =
        some [.str (ascii "a b")] := rfl
    have hnorm : normalizerOf pairRoot = some ⟨.none, false⟩ := rfl
    have hadded : jsonArrOrAbsent (objGet (some pairRoot) (ascii "added_tokens")) =
        some [] := rfl
    have hclassify : classify pairRoot (ascii "BPE") = some .sentencepieceBpe := rfl
    simp only [loadParts, pairRoot_vocab, htype, hmerges, hnorm, hadded, hclassify,
      addedEntries, foldAdded, fillAdded, Option.bind_eq_bind, Option.bind_some, Option.pure_def]
  refine ⟨_, ⟨_, by rw [tokenizerLoadJson, hparts, Option.map_some], rfl⟩, ?_⟩
  simp only [applyConfigOverrides, assemble, ByteLevel.merge_ab, and_self]

/-- A space, a merged pair and two bytes of an unfinished marker come back. -/
theorem sentencepiece_roundTrip_pair : ∃ tok ids, Loaded pairRoot none tok ∧
    tok.merges.lookup (ascii "a", ascii "b") = some 0 ∧
    (tok.vocab.lookup (ascii "ab")).isSome ∧ (tok.vocab.lookup marker).isSome ∧
    encodeSentencepiece tok [0x20, 0x61, 0x62, 0xE2, 0x96] = some ids ∧
    decodeSentencepiece tok ids false = [0x20, 0x61, 0x62, 0xE2, 0x96] := by
  obtain ⟨tok, hload, htype, hvocab, hmerges⟩ := pairRoot_load
  have h := sentencepiece_roundTrip hload htype
    (fun entries he => Option.some.inj (pairRoot_vocab.symm.trans he) ▸ pairEntries_distinct)
    (fun b hb => hvocab ▸ ByteLevel.namedBytes_isSome _ hb)
    (fun l r hr => by
      obtain ⟨rank, hrank⟩ := Option.isSome_iff_exists.mp hr
      obtain ⟨rfl, rfl⟩ := ByteLevel.lookup_merge_ab (hmerges ▸ hrank)
      decide)
    [0x20, 0x61, 0x62, 0xE2, 0x96] (by decide) (by decide)
  obtain ⟨ids, hids⟩ := h.2 (by decide)
  have hentry : ∀ k id, (k, id) ∈ [(ascii "ab", 256), (marker, 257)] →
      (tok.vocab.lookup k).isSome := fun k id hk => by
    rw [hvocab]
    exact putVocab_isSome _ ∅ _ (.inl ⟨id, List.mem_append_right _ hk⟩)
  exact ⟨tok, ids, hload, by rw [hmerges, AList.lookup_insert], hentry _ 256 (by simp),
    hentry _ 257 (by simp), hids, h.1 ids hids⟩

end Mlxd.Decode
