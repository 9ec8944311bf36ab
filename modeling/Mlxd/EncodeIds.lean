import Mlxd.TokConsistent

/-!
# The ids an encoder gives

What holds of every id a merge emits holds of every id of a segment, and with the special
tokens' ids of every id of a text. For a loaded tokenizer every such id has a token string.
-/
namespace Mlxd.Encode

open Mlxd.Unicode Mlxd.Json Mlxd.TokLoad Mlxd.BpeMerge Mlxd.Pretokenize Mlxd.ByteLevel

/-- The ids of a merge are those of symbols that ranked merges lead to. -/
theorem bpeMerge_ids {tok : Tokenizer} {input : Bytes} {ids : List Int}
    (h : bpeMerge tok input = some ids) :
    ∃ syms, GreedyMerge.Merges (mergeRank tok) (· ++ ·) (codepoints input) syms ∧
      ids = syms.flatMap (bpeEmitSymbol tok) := by
  rw [bpeMerge] at h
  split at h
  · contradiction
  · split at h
    · contradiction
    · obtain ⟨s, hs, rfl⟩ := Option.map_eq_some_iff.mp h
      exact ⟨_, (bpeRun_merges tok input hs).1, rfl⟩

/-! ## Through the encoders -/

section Forall

variable {T : UcTables} {tok : Tokenizer} {P : Int → Prop} {text : Bytes} {ids : List Int}

theorem encodeWords_forall
    (hmerge : ∀ input ids, bpeMerge tok input = some ids → ∀ id ∈ ids, P id)
    (words : List PretokSlice) (h : encodeWords tok text words = some ids) : ∀ id ∈ ids, P id := by
  induction words generalizing ids with
  | nil =>
    rw [← Option.some.inj h]
    exact fun id hid => absurd hid List.not_mem_nil
  | cons w rest ih =>
    simp only [encodeWords] at h
    split at h
    · rename_i seg total hseg htotal
      rw [← Option.some.inj h]
      intro id hid
      rcases List.mem_append.mp hid with hid | hid
      · exact hmerge _ _ hseg id hid
      · exact ih htotal id hid
    · contradiction

theorem encodeSegment_forall
    (hmerge : ∀ input ids, bpeMerge tok input = some ids → ∀ id ∈ ids, P id)
    (h : encodeSegment T tok text = some ids) : ∀ id ∈ ids, P id := by
  simp only [encodeSegment] at h
  split at h
  · simp only [encodeByteLevel] at h
    split at h
    · contradiction
    · split at h
      · contradiction
      · split at h
        · contradiction
        · exact encodeWords_forall hmerge _ h
  · contradiction
  · simp only [encodeSentencepiece] at h
    split at h
    · contradiction
    · split at h
      · contradiction
      · exact hmerge _ _ h

theorem scanLoop_forall
    (hmerge : ∀ input ids, bpeMerge tok input = some ids → ∀ id ∈ ids, P id) {fuel pos : Nat}
    {sites : List SpecialSite} (hsites : ∀ site ∈ sites, P site.id)
    (h : scanLoop T tok text fuel pos sites = some ids) : ∀ id ∈ ids, P id := by
  induction fuel generalizing pos sites ids with
  | zero => contradiction
  | succ fuel ih =>
    have hrefresh : ∀ site ∈ sites.map (refresh text pos), P site.id := by
      intro site hsite
      obtain ⟨old, hold, rfl⟩ := List.mem_map.mp hsite
      rw [refresh_id]
      exact hsites old hold
    have hchosen := foldl_chosen (sites.map (refresh text pos))
      (show Chosen [] none from fun _ h => absurd h List.not_mem_nil)
    simp only [scanLoop] at h
    split at h
    · split at h
      · exact encodeSegment_forall hmerge h
      · rename_i best next hbest
        rw [hbest] at hchosen
        split at h
        · rename_i seg rest hseg hrest
          have hseg' : ∀ id ∈ seg, P id := by
            split at hseg
            · exact encodeSegment_forall hmerge hseg
            · rw [← Option.some.inj hseg]
              exact fun id hid => absurd hid List.not_mem_nil
          rw [← Option.some.inj h]
          intro id hid
          rcases List.mem_append.mp hid with hid | hid
          · exact hseg' id hid
          · rcases List.mem_cons.mp hid with rfl | hid
            · exact hrefresh best hchosen.1
            · exact ih hrefresh hrest id hid
        · contradiction
    · rw [← Option.some.inj h]
      exact fun id hid => absurd hid List.not_mem_nil

/-- Merging encoders: the ids of merges, and of the special tokens where they are parsed. -/
theorem encodeAllocImpl_forall (hbody : tok.type ≠ .wordpiece)
    (hmerge : ∀ input ids, bpeMerge tok input = some ids → ∀ id ∈ ids, P id)
    {iterate : StrMap → List (Bytes × Nat)} {parse : Bool}
    (hspecial : parse = true → ∀ e ∈ iterate tok.specialTokens, P e.2)
    (h : encodeAllocImpl T tok iterate text parse = some ids) : ∀ id ∈ ids, P id := by
  rw [encodeAllocImpl, if_neg hbody] at h
  split at h
  · contradiction
  · rename_i total htotal
    split at h
    · contradiction
    · rw [← Option.some.inj h]
      refine scanLoop_forall hmerge (fun site hsite => ?_) htotal
      split at hsite
      · rename_i hparse
        obtain ⟨e, he, rfl⟩ := List.mem_map.mp hsite
        exact hspecial hparse e he
      · exact absurd hsite List.not_mem_nil

/-- Whatever the normalizer does, the ids are those of some text. -/
theorem tokenizerEncodeAlloc_impl {iterate : StrMap → List (Bytes × Nat)}
    {normalize : NormForm → Bytes → Option Bytes} {parse : Bool}
    (h : tokenizerEncodeAlloc T tok iterate normalize text parse = some ids) :
    ∃ text, encodeAllocImpl T tok iterate text parse = some ids := by
  simp only [tokenizerEncodeAlloc] at h
  split at h
  · contradiction
  · split at h
    · split at h
      · contradiction
      · exact ⟨_, h⟩
    · exact ⟨_, h⟩

end Forall

/-! ## Every id decodes -/

section Decodes

variable {T : UcTables} {tok : Tokenizer} {text : Bytes} {ids : List Int}

theorem emitSymbol_decodes (hs : Sound tok) (sym : Bytes) :
    ∀ id ∈ bpeEmitSymbol tok sym, Decodes tok id := by
  intro id hid
  simp only [bpeEmitSymbol] at hid
  split at hid
  · rename_i i hi
    rw [List.mem_singleton.mp hid]
    exact hs.decodes sym i hi
  · obtain ⟨b, -, hb⟩ := List.mem_flatMap.mp hid
    split at hb
    · rename_i hpos
      rw [List.mem_singleton.mp hb]
      exact hs.held ((hs.fallback b.toNat).resolve_left (by omega))
    · split at hb
      · rename_i hpos
        rw [List.mem_singleton.mp hb]
        exact hs.held (hs.unk.resolve_left (by omega))
      · exact absurd hb List.not_mem_nil

theorem bpeMerge_decodes (hs : Sound tok) (input : Bytes) (ids : List Int)
    (h : bpeMerge tok input = some ids) : ∀ id ∈ ids, Decodes tok id := by
  intro id hid
  obtain ⟨syms, -, rfl⟩ := bpeMerge_ids h
  obtain ⟨sym, -, hsym⟩ := List.mem_flatMap.mp hid
  exact emitSymbol_decodes hs sym id hsym

theorem wpProbe_decodes (hs : Sound tok) {word : Bytes} {pos fuel stop id stop' : Nat}
    (h : wpProbe tok word pos fuel stop = some (id, stop')) : Decodes tok id := by
  induction fuel generalizing stop with
  | zero => contradiction
  | succ fuel ih =>
    simp only [wpProbe] at h
    split at h
    · split at h
      · rename_i i hi
        obtain ⟨rfl, -⟩ := Prod.mk.inj (Option.some.inj h)
        exact hs.decodes _ _ hi
      · exact ih h
    · contradiction

theorem wpPieces_decodes (hs : Sound tok) {word : Bytes} {fuel pos : Nat}
    (h : wpPieces tok word fuel pos = some ids) : ∀ id ∈ ids, Decodes tok id := by
  induction fuel generalizing pos ids with
  | zero =>
    rw [← Option.some.inj h]
    exact fun id hid => absurd hid List.not_mem_nil
  | succ fuel ih =>
    simp only [wpPieces] at h
    split at h
    · split at h
      · contradiction
      · rename_i i stop hprobe
        obtain ⟨rest, hrest, rfl⟩ := Option.map_eq_some_iff.mp h
        intro id hid
        rcases List.mem_cons.mp hid with rfl | hid
        · exact wpProbe_decodes hs hprobe
        · exact ih hrest id hid
    · rw [← Option.some.inj h]
      exact fun id hid => absurd hid List.not_mem_nil

theorem wpEmitWord_decodes (hs : Sound tok) {unk : Int} (hunk : Decodes tok unk) (word : Bytes) :
    ∀ id ∈ wpEmitWord tok word unk, Decodes tok id := by
  intro id hid
  rw [wpEmitWord] at hid
  cases hpieces : wpPieces tok word word.length 0 with
  | none =>
    rw [hpieces] at hid
    rw [List.mem_singleton.mp hid]
    exact hunk
  | some pieces =>
    rw [hpieces] at hid
    exact wpPieces_decodes hs hpieces id hid

theorem wpWords_decodes (hs : Sound tok) {unk : Int} (hunk : Decodes tok unk)
    {fuel i wstart : Nat} {total : List Int} (htotal : ∀ id ∈ total, Decodes tok id) :
    ∀ id ∈ (wpWords tok text unk fuel i wstart total).1, Decodes tok id := by
  induction fuel generalizing i wstart total with
  | zero => exact htotal
  | succ fuel ih =>
    have happend : ∀ word, ∀ id ∈ total ++ wpEmitWord tok word unk, Decodes tok id := by
      intro word id hid
      rcases List.mem_append.mp hid with hid | hid
      · exact htotal id hid
      · exact wpEmitWord_decodes hs hunk word id hid
    have hupTo : ∀ id ∈ (if wstart < i then total ++ wpEmitWord tok (slice text wstart i) unk
        else total), Decodes tok id := by
      split
      · exact happend _
      · exact htotal
    simp only [wpWords]
    split
    · split
      · exact ih hupTo
      · split
        · refine ih fun id hid => ?_
          rcases List.mem_append.mp hid with hid | hid
          · exact hupTo id hid
          · exact wpEmitWord_decodes hs hunk _ id hid
        · exact ih htotal
    · exact htotal

theorem encodeWordpiece_decodes (hs : Sound tok) (hunk : 0 ≤ tok.unkId)
    (h : encodeWordpiece tok text = some ids) : ∀ id ∈ ids, Decodes tok id := by
  have hunk' : Decodes tok tok.unkId := hs.held (hs.unk.resolve_left (by omega))
  simp only [encodeWordpiece, if_pos hunk] at h
  split at h
  · contradiction
  · split at h
    · contradiction
    · have hwords : ∀ id ∈ (wpWords tok (text.map lowerAscii) tok.unkId
          (text.map lowerAscii).length 0 0 []).1, Decodes tok id :=
        wpWords_decodes hs hunk' fun id hid => absurd hid List.not_mem_nil
      rw [← Option.some.inj h]
      intro id hid
      split at hid
      · rcases List.mem_append.mp hid with hid | hid
        · exact hwords id hid
        · exact wpEmitWord_decodes hs hunk' _ id hid
      · exact hwords id hid

/-- Every id of a text has a token string; a WordPiece tokenizer needs its unknown token. -/
theorem tokenizerEncodeAlloc_decodes (hs : Sound tok) (hunk : tok.type = .wordpiece → 0 ≤ tok.unkId)
    {iterate : StrMap → List (Bytes × Nat)} (hiterate : Enumerates iterate tok.specialTokens)
    {normalize : NormForm → Bytes → Option Bytes} {parse : Bool}
    (h : tokenizerEncodeAlloc T tok iterate normalize text parse = some ids) :
    ∀ id ∈ ids, Decodes tok id := by
  obtain ⟨text, h⟩ := tokenizerEncodeAlloc_impl h
  by_cases hbody : tok.type = .wordpiece
  · rw [encodeAllocImpl, if_pos hbody] at h
    split at h
    · contradiction
    · rename_i total htotal
      split at h
      · contradiction
      · rw [← Option.some.inj h]
        obtain ⟨seg, hseg, rfl⟩ := Option.map_eq_some_iff.mp htotal
        intro id hid
        rcases List.mem_append.mp hid with hid | hid
        · rcases List.mem_append.mp hid with hid | hid
          · split at hid
            · rw [List.mem_singleton.mp hid]
              exact hs.held (hs.bos.resolve_left (by omega))
            · exact absurd hid List.not_mem_nil
          · exact encodeWordpiece_decodes hs (hunk hbody) hseg id hid
        · split at hid
          · rw [List.mem_singleton.mp hid]
            exact hs.held (hs.eos.resolve_left (by omega))
          · exact absurd hid List.not_mem_nil
  · refine encodeAllocImpl_forall hbody (bpeMerge_decodes hs) (fun _ e he => ?_) h
    exact hs.decodes e.1 e.2 (hs.agree e.1 e.2 ((hiterate e.1 e.2).mp he))

theorem decodes_natCast {i : Nat} (h : Decodes tok i) :
    i < tok.idToTokenCap ∧ (tok.idToToken i).isSome := by
  rw [Decodes, tokenizerDecodeToken] at h
  split at h
  · contradiction
  · rename_i hcap
    rw [Int.toNat_natCast, Option.isSome_map] at h
    exact ⟨by omega, h⟩

end Decodes

/-- The maps and the id table agree on the added tokens, every id they hold is in the table,
and so is every id of a text. -/
theorem load_consistent {root : Value} {config : Option Value} {tok : Tokenizer}
    (h : Loaded root config tok) {added : List AddedToken} (hadded : documentAdded root = some added)
    (hnul : ∀ a ∈ added, (0 : UInt8) ∉ a.content) :
    (∀ a ∈ added, tok.specialTokens.lookup a.content = some a.id ∧
      tok.vocab.lookup a.content = some a.id ∧ tok.idToToken a.id = some a.content) ∧
    (∀ key i, tok.vocab.lookup key = some i →
      i < tok.idToTokenCap ∧ (tok.idToToken i).isSome) ∧
    (tok.bosId = -1 ∨ Held tok tok.bosId) ∧ (tok.eosId = -1 ∨ Held tok tok.eosId) ∧
    (tok.unkId = -1 ∨ Held tok tok.unkId) ∧
    (∀ b, tok.byteFallbackIds b = -1 ∨ Held tok (tok.byteFallbackIds b)) ∧
    ∀ (T : UcTables) (iterate : StrMap → List (Bytes × Nat))
      (normalize : NormForm → Bytes → Option Bytes) (text : Bytes) (parse : Bool) (ids : List Int),
      Enumerates iterate tok.specialTokens → (tok.type = .wordpiece → 0 ≤ tok.unkId) →
      tokenizerEncodeAlloc T tok iterate normalize text parse = some ids →
      ∀ id ∈ ids, (tokenizerDecodeToken tok id).isSome := by
  have hs := loaded_sound h
  refine ⟨loaded_added h hadded hnul, fun key i hk => decodes_natCast (hs.decodes key i hk),
    hs.bos, hs.eos, hs.unk, hs.fallback, ?_⟩
  intro T iterate normalize text parse ids hiterate hunk hids
  exact tokenizerEncodeAlloc_decodes hs hunk hiterate hids

/-- An added token beyond the vocabulary, and one that repeats an entry of it. -/
def addedRoot : Value := .obj [
  (ascii "model", .obj [(ascii "type", .str (ascii "BPE")),
    (ascii "vocab", .obj [(ascii "a", .int 0), (ascii "<s>", .int 1)])]),
  (ascii "added_tokens", .arr [
    .obj [(ascii "content", .str (ascii "<s>")), (ascii "id", .int 1)],
    .obj [(ascii "content", .str (ascii "<end>")), (ascii "id", .int 9)]])]

def addedRootTokens : List AddedToken := [⟨ascii "<s>", 1, false⟩, ⟨ascii "<end>", 9, false⟩]

theorem load_consistent_added : ∃ tok, Loaded addedRoot none tok ∧
    tok.idToToken 9 = some (ascii "<end>") ∧ 9 < tok.idToTokenCap := by
  obtain ⟨tok, htok⟩ : ∃ tok, tokenizerLoadJson addedRoot = some tok :=
    Option.isSome_iff_exists.mp (by decide)
  have hloaded : Loaded addedRoot none tok := ⟨tok, htok, rfl⟩
  obtain ⟨hadded, hvocab, -⟩ := load_consistent hloaded
    (show documentAdded addedRoot = some addedRootTokens from rfl) (by decide)
  obtain ⟨-, hend, htable⟩ := hadded ⟨ascii "<end>", 9, false⟩ (by simp [addedRootTokens])
  exact ⟨tok, hloaded, htable, (hvocab _ _ hend).1⟩

end Mlxd.Encode
