import Mlxd.EncodeIds

/-!
# No special token from user text

Merging starts from single codepoints and every later symbol joins a merge pair. An added
token that is neither, and that no fallback id stands for, is never emitted for plain text.
-/
namespace Mlxd.Encode

open Mlxd.Unicode Mlxd.Json Mlxd.TokLoad Mlxd.BpeMerge Mlxd.Pretokenize Mlxd.ByteLevel

/-! ## Single codepoints -/

/-- The decoder reads the whole string as one codepoint. -/
def IsCodepoint (s : Bytes) : Prop := s ≠ [] ∧ (decodeHead s).len = s.length

/-- What is cut off behind a codepoint does not change its length. -/
theorem decodeHead_take_len (s : Bytes) :
    (decodeHead (s.take (decodeHead s).len)).len = (decodeHead s).len := by
  by_cases hs : s = []
  · rw [hs]
    rfl
  · by_cases h : decodeHead s = invalid
    · have htake : s.take 1 ≠ [] := by simpa using hs
      have hle := decodeHead_len_le (s.take 1)
      have hpos := decodeHead_len_pos (s.take 1) htake
      rw [List.length_take] at hle
      rw [h]
      simp only [invalid]
      omega
    · rw [decodeHead_take s hs h]

theorem codepointsLoop_isCodepoint (fuel : Nat) (s : Bytes) :
    ∀ x ∈ codepointsLoop fuel s, IsCodepoint x := by
  induction fuel generalizing s with
  | zero => exact fun x hx => absurd hx List.not_mem_nil
  | succ fuel ih =>
    intro x hx
    simp only [codepointsLoop] at hx
    split at hx
    · exact absurd hx List.not_mem_nil
    · rename_i hne
      have hpos := decodeHead_len_pos s hne
      have hle := decodeHead_len_le s
      rcases List.mem_cons.mp hx with rfl | hx
      · have hlen : (s.take (decodeHead s).len).length = (decodeHead s).len := by
          rw [List.length_take]
          omega
        refine ⟨fun h => ?_, by rw [decodeHead_take_len, hlen]⟩
        rw [h, List.length_nil] at hlen
        omega
      · exact ih _ x hx

theorem byteSymbol_isCodepoint (b : UInt8) :
    IsCodepoint (byteSymbol ucBuildBytesToUnicode b.toNat) := by
  have h := decodeHead_symbol b []
  rw [List.append_nil] at h
  refine ⟨fun hnil => ?_, by rw [h]⟩
  have hpos := (byteSymbol_shape b).2.1
  simp [hnil] at hpos

/-! ## The symbols merging can produce -/

/-- A codepoint, or the two halves of a merge joined. -/
def Reachable (tok : Tokenizer) (sym : Bytes) : Prop :=
  IsCodepoint sym ∨ ∃ l r, (tok.merges.lookup (l, r)).isSome ∧ sym = l ++ r

theorem merges_reachable {tok : Tokenizer} {input : Bytes} {syms : List Bytes}
    (h : GreedyMerge.Merges (mergeRank tok) (· ++ ·) (codepoints input) syms) :
    ∀ sym ∈ syms, Reachable tok sym := by
  refine h.forall _ (fun x hx => .inl ?_) fun l r rank hrank _ _ => .inr ?_
  · exact codepointsLoop_isCodepoint _ _ x hx
  · exact ⟨l, r, by rw [show tok.merges.lookup (l, r) = some rank from hrank]; rfl, rfl⟩

/-! ## Added tokens -/

/-- No two strings of the vocabulary share an id. -/
def InjectiveVocab (tok : Tokenizer) : Prop :=
  ∀ k k' i, tok.vocab.lookup k = some i → tok.vocab.lookup k' = some i → k = k'

/-- The added token is no codepoint, no join of a merge pair, no byte entry, and not the
unknown token. -/
structure Inert (tok : Tokenizer) (content : Bytes) (id : Nat) : Prop where
  codepoint : ¬ IsCodepoint content
  merged : ∀ l r, (tok.merges.lookup (l, r)).isSome → content ≠ l ++ r
  unknown : tok.unkId ≠ id
  byteEntry : ∀ b : UInt8, content ≠ byteName b.toNat

theorem Inert.not_reachable {tok : Tokenizer} {content : Bytes} {id : Nat}
    (h : Inert tok content id) : ¬ Reachable tok content := by
  rintro (hcp | ⟨l, r, hmerge, hjoin⟩)
  · exact h.codepoint hcp
  · exact h.merged l r hmerge hjoin

theorem loaded_fallback {root : Value} {config : Option Value} {tok : Tokenizer}
    (h : Loaded root config tok) : tok.byteFallbackIds = byteFallback tok.type tok.vocab := by
  obtain ⟨base, hload, rfl⟩ := h
  obtain ⟨p, -, rfl⟩ := Option.map_eq_some_iff.mp hload
  simp only [applyConfigOverrides]
  split <;> rfl

theorem idOr_eq {o : Option Nat} {i : Nat} (h : idOr o (-1) = i) : o = some i := by
  cases o with
  | none => simp [idOr] at h
  | some j => rw [Int.natCast_inj.mp h]

section Emit

variable {tok : Tokenizer} {content : Bytes} {i : Nat}

/-- A fallback id belongs to a codepoint or to a byte entry. -/
theorem fallback_not_inert (hfallback : tok.byteFallbackIds = byteFallback tok.type tok.vocab)
    (hinj : InjectiveVocab tok) (hvocab : tok.vocab.lookup content = some i)
    (hinert : Inert tok content i) (b : UInt8) : tok.byteFallbackIds b.toNat ≠ i := by
  intro h
  rw [hfallback] at h
  cases htype : tok.type with
  | bpe =>
    rw [htype] at h
    refine hinert.codepoint ?_
    rw [hinj _ _ i hvocab (idOr_eq h)]
    exact byteSymbol_isCodepoint b
  | sentencepieceBpe =>
    rw [htype] at h
    exact hinert.byteEntry b (hinj _ _ i hvocab (idOr_eq h))
  | wordpiece =>
    rw [htype, byteFallback] at h
    omega

theorem emitSymbol_not_added (hfallback : tok.byteFallbackIds = byteFallback tok.type tok.vocab)
    (hinj : InjectiveVocab tok) (hvocab : tok.vocab.lookup content = some i)
    (hinert : Inert tok content i) {sym : Bytes} (hsym : Reachable tok sym) :
    ∀ id ∈ bpeEmitSymbol tok sym, id ≠ (i : Int) := by
  intro id hid
  simp only [bpeEmitSymbol] at hid
  split at hid
  · rename_i j hj
    rw [List.mem_singleton.mp hid]
    intro hji
    rw [Int.natCast_inj.mp hji] at hj
    rw [hinj _ _ i hj hvocab] at hsym
    exact hinert.not_reachable hsym
  · obtain ⟨b, -, hb⟩ := List.mem_flatMap.mp hid
    split at hb
    · rw [List.mem_singleton.mp hb]
      exact fallback_not_inert hfallback hinj hvocab hinert b
    · split at hb
      · rw [List.mem_singleton.mp hb]
        exact hinert.unknown
      · exact absurd hb List.not_mem_nil

end Emit

/-- Plain text never gives the id of an inert added token, whatever it contains. -/
theorem no_injection {root : Value} {config : Option Value} {tok : Tokenizer}
    (h : Loaded root config tok) (hbody : tok.type ≠ .wordpiece) (hinj : InjectiveVocab tok)
    (hinert : ∀ content i, tok.specialTokens.lookup content = some i → Inert tok content i)
    (T : UcTables) (iterate : StrMap → List (Bytes × Nat))
    (normalize : NormForm → Bytes → Option Bytes) (text : Bytes) (ids : List Int)
    (hids : tokenizerEncodeAlloc T tok iterate normalize text false = some ids) :
    ∀ content i, tok.specialTokens.lookup content = some i → (i : Int) ∉ ids := by
  intro content i hspecial hmem
  have hvocab := (loaded_sound h).agree content i hspecial
  obtain ⟨text', himpl⟩ := tokenizerEncodeAlloc_impl hids
  refine encodeAllocImpl_forall (P := fun id => id ≠ (i : Int)) hbody ?_ (fun hparse => ?_) himpl i
    hmem rfl
  · intro input seg hseg id hid
    obtain ⟨syms, hmerges, rfl⟩ := bpeMerge_ids hseg
    obtain ⟨sym, hsym, hid⟩ := List.mem_flatMap.mp hid
    exact emitSymbol_not_added (loaded_fallback h) hinj hvocab (hinert content i hspecial)
      (merges_reachable hmerges sym hsym) id hid
  · contradiction

/-! ## A document with added tokens -/

instance (s : Bytes) : Decidable (IsCodepoint s) := inferInstanceAs (Decidable (_ ∧ _))

def addedTok : Tokenizer := (tokenizerLoadJson addedRoot).get (by decide)

theorem addedTok_loaded : Loaded addedRoot none addedTok :=
  ⟨addedTok, (Option.some_get _).symm, rfl⟩

theorem addedTok_distinct : InjectiveVocab addedTok := by
  intro k k' i hk hk'
  have hall : ∀ e ∈ mapEntries addedTok.vocab, ∀ e' ∈ mapEntries addedTok.vocab,
      e.2 = e'.2 → e.1 = e'.1 := by decide
  exact hall (k, i) ((enumerates_entries _ k i).mpr hk) (k', i) ((enumerates_entries _ k' i).mpr hk')
    rfl

theorem addedTok_inert (content : Bytes) (i : Nat)
    (h : addedTok.specialTokens.lookup content = some i) : Inert addedTok content i := by
  have hall : ∀ e ∈ mapEntries addedTok.specialTokens,
      ¬ IsCodepoint e.1 ∧ e.1.length ≤ 5 := by decide
  obtain ⟨hcp, hlen⟩ := hall (content, i) ((enumerates_entries _ content i).mpr h)
  refine ⟨hcp, fun l r hmerge => ?_, ?_, fun b => ?_⟩
  · exact absurd hmerge (by simp [show addedTok.merges = ∅ from rfl])
  · rw [show addedTok.unkId = -1 from rfl]
    omega
  · rintro rfl
    exact absurd hlen (by simp [byteName])

/-- The text spells an added token, and its id is not given. -/
theorem no_injection_spelled : ∃ ids, tokenizerEncodeAlloc sampleTables addedTok mapEntries
    (fun _ _ => none) (ascii "<s>a") false = some ids ∧ (1 : Int) ∉ ids := by
  have hids : tokenizerEncodeAlloc sampleTables addedTok mapEntries (fun _ _ => none)
      (ascii "<s>a") false = some [0] := by decide +kernel
  exact ⟨_, hids, no_injection addedTok_loaded (by decide) addedTok_distinct addedTok_inert _ _ _ _ _
    hids (ascii "<s>") 1 (by decide)⟩

end Mlxd.Encode
