import Mlxd.Detok

/-!
# Byte fallback in byte-level mode

A surviving symbol without an entry is spelled byte by byte, but its bytes are already those of
the byte table's codepoints, and the fallback table maps bytes through that table once more. The
ids decode to the symbol's own text, which is the text it stands for only if all of it is
printable ASCII.
-/
namespace Mlxd.ByteLevel

open Mlxd.Unicode Mlxd.Json Mlxd.TokLoad Mlxd.BpeMerge Mlxd.Pretokenize Mlxd.GreedyMerge
open Mlxd.Detok (tokenBytes Oversized decodeByteLevel_some decodeByteLevel_none)

/-! ## Bytes that are their own symbols -/

/-- Printable ASCII without the space. -/
def Plain (x : Bytes) : Prop := ∀ c ∈ x, 0x21 ≤ c ∧ c ≤ 0x7E

theorem plain_append (x y : Bytes) : Plain (x ++ y) ↔ Plain x ∧ Plain y := List.forall_mem_append

theorem byteSymbol_cases : ∀ b < 256,
    (0x21 ≤ b ∧ b ≤ 0x7E) ∧ byteSymbol ucBuildBytesToUnicode b = [UInt8.ofNat b] ∨
      (byteSymbol ucBuildBytesToUnicode b).length = 2 ∧
        ∃ c ∈ byteSymbol ucBuildBytesToUnicode b, 0x7E < c := by
  decide +kernel

/-- A byte is its own symbol, or its symbol is longer and not plain. -/
theorem byteSymbol_plain (b : UInt8) :
    byteSymbol ucBuildBytesToUnicode b.toNat = [b] ∧
        Plain (byteSymbol ucBuildBytesToUnicode b.toNat) ∨
      (byteSymbol ucBuildBytesToUnicode b.toNat).length = 2 ∧
        ¬ Plain (byteSymbol ucBuildBytesToUnicode b.toNat) := by
  rcases byteSymbol_cases b.toNat b.toNat_lt with ⟨⟨hlow, hhigh⟩, hb⟩ | ⟨hlen, c, hc, hbig⟩
  · rw [UInt8.ofNat_toNat] at hb
    refine .inl ⟨hb, fun c hc => ?_⟩
    rw [hb, List.mem_singleton] at hc
    rw [hc]
    exact ⟨UInt8.le_iff_toNat_le.mpr hlow, UInt8.le_iff_toNat_le.mpr hhigh⟩
  · exact .inr ⟨hlen, fun h => absurd (h c hc).2 (UInt8.not_le.mpr hbig)⟩

/-- Spelling a word keeps its length exactly when it keeps the word. -/
theorem expand_plain (word : Bytes) :
    (Plain (expand ucBuildBytesToUnicode word) ↔ expand ucBuildBytesToUnicode word = word) ∧
      ((expand ucBuildBytesToUnicode word).length = word.length ↔
        expand ucBuildBytesToUnicode word = word) := by
  induction word with
  | nil => exact ⟨⟨fun _ => rfl, fun _ _ h => absurd h List.not_mem_nil⟩, fun _ => rfl, fun _ => rfl⟩
  | cons b word ih =>
    have hle := length_le_expand word
    rw [expand_cons, plain_append]
    rcases byteSymbol_plain b with ⟨hb, hplain⟩ | ⟨hlen, hplain⟩
    · rw [hb] at hplain ⊢
      simp only [hplain, true_and, List.singleton_append, List.cons.injEq, List.length_cons,
        Nat.add_right_cancel_iff]
      exact ih
    · have hne : byteSymbol ucBuildBytesToUnicode b.toNat ++ expand ucBuildBytesToUnicode word ≠
          b :: word := by
        intro h
        have := congrArg List.length h
        simp only [List.length_append, List.length_cons] at this
        omega
      refine ⟨⟨fun h => absurd h.1 hplain, fun h => absurd h hne⟩, fun h => ?_, fun h => absurd h hne⟩
      simp only [List.length_append, List.length_cons] at h
      omega

/-! ## Symbols without an entry -/

section Fallback

variable {tok : Tokenizer}

/-- The symbols the merge loop leaves of a word, where it ends. -/
def wordSymbols (tok : Tokenizer) (word : Bytes) : List Bytes :=
  let input := expand tok.bytesUnicode word
  ((bpeRun tok input (3 * input.length)).map fun s => symbols input s.nodes).getD []

/-- The tokens of the fallback ids of the symbol's bytes join to the bytes it stands for. -/
def Spelled (tok : Tokenizer) (sym : Bytes) : Prop :=
  (∀ c ∈ sym, ¬ Oversized tok (tok.byteFallbackIds c.toNat)) ∧
    (sym.flatMap fun c => tokenBytes tok (tok.byteFallbackIds c.toNat)) =
      decodeToken tok.bytesUnicode sym

/-- What byte-level mode relies on: the table, and fallback ids for all bytes. -/
structure Fallback (tok : Tokenizer) : Prop where
  type : tok.type = .bpe
  table : tok.bytesUnicode = ucBuildBytesToUnicode
  ids : ∀ b < 256, ∃ id : Nat,
    tok.vocab.lookup (byteSymbol ucBuildBytesToUnicode b) = some id ∧ tok.byteFallbackIds b = id

theorem load_fallback {root : Value} (hload : tokenizerLoadJson root = some tok)
    (htype : tok.type = .bpe)
    (hbytes : ∀ b < 256, (tok.vocab.lookup (byteSymbol tok.bytesUnicode b)).isSome) :
    Fallback tok := by
  obtain ⟨p, -, rfl⟩ := Option.map_eq_some_iff.mp hload
  have htable : (assemble root p).bytesUnicode = ucBuildBytesToUnicode := by simp only [assemble]
  have hids : ∀ b, (assemble root p).byteFallbackIds b =
      idOr ((assemble root p).vocab.lookup (byteSymbol ucBuildBytesToUnicode b)) (-1) := fun b => by
    have htype' : p.type = .bpe := htype
    simp only [assemble, byteFallback, htype']
  refine ⟨htype, htable, fun b hb => ?_⟩
  obtain ⟨id, hid⟩ := Option.isSome_iff_exists.mp (hbytes b hb)
  rw [htable] at hid
  exact ⟨id, hid, by rw [hids, hid, idOr]⟩

theorem emit_missing (h : Fallback tok) {sym : Bytes} (hnone : tok.vocab.lookup sym = none) :
    bpeEmitSymbol tok sym = sym.flatMap fun c => [tok.byteFallbackIds c.toNat] := by
  simp only [bpeEmitSymbol, hnone]
  refine List.flatMap_congr fun c _ => ?_
  obtain ⟨id, -, hid⟩ := h.ids c.toNat c.toNat_lt
  rw [if_pos (by omega)]

/-- The fallback ids of a symbol decode to what it stands for exactly when it is spelled. -/
theorem decode_missing (h : Fallback tok) {sym : Bytes} (hnone : tok.vocab.lookup sym = none) :
    decodeByteLevel tok (bpeEmitSymbol tok sym) = some (decodeToken tok.bytesUnicode sym) ↔
      Spelled tok sym := by
  rw [emit_missing h hnone]
  by_cases hbig : ∃ c ∈ sym, Oversized tok (tok.byteFallbackIds c.toNat)
  · obtain ⟨c, hc, hover⟩ := hbig
    rw [decodeByteLevel_none tok _ (tok.byteFallbackIds c.toNat)
      (List.mem_flatMap.mpr ⟨c, hc, List.mem_singleton.mpr rfl⟩) hover]
    exact ⟨fun h => by contradiction, fun h => absurd hover (h.1 c hc)⟩
  · simp only [not_exists, not_and] at hbig
    rw [decodeByteLevel_some tok h.type _ fun id hid => ?_, List.flatMap_assoc, Option.some.injEq]
    · simp only [List.flatMap_singleton]
      exact ⟨fun h => ⟨hbig, h⟩, fun h => h.2⟩
    · obtain ⟨c, hc, hid⟩ := List.mem_flatMap.mp hid
      rw [List.mem_singleton.mp hid]
      exact hbig c hc

/-- A byte's fallback id decodes to the byte. -/
structure Exact (tok : Tokenizer) : Prop extends Fallback tok where
  decodes : ∀ k id, tok.vocab.lookup k = some id → tokenizerDecodeToken tok id = some (cstr k)

theorem fallback_exact (h : Exact tok) (c : UInt8) :
    tokenizerDecodeToken tok (tok.byteFallbackIds c.toNat) =
      some (expand ucBuildBytesToUnicode [c]) := by
  obtain ⟨id, hid, hfallback⟩ := h.ids c.toNat c.toNat_lt
  rw [hfallback, h.decodes _ id hid, ← cstr_expand [c], expand_cons, expand_nil, List.append_nil]

theorem fallback_small (h : Exact tok) (c : UInt8) :
    ¬ Oversized tok (tok.byteFallbackIds c.toNat) := by
  rintro ⟨-, token, htoken, hlen⟩
  have hle := expand_length_le [c]
  rw [fallback_exact h c] at htoken
  rw [← Option.some.inj htoken] at hlen
  simp only [UINT32_MAX, List.length_singleton] at hlen hle
  omega

/-- The fallback ids of a symbol decode to its own text. -/
theorem fallback_text (h : Exact tok) (sym : Bytes) :
    (sym.flatMap fun c => tokenBytes tok (tok.byteFallbackIds c.toNat)) = sym := by
  have hbyte : ∀ c ∈ sym, tokenBytes tok (tok.byteFallbackIds c.toNat) = [c] := fun c _ => by
    simp only [tokenBytes, h.type, fallback_exact h c, h.table, decodeToken_expand]
  rw [List.flatMap_congr hbyte, List.flatMap_singleton']

/-- A symbol that spells bytes is spelled exactly when it is plain. -/
theorem spelled_iff (h : Exact tok) (bs : Bytes) :
    Spelled tok (expand ucBuildBytesToUnicode bs) ↔ Plain (expand ucBuildBytesToUnicode bs) := by
  rw [Spelled, fallback_text h, h.table, decodeToken_expand, (expand_plain bs).1]
  exact ⟨fun h => h.2, fun he => ⟨fun c _ => fallback_small h c, he⟩⟩

/-! ## Words and texts -/

/-- Every symbol that is left of a word spells bytes. -/
theorem wordSymbols_expand (h : Fallback tok) (word : Bytes) :
    ∀ x ∈ wordSymbols tok word, ∃ bs, x = expand ucBuildBytesToUnicode bs := by
  intro x hx
  rw [wordSymbols, h.table] at hx
  cases hrun : bpeRun tok (expand ucBuildBytesToUnicode word)
      (3 * (expand ucBuildBytesToUnicode word).length) with
  | none => simp [hrun] at hx
  | some s =>
    simp only [hrun, Option.map_some, Option.getD_some] at hx
    refine (bpeRun_merges tok _ hrun).1.forall (fun x => ∃ bs, x = expand ucBuildBytesToUnicode bs)
      (fun y hy => ?_) (fun y z r _ hy hz => ?_) x hx
    · rw [codepoints_expand] at hy
      obtain ⟨b, -, rfl⟩ := List.mem_map.mp hy
      exact ⟨[b], by simp [expand]⟩
    · obtain ⟨bs, rfl⟩ := hy
      obtain ⟨cs, rfl⟩ := hz
      exact ⟨bs ++ cs, (expand_append _ _ _).symm⟩

/-- The symbols left of a word that can be encoded are the reference's. -/
theorem wordSymbols_eq (h : Fallback tok) (word : Bytes) (hlen : 2 * word.length ≤ INT32_MAX) :
    wordSymbols tok word = naiveMerge tok (expand ucBuildBytesToUnicode word) := by
  obtain ⟨s, hs, -, hsyms⟩ :=
    bpeRun_spec tok _ (expand_popsFit tok word hlen) _ (Nat.le_refl _)
  rw [wordSymbols, h.table]
  simp only [hs, Option.map_some, Option.getD_some, hsyms]

/-- The text the ids of a symbol decode to. -/
def emittedText (tok : Tokenizer) (sym : Bytes) : Bytes :=
  if (tok.vocab.lookup sym).isSome then decodeToken ucBuildBytesToUnicode sym else sym

theorem decode_emitted (h : Exact tok) {bs : Bytes}
    (hlen : (expand ucBuildBytesToUnicode bs).length ≤ UINT32_MAX) :
    decodeByteLevel tok (bpeEmitSymbol tok (expand ucBuildBytesToUnicode bs)) =
      some (emittedText tok (expand ucBuildBytesToUnicode bs)) := by
  rw [emittedText]
  split
  · rename_i hsome
    obtain ⟨id, hid⟩ := Option.isSome_iff_exists.mp hsome
    have hdec := h.decodes _ id hid
    rw [cstr_expand] at hdec
    simp only [bpeEmitSymbol, hid, decodeByteLevel, hdec, if_neg (Nat.not_lt.mpr hlen), h.table,
      Option.map_some, List.append_nil]
  · rename_i hsome
    rw [emit_missing h.toFallback (Option.not_isSome_iff_eq_none.mp hsome),
      decodeByteLevel_some tok h.type _ fun id hid => ?_, List.flatMap_assoc]
    · simp only [List.flatMap_singleton, fallback_text h]
    · obtain ⟨c, -, hid⟩ := List.mem_flatMap.mp hid
      rw [List.mem_singleton.mp hid]
      exact fallback_small h c

theorem decode_wordSymbols (h : Exact tok) (syms : List Bytes)
    (hsyms : ∀ x ∈ syms, ∃ bs, x = expand ucBuildBytesToUnicode bs)
    (hlen : ∀ x ∈ syms, x.length ≤ UINT32_MAX) :
    decodeByteLevel tok (syms.flatMap (bpeEmitSymbol tok)) =
      some (syms.flatMap (emittedText tok)) := by
  induction syms with
  | nil => rfl
  | cons x syms ih =>
    obtain ⟨bs, hx⟩ := hsyms x List.mem_cons_self
    have hhead : decodeByteLevel tok (bpeEmitSymbol tok x) = some (emittedText tok x) := by
      rw [hx]
      exact decode_emitted h (hx ▸ hlen x List.mem_cons_self)
    exact decodeByteLevel_append _ _ _ _ hhead
      (ih (fun y hy => hsyms y (List.mem_cons_of_mem _ hy))
        fun y hy => hlen y (List.mem_cons_of_mem _ hy))

/-- No symbol without an entry is anything but plain. -/
def MissingPlain (tok : Tokenizer) (word : Bytes) : Prop :=
  ∀ x ∈ wordSymbols tok word, tok.vocab.lookup x = none → Plain x

/-- A text is never shorter than what it stands for, and as long only if the missing ones are
plain. -/
theorem emitted_length (syms : List Bytes)
    (hsyms : ∀ x ∈ syms, ∃ bs, x = expand ucBuildBytesToUnicode bs) :
    (syms.flatMap (decodeToken ucBuildBytesToUnicode)).length ≤
        (syms.flatMap (emittedText tok)).length ∧
      ((syms.flatMap (emittedText tok)).length =
          (syms.flatMap (decodeToken ucBuildBytesToUnicode)).length ↔
        ∀ x ∈ syms, tok.vocab.lookup x = none → Plain x) ∧
      ((∀ x ∈ syms, tok.vocab.lookup x = none → Plain x) →
        syms.flatMap (emittedText tok) = syms.flatMap (decodeToken ucBuildBytesToUnicode)) := by
  induction syms with
  | nil => simp
  | cons x syms ih =>
    obtain ⟨hle, hiff, htext⟩ := ih fun y hy => hsyms y (List.mem_cons_of_mem _ hy)
    obtain ⟨bs, rfl⟩ := hsyms x List.mem_cons_self
    have hshort := length_le_expand bs
    simp only [List.flatMap_cons, List.length_append, List.forall_mem_cons, decodeToken_expand]
    by_cases hsome : (tok.vocab.lookup (expand ucBuildBytesToUnicode bs)).isSome
    · have htok : emittedText tok (expand ucBuildBytesToUnicode bs) = bs := by
        rw [emittedText, if_pos hsome, decodeToken_expand]
      have hentry : tok.vocab.lookup (expand ucBuildBytesToUnicode bs) ≠ none :=
        Option.isSome_iff_ne_none.mp hsome
      rw [htok]
      refine ⟨by omega, ?_, fun h => by rw [htext h.2]⟩
      rw [Nat.add_left_cancel_iff, hiff]
      exact ⟨fun h => ⟨fun hnone => absurd hnone hentry, h⟩, fun h => h.2⟩
    · have htok : emittedText tok (expand ucBuildBytesToUnicode bs) =
          expand ucBuildBytesToUnicode bs := by rw [emittedText, if_neg hsome]
      have hnone := Option.not_isSome_iff_eq_none.mp hsome
      rw [htok]
      refine ⟨by omega, ⟨fun h => ?_, fun h => ?_⟩, fun h => ?_⟩
      · have hword := (expand_plain bs).2.mp (by omega)
        exact ⟨fun _ => (expand_plain bs).1.mpr hword, hiff.mp (by omega)⟩
      · rw [(expand_plain bs).1.mp (h.1 hnone), hiff.mpr h.2]
      · rw [(expand_plain bs).1.mp (h.1 hnone), htext h.2]

/-- The ids of a word decode to its symbols' texts, which join to the word exactly when no
symbol is missing but plain ones. -/
theorem bpeMerge_emitted (h : Exact tok) (word : Bytes) (hlen : 2 * word.length ≤ INT32_MAX) :
    ∃ ids out, bpeMerge tok (expand tok.bytesUnicode word) = some ids ∧
      decodeByteLevel tok ids = some out ∧ word.length ≤ out.length ∧
      (out.length = word.length ↔ MissingPlain tok word) ∧ (MissingPlain tok word → out = word) := by
  have hexp := expand_length_le word
  have hle : (expand ucBuildBytesToUnicode word).length ≤ INT32_MAX := by omega
  have hnaive := wordSymbols_eq h.toFallback word hlen
  have hspell := wordSymbols_expand h.toFallback word
  have hflat := naiveMerge_flatten tok word
  rw [← hnaive] at hflat
  have hdecoded := spelled_decode hspell hflat
  have hmerge : bpeMerge tok (expand tok.bytesUnicode word) =
      some ((wordSymbols tok word).flatMap (bpeEmitSymbol tok)) := by
    rw [h.table, hnaive]
    exact bpeMerge_eq (by rw [h.type]; decide) hle (expand_popsFit tok word hlen)
  obtain ⟨hshort, hiff, htext⟩ := @emitted_length tok (wordSymbols tok word) hspell
  rw [hdecoded] at hshort hiff htext
  exact ⟨_, _, hmerge, decode_wordSymbols h _ hspell (spelled_small hlen hflat), hshort, hiff, htext⟩

theorem encodeWords_emitted (h : Exact tok) (text : Bytes) (hlen : 2 * text.length ≤ INT32_MAX)
    (words : List PretokSlice) (i stop : Nat) (hstop : stop ≤ text.length)
    (hp : Partition i stop words) :
    ∃ ids out, encodeWords tok text words = some ids ∧ decodeByteLevel tok ids = some out ∧
      (slice text i stop).length ≤ out.length ∧
      (out.length = (slice text i stop).length ↔
        ∀ w ∈ words, MissingPlain tok (slice text w.off (w.off + w.len))) ∧
      ((∀ w ∈ words, MissingPlain tok (slice text w.off (w.off + w.len))) →
        out = slice text i stop) := by
  induction words generalizing i with
  | nil =>
    obtain rfl : i = stop := hp
    exact ⟨[], [], rfl, rfl, by simp [slice], by simp [slice], fun _ => by simp [slice]⟩
  | cons w words ih =>
    obtain ⟨rfl, hw, hp⟩ := hp
    have hle : w.off + w.len ≤ stop := partition_le hp
    obtain ⟨ids, out, hids, hdec, hshort, hiff, htext⟩ :=
      bpeMerge_emitted h (slice text w.off (w.off + w.len))
        (by simp only [slice, List.length_take, List.length_drop]; omega)
    obtain ⟨ids', out', hids', hdec', hshort', hiff', htext'⟩ := ih (w.off + w.len) hp
    rw [slice_append text w.off (w.off + w.len) stop (by omega) hle]
    refine ⟨ids ++ ids', out ++ out', ?_, decodeByteLevel_append _ _ _ _ hdec hdec', ?_, ?_, ?_⟩
    · simp only [encodeWords, hids, hids']
    · simp only [List.length_append]
      omega
    · rw [List.forall_mem_cons, ← hiff, ← hiff', List.length_append, List.length_append]
      omega
    · rw [List.forall_mem_cons]
      exact fun hall => by rw [htext hall.1, htext' hall.2]

theorem encodeByteLevel_emitted (h : Exact tok) (T : UcTables) (text : Bytes) {ids : List Int}
    (hids : encodeByteLevel T tok text = some ids) : decodeByteLevel tok ids = some text ↔
      ∀ words, gpt2Pretokenize T (max 1 (2 * text.length)) text = some words →
        ∀ w ∈ words, MissingPlain tok (slice text w.off (w.off + w.len)) := by
  rw [encodeByteLevel] at hids
  split at hids
  · contradiction
  · rename_i hint
    split at hids
    · contradiction
    · rename_i hreserve
      rw [gpt2Pretokenize_eq T _ text (Nat.le_of_not_lt hint) (by omega)] at hids ⊢
      simp only [UINT32_MAX] at hreserve
      obtain ⟨ids', out, hids', hdec, hshort, hiff, htext⟩ := encodeWords_emitted h text
        (by simp only [INT32_MAX]; omega) (slicesFrom T text text.length 0) 0 text.length
        (Nat.le_refl _) (slicesFrom_partition T text text.length 0 (Nat.zero_le _) (by omega))
      obtain rfl : ids' = ids := Option.some.inj (hids'.symm.trans hids)
      have hslice : slice text 0 text.length = text := by simp [slice]
      rw [hslice] at hiff htext
      rw [hdec]
      constructor
      · intro hout words hwords
        obtain rfl := Option.some.inj hwords
        exact hiff.mp (by rw [Option.some.inj hout])
      · exact fun hall => congrArg some (htext (hall _ rfl))

/-- Missing symbols do not stop the encoder. -/
theorem encodeByteLevel_some (h : Exact tok) (T : UcTables) (text : Bytes)
    (hlen : 2 * text.length ≤ UINT32_MAX / 3) :
    ∃ ids, encodeByteLevel T tok text = some ids := by
  simp only [UINT32_MAX] at hlen
  have hint : text.length ≤ INT32_MAX := by simp only [INT32_MAX]; omega
  obtain ⟨ids, -, hids, -⟩ := encodeWords_emitted h text (by simp only [INT32_MAX]; omega)
    (slicesFrom T text text.length 0) 0 text.length (Nat.le_refl _)
    (slicesFrom_partition T text text.length 0 (Nat.zero_le _) (by omega))
  refine ⟨ids, ?_⟩
  rw [encodeByteLevel, if_neg (Nat.not_lt.mpr hint), if_neg (by simp only [UINT32_MAX]; omega),
    gpt2Pretokenize_eq T _ text hint (by omega)]
  exact hids

end Fallback

/-- In a loaded byte-level tokenizer with the symbols of all bytes, a surviving symbol without an
entry is emitted as ids that decode to the bytes it stands for exactly when the tokens of its own
bytes' fallback ids join to them. With distinct ids that is so exactly for plain symbols, and a
text comes back exactly when only plain symbols are missing. -/
theorem byteFallback_iff (T : UcTables) (root : Value) (tok : Tokenizer)
    (hload : tokenizerLoadJson root = some tok) (htype : tok.type = .bpe)
    (hbytes : ∀ b < 256, (tok.vocab.lookup (byteSymbol tok.bytesUnicode b)).isSome) :
    (∀ word, ∀ x ∈ wordSymbols tok word, ∃ bs, x = expand tok.bytesUnicode bs ∧
      (tok.vocab.lookup x = none →
        (decodeByteLevel tok (bpeEmitSymbol tok x) = some bs ↔ Spelled tok x))) ∧
    ((∀ entries, modelVocab root = some entries → DistinctIds entries) →
      (∀ word, ∀ x ∈ wordSymbols tok word, (Spelled tok x ↔ Plain x)) ∧
      ∀ text ids, encodeByteLevel T tok text = some ids → (decodeByteLevel tok ids = some text ↔
        ∀ words, gpt2Pretokenize T (max 1 (2 * text.length)) text = some words →
          ∀ w ∈ words, MissingPlain tok (slice text w.off (w.off + w.len)))) := by
  have hfallback := load_fallback hload htype hbytes
  refine ⟨fun word x hx => ?_, fun hdistinct => ?_⟩
  · obtain ⟨bs, rfl⟩ := wordSymbols_expand hfallback word x hx
    refine ⟨bs, by rw [hfallback.table], fun hnone => ?_⟩
    rw [← decode_missing hfallback hnone, hfallback.table, decodeToken_expand]
  · have hexact : Exact tok := ⟨hfallback, load_decodes hload hdistinct⟩
    refine ⟨fun word x hx => ?_, fun text ids hids => encodeByteLevel_emitted hexact T text hids⟩
    obtain ⟨bs, rfl⟩ := wordSymbols_expand hfallback word x hx
    exact spelled_iff hexact bs

/-! ## A merge without an entry -/

section MergeRoot

variable {tok : Tokenizer}

/-- The plain byte vocabulary has distinct ids, and an entry for every byte. -/
theorem plain_exact {merges : List Value} (hload : tokenizerLoadJson (byteRoot [] merges) = some tok)
    (htype : tok.type = .bpe) (hvocab : tok.vocab = putVocab ∅ (byteVocab ++ []))
    (htable : tok.bytesUnicode = ucBuildBytesToUnicode) :
    (∀ entries, modelVocab (byteRoot [] merges) = some entries → DistinctIds entries) ∧
      Exact tok := by
  have hdistinct : ∀ entries, modelVocab (byteRoot [] merges) = some entries →
      DistinctIds entries := fun entries he => by
    rw [← Option.some.inj ((byteRoot_vocab merges (by simp)).symm.trans he)]
    exact namedBytes_distinct _ (by simp) fun _ _ _ hk => absurd hk List.not_mem_nil
  exact ⟨hdistinct, load_fallback hload htype (byteVocab_bytes hvocab htable),
    load_decodes hload hdistinct⟩

/-- A byte's symbol is one byte, or two that are not both ASCII. -/
theorem ne_byteSymbol {sym : Bytes} (hsym : 2 < sym.length ∨ sym.length = 2 ∧ Plain sym) :
    ∀ b < 256, byteSymbol ucBuildBytesToUnicode b ≠ sym := by
  rintro b hb rfl
  rcases byteSymbol_cases b hb with ⟨-, hone⟩ | ⟨htwo, c, hc, hbig⟩
  · rw [hone, List.length_singleton] at hsym
    omega
  · rcases hsym with hlen | ⟨-, hplain⟩
    · omega
    · exact absurd (hplain c hc).2 (UInt8.not_le.mpr hbig)

theorem plain_missing (hvocab : tok.vocab = putVocab ∅ (byteVocab ++ [])) {sym : Bytes}
    (hsym : 2 < sym.length ∨ sym.length = 2 ∧ Plain sym) : tok.vocab.lookup sym = none := by
  rw [hvocab]
  by_contra hne
  obtain ⟨id, hid⟩ := Option.ne_none_iff_exists'.mp hne
  rcases putVocab_lookup _ ∅ _ _ hid with hmem | hmem
  · obtain ⟨b, hb, he⟩ := List.mem_map.mp (List.append_nil byteVocab ▸ hmem)
    exact ne_byteSymbol hsym b (List.mem_range.mp hb) (Prod.mk.inj he).1
  · simp at hmem

/-- With one merge the symbols of a word are those its rank alone leaves. -/
theorem wordSymbols_one (h : Fallback tok) {l r : Bytes}
    (hmerges : tok.merges = (∅ : MergeMap).insert (l, r) 0) (word : Bytes)
    (hlen : 2 * word.length ≤ INT32_MAX) : wordSymbols tok word =
      greedy (fun x y => ((∅ : MergeMap).insert (l, r) 0).lookup (x, y)) (· ++ ·)
        (codepoints (expand ucBuildBytesToUnicode word)) := by
  rw [wordSymbols_eq h word hlen, naiveMerge]
  congr 1
  funext x y
  rw [mergeRank, hmerges]

end MergeRoot

/-- The merge of a space and a letter. -/
def spaceMergeRoot : Value := byteRoot [] [.str ([0xC4, 0xA0] ++ ascii " t")]

/-- The space and the letter come back as the two bytes of the space's symbol and the letter. -/
theorem byteFallback_space : ¬ ∀ (T : UcTables) (root : Value) (tok : Tokenizer),
    tokenizerLoadJson root = some tok → tok.type = .bpe →
    (∀ b < 256, (tok.vocab.lookup (byteSymbol tok.bytesUnicode b)).isSome) →
    ∀ text ids, encodeByteLevel T tok text = some ids → decodeByteLevel tok ids = some text := by
  intro h
  have hpair : parseMergePair (.str ([0xC4, 0xA0] ++ ascii " t")) =
      some ([0xC4, 0xA0], ascii "t") := by decide
  obtain ⟨tok, hload, htype, hvocab, hmerges, htable⟩ :=
    @byteRoot_load [] [.str ([0xC4, 0xA0] ++ ascii " t")] (by simp)
  simp only [putMerges, hpair] at hmerges
  have hexact := (plain_exact hload htype hvocab htable).2
  obtain ⟨ids, hids⟩ := encodeByteLevel_some hexact ⟨#[], #[], #[]⟩ [0x20, 0x74] (by decide)
  have hplain := (encodeByteLevel_emitted hexact _ _ hids).mp
    (h _ spaceMergeRoot tok hload htype (byteVocab_bytes hvocab htable) _ _ hids) [⟨0, 2⟩]
    (by decide) ⟨0, 2⟩ List.mem_cons_self
  have hmem : [0xC4, 0xA0, 0x74] ∈ wordSymbols tok (slice [0x20, 0x74] 0 (0 + 2)) := by
    rw [wordSymbols_one hexact.toFallback hmerges _ (by decide)]
    decide +kernel
  have hmissing : tok.vocab.lookup [0xC4, 0xA0, 0x74] = none :=
    plain_missing hvocab (.inl (by decide))
  have hplainC4 := hplain _ hmem hmissing 0xC4 List.mem_cons_self
  exact absurd hplainC4.2 (by decide)

/-- Two letters merged without an entry are plain, and come back. -/
theorem byteFallback_iff_ab : ∃ tok ids,
    tokenizerLoadJson (byteRoot [] [.str (ascii "a b")]) = some tok ∧
    wordSymbols tok (ascii "ab") = [ascii "ab"] ∧ tok.vocab.lookup (ascii "ab") = none ∧
    decodeByteLevel tok (bpeEmitSymbol tok (ascii "ab")) = some (ascii "ab") ∧
    encodeByteLevel ⟨#[], #[], #[]⟩ tok (ascii "ab") = some ids ∧
    decodeByteLevel tok ids = some (ascii "ab") := by
  obtain ⟨tok, hload, htype, hvocab, hmerges, htable⟩ :=
    @byteRoot_load [] [.str (ascii "a b")] (by simp)
  rw [merge_ab] at hmerges
  obtain ⟨hdistinct, hexact⟩ := plain_exact hload htype hvocab htable
  have hsymbols : wordSymbols tok (ascii "ab") = [ascii "ab"] := by
    rw [wordSymbols_one hexact.toFallback hmerges _ (by decide)]
    decide +kernel
  have hplain : Plain (ascii "ab") := by
    intro c hc
    have hcases : c = 0x61 ∨ c = 0x62 := by simpa [ascii] using hc
    rcases hcases with rfl | rfl <;> decide
  have hmissing : tok.vocab.lookup (ascii "ab") = none :=
    plain_missing hvocab (.inr ⟨by decide, hplain⟩)
  obtain ⟨ids, hids⟩ := encodeByteLevel_some hexact ⟨#[], #[], #[]⟩ (ascii "ab") (by decide)
  have h := byteFallback_iff ⟨#[], #[], #[]⟩ _ tok hload htype (byteVocab_bytes hvocab htable)
  have hmem : ascii "ab" ∈ wordSymbols tok (ascii "ab") := hsymbols ▸ List.mem_cons_self
  refine ⟨tok, ids, hload, hsymbols, hmissing, ?_, hids, ?_⟩
  · obtain ⟨bs, hbs, hspelled⟩ := h.1 (ascii "ab") (ascii "ab") hmem
    have hsame : bs = ascii "ab" := by
      have hdec := congrArg (decodeToken ucBuildBytesToUnicode) hbs
      rw [htable, decodeToken_expand] at hdec
      exact hdec.symm.trans (by decide +kernel)
    exact hsame ▸ (hspelled hmissing).mpr (((h.2 hdistinct).1 _ _ hmem).mpr hplain)
  · refine ((h.2 hdistinct).2 _ ids hids).mpr fun words hwords w hw => ?_
    obtain rfl : words = [⟨0, 2⟩] := Option.some.inj (hwords.symm.trans (by decide))
    obtain rfl := List.mem_singleton.mp hw
    rw [show slice (ascii "ab") 0 (0 + 2) = ascii "ab" from rfl, MissingPlain, hsymbols]
    intro x hx _
    exact List.mem_singleton.mp hx ▸ hplain

end Mlxd.ByteLevel
