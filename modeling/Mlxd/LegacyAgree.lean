import Mlxd.LegacyDoc

/-!
# The two loaders agree

On a vocabulary and a merge list written in both formats the legacy loader gives the
tokenizer of the JSON loader, except for pairs whose line looks like a comment, known
special names whose id a later string takes over, and files above the size cap.
-/
namespace Mlxd.Legacy

open Mlxd.Unicode Mlxd.Json Mlxd.TokLoad Mlxd.BpeMerge Mlxd.ByteLevel Mlxd.Encode

/-! ## Encoding depends on the model only -/

/-- Two byte-level tokenizers with the same vocabulary, rules and fallback. -/
structure SameModel (a b : Tokenizer) : Prop where
  typeA : a.type = .bpe
  typeB : b.type = .bpe
  normA : a.normForm = .none
  normB : b.normForm = .none
  vocab : a.vocab = b.vocab
  merges : a.merges = b.merges
  unk : a.unkId = b.unkId
  fallback : a.byteFallbackIds = b.byteFallbackIds
  table : a.bytesUnicode = b.bytesUnicode

section Encoding

variable {a b : Tokenizer}

/-- The merge loop looks nothing up but merges. -/
theorem bpeRun_congr (h : SameModel a b) (input : Bytes) (fuel : Nat) :
    bpeRun a input fuel = bpeRun b input fuel := by
  have hpush : bpePushCand a input = bpePushCand b input := by
    funext s l r
    simp only [bpePushCand, h.merges]
  have happly : bpeApply a input = bpeApply b input := by
    funext c s
    simp only [bpeApply, pushNext, pushPrev, hpush]
  have hloop : ∀ s, bpeLoop a input fuel s = bpeLoop b input fuel s := by
    induction fuel with
    | zero => exact fun _ => rfl
    | succ fuel ih =>
      intro s
      simp only [bpeLoop, bpeStep, happly, funext ih]
  rw [bpeRun, bpeRun, hloop, seedHeap, seedHeap, hpush]

theorem bpeMerge_congr (h : SameModel a b) (input : Bytes) : bpeMerge a input = bpeMerge b input := by
  have hemit : bpeEmitSymbol a = bpeEmitSymbol b := by
    funext sym
    simp only [bpeEmitSymbol, h.vocab, h.fallback, h.unk]
  simp only [bpeMerge, h.typeA, h.typeB, bpeRun_congr h, hemit]

theorem encodeWords_congr (h : SameModel a b) (text : Bytes) (words : List Pretokenize.PretokSlice) :
    encodeWords a text words = encodeWords b text words := by
  induction words with
  | nil => rfl
  | cons w words ih => simp only [encodeWords, bpeMerge_congr h, h.table, ih]

/-- Without special tokens the ids depend on the model alone. -/
theorem encode_congr (h : SameModel a b) (T : UcTables) (iterate : StrMap → List (Bytes × Nat))
    (normalize : NormForm → Bytes → Option Bytes) (text : Bytes) :
    tokenizerEncodeAlloc T a iterate normalize text false =
      tokenizerEncodeAlloc T b iterate normalize text false := by
  have hseg : ∀ s, encodeSegment T a s = encodeSegment T b s := by
    intro s
    simp only [encodeSegment, h.typeA, h.typeB, encodeByteLevel, encodeWords_congr h]
  have hscan : scanLoop T a text (text.length + 1) 0 [] =
      scanLoop T b text (text.length + 1) 0 [] := by
    simp only [scanLoop, List.map_nil, List.foldl_nil, hseg]
  simp only [tokenizerEncodeAlloc, h.normA, h.normB, encodeAllocImpl, h.typeA, h.typeB,
    Bool.false_eq_true, ↓reduceIte, reduceCtorEq, hscan, ne_eq, not_true_eq_false, false_and]

end Encoding

/-! ## Merge rules -/

/-- The same pairs have a rank, and the ranks order them alike. -/
def SameRules (m m' : MergeMap) : Prop :=
  (∀ p, (m.lookup p).isSome = (m'.lookup p).isSome) ∧
    ∀ p q rp rq rp' rq', m.lookup p = some rp → m.lookup q = some rq → m'.lookup p = some rp' →
      m'.lookup q = some rq' → (rp < rq ↔ rp' < rq')

theorem SameRules.refl (m : MergeMap) : SameRules m m := by
  refine ⟨fun _ => rfl, fun p q rp rq rp' rq' h1 h2 h3 h4 => ?_⟩
  rw [Option.some.inj (h1.symm.trans h3), Option.some.inj (h2.symm.trans h4)]

theorem putMerges_congr (items items' : List Value)
    (h : items.map parseMergePair = items'.map parseMergePair) (m : MergeMap) (idx : Nat) :
    putMerges m idx items = putMerges m idx items' := by
  induction items generalizing items' m idx with
  | nil =>
    rw [List.map_eq_nil_iff.mp h.symm]
  | cons v items ih =>
    cases items' with
    | nil => simp at h
    | cons v' items' =>
      obtain ⟨hv, hrest⟩ := List.cons.inj h
      simp only [putMerges, hv]
      split <;> exact ih items' hrest _ _

theorem putMerges_lookup (items : List Value) (m : MergeMap) (idx : Nat) (p : Bytes × Bytes) :
    ((putMerges m idx items).lookup p).isSome ↔
      (m.lookup p).isSome ∨ some p ∈ items.map parseMergePair := by
  induction items generalizing m idx with
  | nil => simp [putMerges]
  | cons v items ih =>
    simp only [putMerges, List.map_cons, List.mem_cons]
    split
    · rename_i hv
      rw [ih, hv]
      simp
    · rename_i pair hv
      rw [ih, hv]
      by_cases hp : p = pair
      · subst hp
        simp
      · rw [AList.lookup_insert_ne hp]
        simp [hp]

theorem parseMergePair_pairLine {pair : Bytes × Bytes} (hl : MergeSymbol pair.1) :
    parseMergePair (.str (pairLine pair)) = some pair := by
  have hclean : ∀ c ∈ pair.1, decide (c ≠ 0x20) = true := by
    intro c hc
    simpa using (hl.clean c hc).1
  rw [parseMergePair, if_pos (by simp [pairLine]), pairLine,
    List.takeWhile_append_of_pos hclean, List.dropWhile_append_of_pos hclean]
  simp

/-! ## What a load makes of the vocabulary and the merges -/

/-- A byte-level tokenizer made of vocabulary entries and merge entries alone. -/
structure LoadedModel (tok : Tokenizer) (entries : List (Bytes × Nat)) (mergesVal : List Value) :
    Prop where
  type : tok.type = .bpe
  normForm : tok.normForm = .none
  vocab : tok.vocab = putVocab ∅ entries
  merges : tok.merges = putMerges ∅ 0 mergesVal
  unkId : tok.unkId = idOr ((putVocab ∅ entries).lookup (ascii "<unk>")) (-1)
  byteFallbackIds : tok.byteFallbackIds = byteFallback .bpe (putVocab ∅ entries)
  bytesUnicode : tok.bytesUnicode = ucBuildBytesToUnicode

theorem LoadedModel.same {a b : Tokenizer} {entries : List (Bytes × Nat)} {items items' : List Value}
    (ha : LoadedModel a entries items) (hb : LoadedModel b entries items')
    (h : items.map parseMergePair = items'.map parseMergePair) : SameModel a b where
  typeA := ha.type
  typeB := hb.type
  normA := ha.normForm
  normB := hb.normForm
  vocab := by rw [ha.vocab, hb.vocab]
  merges := by rw [ha.merges, hb.merges, putMerges_congr items items' h]
  unk := by rw [ha.unkId, hb.unkId]
  fallback := by rw [ha.byteFallbackIds, hb.byteFallbackIds]
  table := by rw [ha.bytesUnicode, hb.bytesUnicode]

theorem assemble_model (root : Value) (p : Parts) (htype : p.type = .bpe)
    (hnorm : p.norm.normForm = .none) (hvocab : p.maps.vocab = putVocab ∅ p.entries) :
    LoadedModel (assemble root p) p.entries p.mergesVal := by
  constructor <;>
    simp only [assemble, htype, hnorm, hvocab, reduceCtorEq, ↓reduceIte]

/-! ## The tokenizer.json of the same model -/

/-- A merges entry for a pair, in either form. -/
def PairEntry (pair : Bytes × Bytes) (v : Value) : Prop :=
  v = .str (pairLine pair) ∨ v = .arr [.str pair.1, .str pair.2]

/-- A byte-level BPE tokenizer.json with the vocabulary and the merge pairs, without
a normal form, whose added tokens are in the vocabulary. -/
structure JsonForm (root : Value) (members : List (Bytes × Value))
    (pairs : List (Bytes × Bytes)) : Prop where
  type : modelMember root (ascii "type") = some (.str (ascii "BPE"))
  byteLevel : ∃ pt, objGet (some root) (ascii "pre_tokenizer") = some pt ∧
    hasByteLevel pt = some true
  vocab : modelMember root (ascii "vocab") = some (.obj members)
  merges : ∃ items, modelMember root (ascii "merges") = some (.arr items) ∧
    List.Forall₂ PairEntry pairs items
  normalizer : ∀ n, normalizerOf root = some n → n.normForm = .none
  added : ∀ items added, jsonArrOrAbsent (objGet (some root) (ascii "added_tokens")) = some items →
    addedEntries items = some added → ∀ t ∈ added, ∃ v, (t.content, v) ∈ members

theorem parse_pairEntries {pairs : List (Bytes × Bytes)} {items : List Value}
    (h : List.Forall₂ PairEntry pairs items) (hp : ∀ p ∈ pairs, MergeSymbol p.1) :
    items.map parseMergePair = pairs.map some := by
  induction h with
  | nil => rfl
  | @cons p v pairs items hv _ ih =>
    rw [List.map_cons, List.map_cons, ih fun q hq => hp q (by simp [hq])]
    congr 1
    rcases hv with rfl | rfl
    · exact parseMergePair_pairLine (hp p (by simp))
    · rfl

theorem writable_pairEntries {pairs : List (Bytes × Bytes)} {items : List Value}
    (h : List.Forall₂ PairEntry pairs items) (hw : ∀ v ∈ items, writable v = true) :
    ∀ p ∈ pairs, isUtf8 (pairLine p) = true := by
  induction h with
  | nil => simp
  | @cons p v pairs items hv _ ih =>
    rw [List.forall_mem_cons] at hw ⊢
    refine ⟨?_, ih hw.2⟩
    rcases hv with rfl | rfl
    · simpa [writable] using hw.1
    · have hboth : isUtf8 p.1 = true ∧ isUtf8 p.2 = true := by
        simpa [writable, writableItems] using hw.1
      exact isUtf8_append _ (0x20 :: p.2) hboth.1 (isUtf8_append [0x20] _ (by decide) hboth.2)

/-! ## Agreement -/

/-- A load succeeded with the rules of the tokenizer, and encodes plain text as it does. -/
def Agrees (tokJ : Tokenizer) (loaded : Option Tokenizer) : Prop :=
  ∃ tok, loaded = some tok ∧ SameRules tok.merges tokJ.merges ∧
    ∀ (T : UcTables) (iterate : StrMap → List (Bytes × Nat))
      (normalize : NormForm → Bytes → Option Bytes) (text : Bytes),
      tokenizerEncodeAlloc T tok iterate normalize text false =
        tokenizerEncodeAlloc T tokJ iterate normalize text false

/-- What the JSON loader makes of the same model. -/
theorem load_jsonForm {root : Value} {members : List (Bytes × Value)}
    {pairs : List (Bytes × Bytes)} {tokJ : Tokenizer} (hj : JsonForm root members pairs)
    (hload : tokenizerLoadJson root = some tokJ) :
    ∃ entries items, vocabEntries members = some entries ∧
      modelMember root (ascii "merges") = some (.arr items) ∧ List.Forall₂ PairEntry pairs items ∧
      LoadedModel tokJ entries items := by
  obtain ⟨pt, hpt, hbl⟩ := hj.byteLevel
  obtain ⟨items, hitems, hpairs⟩ := hj.merges
  have hclassify := classify_byteLevel hpt hbl
  obtain ⟨p, hp, rfl⟩ := Option.map_eq_some_iff.mp hload
  simp only [loadParts, modelVocab, hj.vocab, hitems, hj.type, getStr, hclassify,
    jsonArrOrAbsent, Option.bind_eq_bind, Option.bind_eq_some_iff, Option.pure_def,
    Option.some.injEq, exists_eq_left'] at hp
  obtain ⟨entries, he, norm, hnorm, addedVal, haddedVal, added, hadded, maps, hmaps, table, -,
    rfl⟩ := hp
  have hvocab : maps.vocab = putVocab ∅ entries := by
    refine foldAdded_present added _ maps (fun t ht => ?_) hmaps
    obtain ⟨v, hv⟩ := hj.added _ _ haddedVal hadded t ht
    have hkey : t.content ∈ entries.map Prod.fst := by
      rw [vocabEntries_keys he]
      exact List.mem_map_of_mem hv
    obtain ⟨e, he', hk⟩ := List.mem_map.mp hkey
    exact putVocab_isSome entries ∅ _ (.inl ⟨e.2, by rw [← hk]; exact he'⟩)
  exact ⟨entries, items, he, hitems, hpairs,
    assemble_model root _ rfl (hj.normalizer norm hnorm) hvocab⟩

/-- The legacy loader on a vocabulary with distinct keys. -/
theorem load_legacy {members : List (Bytes × Value)} {entries : List (Bytes × Nat)}
    {mergesTxt : Bytes} (h : vocabEntries members = some entries)
    (hd : (entries.map Prod.fst).Nodup)
    (hw : writable (legacyRoot (.obj members) mergesTxt) = true) (size : Nat) :
    ((∃ tok, tokenizerLoadDirLegacy (some ⟨size, some (.obj members)⟩) (some mergesTxt) = some tok) ↔
      size ≤ MLXD_TOK_MAX_FILE ∧ mergesTxt.length ≤ MLXD_TOK_MAX_FILE ∧ NamesKept entries) ∧
    ∀ tok, tokenizerLoadDirLegacy (some ⟨size, some (.obj members)⟩) (some mergesTxt) = some tok →
      LoadedModel tok entries (mergeEntries mergesTxt) := by
  obtain ⟨maps, hmaps, hparts⟩ := loadParts_legacyRoot h hd mergesTxt
  rw [tokenizerLoadDirLegacy, readJson, readFile]
  by_cases hsize : MLXD_TOK_MAX_FILE < size
  · simp [hsize]
  by_cases hlen : MLXD_TOK_MAX_FILE < mergesTxt.length
  · simp [hsize, hlen]
  simp only [hsize, hlen, yyjsonMutWrite, hw, ↓reduceIte, Option.bind_eq_bind, Option.bind_some,
    tokenizerLoadJson, hparts, Nat.le_of_not_lt hsize, Nat.le_of_not_lt hlen, true_and,
    ← namesKept_iff]
  cases hfill : fillAdded (legacyAdded entries knownNames) (fillVocab (fun _ => none) entries) with
  | none => simp
  | some table =>
    refine ⟨by simp, fun tok htok => ?_⟩
    rw [← Option.some.inj htok]
    exact assemble_model _ _ rfl rfl hmaps

theorem writable_modelMember {root : Value} (h : writable root = true) (key : Bytes) (v : Value)
    (hv : modelMember root key = some v) : writable v = true := by
  rw [modelMember] at hv
  cases hm : objGet (some root) (ascii "model") with
  | none =>
    rw [hm] at hv
    simp [objGet] at hv
  | some model =>
    rw [hm] at hv
    exact writable_objGet model (writable_objGet root h _ _ hm) _ _ hv

/-- The legacy loader agrees with the JSON loader exactly when the files are within the
size cap, no id of a known special name is taken over, and no merge line starts with `#`. -/
theorem legacy_agrees_iff (root : Value) (members : List (Bytes × Value))
    (pairs : List (Bytes × Bytes)) (entries : List (Bytes × Nat)) (tokJ : Tokenizer) (size : Nat)
    (header : List Bytes) (hj : JsonForm root members pairs) (hw : writable root = true)
    (hload : tokenizerLoadJson root = some tokJ) (hentries : vocabEntries members = some entries)
    (hd : (members.map Prod.fst).Nodup)
    (hheader : ∀ l ∈ header, l.head? = some 0x23 ∧ (0x0A : UInt8) ∉ l)
    (hsymbols : ∀ p ∈ pairs, MergeSymbol p.1 ∧ MergeSymbol p.2) :
    Agrees tokJ (tokenizerLoadDirLegacy (some ⟨size, some (.obj members)⟩)
        (some (writeMerges header pairs))) ↔
      size ≤ MLXD_TOK_MAX_FILE ∧ (writeMerges header pairs).length ≤ MLXD_TOK_MAX_FILE ∧
        NamesKept entries ∧ ∀ p ∈ pairs, startsComment p = false := by
  obtain ⟨entries', items, he, hitems, hpairs, hmodelJ⟩ := load_jsonForm hj hload
  obtain rfl := Option.some.inj (he.symm.trans hentries)
  have hparsed := parse_pairEntries hpairs fun p hp => (hsymbols p hp).1
  have hlines := mergeEntries_write header pairs hheader hsymbols
  have hparsedL : (mergeEntries (writeMerges header pairs)).map parseMergePair =
      (pairs.filter fun p => !startsComment p).map some := by
    rw [hlines, List.map_map]
    refine List.map_congr_left fun p hp => ?_
    exact parseMergePair_pairLine (hsymbols p (List.mem_filter.mp hp).1).1
  have hwrite : writable (legacyRoot (.obj members) (writeMerges header pairs)) = true := by
    have hitemsW : ∀ v ∈ items, writable v = true :=
      (writableItems_iff items).mp (by simpa [writable] using writable_modelMember hw _ _ hitems)
    refine writable_legacyRoot _ _ (writable_modelMember hw _ _ hj.vocab) fun v hv => ?_
    rw [hlines] at hv
    obtain ⟨p, hp, rfl⟩ := List.mem_map.mp hv
    simpa [writable] using writable_pairEntries hpairs hitemsW p (List.mem_filter.mp hp).1
  obtain ⟨hloads, hmodel⟩ := load_legacy he (by rwa [vocabEntries_keys he]) hwrite size
  constructor
  · rintro ⟨tok, htok, ⟨hpresent, -⟩, -⟩
    obtain ⟨hsize, hlen, hkept⟩ := hloads.mp ⟨tok, htok⟩
    refine ⟨hsize, hlen, hkept, fun p hp => ?_⟩
    have hJ : (tokJ.merges.lookup p).isSome := by
      rw [hmodelJ.merges, putMerges_lookup, hparsed]
      exact .inr (List.mem_map_of_mem hp)
    rw [← hpresent, (hmodel tok htok).merges, putMerges_lookup, hparsedL] at hJ
    simpa [hp] using hJ
  · rintro ⟨hsize, hlen, hkept, hcomment⟩
    obtain ⟨tok, htok⟩ := hloads.mpr ⟨hsize, hlen, hkept⟩
    have hfilter : (pairs.filter fun p => !startsComment p) = pairs :=
      List.filter_eq_self.mpr fun p hp => by rw [hcomment p hp, Bool.not_false]
    have hsame : SameModel tok tokJ :=
      (hmodel tok htok).same hmodelJ (by rw [hparsedL, hfilter, hparsed])
    exact ⟨tok, htok, hsame.merges ▸ SameRules.refl _, encode_congr hsame⟩

/-! ## Plain documents -/

/-- A tokenizer.json with a vocabulary and merges only. -/
def plainRoot (members : List (Bytes × Value)) (mergesVal : List Value) : Value := .obj [
  (ascii "pre_tokenizer", .obj [(ascii "type", .str (ascii "ByteLevel"))]),
  (ascii "model", .obj [(ascii "type", .str (ascii "BPE")), (ascii "vocab", .obj members),
    (ascii "merges", .arr mergesVal)])]

def plainTok (members : List (Bytes × Value)) (entries : List (Bytes × Nat))
    (mergesVal : List Value) : Tokenizer :=
  assemble (plainRoot members mergesVal) ⟨.bpe, ⟨.none, false⟩, entries, [],
    ⟨putVocab ∅ entries, ∅, ∅⟩, fillVocab (fun _ => none) entries, mergesVal⟩

theorem plainRoot_form (members : List (Bytes × Value)) (pairs : List (Bytes × Bytes)) :
    JsonForm (plainRoot members (pairs.map fun p => .str (pairLine p))) members pairs where
  type := rfl
  byteLevel := ⟨_, rfl, hasByteLevel_type⟩
  vocab := rfl
  merges := ⟨_, rfl, List.forall₂_map_right_iff.mpr (List.forall₂_same.mpr fun _ _ => .inl rfl)⟩
  normalizer := by
    intro n hn
    rw [← Option.some.inj hn]
  added := by
    intro items added hitems hadded t ht
    obtain rfl : [] = items := Option.some.inj hitems
    obtain rfl : [] = added := Option.some.inj hadded
    exact absurd ht List.not_mem_nil

theorem plainRoot_load {members : List (Bytes × Value)} {entries : List (Bytes × Nat)}
    (h : vocabEntries members = some entries) (mergesVal : List Value) :
    tokenizerLoadJson (plainRoot members mergesVal) = some (plainTok members entries mergesVal) := by
  have htype : getStr (modelMember (plainRoot members mergesVal) (ascii "type")) =
      some (ascii "BPE") := rfl
  have hentries : modelVocab (plainRoot members mergesVal) = some entries := h
  have hmerges : jsonArrOrAbsent (modelMember (plainRoot members mergesVal) (ascii "merges")) =
      some mergesVal := rfl
  have hnorm : normalizerOf (plainRoot members mergesVal) = some ⟨.none, false⟩ := rfl
  have hadded : jsonArrOrAbsent (objGet (some (plainRoot members mergesVal))
      (ascii "added_tokens")) = some [] := rfl
  have hclassify : classify (plainRoot members mergesVal) (ascii "BPE") = some .bpe :=
    classify_byteLevel rfl hasByteLevel_type
  simp only [tokenizerLoadJson, loadParts, hentries, htype, hmerges, hnorm, hadded, hclassify,
    addedEntries, foldAdded, fillAdded, Option.bind_eq_bind, Option.bind_some, Option.pure_def,
    Option.map_some, plainTok]

/-- Two letters, and the pair of them. -/
def lettersEntries : List (Bytes × Nat) := [(ascii "a", 0), (ascii "b", 1), (ascii "ab", 2)]

/-- Two hash signs make a merge whose line looks like a comment. -/
def hashEntries : List (Bytes × Nat) := [(ascii "#", 0), (ascii "##", 1)]

def membersOf (entries : List (Bytes × Nat)) : List (Bytes × Value) :=
  entries.map fun e => (e.1, .int e.2)

def hashPairs : List (Bytes × Bytes) := [(ascii "#", ascii "#")]

def versionLine : Bytes := ascii "#version: 0.2"

theorem namesKept_letters : NamesKept lettersEntries :=
  (namesKept_iff lettersEntries).mp (by decide)

theorem namesKept_hash : NamesKept hashEntries :=
  (namesKept_iff hashEntries).mp (by decide)

/-- The merge of two hash signs is read from the JSON and lost from the text file. -/
theorem legacy_comment_pair_lost : ∃ tokJ tokL,
    JsonForm (plainRoot (membersOf hashEntries) (hashPairs.map fun p => .str (pairLine p)))
      (membersOf hashEntries) hashPairs ∧
    tokenizerLoadJson (plainRoot (membersOf hashEntries)
      (hashPairs.map fun p => .str (pairLine p))) = some tokJ ∧
    tokenizerLoadDirLegacy (some ⟨16, some (.obj (membersOf hashEntries))⟩)
      (some (writeMerges [versionLine] hashPairs)) = some tokL ∧
    ¬ SameRules tokL.merges tokJ.merges ∧
    tokenizerEncodeAlloc ⟨#[], #[], #[]⟩ tokJ (fun _ => []) (fun _ _ => none) (ascii "##") false =
      some [1] ∧
    tokenizerEncodeAlloc ⟨#[], #[], #[]⟩ tokL (fun _ => []) (fun _ _ => none) (ascii "##") false =
      some [0, 0] := by
  have hentries : vocabEntries (membersOf hashEntries) = some hashEntries := by decide
  have hlines : mergeEntries (writeMerges [versionLine] hashPairs) = [] :=
    List.eq_nil_of_length_eq_zero (by decide)
  have hw : writable (legacyRoot (.obj (membersOf hashEntries))
      (writeMerges [versionLine] hashPairs)) = true := by
    refine writable_legacyRoot _ _ (by decide) fun v hv => ?_
    rw [hlines] at hv
    exact absurd hv List.not_mem_nil
  obtain ⟨hloads, hmodel⟩ := load_legacy hentries (by decide) hw 16
  obtain ⟨tokL, hL⟩ := hloads.mpr ⟨by decide, by decide, namesKept_hash⟩
  have hmodelL := hmodel tokL hL
  rw [hlines] at hmodelL
  have hplain : LoadedModel (plainTok (membersOf hashEntries) hashEntries []) hashEntries [] :=
    assemble_model _ _ rfl rfl rfl
  refine ⟨_, tokL, plainRoot_form _ _, plainRoot_load hentries _, hL, ?_, by decide +kernel, ?_⟩
  · rintro ⟨hpresent, -⟩
    have h := hpresent (ascii "#", ascii "#")
    rw [hmodelL.merges] at h
    revert h
    decide
  · rw [encode_congr (hmodelL.same hplain rfl)]
    decide +kernel

/-- Both loaders agree on a merge of two letters. -/
theorem legacy_agrees_letters : ∃ tokJ,
    tokenizerLoadJson (plainRoot (membersOf lettersEntries)
      ([(ascii "a", ascii "b")].map fun p => .str (pairLine p))) = some tokJ ∧
    Agrees tokJ (tokenizerLoadDirLegacy (some ⟨22, some (.obj (membersOf lettersEntries))⟩)
      (some (writeMerges [versionLine] [(ascii "a", ascii "b")]))) := by
  have hentries : vocabEntries (membersOf lettersEntries) = some lettersEntries := by decide
  refine ⟨_, plainRoot_load hentries _, ?_⟩
  refine (legacy_agrees_iff _ _ _ lettersEntries _ 22 [versionLine] (plainRoot_form _ _) (by decide)
    (plainRoot_load hentries _) hentries (by decide) ?_ ?_).mpr
    ⟨by decide, by decide, namesKept_letters, by decide⟩
  · intro l hl
    rw [List.mem_singleton.mp hl]
    exact ⟨by decide, by decide⟩
  · intro p hp
    rw [List.mem_singleton.mp hp]
    change MergeSymbol [0x61] ∧ MergeSymbol [0x62]
    exact ⟨mergeSymbol_byte (by decide), mergeSymbol_byte (by decide)⟩

end Mlxd.Legacy
