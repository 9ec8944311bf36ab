import Mlxd.Legacy

/-!
# The document of the legacy loader

What the JSON loader does with the document made of `vocab.json` and `merges.txt`: it
fails only when a known special name lost its id to a later string, and the document can
be written whenever its parts can.
-/
namespace Mlxd.Legacy

open Mlxd.Unicode Mlxd.Json Mlxd.TokLoad

/-! ## The legacy document -/

/-- The last string under the id of a known special name is that name. -/
def NamesKept (entries : List (Bytes × Nat)) : Prop :=
  ∀ name ∈ knownNames, ∀ id, entries.lookup name = some id →
    (lastHolder entries id).map cstr = some name

/-- The added tokens the legacy document gets. -/
def legacyAdded (entries : List (Bytes × Nat)) (names : List Bytes) : List AddedToken :=
  names.filterMap fun name => (entries.lookup name).map fun id => ⟨name, id, true⟩

theorem mem_legacyAdded {entries : List (Bytes × Nat)} {names : List Bytes} {t : AddedToken} :
    t ∈ legacyAdded entries names ↔
      ∃ name ∈ names, ∃ id, entries.lookup name = some id ∧ t = ⟨name, id, true⟩ := by
  simp only [legacyAdded, List.mem_filterMap, Option.map_eq_some_iff]
  constructor
  · rintro ⟨name, hn, id, hid, rfl⟩
    exact ⟨name, hn, id, hid, rfl⟩
  · rintro ⟨name, hn, id, hid, rfl⟩
    exact ⟨name, hn, id, hid, rfl⟩

theorem addedEntries_cons {name : Bytes} {id : Nat} (hne : name ≠ []) (hle : (id : Int) ≤ MLXD_TOK_MAX_ID)
    (rest : List Value) : addedEntries (.obj [(ascii "id", .int id),
        (ascii "content", .str name), (ascii "special", .bool true)] :: rest) =
      (addedEntries rest).map (⟨name, id, true⟩ :: ·) := by
  obtain ⟨c, s, rfl⟩ := List.exists_cons_of_ne_nil hne
  have hcontent : ∀ v, getStr (objGet (some (.obj [(ascii "id", .int id), (ascii "content", .str v),
      (ascii "special", .bool true)])) (ascii "content")) = some v := fun v => rfl
  have hid : validId (objGet (some (.obj [(ascii "id", .int id), (ascii "content", .str (c :: s)),
      (ascii "special", .bool true)])) (ascii "id")) = some id := by
    change validId (some (.int id)) = some id
    rw [validId, if_pos ⟨Int.natCast_nonneg id, hle⟩, Int.toNat_natCast]
  simp only [addedEntries, hcontent, hid]
  cases addedEntries rest <;> rfl

theorem addedEntries_legacy {members : List (Bytes × Value)} {entries : List (Bytes × Nat)}
    (h : vocabEntries members = some entries) (names : List Bytes) (hn : [] ∉ names) :
    addedEntries (names.filterMap (specialEntry (.obj members))) =
      some (legacyAdded entries names) := by
  induction names with
  | nil => rfl
  | cons name names ih =>
    obtain ⟨hne, hn⟩ := not_or.mp (mt List.mem_cons.mpr hn)
    rcases vocabEntries_lookup h name with ⟨id, hle, hm, he⟩ | ⟨hm, he⟩
    · have hentry : specialEntry (.obj members) name = some (.obj [(ascii "id", .int id),
          (ascii "content", .str name), (ascii "special", .bool true)]) := by
        simp only [specialEntry, objGet, hm]
      rw [List.filterMap_cons_some hentry, addedEntries_cons (Ne.symm hne) hle, ih hn, legacyAdded, legacyAdded,
        List.filterMap_cons_some (by rw [he, Option.map_some]), Option.map_some]
    · rw [List.filterMap_cons_none (by simp only [specialEntry, objGet, hm]), ih hn, legacyAdded,
        legacyAdded, List.filterMap_cons_none (by rw [he, Option.map_none])]

theorem knownNames_nonempty : [] ∉ knownNames := by decide

theorem knownNames_cstr : ∀ name ∈ knownNames, cstr name = name := by decide

theorem legacyRoot_classify (vocabDoc : Value) (mergesTxt : Bytes) :
    classify (legacyRoot vocabDoc mergesTxt) (ascii "BPE") = some .bpe :=
  classify_byteLevel rfl hasByteLevel_type

/-- What the loader makes of the legacy document. -/
theorem loadParts_legacyRoot {members : List (Bytes × Value)} {entries : List (Bytes × Nat)}
    (h : vocabEntries members = some entries) (hd : (entries.map Prod.fst).Nodup)
    (mergesTxt : Bytes) : ∃ maps : AddedState, maps.vocab = putVocab ∅ entries ∧
      loadParts (legacyRoot (.obj members) mergesTxt) =
        (fillAdded (legacyAdded entries knownNames) (fillVocab (fun _ => none) entries)).map
          fun table => ⟨.bpe, ⟨.none, false⟩, entries, legacyAdded entries knownNames, maps, table,
            mergeEntries mergesTxt⟩ := by
  have hlookup : ∀ t ∈ legacyAdded entries knownNames,
      (putVocab ∅ entries).lookup t.content = some t.id := by
    intro t ht
    obtain ⟨name, -, id, hid, rfl⟩ := mem_legacyAdded.mp ht
    exact putVocab_of_mem entries hd name id (mem_of_lookup hid)
  obtain ⟨maps, hmaps, hvocab⟩ := foldAdded_same (legacyAdded entries knownNames)
    ⟨putVocab ∅ entries, ∅, ∅⟩ hlookup
  have htype : getStr (modelMember (legacyRoot (.obj members) mergesTxt) (ascii "type")) =
      some (ascii "BPE") := rfl
  have hentries : modelVocab (legacyRoot (.obj members) mergesTxt) = some entries := h
  have hmerges : jsonArrOrAbsent (modelMember (legacyRoot (.obj members) mergesTxt)
      (ascii "merges")) = some (mergeEntries mergesTxt) := rfl
  have hnorm : normalizerOf (legacyRoot (.obj members) mergesTxt) = some ⟨.none, false⟩ := rfl
  have hadded : jsonArrOrAbsent (objGet (some (legacyRoot (.obj members) mergesTxt))
      (ascii "added_tokens")) =
      some (knownNames.filterMap (specialEntry (.obj members))) := rfl
  refine ⟨maps, hvocab, ?_⟩
  simp only [loadParts, hentries, htype, hmerges, hnorm, hadded, legacyRoot_classify,
    addedEntries_legacy h knownNames knownNames_nonempty, hmaps, Option.bind_eq_bind,
    Option.bind_some, Option.pure_def]
  cases fillAdded (legacyAdded entries knownNames) (fillVocab (fun _ => none) entries) <;> rfl

theorem namesKept_iff (entries : List (Bytes × Nat)) :
    (fillAdded (legacyAdded entries knownNames) (fillVocab (fun _ => none) entries)).isSome ↔
      NamesKept entries := by
  have hfill : ∀ id, fillVocab (fun _ => none) entries id = lastHolder entries id := by
    intro id
    rw [fillVocab_lastHolder, Option.or_none]
  rw [fillAdded_isSome]
  · constructor
    · intro h name hn id hid
      have ht := h ⟨name, id, true⟩ (mem_legacyAdded.mpr ⟨name, hn, id, hid, rfl⟩)
      rwa [hfill, knownNames_cstr name hn] at ht
    · intro h t ht
      obtain ⟨name, hn, id, hid, rfl⟩ := mem_legacyAdded.mp ht
      rw [hfill, knownNames_cstr name hn]
      exact h name hn id hid
  · intro t ht
    obtain ⟨name, -, id, hid, rfl⟩ := mem_legacyAdded.mp ht
    rw [hfill, lastHolder, Option.isSome_map, List.find?_isSome]
    exact ⟨(name, id), List.mem_reverse.mpr (mem_of_lookup hid), by simp⟩

/-! ## The written document -/

theorem writableItems_iff (items : List Value) :
    writableItems items = true ↔ ∀ v ∈ items, writable v = true := by
  induction items with
  | nil => simp [writableItems]
  | cons v items ih => simp [writableItems, ih]

theorem knownNames_utf8 : ∀ name ∈ knownNames, isUtf8 name = true := by decide

theorem writable_specialEntry (vocabDoc : Value) (name : Bytes) (hn : name ∈ knownNames) (v : Value)
    (h : specialEntry vocabDoc name = some v) : writable v = true := by
  have hkeys : isUtf8 (ascii "id") = true ∧ isUtf8 (ascii "content") = true ∧
      isUtf8 (ascii "special") = true := by decide
  simp only [specialEntry] at h
  split at h
  · rw [← Option.some.inj h]
    simp [writable, writableMembers, hkeys, knownNames_utf8 name hn]
  · contradiction

/-- The legacy document can be written when the vocabulary and the merges can. -/
theorem writable_legacyRoot (vocabDoc : Value) (mergesTxt : Bytes)
    (hv : writable vocabDoc = true) (hm : ∀ v ∈ mergeEntries mergesTxt, writable v = true) :
    writable (legacyRoot vocabDoc mergesTxt) = true := by
  have hkeys : isUtf8 (ascii "pre_tokenizer") = true ∧ isUtf8 (ascii "type") = true ∧
      isUtf8 (ascii "ByteLevel") = true ∧ isUtf8 (ascii "model") = true ∧
      isUtf8 (ascii "BPE") = true ∧ isUtf8 (ascii "vocab") = true ∧
      isUtf8 (ascii "merges") = true ∧ isUtf8 (ascii "added_tokens") = true := by decide
  have hadded : writableItems (knownNames.filterMap (specialEntry vocabDoc)) = true := by
    rw [writableItems_iff]
    intro v hv
    obtain ⟨name, hn, h⟩ := List.mem_filterMap.mp hv
    exact writable_specialEntry vocabDoc name hn v h
  simp only [legacyRoot, writable, writableMembers, hkeys, hv, hadded,
    (writableItems_iff _).mpr hm, Bool.and_self]

end Mlxd.Legacy
