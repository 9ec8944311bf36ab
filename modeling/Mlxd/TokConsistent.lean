import Mlxd.SpecialScan
import Mlxd.TokTables

/-!
# A loaded tokenizer is consistent

Every added token has one id in the added tokens, the vocabulary and the id table; every id
the maps, the resolved names and the byte fallback hold is in the table; so every id an
encoder gives decodes.
-/
namespace Mlxd.TokLoad

open Mlxd.Unicode Mlxd.Json

/-! ## The maps -/

section Fold

variable {st st' : AddedState} {added : List AddedToken}

/-- What the vocabulary holds stays. -/
theorem foldAdded_vocab (h : foldAdded added st = some st') {k : Bytes} {id : Nat}
    (hk : st.vocab.lookup k = some id) : st'.vocab.lookup k = some id := by
  induction added generalizing st with
  | nil => rwa [← Option.some.inj h]
  | cons a rest ih =>
    simp only [foldAdded] at h
    cases ha : st.vocab.lookup a.content with
    | none =>
      simp only [ha] at h
      have hne : k ≠ a.content := by
        rintro rfl
        rw [ha] at hk
        contradiction
      refine ih h ?_
      simp only [AList.lookup_insert_ne hne, hk]
    | some id' =>
      simp only [ha] at h
      split at h
      · exact ih h hk
      · contradiction

/-- The added tokens agree with the vocabulary. -/
def Agree (st : AddedState) : Prop :=
  ∀ c i, st.specialTokens.lookup c = some i → st.vocab.lookup c = some i

/-- One added token that passes: the state the rest is folded into. -/
theorem foldAdded_cons {a : AddedToken} {rest : List AddedToken}
    (h : foldAdded (a :: rest) st = some st') (hagree : Agree st) : ∃ mid : AddedState,
      foldAdded rest mid = some st' ∧ Agree mid ∧
      mid.specialTokens.lookup a.content = some a.id ∧
      ∀ c, c ≠ a.content → mid.specialTokens.lookup c = st.specialTokens.lookup c := by
  simp only [foldAdded] at h
  cases ha : st.vocab.lookup a.content with
  | none =>
    simp only [ha] at h
    refine ⟨_, h, fun c i hc => ?_, by simp, fun c hc => by simp [AList.lookup_insert_ne hc]⟩
    by_cases hca : c = a.content
    · subst hca
      simp only [AList.lookup_insert] at hc ⊢
      exact hc
    · simp only [AList.lookup_insert_ne hca] at hc ⊢
      exact hagree c i hc
  | some id' =>
    simp only [ha] at h
    split at h
    · rename_i hsame
      refine ⟨_, h, fun c i hc => ?_, by simp, fun c hc => by simp [AList.lookup_insert_ne hc]⟩
      by_cases hca : c = a.content
      · subst hca
        simp only [AList.lookup_insert, Option.some.injEq] at hc
        rw [← hc, ← hsame]
        exact ha
      · simp only [AList.lookup_insert_ne hca] at hc
        exact hagree c i hc
    · contradiction

/-- An added token keeps its id, and the vocabulary has the same one. -/
theorem foldAdded_agree (h : foldAdded added st = some st') (hagree : Agree st) :
    Agree st' ∧ (∀ c i, st.specialTokens.lookup c = some i → st'.specialTokens.lookup c = some i) ∧
      ∀ a ∈ added, st'.specialTokens.lookup a.content = some a.id := by
  induction added generalizing st with
  | nil =>
    obtain rfl := Option.some.inj h
    exact ⟨hagree, fun _ _ hc => hc, fun a ha => absurd ha List.not_mem_nil⟩
  | cons a rest ih =>
    obtain ⟨mid, hmid, hagree', hself, hother⟩ := foldAdded_cons h hagree
    obtain ⟨hfinal, hkeep, hrest⟩ := ih hmid hagree'
    refine ⟨hfinal, fun c i hc => ?_, fun b hb => ?_⟩
    · by_cases hca : c = a.content
      · subst hca
        have hvocab := hfinal _ _ (hkeep _ _ hself)
        have hold : st'.vocab.lookup a.content = some i := foldAdded_vocab h (hagree _ _ hc)
        rw [hvocab] at hold
        rw [← hold]
        exact hkeep _ _ hself
      · exact hkeep c i ((hother c hca).trans hc)
    · rcases List.mem_cons.mp hb with rfl | hb
      · exact hkeep _ _ hself
      · exact hrest b hb

end Fold

/-! ## The id table -/

/-- Without NULs an added token keeps its very string. -/
theorem fillAdded_exact {added : List AddedToken} {table table' : Nat → Option Bytes}
    (hnul : ∀ a ∈ added, (0 : UInt8) ∉ a.content) (h : fillAdded added table = some table')
    {id : Nat} {s : Bytes} (hs : table id = some s) (hs0 : (0 : UInt8) ∉ s) :
    table' id = some s := by
  induction added generalizing table with
  | nil => rwa [← Option.some.inj h]
  | cons a rest ih =>
    have hnul' : ∀ b ∈ rest, (0 : UInt8) ∉ b.content := fun b hb => hnul b (by simp [hb])
    simp only [fillAdded] at h
    by_cases hid : id = a.id
    · subst hid
      simp only [hs] at h
      split at h
      · rename_i hc
        rw [cstr_of_not_mem _ hs0, cstr_of_not_mem _ (hnul a (by simp))] at hc
        exact ih hnul' h (by simp [hc])
      · contradiction
    · have hkeep : Function.update table a.id (some a.content) id = some s := by
        rw [Function.update_of_ne hid]
        exact hs
      split at h
      · split at h
        · exact ih hnul' h hkeep
        · contradiction
      · exact ih hnul' h hkeep

theorem fillAdded_content {added : List AddedToken} {table table' : Nat → Option Bytes}
    (hnul : ∀ a ∈ added, (0 : UInt8) ∉ a.content) (h : fillAdded added table = some table')
    {a : AddedToken} (ha : a ∈ added) : table' a.id = some a.content := by
  induction added generalizing table with
  | nil => simp at ha
  | cons b rest ih =>
    have hnul' : ∀ b ∈ rest, (0 : UInt8) ∉ b.content := fun b hb => hnul b (by simp [hb])
    have hrest : fillAdded rest (Function.update table b.id (some b.content)) = some table' := by
      simp only [fillAdded] at h
      split at h
      · split at h
        · exact h
        · contradiction
      · exact h
    rcases List.mem_cons.mp ha with rfl | ha
    · exact fillAdded_exact hnul' hrest (by simp) (hnul a (by simp))
    · exact ih hnul' hrest ha

/-- Every id of the document has a string. -/
theorem fillVocab_isSome {entries : List (Bytes × Nat)} {table : Nat → Option Bytes} {id : Nat}
    (h : (∃ k, (k, id) ∈ entries) ∨ (table id).isSome) : (fillVocab table entries id).isSome := by
  induction entries generalizing table with
  | nil => exact h.elim (fun ⟨_, h⟩ => absurd h List.not_mem_nil) fun h => h
  | cons e rest ih =>
    obtain ⟨k', id'⟩ := e
    refine ih ?_
    by_cases hid : id = id'
    · subst hid
      exact .inr (by simp)
    · rw [Function.update_of_ne hid]
      rcases h with ⟨k, h⟩ | h
      · rcases List.mem_cons.mp h with h | h
        · exact absurd (Prod.mk.inj h).2 hid
        · exact .inl ⟨k, h⟩
      · exact .inr h

/-! ## Loaded tokenizers -/

/-- The id has a token string. -/
def Decodes (tok : Tokenizer) (id : Int) : Prop := (tokenizerDecodeToken tok id).isSome

/-- The vocabulary holds the id. -/
def Held (tok : Tokenizer) (id : Int) : Prop := ∃ k i, tok.vocab.lookup k = some i ∧ id = (i : Int)

/-- A tokenizer read from a document, with the overrides of an optional config. -/
def Loaded (root : Value) (config : Option Value) (tok : Tokenizer) : Prop :=
  ∃ base, tokenizerLoadJson root = some base ∧ tok = applyConfigOverrides base config

/-- What the tables of a loaded tokenizer have to do with each other. -/
structure Sound (tok : Tokenizer) : Prop where
  agree : ∀ c i, tok.specialTokens.lookup c = some i → tok.vocab.lookup c = some i
  decodes : ∀ k i, tok.vocab.lookup k = some i → Decodes tok i
  bos : tok.bosId = -1 ∨ Held tok tok.bosId
  eos : tok.eosId = -1 ∨ Held tok tok.eosId
  unk : tok.unkId = -1 ∨ Held tok tok.unkId
  fallback : ∀ b, tok.byteFallbackIds b = -1 ∨ Held tok (tok.byteFallbackIds b)

theorem Sound.held {tok : Tokenizer} (h : Sound tok) {id : Int} (hid : Held tok id) : Decodes tok id := by
  obtain ⟨k, i, hk, rfl⟩ := hid
  exact h.decodes k i hk

section Resolve

variable {tok : Tokenizer} {id : Int}

theorem held_of_lookup {k : Bytes} {i : Nat} (h : tok.vocab.lookup k = some i) :
    Held tok i := ⟨k, i, h, rfl⟩

theorem idOr_held (k : Bytes) : idOr (tok.vocab.lookup k) (-1) = -1 ∨
    Held tok (idOr (tok.vocab.lookup k) (-1)) := by
  cases hk : tok.vocab.lookup k with
  | none => exact .inl rfl
  | some i => exact .inr (held_of_lookup hk)

theorem resolveTokenName_held
    (hagree : ∀ c i, tok.specialTokens.lookup c = some i → tok.vocab.lookup c = some i)
    (name : Bytes) : resolveTokenName tok.specialTokens tok.vocab name = -1 ∨
      Held tok (resolveTokenName tok.specialTokens tok.vocab name) := by
  simp only [resolveTokenName]
  cases hs : tok.specialTokens.lookup name with
  | some i => exact .inr (held_of_lookup (hagree name i hs))
  | none =>
    cases hv : tok.vocab.lookup name with
    | some i => exact .inr (held_of_lookup hv)
    | none => exact .inl rfl

theorem resolveFirst_held
    (hagree : ∀ c i, tok.specialTokens.lookup c = some i → tok.vocab.lookup c = some i)
    (names : List Bytes) : resolveFirst tok.specialTokens tok.vocab names = -1 ∨
      Held tok (resolveFirst tok.specialTokens tok.vocab names) := by
  induction names with
  | nil => exact .inl rfl
  | cons name rest ih =>
    simp only [resolveFirst]
    split
    · exact resolveTokenName_held hagree name
    · exact ih

theorem resolveWrap_held
    (hagree : ∀ c i, tok.specialTokens.lookup c = some i → tok.vocab.lookup c = some i)
    (type : TokenizerType) (own : Bytes) (names : List Bytes) :
    resolveWrap type tok.specialTokens tok.vocab own names = -1 ∨
      Held tok (resolveWrap type tok.specialTokens tok.vocab own names) := by
  have hown : ∀ i, i = (if type = .wordpiece then
      resolveTokenName tok.specialTokens tok.vocab own else -1) → i = -1 ∨ Held tok i := by
    rintro i rfl
    split
    · exact resolveTokenName_held hagree own
    · exact .inl rfl
  simp only [resolveWrap]
  by_cases hneg : (if type = .wordpiece then
      resolveTokenName tok.specialTokens tok.vocab own else -1) < 0
  · rw [if_pos hneg]
    exact resolveFirst_held hagree names
  · rw [if_neg hneg]
    exact hown _ rfl

theorem byteFallback_held (type : TokenizerType) (b : Nat) :
    byteFallback type tok.vocab b = -1 ∨ Held tok (byteFallback type tok.vocab b) := by
  cases type with
  | bpe => exact idOr_held _
  | sentencepieceBpe => exact idOr_held _
  | wordpiece => exact .inl rfl

theorem applyOneOverride_held (h : Sound tok) (v : Option Value)
    (hid : id = -1 ∨ Held tok id) :
    applyOneOverride tok v id = -1 ∨ Held tok (applyOneOverride tok v id) := by
  simp only [applyOneOverride]
  split
  · exact hid
  · exact hid
  · split
    · exact resolveTokenName_held h.agree _
    · exact hid

end Resolve

/-- A non-empty vocabulary has a table up to the largest id. -/
theorem assemble_cap {root : Value} {p : Parts} {k : Bytes} {id : Nat}
    (hk : p.maps.vocab.lookup k = some id) :
    (assemble root p).idToTokenCap = maxId p.entries p.added + 1 := by
  have hne : p.maps.vocab.keys.isEmpty = false := by
    have hk' : k ∈ p.maps.vocab.keys := AList.mem_keys.mp (AList.lookup_isSome.mp (by rw [hk]; rfl))
    cases hkeys : p.maps.vocab.keys with
    | nil => rw [hkeys] at hk'; exact absurd hk' List.not_mem_nil
    | cons _ _ => rfl
  simp only [assemble, hne, Bool.false_eq_true, ↓reduceIte]

/-- An id of the vocabulary comes from the document. -/
theorem loadParts_vocab {root : Value} {p : Parts} (h : loadParts root = some p) {k : Bytes}
    {id : Nat} (hk : p.maps.vocab.lookup k = some id) :
    (k, id) ∈ p.entries ∨ ∃ a ∈ p.added, a.content = k ∧ a.id = id := by
  obtain ⟨-, hm, -⟩ := loadParts_spec h
  rcases foldAdded_lookup p.added _ _ hm k id hk with h | h
  · exact .inl ((putVocab_lookup p.entries ∅ k id h).resolve_right (by simp))
  · exact .inr h

theorem loadParts_decodes {root : Value} {p : Parts} (h : loadParts root = some p) {k : Bytes}
    {id : Nat} (hk : p.maps.vocab.lookup k = some id) : Decodes (assemble root p) id := by
  obtain ⟨-, -, ht⟩ := loadParts_spec h
  have hmem := loadParts_vocab h hk
  obtain ⟨s, hs⟩ : ∃ s, p.table id = some s := by
    rcases hmem with hmem | ⟨a, ha, -, rfl⟩
    · obtain ⟨s, hs⟩ := Option.isSome_iff_exists.mp
        (show (fillVocab (fun _ => none) p.entries id).isSome from fillVocab_isSome (.inl ⟨k, hmem⟩))
      obtain ⟨s', hs', -⟩ := fillAdded_keep p.added _ _ ht id s hs
      exact ⟨s', hs'⟩
    · obtain ⟨s', hs', -⟩ := fillAdded_mem p.added _ _ ht a ha
      exact ⟨s', hs'⟩
  have hle : id ≤ maxId p.entries p.added := by
    refine le_foldl_max _ _ _ (.inl ?_)
    rcases hmem with h | ⟨a, ha, -, rfl⟩
    · exact List.mem_append_left _ (List.mem_map_of_mem h)
    · exact List.mem_append_right _ (List.mem_map_of_mem ha)
  rw [Decodes, tokenizerDecodeToken, assemble_cap hk, if_neg (by omega), Int.toNat_natCast]
  simp [assemble, hs]

theorem agree_empty (vocab : StrMap) : Agree ⟨vocab, ∅, ∅⟩ := fun c i hc => by
  simp at hc

theorem assemble_sound {root : Value} {p : Parts} (h : loadParts root = some p) :
    Sound (assemble root p) := by
  obtain ⟨-, hm, -⟩ := loadParts_spec h
  obtain ⟨hagree, -, -⟩ := foldAdded_agree hm (agree_empty _)
  have hagree' : ∀ c i, (assemble root p).specialTokens.lookup c = some i →
      (assemble root p).vocab.lookup c = some i := hagree
  have hfallback : ∀ b, byteFallback p.type (assemble root p).vocab b = -1 ∨
      Held (assemble root p) (byteFallback p.type (assemble root p).vocab b) :=
    byteFallback_held p.type
  refine ⟨hagree', fun k i hk => loadParts_decodes h hk, resolveWrap_held hagree' _ _ _,
    resolveWrap_held hagree' _ _ _, ?_, hfallback⟩
  have hunk : idOr ((putVocab ∅ p.entries).lookup (ascii "<unk>")) (-1) = -1 ∨
      Held (assemble root p) (idOr ((putVocab ∅ p.entries).lookup (ascii "<unk>")) (-1)) := by
    cases hk : (putVocab ∅ p.entries).lookup (ascii "<unk>") with
    | none => exact .inl rfl
    | some i =>
      have hvocab : (assemble root p).vocab.lookup (ascii "<unk>") = some i := foldAdded_vocab hm hk
      exact .inr (held_of_lookup hvocab)
  change (if p.type = .wordpiece then idOr (p.maps.vocab.lookup (ascii "[UNK]"))
      (idOr ((putVocab ∅ p.entries).lookup (ascii "<unk>")) (-1)) else _) = -1 ∨ Held _
    (if p.type = .wordpiece then idOr (p.maps.vocab.lookup (ascii "[UNK]"))
      (idOr ((putVocab ∅ p.entries).lookup (ascii "<unk>")) (-1)) else _)
  split
  · cases hk : p.maps.vocab.lookup (ascii "[UNK]") with
    | none => exact hunk
    | some i =>
      have hvocab : (assemble root p).vocab.lookup (ascii "[UNK]") = some i := hk
      exact .inr (held_of_lookup hvocab)
  · exact hunk

theorem loaded_sound {root : Value} {config : Option Value} {tok : Tokenizer}
    (h : Loaded root config tok) : Sound tok := by
  obtain ⟨base, hload, rfl⟩ := h
  obtain ⟨p, hp, rfl⟩ := Option.map_eq_some_iff.mp hload
  have hs := assemble_sound hp
  simp only [applyConfigOverrides]
  split
  · exact ⟨hs.agree, hs.decodes, applyOneOverride_held hs _ hs.bos,
      applyOneOverride_held hs _ hs.eos, hs.unk, hs.fallback⟩
  · exact hs

/-- The non-empty added tokens of the document. -/
def documentAdded (root : Value) : Option (List AddedToken) :=
  (jsonArrOrAbsent (objGet (some root) (ascii "added_tokens"))).bind addedEntries

theorem loadParts_added {root : Value} {p : Parts} (h : loadParts root = some p) :
    documentAdded root = some p.added := by
  simp only [loadParts, Option.bind_eq_bind, Option.bind_eq_some_iff, Option.pure_def,
    Option.some.injEq] at h
  obtain ⟨_, -, _, -, _, -, _, -, _, -, items, hitems, added, ha, _, -, _, -, rfl⟩ := h
  rw [documentAdded, hitems]
  exact ha

/-- An added token without NULs has its id in every table. -/
theorem loaded_added {root : Value} {config : Option Value} {tok : Tokenizer}
    (h : Loaded root config tok) {added : List AddedToken} (hadded : documentAdded root = some added)
    (hnul : ∀ a ∈ added, (0 : UInt8) ∉ a.content) : ∀ a ∈ added,
      tok.specialTokens.lookup a.content = some a.id ∧ tok.vocab.lookup a.content = some a.id ∧
        tok.idToToken a.id = some a.content := by
  obtain ⟨base, hload, rfl⟩ := h
  obtain ⟨p, hp, rfl⟩ := Option.map_eq_some_iff.mp hload
  obtain ⟨-, hm, ht⟩ := loadParts_spec hp
  obtain rfl : added = p.added := Option.some.inj (hadded.symm.trans (loadParts_added hp))
  intro a ha
  obtain ⟨hagree, -, hspecial⟩ := foldAdded_agree hm (agree_empty _)
  have hid := fillAdded_content hnul ht ha
  have hall : p.maps.specialTokens.lookup a.content = some a.id ∧
      p.maps.vocab.lookup a.content = some a.id ∧ p.table a.id = some a.content :=
    ⟨hspecial a ha, hagree _ _ (hspecial a ha), hid⟩
  simp only [applyConfigOverrides]
  split <;> exact hall

end Mlxd.TokLoad
