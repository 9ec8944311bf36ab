import Mlxd.TokLoad

/-!
# The vocabulary and the id table agree

The loader fills the vocabulary and the id table in separate walks over the document.
When the base vocabulary gives different strings different ids, every id the
vocabulary hands out decodes back to its string, up to the first NUL.
-/
namespace Mlxd.TokLoad

open Mlxd.Unicode Mlxd.Json

/-- Different entries have different ids. -/
def DistinctIds (entries : List (Bytes × Nat)) : Prop :=
  ∀ k k' id, (k, id) ∈ entries → (k', id) ∈ entries → k = k'

/-! ## The accepted entries -/

theorem validId_eq_some {val : Value} {id : Nat} (h : validId (some val) = some id) :
    val = .int id ∧ (id : Int) ≤ MLXD_TOK_MAX_ID := by
  cases val with
  | int i =>
    simp only [validId, Option.ite_none_right_eq_some, Option.some.injEq] at h
    obtain ⟨⟨h0, hi⟩, rfl⟩ := h
    rw [Int.toNat_of_nonneg h0]
    exact ⟨rfl, hi⟩
  | _ => simp [validId] at h

theorem vocabEntries_cons {key : Bytes} {val : Value} {rest : List (Bytes × Value)}
    {entries : List (Bytes × Nat)} (h : vocabEntries ((key, val) :: rest) = some entries) :
    ∃ (id : Nat) (tail : List (Bytes × Nat)), val = .int id ∧ (id : Int) ≤ MLXD_TOK_MAX_ID ∧
      vocabEntries rest = some tail ∧ entries = (key, id) :: tail := by
  simp only [vocabEntries] at h
  split at h
  · rename_i id tail hid hrest
    obtain ⟨hval, hle⟩ := validId_eq_some hid
    exact ⟨id, tail, hval, hle, hrest, (Option.some.inj h).symm⟩
  · contradiction

theorem vocabEntries_lookup {members : List (Bytes × Value)} {entries : List (Bytes × Nat)}
    (h : vocabEntries members = some entries) (name : Bytes) :
    (∃ id : Nat, (id : Int) ≤ MLXD_TOK_MAX_ID ∧ members.lookup name = some (.int id) ∧
      entries.lookup name = some id) ∨
    (members.lookup name = none ∧ entries.lookup name = none) := by
  induction members generalizing entries with
  | nil =>
    rw [← Option.some.inj h]
    exact .inr ⟨rfl, rfl⟩
  | cons m rest ih =>
    obtain ⟨key, val⟩ := m
    obtain ⟨id, tail, hval, hle, hrest, rfl⟩ := vocabEntries_cons h
    simp only [List.lookup_cons]
    cases name == key with
    | true => exact .inl ⟨id, hle, by rw [hval], rfl⟩
    | false => exact ih hrest

theorem mem_of_lookup {entries : List (Bytes × Nat)} {k : Bytes} {id : Nat}
    (h : entries.lookup k = some id) : (k, id) ∈ entries := by
  obtain ⟨before, after, rfl, -⟩ := List.lookup_eq_some_iff.mp h
  simp

theorem vocabEntries_keys {members : List (Bytes × Value)} {entries : List (Bytes × Nat)}
    (h : vocabEntries members = some entries) :
    entries.map Prod.fst = members.map Prod.fst := by
  induction members generalizing entries with
  | nil =>
    rw [← Option.some.inj h]
    rfl
  | cons m rest ih =>
    obtain ⟨key, val⟩ := m
    obtain ⟨id, tail, -, -, hrest, rfl⟩ := vocabEntries_cons h
    simp only [List.map_cons, ih hrest]

/-! ## The vocabulary map -/

theorem putVocab_lookup (entries : List (Bytes × Nat)) (m : StrMap) (k : Bytes) (id : Nat)
    (h : (putVocab m entries).lookup k = some id) : (k, id) ∈ entries ∨ m.lookup k = some id := by
  induction entries generalizing m with
  | nil => exact .inr h
  | cons e rest ih =>
    obtain ⟨k', id'⟩ := e
    rcases ih _ h with h | h
    · exact .inl (List.mem_cons_of_mem _ h)
    · by_cases hk : k = k'
      · subst hk
        rw [AList.lookup_insert, Option.some.injEq] at h
        exact .inl (by simp [h])
      · rw [AList.lookup_insert_ne hk] at h
        exact .inr h

theorem putVocab_isSome (entries : List (Bytes × Nat)) (m : StrMap) (k : Bytes)
    (h : (∃ id, (k, id) ∈ entries) ∨ (m.lookup k).isSome) :
    ((putVocab m entries).lookup k).isSome := by
  induction entries generalizing m with
  | nil => exact h.elim (fun ⟨_, h⟩ => absurd h List.not_mem_nil) id
  | cons e rest ih =>
    obtain ⟨k', id'⟩ := e
    refine ih _ ?_
    by_cases hk : k = k'
    · subst hk
      exact .inr (by simp)
    · rw [AList.lookup_insert_ne hk]
      rcases h with ⟨id, h⟩ | h
      · rcases List.mem_cons.mp h with h | h
        · exact absurd (Prod.mk.inj h).1 hk
        · exact .inl ⟨id, h⟩
      · exact .inr h

/-- Folding in the added tokens keeps what is there and adds only their own pairs. -/
theorem foldAdded_lookup (added : List AddedToken) (st st' : AddedState)
    (h : foldAdded added st = some st') (k : Bytes) (id : Nat)
    (hk : st'.vocab.lookup k = some id) :
    st.vocab.lookup k = some id ∨ ∃ a ∈ added, a.content = k ∧ a.id = id := by
  induction added generalizing st with
  | nil =>
    simp only [foldAdded, Option.some.injEq] at h
    exact .inl (h ▸ hk)
  | cons a rest ih =>
    simp only [foldAdded] at h
    cases ha : st.vocab.lookup a.content with
    | none =>
      simp only [ha] at h
      rcases ih _ h with h | ⟨a', ha', h⟩
      · by_cases hka : k = a.content
        · subst hka
          simp only [AList.lookup_insert, Option.some.injEq] at h
          exact .inr ⟨a, by simp, rfl, h⟩
        · simp only [AList.lookup_insert_ne hka] at h
          exact .inl h
      · exact .inr ⟨a', by simp [ha'], h⟩
    | some id' =>
      simp only [ha] at h
      split at h
      · rcases ih _ h with h | ⟨a', ha', h⟩
        · exact .inl h
        · exact .inr ⟨a', by simp [ha'], h⟩
      · contradiction

/-- With distinct keys the map holds every entry. -/
theorem putVocab_of_mem (entries : List (Bytes × Nat)) (hd : (entries.map Prod.fst).Nodup)
    (k : Bytes) (id : Nat) (h : (k, id) ∈ entries) :
    (putVocab ∅ entries).lookup k = some id := by
  obtain ⟨id', hid'⟩ := Option.isSome_iff_exists.mp (putVocab_isSome entries ∅ k (.inl ⟨id, h⟩))
  have hmem : (k, id') ∈ entries :=
    (putVocab_lookup entries ∅ k id' hid').resolve_right (by simp)
  rw [hid', show id' = id from congrArg Prod.snd (List.inj_on_of_nodup_map hd hmem h rfl)]

/-- Added tokens that are in the vocabulary leave it as it is. -/
theorem foldAdded_present (added : List AddedToken) (st st' : AddedState)
    (hin : ∀ t ∈ added, (st.vocab.lookup t.content).isSome) (h : foldAdded added st = some st') :
    st'.vocab = st.vocab := by
  induction added generalizing st with
  | nil => rw [← Option.some.inj h]
  | cons t rest ih =>
    obtain ⟨id, hid⟩ := Option.isSome_iff_exists.mp (hin t (by simp))
    simp only [foldAdded, hid] at h
    split at h
    · have hrest := ih _ (by exact fun u hu => hin u (by simp [hu])) h
      exact hrest
    · contradiction

theorem foldAdded_same (added : List AddedToken) (st : AddedState)
    (hin : ∀ t ∈ added, st.vocab.lookup t.content = some t.id) :
    ∃ st', foldAdded added st = some st' ∧ st'.vocab = st.vocab := by
  induction added generalizing st with
  | nil => exact ⟨st, rfl, rfl⟩
  | cons t rest ih =>
    simp only [foldAdded, hin t (by simp), ↓reduceIte]
    exact ih _ fun u hu => hin u (by simp [hu])

/-! ## The id table -/

theorem fillVocab_of_mem (entries : List (Bytes × Nat)) (table : Nat → Option Bytes) (k : Bytes)
    (id : Nat) (hd : ∀ k', (k', id) ∈ entries → k' = k)
    (h : (k, id) ∈ entries ∨ table id = some k) : fillVocab table entries id = some k := by
  induction entries generalizing table with
  | nil => exact h.resolve_left List.not_mem_nil
  | cons e rest ih =>
    obtain ⟨k', id'⟩ := e
    refine ih _ (fun k'' h => hd k'' (by simp [h])) ?_
    by_cases hid : id = id'
    · subst hid
      exact .inr (by simp [hd k' (by simp)])
    · rcases h with h | h
      · rcases List.mem_cons.mp h with h | h
        · exact absurd (Prod.mk.inj h).2 hid
        · exact .inl h
      · exact .inr (by rw [Function.update_of_ne hid]; exact h)

/-- An added token keeps the C string of the id it takes. -/
theorem fillAdded_keep (added : List AddedToken) (table table' : Nat → Option Bytes)
    (h : fillAdded added table = some table') (id : Nat) (s : Bytes) (hs : table id = some s) :
    ∃ s', table' id = some s' ∧ cstr s' = cstr s := by
  induction added generalizing table s with
  | nil =>
    simp only [fillAdded, Option.some.injEq] at h
    exact ⟨s, h ▸ hs, rfl⟩
  | cons a rest ih =>
    simp only [fillAdded] at h
    by_cases hid : id = a.id
    · subst hid
      simp only [hs] at h
      split at h
      · rename_i hc
        obtain ⟨s', h1, h2⟩ := ih _ h a.content (by simp)
        exact ⟨s', h1, h2.trans hc.symm⟩
      · contradiction
    · have hkeep : Function.update table a.id (some a.content) id = some s := by
        rw [Function.update_of_ne hid]
        exact hs
      split at h
      · split at h
        · exact ih _ h s hkeep
        · contradiction
      · exact ih _ h s hkeep

theorem fillAdded_mem (added : List AddedToken) (table table' : Nat → Option Bytes)
    (h : fillAdded added table = some table') (a : AddedToken) (ha : a ∈ added) :
    ∃ s', table' a.id = some s' ∧ cstr s' = cstr a.content := by
  induction added generalizing table with
  | nil => simp at ha
  | cons b rest ih =>
    have hrest : fillAdded rest (Function.update table b.id (some b.content)) = some table' := by
      simp only [fillAdded] at h
      split at h
      · split at h
        · exact h
        · contradiction
      · exact h
    rcases List.mem_cons.mp ha with rfl | ha
    · exact fillAdded_keep rest _ _ hrest a.id a.content (by simp)
    · exact ih _ hrest ha

/-- Where every id is taken, the added tokens must agree with the strings there. -/
theorem fillAdded_isSome (added : List AddedToken) (table : Nat → Option Bytes)
    (htaken : ∀ t ∈ added, (table t.id).isSome) : (fillAdded added table).isSome ↔
      ∀ t ∈ added, (table t.id).map cstr = some (cstr t.content) := by
  induction added generalizing table with
  | nil => simp [fillAdded]
  | cons t rest ih =>
    obtain ⟨s, hs⟩ := Option.isSome_iff_exists.mp (htaken t (by simp))
    by_cases hc : cstr s = cstr t.content
    · have htable : ∀ id, (Function.update table t.id (some t.content) id).map cstr =
          (table id).map cstr := by
        intro id
        by_cases hid : id = t.id
        · subst hid
          simp [hs, hc]
        · rw [Function.update_of_ne hid]
      have htaken' : ∀ u ∈ rest, (Function.update table t.id (some t.content) u.id).isSome := by
        intro u hu
        rw [← Option.isSome_map (f := cstr), htable, Option.isSome_map]
        exact htaken u (by simp [hu])
      simp only [fillAdded, hs, hc, ↓reduceIte, ih _ htaken', htable, List.forall_mem_cons,
        Option.map_some, true_and]
    · simp [fillAdded, hs, hc]

/-- The last string of the document with the id. -/
def lastHolder (entries : List (Bytes × Nat)) (id : Nat) : Option Bytes :=
  (entries.reverse.find? fun e => e.2 == id).map Prod.fst

theorem fillVocab_lastHolder (entries : List (Bytes × Nat)) (table : Nat → Option Bytes)
    (id : Nat) : fillVocab table entries id = (lastHolder entries id).or (table id) := by
  induction entries generalizing table with
  | nil => rfl
  | cons e rest ih =>
    rw [fillVocab, ih]
    by_cases hid : id = e.2
    · subst hid
      simp only [lastHolder, List.reverse_cons, List.find?_append, Function.update_self]
      cases List.find? (fun x => x.2 == e.2) rest.reverse <;> simp
    · rw [Function.update_of_ne hid]
      simp [lastHolder, List.find?_append, Ne.symm hid]

theorem le_foldl_max (l : List Nat) (m x : Nat) (h : x ∈ l ∨ x ≤ m) : x ≤ l.foldl max m := by
  induction l generalizing m with
  | nil => simpa using h
  | cons y l ih =>
    refine ih _ ?_
    rcases h with h | h
    · rcases List.mem_cons.mp h with rfl | h
      · exact .inr (Nat.le_max_right _ _)
      · exact .inl h
    · exact .inr (h.trans (Nat.le_max_left _ _))

/-! ## Loaded tokenizers -/

theorem classify_byteLevel {root pt : Value}
    (hpt : objGet (some root) (ascii "pre_tokenizer") = some pt)
    (hbl : hasByteLevel pt = some true) : classify root (ascii "BPE") = some .bpe := by
  rw [classify, if_neg (by decide), if_pos (by decide), hpt]
  simp only [hbl]
  rfl

theorem hasByteLevel_type :
    hasByteLevel (.obj [(ascii "type", .str (ascii "ByteLevel"))]) = some true := by
  rw [hasByteLevel]
  rfl

theorem loadParts_spec {root : Value} {p : Parts} (h : loadParts root = some p) :
    modelVocab root = some p.entries ∧
      foldAdded p.added ⟨putVocab ∅ p.entries, ∅, ∅⟩ = some p.maps ∧
      fillAdded p.added (fillVocab (fun _ => none) p.entries) = some p.table := by
  simp only [loadParts, Option.bind_eq_bind, Option.bind_eq_some_iff, Option.pure_def,
    Option.some.injEq] at h
  obtain ⟨entries, he, _, -, _, -, _, -, _, -, _, -, added, -, maps, hm, table, ht, rfl⟩ := h
  exact ⟨he, hm, ht⟩

/-- An id handed out by the vocabulary is below the table's size and decodes back. -/
theorem load_decodes {root : Value} {tok : Tokenizer} (h : tokenizerLoadJson root = some tok)
    (hd : ∀ entries, modelVocab root = some entries → DistinctIds entries) (k : Bytes) (id : Nat)
    (hk : tok.vocab.lookup k = some id) : tokenizerDecodeToken tok id = some (cstr k) := by
  obtain ⟨p, hp, rfl⟩ := Option.map_eq_some_iff.mp h
  obtain ⟨he, hm, ht⟩ := loadParts_spec hp
  have hmem : (k, id) ∈ p.entries ∨ ∃ a ∈ p.added, a.content = k ∧ a.id = id := by
    rcases foldAdded_lookup p.added _ _ hm k id hk with h | h
    · refine .inl ((putVocab_lookup p.entries ∅ k id h).resolve_right ?_)
      simp
    · exact .inr h
  obtain ⟨s, hs, hc⟩ : ∃ s, p.table id = some s ∧ cstr s = cstr k := by
    rcases hmem with h | ⟨a, ha, rfl, rfl⟩
    · refine fillAdded_keep p.added _ _ ht id k (fillVocab_of_mem p.entries _ k id ?_ (.inl h))
      exact fun k' h' => hd p.entries he k' k id h' h
    · exact fillAdded_mem p.added _ _ ht a ha
  have hle : id ≤ maxId p.entries p.added := by
    refine le_foldl_max _ _ _ (.inl ?_)
    rcases hmem with h | ⟨a, ha, -, rfl⟩
    · exact List.mem_append_left _ (List.mem_map_of_mem h)
    · exact List.mem_append_right _ (List.mem_map_of_mem ha)
  have hcap : (assemble root p).idToTokenCap = maxId p.entries p.added + 1 := by
    have hne : p.maps.vocab.keys.isEmpty = false := by
      have hk' : k ∈ p.maps.vocab.keys :=
        AList.mem_keys.mp (AList.lookup_isSome.mp (by rw [show p.maps.vocab.lookup k = some id from hk]; rfl))
      cases hkeys : p.maps.vocab.keys with
      | nil => rw [hkeys] at hk'; exact absurd hk' List.not_mem_nil
      | cons _ _ => rfl
    simp only [assemble, hne, Bool.false_eq_true, ↓reduceIte]
  rw [tokenizerDecodeToken, hcap, if_neg (by omega), Int.toNat_natCast]
  simp [assemble, hs, hc]

end Mlxd.TokLoad
