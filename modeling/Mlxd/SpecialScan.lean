import Mlxd.Encode
import Mlxd.PretokenizeRegex

/-!
# The reference split around special tokens

From the cursor on, the earliest occurrence of any special token is taken, the longest token
at that place, and the scan goes on right after it. The scan with one cached occurrence per
token does the same for every order of the tokens.
-/
namespace Mlxd.Encode

open Mlxd.Unicode Mlxd.Json Mlxd.TokLoad Mlxd.BpeMerge Mlxd.Pretokenize

/-! ## Occurrences -/

/-- A non-empty key stands in the text at `pos`. -/
def OccursAt (text key : Bytes) (pos : Nat) : Prop :=
  key ≠ [] ∧ pos + key.length ≤ text.length ∧ slice text pos (pos + key.length) = key

/-- Two keys of one length at one place are the same key. -/
theorem occursAt_unique {text key key' : Bytes} {pos : Nat} (h : OccursAt text key pos)
    (h' : OccursAt text key' pos) (hlen : key.length = key'.length) : key = key' := by
  rw [← h.2.2, ← h'.2.2, hlen]

theorem byteAt_slice {text : Bytes} {pos n j : Nat} (hj : j < n) :
    byteAt (slice text pos (pos + n)) j = byteAt text (pos + j) := by
  simp only [byteAt, slice, List.getD_eq_getElem?_getD, Nat.add_sub_cancel_left]
  rw [List.getElem?_take_of_lt hj, List.getElem?_drop]

/-- An occurrence starts with the key's first byte. -/
theorem OccursAt.first {text key : Bytes} {pos : Nat} (h : OccursAt text key pos) :
    byteAt text pos = byteAt key 0 := by
  obtain ⟨hne, hlen, heq⟩ := h
  have hpos : 0 < key.length := List.length_pos_iff.mpr hne
  have hbyte : byteAt (slice text pos (pos + key.length)) 0 = byteAt text (pos + 0) :=
    byteAt_slice hpos
  rw [heq] at hbyte
  exact hbyte.symm

theorem memchr_some {hay : Bytes} {b : UInt8} {n start pos : Nat}
    (h : memchr hay b n start = some pos) :
    start ≤ pos ∧ pos < start + n ∧ ∀ j, start ≤ j → j < pos → byteAt hay j ≠ b := by
  induction n generalizing start with
  | zero => contradiction
  | succ n ih =>
    simp only [memchr] at h
    split at h
    · obtain rfl := Option.some.inj h
      exact ⟨le_refl _, by omega, fun j h₁ h₂ => by omega⟩
    · rename_i hne
      obtain ⟨hle, hlt, hnone⟩ := ih h
      refine ⟨by omega, by omega, fun j h₁ h₂ => ?_⟩
      by_cases hj : j = start
      · rw [hj]
        exact hne
      · exact hnone j (by omega) h₂

theorem memchr_none {hay : Bytes} {b : UInt8} {n start : Nat} (h : memchr hay b n start = none) :
    ∀ j, start ≤ j → j < start + n → byteAt hay j ≠ b := by
  induction n generalizing start with
  | zero => exact fun j h₁ h₂ => by omega
  | succ n ih =>
    simp only [memchr] at h
    split at h
    · contradiction
    · rename_i hne
      intro j h₁ h₂
      by_cases hj : j = start
      · rw [hj]
        exact hne
      · exact ih h j (by omega) (by omega)

/-- A search finds the first occurrence from its start on, or there is none. -/
def FirstFrom (text key : Bytes) (start : Nat) : Option Nat → Prop
  | some pos => start ≤ pos ∧ OccursAt text key pos ∧ ∀ q, start ≤ q → OccursAt text key q → pos ≤ q
  | none => ∀ q, start ≤ q → ¬ OccursAt text key q

theorem findSubLoop_spec {hay needle : Bytes} (hne : needle ≠ []) {fuel start : Nat}
    (hfuel : hay.length < start + fuel) :
    FirstFrom hay needle start (findSubLoop hay needle fuel start) := by
  induction fuel generalizing start with
  | zero =>
    intro q hq hocc
    have hlen := hocc.2.1
    omega
  | succ fuel ih =>
    simp only [findSubLoop]
    split
    · rename_i hroom
      split
      · rename_i hmem
        intro q hq hocc
        have hlen := hocc.2.1
        exact memchr_none hmem q hq (by omega) hocc.first
      · rename_i pos hmem
        obtain ⟨hle, hlt, hbefore⟩ := memchr_some hmem
        have hskip : ∀ q, start ≤ q → OccursAt hay needle q → pos ≤ q := by
          intro q hq hocc
          by_contra hlt'
          exact hbefore q hq (by omega) hocc.first
        split
        · rename_i heq
          exact ⟨hle, ⟨hne, by omega, heq⟩, hskip⟩
        · rename_i hdiff
          have hrest := @ih (pos + 1) (by omega)
          have hnot : ∀ q, start ≤ q → OccursAt hay needle q → pos + 1 ≤ q := by
            intro q hq hocc
            rcases Nat.eq_or_lt_of_le (hskip q hq hocc) with heq | hlt'
            · exact absurd (heq ▸ hocc.2.2) hdiff
            · exact hlt'
          cases hfound : findSubLoop hay needle fuel (pos + 1) with
          | none =>
            rw [hfound] at hrest
            exact fun q hq hocc => hrest q (hnot q hq hocc) hocc
          | some found =>
            rw [hfound] at hrest
            exact ⟨by have := hrest.1; omega, hrest.2.1,
              fun q hq hocc => hrest.2.2 q (hnot q hq hocc) hocc⟩
    · rename_i hroom
      intro q hq hocc
      have hlen := hocc.2.1
      omega

theorem findSub_spec (hay : Bytes) (start : Nat) (needle : Bytes) :
    FirstFrom hay needle start (findSub hay start needle) := by
  simp only [findSub]
  split
  · rename_i hshort
    intro q hq hocc
    obtain ⟨hne, hlen, -⟩ := hocc
    have hpos : 0 < needle.length := List.length_pos_iff.mpr hne
    omega
  · rename_i hshort
    have hne : needle ≠ [] := by
      rintro rfl
      simp at hshort
    exact findSubLoop_spec hne (by omega)

/-! ## The reference split -/

inductive Piece where
  | gap (text : Bytes)
  | special (id : Nat)

/-- No special token occurs from `pos` on. -/
def NoneFrom (special : StrMap) (text : Bytes) (pos : Nat) : Prop :=
  ∀ key q, key ∈ special → pos ≤ q → ¬ OccursAt text key q

/-- `key` stands at `q`, the first place from `pos` on where a special token stands, and no
longer one stands there. -/
structure EarliestLongest (special : StrMap) (text : Bytes) (pos q : Nat) (key : Bytes) : Prop where
  after : pos ≤ q
  occurs : OccursAt text key q
  earliest : ∀ key' q', key' ∈ special → pos ≤ q' → OccursAt text key' q' → q ≤ q'
  longest : ∀ key', key' ∈ special → OccursAt text key' q → key'.length ≤ key.length

def gapBefore (text : Bytes) (pos q : Nat) : List Piece :=
  if pos < q then [.gap (slice text pos q)] else []

/-- The pieces of the text from `pos` on. -/
inductive Split (special : StrMap) (text : Bytes) : Nat → List Piece → Prop
  | done {pos : Nat} (h : text.length ≤ pos) : Split special text pos []
  | tail {pos : Nat} (h : pos < text.length) (hnone : NoneFrom special text pos) :
      Split special text pos [.gap (slice text pos text.length)]
  | hit {pos q : Nat} {key : Bytes} {id : Nat} {rest : List Piece}
      (hkey : special.lookup key = some id) (hbest : EarliestLongest special text pos q key)
      (hrest : Split special text (q + key.length) rest) :
      Split special text pos (gapBefore text pos q ++ .special id :: rest)

section Unique

variable {special : StrMap} {text : Bytes}

theorem mem_of_lookup {key : Bytes} {id : Nat} (h : special.lookup key = some id) :
    key ∈ special := AList.lookup_isSome.mp (h ▸ rfl)

theorem EarliestLongest.unique {pos q q' : Nat} {key key' : Bytes} (hkey : key ∈ special)
    (hkey' : key' ∈ special) (h : EarliestLongest special text pos q key)
    (h' : EarliestLongest special text pos q' key') : q = q' ∧ key = key' := by
  have hq : q = q' := Nat.le_antisymm (h.earliest key' q' hkey' h'.after h'.occurs)
    (h'.earliest key q hkey h.after h.occurs)
  subst hq
  have hlen : key.length = key'.length := Nat.le_antisymm (h'.longest key hkey h.occurs)
    (h.longest key' hkey' h'.occurs)
  exact ⟨rfl, occursAt_unique h.occurs h'.occurs hlen⟩

/-- There is only one split. -/
theorem Split.unique {pos : Nat} {pieces pieces' : List Piece} (h : Split special text pos pieces)
    (h' : Split special text pos pieces') : pieces' = pieces := by
  induction h generalizing pieces' with
  | @done pos hend =>
    cases h' with
    | done => rfl
    | tail h => omega
    | @hit _ q key id rest hkey hbest hrest =>
      obtain ⟨hne, hlen, -⟩ := hbest.occurs
      have hpos : 0 < key.length := List.length_pos_iff.mpr hne
      have hafter := hbest.after
      omega
  | @tail pos hpos hnone =>
    cases h' with
    | done h => omega
    | tail => rfl
    | @hit _ q key id rest hkey hbest hrest =>
      exact absurd hbest.occurs (hnone key q (mem_of_lookup hkey) hbest.after)
  | @hit pos q key id rest hkey hbest hrest ih =>
    cases h' with
    | done h =>
      obtain ⟨hne, hlen, -⟩ := hbest.occurs
      have hpos : 0 < key.length := List.length_pos_iff.mpr hne
      have hafter := hbest.after
      omega
    | tail h hnone => exact absurd hbest.occurs (hnone key q (mem_of_lookup hkey) hbest.after)
    | @hit _ q' key' id' rest' hkey' hbest' hrest' =>
      obtain ⟨rfl, rfl⟩ := hbest.unique (mem_of_lookup hkey) (mem_of_lookup hkey') hbest'
      obtain rfl : id' = id := Option.some.inj (hkey'.symm.trans hkey)
      rw [ih hrest']

end Unique

/-- The ids of the pieces; `none` when a gap fails to encode. -/
def encodePieces (encode : Bytes → Option (List Int)) : List Piece → Option (List Int)
  | [] => some []
  | .gap text :: rest =>
    match encode text, encodePieces encode rest with
    | some seg, some ids => some (seg ++ ids)
    | _, _ => none
  | .special id :: rest => (encodePieces encode rest).map ((id : Int) :: ·)

/-! ## The cached occurrences -/

/-- The cache of a site has not passed over an occurrence from `pos` on. -/
structure Cached (text : Bytes) (pos : Nat) (site : SpecialSite) : Prop where
  occurs : ∀ n, site.next = some n → OccursAt text site.key n
  least : ∀ q, pos ≤ q → OccursAt text site.key q → ∃ n, site.next = some n ∧ n ≤ q

theorem cached_of_first {text : Bytes} {pos : Nat} {site : SpecialSite}
    (h : FirstFrom text site.key pos site.next) : Cached text pos site := by
  cases hnext : site.next with
  | none =>
    rw [hnext] at h
    exact ⟨fun n hn => by rw [hnext] at hn; contradiction, fun q hq hocc => absurd hocc (h q hq)⟩
  | some n =>
    rw [hnext] at h
    refine ⟨fun n' hn => ?_, fun q hq hocc => ⟨n, hnext, h.2.2 q hq hocc⟩⟩
    rw [hnext] at hn
    exact Option.some.inj hn ▸ h.2.1

theorem Cached.mono {text : Bytes} {pos pos' : Nat} {site : SpecialSite} (h : Cached text pos site)
    (hle : pos ≤ pos') : Cached text pos' site :=
  ⟨h.occurs, fun q hq => h.least q (hle.trans hq)⟩

/-- After a refresh the cache is the first occurrence from the cursor on. -/
theorem refresh_first {text : Bytes} {pos : Nat} {site : SpecialSite} (h : Cached text pos site) :
    FirstFrom text site.key pos (refresh text pos site).next := by
  cases hnext : site.next with
  | none =>
    have hsame : refresh text pos site = site := by simp only [refresh, hnext]
    rw [hsame, hnext]
    intro q hq hocc
    obtain ⟨n, hn, -⟩ := h.least q hq hocc
    rw [hnext] at hn
    contradiction
  | some n =>
    by_cases hstale : n < pos
    · have hsearch : (refresh text pos site).next = findSub text pos site.key := by
        simp only [refresh, hnext, if_pos hstale]
      rw [hsearch]
      exact findSub_spec text pos site.key
    · have hsame : refresh text pos site = site := by simp only [refresh, hnext, if_neg hstale]
      rw [hsame, hnext]
      refine ⟨by omega, h.occurs n hnext, fun q hq hocc => ?_⟩
      obtain ⟨n', hn', hle⟩ := h.least q hq hocc
      rw [hnext] at hn'
      exact Option.some.inj hn' ▸ hle

@[simp] theorem refresh_key (text : Bytes) (pos : Nat) (site : SpecialSite) :
    (refresh text pos site).key = site.key := by
  simp only [refresh]
  split
  · rfl
  · split <;> rfl

@[simp] theorem refresh_id (text : Bytes) (pos : Nat) (site : SpecialSite) :
    (refresh text pos site).id = site.id := by
  simp only [refresh]
  split
  · rfl
  · split <;> rfl

/-! ## The best site -/

/-- The choice among the sites seen so far: the earliest occurrence, then the longest key. -/
def Chosen (seen : List SpecialSite) : Option (SpecialSite × Nat) → Prop
  | none => ∀ site ∈ seen, site.next = none
  | some (best, n) => best ∈ seen ∧ best.next = some n ∧ ∀ site ∈ seen, ∀ m, site.next = some m →
    n < m ∨ (n = m ∧ site.key.length ≤ best.key.length)

theorem better_chosen {seen : List SpecialSite} {best : Option (SpecialSite × Nat)}
    (h : Chosen seen best) (site : SpecialSite) : Chosen (seen ++ [site]) (better best site) := by
  cases hnext : site.next with
  | none =>
    have hsame : better best site = best := by simp only [better, hnext]
    rw [hsame]
    cases best with
    | none =>
      intro s hs
      rcases List.mem_append.mp hs with hs | hs
      · exact h s hs
      · rw [List.mem_singleton.mp hs, hnext]
    | some b =>
      obtain ⟨hmem, hbest, hleast⟩ := h
      refine ⟨List.mem_append_left _ hmem, hbest, fun s hs m hm => ?_⟩
      rcases List.mem_append.mp hs with hs | hs
      · exact hleast s hs m hm
      · rw [List.mem_singleton.mp hs, hnext] at hm
        contradiction
  | some next =>
    cases best with
    | none =>
      have htake : better none site = some (site, next) := by simp only [better, hnext]
      rw [htake]
      refine ⟨List.mem_append_right _ (List.mem_singleton.mpr rfl), hnext, fun s hs m hm => ?_⟩
      rcases List.mem_append.mp hs with hs | hs
      · rw [h s hs] at hm
        contradiction
      · rw [List.mem_singleton.mp hs] at hm ⊢
        rw [hnext] at hm
        exact .inr ⟨Option.some.inj hm, le_refl _⟩
    | some b =>
      obtain ⟨hmem, hbest, hleast⟩ := h
      by_cases hwin : next < b.2 ∨ next = b.2 ∧ b.1.key.length < site.key.length
      · have htake : better (some b) site = some (site, next) := by
          simp only [better, hnext, if_pos hwin]
        rw [htake]
        refine ⟨List.mem_append_right _ (List.mem_singleton.mpr rfl), hnext, fun s hs m hm => ?_⟩
        rcases List.mem_append.mp hs with hs | hs
        · rcases hleast s hs m hm with hlt | ⟨heq, hlen⟩ <;> omega
        · rw [List.mem_singleton.mp hs] at hm ⊢
          rw [hnext] at hm
          exact .inr ⟨Option.some.inj hm, le_refl _⟩
      · have hkeep : better (some b) site = some b := by simp only [better, hnext, if_neg hwin]
        rw [hkeep]
        refine ⟨List.mem_append_left _ hmem, hbest, fun s hs m hm => ?_⟩
        rcases List.mem_append.mp hs with hs | hs
        · exact hleast s hs m hm
        · rw [List.mem_singleton.mp hs] at hm ⊢
          rw [hnext] at hm
          obtain rfl := Option.some.inj hm
          omega

theorem foldl_chosen (sites : List SpecialSite) {seen : List SpecialSite}
    {best : Option (SpecialSite × Nat)} (h : Chosen seen best) :
    Chosen (seen ++ sites) (sites.foldl better best) := by
  induction sites generalizing seen best with
  | nil => simpa using h
  | cons site rest ih =>
    have hnext := ih (better_chosen h site)
    rwa [List.append_assoc, List.singleton_append] at hnext

/-! ## The scan -/

/-- The sites of the special tokens, in any order. -/
structure SitesOf (special : StrMap) (sites : List SpecialSite) : Prop where
  sound : ∀ site ∈ sites, ∃ id, special.lookup site.key = some id ∧ site.id = (id : Int)
  complete : ∀ key ∈ special, ∃ site ∈ sites, site.key = key

theorem SitesOf.refresh {special : StrMap} {sites : List SpecialSite} (h : SitesOf special sites)
    (text : Bytes) (pos : Nat) : SitesOf special (sites.map (refresh text pos)) := by
  refine ⟨fun site hsite => ?_, fun key hkey => ?_⟩
  · obtain ⟨old, hold, rfl⟩ := List.mem_map.mp hsite
    obtain ⟨id, hlookup, hid⟩ := h.sound old hold
    have hsame := congrArg (fun key => (special.lookup key : Option Nat)) (refresh_key text pos old)
    exact ⟨id, hsame.trans hlookup, (refresh_id text pos old).trans hid⟩
  · obtain ⟨site, hsite, rfl⟩ := h.complete key hkey
    exact ⟨Encode.refresh text pos site, List.mem_map_of_mem hsite, refresh_key text pos site⟩

section Scan

variable (T : UcTables) (tok : Tokenizer) {special : StrMap} {text : Bytes}

theorem encodePieces_gapBefore (encode : Bytes → Option (List Int)) (text : Bytes) (pos q id : Nat)
    (rest : List Piece) :
    encodePieces encode (gapBefore text pos q ++ .special id :: rest) =
      match (if pos < q then encode (slice text pos q) else some []), encodePieces encode rest with
      | some seg, some ids => some (seg ++ (id : Int) :: ids)
      | _, _ => none := by
  simp only [gapBefore]
  split
  · simp only [List.singleton_append, encodePieces]
    cases encode (slice text pos q) <;> cases encodePieces encode rest <;> rfl
  · simp only [List.nil_append, encodePieces]
    cases encodePieces encode rest <;> rfl

section Choice

variable {sites : List SpecialSite} {pos : Nat} (hsites : SitesOf special sites)
  (hfirst : ∀ site ∈ sites, FirstFrom text site.key pos site.next)

include hsites hfirst

theorem chosen_none (hchosen : Chosen sites none) : NoneFrom special text pos := by
  intro key q hkey hq hocc
  obtain ⟨site, hsite, rfl⟩ := hsites.complete key hkey
  have hno := hfirst site hsite
  rw [hchosen site hsite] at hno
  exact hno q hq hocc

/-- The best site is the reference choice. -/
theorem chosen_earliest {best : SpecialSite} {q : Nat} (hchosen : Chosen sites (some (best, q))) :
    EarliestLongest special text pos q best.key := by
  obtain ⟨hmem, hnext, hleast⟩ := hchosen
  have hat := hfirst best hmem
  rw [hnext] at hat
  obtain ⟨hafter, hocc, -⟩ := hat
  have hfound : ∀ key' q', key' ∈ special → pos ≤ q' → OccursAt text key' q' →
      ∃ m, m ≤ q' ∧ (q < m ∨ (q = m ∧ key'.length ≤ best.key.length)) := by
    intro key' q' hkey' hq' hocc'
    obtain ⟨site, hsite, rfl⟩ := hsites.complete key' hkey'
    have hsearch := hfirst site hsite
    cases hm : site.next with
    | none =>
      rw [hm] at hsearch
      exact absurd hocc' (hsearch q' hq')
    | some m =>
      rw [hm] at hsearch
      exact ⟨m, hsearch.2.2 q' hq' hocc', hleast site hsite m hm⟩
  refine ⟨hafter, hocc, fun key' q' hkey' hq' hocc' => ?_, fun key' hkey' hocc' => ?_⟩
  · obtain ⟨m, hmq, hm⟩ := hfound key' q' hkey' hq' hocc'
    omega
  · obtain ⟨m, hmq, hm⟩ := hfound key' q hkey' hafter hocc'
    omega

end Choice

/-- From sites that have not passed over an occurrence, the scan encodes the pieces of the
reference split. -/
theorem scanLoop_split {fuel pos : Nat} {sites : List SpecialSite} (hsites : SitesOf special sites)
    (hcached : ∀ site ∈ sites, Cached text pos site) (hle : pos ≤ text.length)
    (hfuel : text.length < pos + fuel) :
    ∃ pieces, Split special text pos pieces ∧
      scanLoop T tok text fuel pos sites = encodePieces (encodeSegment T tok) pieces := by
  induction fuel generalizing pos sites with
  | zero => omega
  | succ fuel ih =>
    rw [scanLoop]
    by_cases hpos : pos < text.length
    · rw [if_pos hpos]
      have hfresh := hsites.refresh text pos
      have hfirst : ∀ site ∈ sites.map (refresh text pos), FirstFrom text site.key pos site.next := by
        intro site hsite
        obtain ⟨old, hold, rfl⟩ := List.mem_map.mp hsite
        rw [refresh_key]
        exact refresh_first (hcached old hold)
      have hnil : Chosen [] none := fun site hsite => absurd hsite List.not_mem_nil
      have hchosen := foldl_chosen (sites.map (refresh text pos)) hnil
      rw [List.nil_append] at hchosen
      generalize sites.map (refresh text pos) = sites at hfresh hfirst hchosen
      dsimp only
      cases hbest : sites.foldl better none with
      | none =>
        rw [hbest] at hchosen
        refine ⟨_, .tail hpos (chosen_none hfresh hfirst hchosen), ?_⟩
        simp only [encodePieces]
        cases encodeSegment T tok (slice text pos text.length) <;> simp
      | some best =>
        obtain ⟨best, q⟩ := best
        rw [hbest] at hchosen
        have hreference := chosen_earliest hfresh hfirst hchosen
        obtain ⟨id, hlookup, hid⟩ := hfresh.sound best hchosen.1
        have hafter := hreference.after
        have hocc := hreference.occurs
        have hlen : 0 < best.key.length := List.length_pos_iff.mpr hocc.1
        have hcached' : ∀ site ∈ sites, Cached text (q + best.key.length) site :=
          fun site hsite => (cached_of_first (hfirst site hsite)).mono (by omega)
        obtain ⟨rest, hsplit, hscan⟩ := ih hfresh hcached' hocc.2.1 (by omega)
        refine ⟨_, .hit hlookup hreference hsplit, ?_⟩
        rw [encodePieces_gapBefore, ← hscan]
        dsimp only
        cases (if pos < q then encodeSegment T tok (slice text pos q) else some []) with
        | none => rfl
        | some seg =>
          cases scanLoop T tok text fuel (q + best.key.length) sites with
          | none => rfl
          | some ids => simp only [hid]
    · rw [if_neg hpos]
      exact ⟨[], .done (by omega), rfl⟩

end Scan

/-- The iteration visits the entries of the map, in any order. -/
def Enumerates (iterate : StrMap → List (Bytes × Nat)) (m : StrMap) : Prop :=
  ∀ key v, (key, v) ∈ iterate m ↔ m.lookup key = some v

theorem specialSites_sites {tok : Tokenizer} {iterate : StrMap → List (Bytes × Nat)}
    (h : Enumerates iterate tok.specialTokens) (text : Bytes) :
    SitesOf tok.specialTokens (specialSites tok iterate text) := by
  refine ⟨fun site hsite => ?_, fun key hkey => ?_⟩
  · obtain ⟨e, he, rfl⟩ := List.mem_map.mp hsite
    exact ⟨e.2, (h e.1 e.2).mp he, rfl⟩
  · obtain ⟨v, hv⟩ := Option.isSome_iff_exists.mp (AList.lookup_isSome.mpr hkey)
    exact ⟨_, List.mem_map_of_mem ((h key v).mpr hv), rfl⟩

theorem specialSites_cached (tok : Tokenizer) (iterate : StrMap → List (Bytes × Nat))
    (text : Bytes) : ∀ site ∈ specialSites tok iterate text, Cached text 0 site := by
  intro site hsite
  obtain ⟨e, -, rfl⟩ := List.mem_map.mp hsite
  exact cached_of_first (findSub_spec text 0 e.1)

/-- Whatever the order of the map, the encoder encodes the pieces of the one reference split;
it fails when a gap does, or when the number of ids is no `int`. -/
theorem encodeAllocImpl_split (T : UcTables) (tok : Tokenizer) (hbody : tok.type ≠ .wordpiece)
    (iterate : StrMap → List (Bytes × Nat)) (hiterate : Enumerates iterate tok.specialTokens)
    (text : Bytes) : ∃ pieces, Split tok.specialTokens text 0 pieces ∧
      (∀ pieces', Split tok.specialTokens text 0 pieces' → pieces' = pieces) ∧
      encodeAllocImpl T tok iterate text true =
        (encodePieces (encodeSegment T tok) pieces).bind fun ids =>
          if INT32_MAX < ids.length then none else some ids := by
  obtain ⟨pieces, hsplit, hscan⟩ := scanLoop_split T tok (specialSites_sites hiterate text)
    (specialSites_cached tok iterate text) (Nat.zero_le _)
    (show text.length < 0 + (text.length + 1) by omega)
  refine ⟨pieces, hsplit, fun pieces' h => hsplit.unique h, ?_⟩
  rw [encodeAllocImpl, if_neg hbody, if_pos rfl, hscan]
  cases encodePieces (encodeSegment T tok) pieces <;> rfl

/-- The entries of a map, as one order of iterating. -/
def mapEntries (m : StrMap) : List (Bytes × Nat) := m.entries.map fun e => (e.1, e.2)

theorem enumerates_entries (m : StrMap) : Enumerates mapEntries m := by
  intro key v
  have hmem : (⟨key, v⟩ : Sigma fun _ : Bytes => Nat) ∈ m.entries ↔ m.lookup key = some v :=
    AList.mem_lookup_iff.symm
  rw [← hmem, mapEntries, List.mem_map]
  constructor
  · rintro ⟨e, he, heq⟩
    obtain ⟨rfl, rfl⟩ := Prod.mk.inj heq
    exact he
  · exact fun h => ⟨_, h, rfl⟩

/-- One special token starts another one. -/
def taggedA : Tokenizer :=
  { doubleA with
    specialTokens := (∅ : StrMap).insert (ascii "<|im") 2 |>.insert (ascii "<|im_end|>") 3 }

theorem encodeAllocImpl_split_tagged :
    ∃ pieces, Split taggedA.specialTokens (ascii "a<|im_end|>a") 0 pieces ∧
      (∀ pieces', Split taggedA.specialTokens (ascii "a<|im_end|>a") 0 pieces' →
        pieces' = pieces) ∧
      encodeAllocImpl sampleTables taggedA mapEntries (ascii "a<|im_end|>a") true =
        (encodePieces (encodeSegment sampleTables taggedA) pieces).bind fun ids =>
          if INT32_MAX < ids.length then none else some ids :=
  encodeAllocImpl_split sampleTables taggedA (by decide) mapEntries (enumerates_entries _) _

/-! ## More ids than an `int` counts -/

/-- The letter `a` is a special token. -/
def specialA : Tokenizer := { doubleA with specialTokens := (∅ : StrMap).insert (ascii "a") 0 }

theorem specialA_lookup (key : Bytes) (h : key ∈ specialA.specialTokens) : key = ascii "a" := by
  rcases (AList.mem_insert (∅ : StrMap)).mp h with h | h
  · exact h
  · exact absurd h (AList.notMem_empty key)

theorem specialA_split (n k : Nat) (hk : k ≤ n) :
    Split specialA.specialTokens (List.replicate n 0x61) (n - k) (List.replicate k (.special 0)) := by
  induction k with
  | zero => exact .done (by simp)
  | succ k ih =>
    have hkey : (ascii "a").length = 1 := by decide
    have hocc : OccursAt (List.replicate n 0x61) (ascii "a") (n - (k + 1)) := by
      refine ⟨by decide, by rw [hkey, List.length_replicate]; omega, ?_⟩
      have hone : min 1 (n - (n - (k + 1))) = 1 := by omega
      simp only [hkey, slice, Nat.add_sub_cancel_left, List.drop_replicate, List.take_replicate,
        hone]
      decide
    have hbest : EarliestLongest specialA.specialTokens (List.replicate n 0x61) (n - (k + 1))
        (n - (k + 1)) (ascii "a") :=
      ⟨le_refl _, hocc, fun _ _ _ h _ => h, fun key' hmem _ => by rw [specialA_lookup key' hmem]⟩
    have hrest : Split specialA.specialTokens (List.replicate n 0x61)
        (n - (k + 1) + (ascii "a").length) (List.replicate k (.special 0)) := by
      rw [hkey, show n - (k + 1) + 1 = n - k by omega]
      exact ih (by omega)
    have hlookup : specialA.specialTokens.lookup (ascii "a") = some 0 := by decide
    have hsplit := Split.hit hlookup hbest hrest
    rwa [gapBefore, if_neg (lt_irrefl _)] at hsplit

theorem encodePieces_specials (encode : Bytes → Option (List Int)) (k : Nat) :
    encodePieces encode (List.replicate k (.special 0)) = some (List.replicate k 0) := by
  induction k with
  | zero => rfl
  | succ k ih =>
    rw [List.replicate_succ, encodePieces, ih]
    rfl

/-- One special token more than an `int` counts: the reference split has no gap to fail, and
the encoder gives nothing. -/
theorem encodeAllocImpl_overflow : ∃ text pieces ids,
    Split specialA.specialTokens text 0 pieces ∧
      encodePieces (encodeSegment sampleTables specialA) pieces = some ids ∧
      encodeAllocImpl sampleTables specialA mapEntries text true = none := by
  let n := INT32_MAX + 1
  have hsplit := specialA_split n n (le_refl n)
  rw [Nat.sub_self] at hsplit
  have hids := encodePieces_specials (encodeSegment sampleTables specialA) n
  refine ⟨_, _, _, hsplit, hids, ?_⟩
  obtain ⟨pieces, hpieces, hscan⟩ := scanLoop_split sampleTables specialA
    (specialSites_sites (enumerates_entries specialA.specialTokens) (List.replicate n 0x61))
    (specialSites_cached _ _ _) (Nat.zero_le _) (show _ < 0 + (n + 1) by simp)
  rw [hsplit.unique hpieces, hids] at hscan
  rw [encodeAllocImpl, if_neg (by decide), if_pos rfl, List.length_replicate, hscan]
  have hlen : INT32_MAX < (List.replicate n (0 : Int)).length := by
    rw [List.length_replicate]
    exact Nat.lt_succ_self _
  simp only [if_pos hlen]

end Mlxd.Encode
