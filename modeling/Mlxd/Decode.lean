import Mlxd.ByteLevel

/-!
# The decoders

`tokenizerDecode` and the per-mode decoders behind it. They return the bytes of the
output buffer; the C string a caller sees ends at the first NUL among them.
-/
namespace Mlxd.Decode

open Mlxd.Unicode Mlxd.Json Mlxd.TokLoad Mlxd.ByteLevel

/-! ## SentencePiece -/

def hexValue (c : UInt8) : Option Nat :=
  if 0x30 ≤ c ∧ c ≤ 0x39 then some (c.toNat - 0x30)
  else if 0x41 ≤ c ∧ c ≤ 0x46 then some (c.toNat - 0x41 + 10)
  else if 0x61 ≤ c ∧ c ≤ 0x66 then some (c.toNat - 0x61 + 10)
  else none

/-- The byte of a token `<0xNN>`. -/
def spByteFallback : Bytes → Option UInt8
  | [0x3C, 0x30, 0x78, hi, lo, 0x3E] =>
    match hexValue hi, hexValue lo with
    | some h, some l => some (UInt8.ofNat (h * 16 + l))
    | _, _ => none
  | _ => none

/-- What one token appends before the markers are rewritten. -/
def spRaw (tok : Tokenizer) (id : Int) : Bytes :=
  match tokenizerDecodeToken tok id with
  | none => []
  | some token =>
    match spByteFallback token with
    | some b => [b]
    | none => token

/-- Rewrite every U+2581 as a space. -/
def replaceMarkers : Bytes → Bytes
  | a :: b :: c :: t =>
    if a = 0xE2 ∧ b = 0x96 ∧ c = 0x81 then 0x20 :: replaceMarkers t
    else a :: replaceMarkers (b :: c :: t)
  | s => s

def decodeSentencepiece (tok : Tokenizer) (ids : List Int) (stripLeadingSpace : Bool) : Bytes :=
  let raw := replaceMarkers (ids.flatMap (spRaw tok))
  if stripLeadingSpace ∧ raw.head? = some 0x20 then raw.tail else raw

/-! ## WordPiece -/

def cleanupPrefixes : List Bytes :=
  [ascii ".", ascii "?", ascii "!", ascii ",", ascii "n't", ascii "'m", ascii "'s", ascii "'ve",
    ascii "'re"]

def wpCleanupDropsSpace (token : Bytes) : Bool := cleanupPrefixes.any (·.isPrefixOf token)

def decodeWordpiece (tok : Tokenizer) : List Int → Bytes → Bytes
  | [], out => out
  | id :: ids, out =>
    match tokenizerDecodeToken tok id with
    | none => decodeWordpiece tok ids out
    | some token =>
      if id = tok.bosId ∨ id = tok.eosId then decodeWordpiece tok ids out
      else if (tok.addedSpecial.lookup token).isSome then decodeWordpiece tok ids out
      else if tok.wpPrefix ≠ [] ∧ tok.wpPrefix.isPrefixOf token then
        decodeWordpiece tok ids (out ++ token.drop tok.wpPrefix.length)
      else
        let space := out ≠ [] ∧ ¬ (tok.wpCleanup ∧ wpCleanupDropsSpace token)
        decodeWordpiece tok ids (out ++ (if space then [0x20] else []) ++ token)

/-- The output buffer of `tokenizer_decode`; `none` for NULL. -/
def tokenizerDecode (tok : Tokenizer) (ids : List Int) : Option Bytes :=
  match tok.type with
  | .bpe => decodeByteLevel tok ids
  | .wordpiece => some (decodeWordpiece tok ids [])
  | .sentencepieceBpe => some (decodeSentencepiece tok ids false)

/-! ## Markers and concatenation -/

/-- `x` ends inside a marker that `y` completes. -/
def Straddle (x y : Bytes) : Prop :=
  (∃ x' y', x = x' ++ [0xE2] ∧ y = 0x96 :: 0x81 :: y') ∨
    ∃ x' y', x = x' ++ [0xE2, 0x96] ∧ y = 0x81 :: y'

@[simp] theorem replaceMarkers_nil : replaceMarkers [] = [] := rfl

@[simp] theorem replaceMarkers_marker (t : Bytes) :
    replaceMarkers (0xE2 :: 0x96 :: 0x81 :: t) = 0x20 :: replaceMarkers t := by
  simp [replaceMarkers]

theorem replaceMarkers_cons (a : UInt8) (s : Bytes)
    (h : ∀ t, a :: s ≠ 0xE2 :: 0x96 :: 0x81 :: t) :
    replaceMarkers (a :: s) = a :: replaceMarkers s := by
  match s with
  | [] => rfl
  | [b] => rfl
  | b :: c :: t =>
    rw [replaceMarkers, if_neg]
    rintro ⟨rfl, rfl, rfl⟩
    exact h t rfl

theorem replaceMarkers_cons_ne (a : UInt8) (s : Bytes) (h : a ≠ 0xE2) :
    replaceMarkers (a :: s) = a :: replaceMarkers s :=
  replaceMarkers_cons a s fun _ he => h (List.cons.inj he).1

theorem not_straddle_nil (y : Bytes) : ¬ Straddle [] y := by
  rintro (⟨x', y', hx, -⟩ | ⟨x', y', hx, -⟩)
  · exact absurd hx.symm (by simp)
  · exact absurd hx.symm (by simp)

theorem Straddle.cons {x y : Bytes} (a : UInt8) (h : Straddle x y) : Straddle (a :: x) y := by
  rcases h with ⟨x', y', hx, hy⟩ | ⟨x', y', hx, hy⟩
  · exact .inl ⟨a :: x', y', by simp [hx], hy⟩
  · exact .inr ⟨a :: x', y', by simp [hx], hy⟩

theorem Straddle.of_marker {t y : Bytes} (h : Straddle (0xE2 :: 0x96 :: 0x81 :: t) y) :
    Straddle t y := by
  rcases h with ⟨x', y', hx, rfl⟩ | ⟨x', y', hx, rfl⟩
  · match x' with
    | [] | [_] | [_, _] => simp at hx
    | _ :: _ :: _ :: x' =>
      simp only [List.cons_append, List.cons.injEq] at hx
      exact .inl ⟨x', y', hx.2.2.2, rfl⟩
  · match x' with
    | [] | [_] | [_, _] => simp at hx
    | _ :: _ :: _ :: x' =>
      simp only [List.cons_append, List.cons.injEq] at hx
      exact .inr ⟨x', y', hx.2.2.2, rfl⟩

/-- A straddling marker begins at the first byte or further on. -/
theorem Straddle.tail {a : UInt8} {x y : Bytes} (h : Straddle (a :: x) y) :
    (∃ t, a :: x ++ y = 0xE2 :: 0x96 :: 0x81 :: t) ∨ Straddle x y := by
  rcases h with ⟨x', y', hx, rfl⟩ | ⟨x', y', hx, rfl⟩
  · cases x' with
    | nil => exact .inl ⟨y', by rw [hx]; rfl⟩
    | cons b x' => exact .inr (.inl ⟨x', y', (List.cons.inj hx).2, rfl⟩)
  · cases x' with
    | nil => exact .inl ⟨y', by rw [hx]; rfl⟩
    | cons b x' => exact .inr (.inr ⟨x', y', (List.cons.inj hx).2, rfl⟩)

/-- Where no marker straddles, the parts are rewritten on their own; where one does,
the whole is two bytes shorter than its parts. -/
theorem replaceMarkers_append (x y : Bytes) :
    (¬ Straddle x y ∧ replaceMarkers (x ++ y) = replaceMarkers x ++ replaceMarkers y) ∨
    (Straddle x y ∧ (replaceMarkers (x ++ y)).length + 2 =
      (replaceMarkers x).length + (replaceMarkers y).length) := by
  match x with
  | [] => exact .inl ⟨not_straddle_nil y, rfl⟩
  | a :: x =>
    by_cases hx : ∃ t, a :: x = 0xE2 :: 0x96 :: 0x81 :: t
    · obtain ⟨t, ht⟩ := hx
      obtain ⟨rfl, rfl⟩ := List.cons.inj ht
      have hs : Straddle (0xE2 :: 0x96 :: 0x81 :: t) y ↔ Straddle t y :=
        ⟨Straddle.of_marker, fun h => ((h.cons _).cons _).cons _⟩
      simp only [List.cons_append, replaceMarkers_marker, hs, List.length_cons]
      rcases replaceMarkers_append t y with ⟨h1, h2⟩ | ⟨h1, h2⟩
      · exact .inl ⟨h1, by rw [h2]⟩
      · exact .inr ⟨h1, by omega⟩
    · simp only [not_exists] at hx
      rw [replaceMarkers_cons a x hx]
      by_cases hxy : ∃ t, a :: x ++ y = 0xE2 :: 0x96 :: 0x81 :: t
      · -- the marker that starts here needs bytes of `y`
        obtain ⟨t, ht⟩ := hxy
        match x, hx, ht with
        | [], _, ht =>
          obtain ⟨rfl, rfl⟩ := List.cons.inj ht
          refine .inr ⟨.inl ⟨[], t, rfl, rfl⟩, ?_⟩
          rw [List.cons_append, List.nil_append, replaceMarkers_marker,
            replaceMarkers_cons_ne _ _ (by decide), replaceMarkers_cons_ne _ _ (by decide)]
          simp only [replaceMarkers_nil, List.length_cons, List.length_nil]
          omega
        | [b], _, ht =>
          simp only [List.cons_append, List.nil_append, List.cons.injEq] at ht
          obtain ⟨rfl, rfl, rfl⟩ := ht
          refine .inr ⟨.inr ⟨[], t, rfl, rfl⟩, ?_⟩
          simp only [List.cons_append, List.nil_append, replaceMarkers_marker,
            replaceMarkers_cons_ne _ _ (show (0x81 : UInt8) ≠ 0xE2 by decide), replaceMarkers,
            List.length_cons, List.length_nil]
          omega
        | b :: c :: x, hx, ht =>
          simp only [List.cons_append, List.cons.injEq] at ht
          obtain ⟨rfl, rfl, rfl, -⟩ := ht
          exact absurd rfl (hx x)
      · simp only [not_exists] at hxy
        have hs : Straddle (a :: x) y ↔ Straddle x y :=
          ⟨fun h => h.tail.resolve_left fun ⟨t, ht⟩ => hxy t ht, Straddle.cons a⟩
        rw [List.cons_append, replaceMarkers_cons a (x ++ y) hxy, hs]
        rcases replaceMarkers_append x y with ⟨h1, h2⟩ | ⟨h1, h2⟩
        · exact .inl ⟨h1, by rw [h2]; rfl⟩
        · exact .inr ⟨h1, by simp only [List.length_cons]; omega⟩
termination_by x.length

/-- No piece ends inside a marker that the following pieces complete. -/
def NoStraddle (pieces : List Bytes) : Prop :=
  ∀ L r R, pieces = L ++ r :: R → ¬ Straddle r R.flatten

theorem noStraddle_cons (r : Bytes) (rs : List Bytes) :
    NoStraddle (r :: rs) ↔ ¬ Straddle r rs.flatten ∧ NoStraddle rs := by
  constructor
  · exact fun h => ⟨h [] r rs rfl, fun L r' R he => h (r :: L) r' R (by rw [he]; rfl)⟩
  · rintro ⟨h, hs⟩ L r' R he
    cases L with
    | nil =>
      obtain ⟨rfl, rfl⟩ := List.cons.inj he
      exact h
    | cons x L => exact hs L r' R (List.cons.inj he).2

theorem Straddle.mono {x y : Bytes} (h : Straddle x y) (z : Bytes) : Straddle x (y ++ z) := by
  rcases h with ⟨x', y', hx, rfl⟩ | ⟨x', y', hx, rfl⟩
  · exact .inl ⟨x', y' ++ z, hx, rfl⟩
  · exact .inr ⟨x', y' ++ z, hx, rfl⟩

theorem NoStraddle.left {L R : List Bytes} (h : NoStraddle (L ++ R)) : NoStraddle L := by
  rintro A r B rfl hs
  refine h A r (B ++ R) (by simp) ?_
  rw [List.flatten_append]
  exact hs.mono _

/-- Rewriting the whole equals rewriting the pieces exactly when no marker straddles, and
is shorter otherwise. -/
theorem replaceMarkers_flatten (rs : List Bytes) :
    (NoStraddle rs ∧ replaceMarkers rs.flatten = rs.flatMap replaceMarkers) ∨
    (¬ NoStraddle rs ∧
      (replaceMarkers rs.flatten).length < (rs.flatMap replaceMarkers).length) := by
  induction rs with
  | nil => exact .inl ⟨fun L r R he => by simp at he, rfl⟩
  | cons r rs ih =>
    simp only [noStraddle_cons, List.flatten_cons, List.flatMap_cons, List.length_append]
    rcases replaceMarkers_append r rs.flatten with ⟨h1, h2⟩ | ⟨h1, h2⟩
    · rcases ih with ⟨h3, h4⟩ | ⟨h3, h4⟩
      · exact .inl ⟨⟨h1, h3⟩, by rw [h2, h4]⟩
      · exact .inr ⟨fun h => h3 h.2, by rw [h2, List.length_append]; omega⟩
    · refine .inr ⟨fun h => h.1 h1, ?_⟩
      have hle : (replaceMarkers rs.flatten).length ≤ (rs.flatMap replaceMarkers).length := by
        rcases ih with ⟨-, h4⟩ | ⟨-, h4⟩
        · exact Nat.le_of_eq (congrArg _ h4)
        · exact Nat.le_of_lt h4
      omega

/-- A NUL is never part of a marker. -/
theorem replaceMarkers_zero (x y : Bytes) :
    replaceMarkers (x ++ 0 :: y) = replaceMarkers x ++ 0 :: replaceMarkers y := by
  rcases replaceMarkers_append x (0 :: y) with ⟨-, h⟩ | ⟨h, -⟩
  · rw [h, replaceMarkers_cons_ne _ _ (by decide)]
  · rcases h with ⟨_, _, -, hy⟩ | ⟨_, _, -, hy⟩
    · exact absurd (List.cons.inj hy).1 (by decide)
    · exact absurd (List.cons.inj hy).1 (by decide)

theorem zero_mem_replaceMarkers (s : Bytes) : (0 : UInt8) ∈ replaceMarkers s ↔ 0 ∈ s := by
  induction s using replaceMarkers.induct with
  | case1 a b c t h ih =>
    obtain ⟨rfl, rfl, rfl⟩ := h
    rw [replaceMarkers_marker]
    simp [ih]
  | case2 a b c t h ih =>
    rw [replaceMarkers, if_neg h]
    simp only [List.mem_cons] at ih ⊢
    rw [ih]
  | case3 s h => rw [replaceMarkers.eq_2 s h]

theorem replaceMarkers_eq_nil (s : Bytes) : replaceMarkers s = [] ↔ s = [] := by
  induction s using replaceMarkers.induct with
  | case1 a b c t h ih =>
    obtain ⟨rfl, rfl, rfl⟩ := h
    simp
  | case2 a b c t h ih => simp [replaceMarkers, if_neg h]
  | case3 s h => rw [replaceMarkers.eq_2 s h]

end Mlxd.Decode
