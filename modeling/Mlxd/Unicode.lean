import Mathlib.Data.List.TakeWhile
import Mathlib.Data.Nat.Bitwise
import Mathlib.Tactic.Common

/-!
# UTF-8 codepoints, character classes and the byte table

The decoder reads one codepoint at a position and reports invalid bytes as
U+FFFD of length one. The classifiers search the generated range tables, which
are a parameter here. The byte table maps every byte to a printable codepoint.
-/
namespace Mlxd.Unicode

abbrev Bytes := List UInt8

/-- The bytes `text[start..stop)`. -/
def slice (text : Bytes) (start stop : Nat) : Bytes := (text.drop start).take (stop - start)

/-- A C string: everything before the first NUL. -/
def cstr (s : Bytes) : Bytes := s.takeWhile (· ≠ 0)

structure CpInfo where
  cp : Nat
  len : Nat
  deriving DecidableEq, Repr

/-- U+FFFD standing for one invalid byte. -/
def invalid : CpInfo := ⟨0xFFFD, 1⟩

/-- Shift `n` continuation bytes into `cp`; `none` when one is missing or malformed. -/
def continuation : Nat → Nat → Bytes → Option Nat
  | 0, cp, _ => some cp
  | n + 1, cp, b :: t =>
    if b &&& 0xC0 = 0x80 then continuation n (cp <<< 6 ||| (b &&& 0x3F).toNat) t else none
  | _ + 1, _, [] => none

/-- The least codepoint that needs `byteLen` bytes. -/
def minCp : Nat → Nat
  | 2 => 0x80
  | 3 => 0x800
  | _ => 0x10000

/-- Read the continuation bytes, then reject overlong forms, surrogates and
values above U+10FFFF. -/
def decodeMultibyte (byteLen cp : Nat) (rest : Bytes) : CpInfo :=
  match continuation (byteLen - 1) cp rest with
  | none => invalid
  | some cp =>
    if cp < minCp byteLen ∨ (0xD800 ≤ cp ∧ cp ≤ 0xDFFF) ∨ 0x10FFFF < cp then invalid
    else ⟨cp, byteLen⟩

/-- Decode the codepoint at the head of a byte sequence. -/
def decodeHead : Bytes → CpInfo
  | [] => ⟨0, 0⟩
  | lead :: rest =>
    if lead < 0x80 then ⟨lead.toNat, 1⟩
    else if lead &&& 0xE0 = 0xC0 then decodeMultibyte 2 (lead &&& 0x1F).toNat rest
    else if lead &&& 0xF0 = 0xE0 then decodeMultibyte 3 (lead &&& 0x0F).toNat rest
    else if lead &&& 0xF8 = 0xF0 then decodeMultibyte 4 (lead &&& 0x07).toNat rest
    else invalid

def ucDecodeCodepoint (text : Bytes) (pos : Nat) : CpInfo := decodeHead (text.drop pos)

/-- The UTF-8 form of a codepoint; empty for surrogates and above U+10FFFF. -/
def ucEncodeCodepoint (cp : Nat) : Bytes :=
  if cp < 0x80 then [UInt8.ofNat cp]
  else if cp < 0x800 then [UInt8.ofNat (0xC0 ||| cp >>> 6), UInt8.ofNat (0x80 ||| cp &&& 0x3F)]
  else if cp < 0x10000 then
    if 0xD800 ≤ cp ∧ cp ≤ 0xDFFF then []
    else [UInt8.ofNat (0xE0 ||| cp >>> 12), UInt8.ofNat (0x80 ||| cp >>> 6 &&& 0x3F),
      UInt8.ofNat (0x80 ||| cp &&& 0x3F)]
  else if cp ≤ 0x10FFFF then
    [UInt8.ofNat (0xF0 ||| cp >>> 18), UInt8.ofNat (0x80 ||| cp >>> 12 &&& 0x3F),
      UInt8.ofNat (0x80 ||| cp >>> 6 &&& 0x3F), UInt8.ofNat (0x80 ||| cp &&& 0x3F)]
  else []

inductive UcScanResult where
  | ascii | valid | invalid
  deriving DecidableEq, Repr

/-- Scan codepoint by codepoint; the fuel bounds the codepoints. -/
def ucUtf8ScanLoop : Nat → Bytes → Bool → UcScanResult
  | 0, _, sawNonAscii => if sawNonAscii then .valid else .ascii
  | fuel + 1, s, sawNonAscii =>
    if s = [] then if sawNonAscii then .valid else .ascii
    else if decodeHead s = invalid then .invalid
    else ucUtf8ScanLoop fuel (s.drop (decodeHead s).len) (sawNonAscii || 0x80 ≤ (decodeHead s).cp)

def UINT32_MAX : Nat := 4294967295

def ucUtf8Scan (data : Bytes) : UcScanResult :=
  ucUtf8ScanLoop data.length (data.take UINT32_MAX) false

/-! ## Character classes -/

structure UcRange where
  lo : Nat
  hi : Nat
  deriving DecidableEq, Repr, Inhabited

/-- The generated tables for letters, marks and numbers. -/
structure UcTables where
  letter : Array UcRange
  mark : Array UcRange
  number : Array UcRange

/-- Binary search in `r[lo..hi)`; the interval shrinks in every iteration. -/
def inRangesLoop (cp : Nat) (r : Array UcRange) : Nat → Nat → Nat → Bool
  | 0, _, _ => false
  | fuel + 1, lo, hi =>
    if lo < hi then
      let mid := lo + (hi - lo) / 2
      if cp < r[mid]!.lo then inRangesLoop cp r fuel lo mid
      else if r[mid]!.hi < cp then inRangesLoop cp r fuel (mid + 1) hi
      else true
    else false

def inRanges (cp : Nat) (r : Array UcRange) : Bool := inRangesLoop cp r r.size 0 r.size

def ucIsLetter (T : UcTables) (cp : Nat) : Bool :=
  if cp < 0x80 then (0x41 ≤ cp && cp ≤ 0x5A) || (0x61 ≤ cp && cp ≤ 0x7A)
  else inRanges cp T.letter

def ucIsMark (T : UcTables) (cp : Nat) : Bool :=
  if cp < 0x80 then false else inRanges cp T.mark

def ucIsLetterOrMark (T : UcTables) (cp : Nat) : Bool := ucIsLetter T cp || ucIsMark T cp

def ucIsNumber (T : UcTables) (cp : Nat) : Bool :=
  if cp < 0x80 then 0x30 ≤ cp && cp ≤ 0x39 else inRanges cp T.number

def ucIsWhitespace (c : Nat) : Bool :=
  c == 0x20 || c == 0x09 || c == 0x0A || c == 0x0D || c == 0x0B || c == 0x0C

def ucIsWhitespaceCp (cp : Nat) : Bool :=
  if cp ≤ 0xFF then ucIsWhitespace cp || cp == 0x85 || cp == 0xA0
  else cp == 0x1680 || (0x2000 ≤ cp && cp ≤ 0x200A) || cp == 0x2028 || cp == 0x2029 ||
    cp == 0x202F || cp == 0x205F || cp == 0x3000

/-! ## The byte table -/

def UINT16_MAX : Nat := 65535

def UC_BYTES_UNICODE_REV_SIZE : Nat := 324

/-- The two tables; `UINT16_MAX` marks a codepoint no byte maps to. -/
structure BytesUnicode where
  byteToCp : Nat → Nat
  cpToByte : Nat → Nat

/-- The bytes that stand for themselves. -/
def selfMapped (b : Nat) : Bool :=
  (0x21 ≤ b && b ≤ 0x7E) || (0xA1 ≤ b && b ≤ 0xAC) || (0xAE ≤ b && b ≤ 0xFF)

/-- The tables after the first `b` bytes, with the next free codepoint. -/
def buildBytes : Nat → BytesUnicode × Nat
  | 0 => (⟨fun _ => 0, fun _ => UINT16_MAX⟩, 256)
  | b + 1 =>
    let (t, n) := buildBytes b
    let cp := if selfMapped b then b else n
    (⟨Function.update t.byteToCp b cp, Function.update t.cpToByte cp b⟩,
      if selfMapped b then n else n + 1)

def ucBuildBytesToUnicode : BytesUnicode := (buildBytes 256).1

/-! ## C strings -/

/-- Without a NUL a byte string is its own C string. -/
theorem cstr_of_not_mem (s : Bytes) (h : (0 : UInt8) ∉ s) : cstr s = s := by
  rw [cstr, List.takeWhile_eq_self_iff]
  intro x hx
  simp only [decide_eq_true_eq]
  rintro rfl
  exact h hx

/-! ## Decoding an encoded codepoint -/

theorem decodeHead_len_pos (s : Bytes) (h : s ≠ []) : 0 < (decodeHead s).len := by
  cases s with
  | nil => exact absurd rfl h
  | cons lead rest =>
    have hmb : ∀ n cp, 0 < n → 0 < (decodeMultibyte n cp rest).len := by
      intro n cp hn
      unfold decodeMultibyte
      split
      · exact Nat.one_pos
      · split
        · exact Nat.one_pos
        · exact hn
    simp only [decodeHead]
    repeat' split
    all_goals first
      | exact Nat.one_pos
      | exact hmb _ _ (by decide)

theorem continuation_length (n cp cp' : Nat) (s : Bytes) (h : continuation n cp s = some cp') :
    n ≤ s.length := by
  induction n generalizing cp s with
  | zero => exact Nat.zero_le _
  | succ n ih =>
    cases s with
    | nil => simp [continuation] at h
    | cons b t =>
      simp only [continuation] at h
      split at h
      · have := ih _ _ h
        simp only [List.length_cons]
        omega
      · contradiction

theorem decodeHead_len_le (s : Bytes) : (decodeHead s).len ≤ s.length := by
  cases s with
  | nil => exact Nat.le_refl _
  | cons lead rest =>
    have hmb : ∀ n cp, 0 < n → (decodeMultibyte n cp rest).len ≤ (lead :: rest).length := by
      intro n cp hn
      unfold decodeMultibyte
      split
      · simp [invalid]
      · rename_i hc
        have := continuation_length _ _ _ _ hc
        split
        · simp [invalid]
        · simp only [List.length_cons]
          omega
    simp only [decodeHead]
    repeat' split
    all_goals first
      | exact hmb _ _ (by decide)
      | simp [invalid]

theorem continuation_append (n cp cp' : Nat) (s t : Bytes) (h : continuation n cp s = some cp') :
    continuation n cp (s ++ t) = some cp' := by
  induction n generalizing cp s with
  | zero => exact h
  | succ n ih =>
    cases s with
    | nil => simp [continuation] at h
    | cons b s =>
      simp only [continuation, List.cons_append] at h ⊢
      split at h
      · rename_i hb
        rw [if_pos hb]
        exact ih _ _ h
      · contradiction

/-- What follows a valid codepoint does not change it. -/
theorem decodeHead_append (s t : Bytes) (hs : s ≠ []) (h : decodeHead s ≠ invalid) :
    decodeHead (s ++ t) = decodeHead s := by
  cases s with
  | nil => exact absurd rfl hs
  | cons lead rest =>
    have hmb : ∀ n cp, decodeMultibyte n cp rest ≠ invalid →
        decodeMultibyte n cp (rest ++ t) = decodeMultibyte n cp rest := by
      intro n cp hne
      unfold decodeMultibyte at hne ⊢
      cases hc : continuation (n - 1) cp rest with
      | none => simp [hc] at hne
      | some cp' => rw [continuation_append _ _ _ _ _ hc]
    simp only [decodeHead, List.cons_append] at h ⊢
    repeat' split
    all_goals first
      | rfl
      | exact hmb _ _ (by simp_all)

theorem continuation_take {n cp cp' : Nat} {s : Bytes} (h : continuation n cp s = some cp') {m : Nat}
    (hm : n ≤ m) : continuation n cp (s.take m) = some cp' := by
  induction n generalizing cp s m with
  | zero => exact h
  | succ n ih =>
    cases s with
    | nil => contradiction
    | cons b t =>
      obtain ⟨m, rfl⟩ : ∃ k, m = k + 1 := ⟨m - 1, by omega⟩
      simp only [continuation, List.take_succ_cons] at h ⊢
      split at h
      · rename_i hb
        rw [if_pos hb]
        exact ih h (by omega)
      · contradiction

/-- The lead byte alone decides how the rest is read. -/
theorem decodeHead_lead (b : UInt8) :
    (∃ info : CpInfo, info.len = 1 ∧ ∀ t, decodeHead (b :: t) = info) ∨
    ∃ n cp, ∀ t, decodeHead (b :: t) = decodeMultibyte n cp t := by
  simp only [decodeHead]
  split
  · exact .inl ⟨_, rfl, fun _ => rfl⟩
  · split
    · exact .inr ⟨_, _, fun _ => rfl⟩
    · split
      · exact .inr ⟨_, _, fun _ => rfl⟩
      · split
        · exact .inr ⟨_, _, fun _ => rfl⟩
        · exact .inl ⟨invalid, rfl, fun _ => rfl⟩

theorem decodeMultibyte_take {n cp : Nat} {t : Bytes} (h : decodeMultibyte n cp t ≠ invalid) :
    decodeMultibyte n cp (t.take ((decodeMultibyte n cp t).len - 1)) = decodeMultibyte n cp t := by
  simp only [decodeMultibyte] at h ⊢
  cases hc : continuation (n - 1) cp t with
  | none => simp [hc] at h
  | some cp' =>
    simp only [hc] at h ⊢
    split at h
    · exact absurd rfl h
    · rename_i hvalid
      simp only [if_neg hvalid, continuation_take hc (le_refl _)]

/-- What is cut off behind a codepoint has no part in it. -/
theorem decodeHead_take (s : Bytes) (hs : s ≠ []) (h : decodeHead s ≠ invalid) :
    decodeHead (s.take (decodeHead s).len) = decodeHead s := by
  cases s with
  | nil => exact absurd rfl hs
  | cons b t =>
    have hpos := decodeHead_len_pos (b :: t) hs
    obtain ⟨k, hk⟩ : ∃ k, (decodeHead (b :: t)).len = k + 1 :=
      ⟨(decodeHead (b :: t)).len - 1, by omega⟩
    rw [hk, List.take_succ_cons]
    rcases decodeHead_lead b with ⟨info, -, hinfo⟩ | ⟨n, cp, hmb⟩
    · rw [hinfo, hinfo]
    · rw [hmb] at h hk ⊢
      have hcut := decodeMultibyte_take h
      rw [hk, Nat.add_sub_cancel] at hcut
      rw [hmb, hcut]

theorem lead_two (a : Nat) (h : a < 32) : ¬ UInt8.ofNat (0xC0 ||| a) < 0x80 ∧
    UInt8.ofNat (0xC0 ||| a) &&& 0xE0 = 0xC0 ∧ (UInt8.ofNat (0xC0 ||| a) &&& 0x1F).toNat = a := by
  revert a
  decide

theorem lead_three (a : Nat) (h : a < 16) : ¬ UInt8.ofNat (0xE0 ||| a) < 0x80 ∧
    ¬ UInt8.ofNat (0xE0 ||| a) &&& 0xE0 = 0xC0 ∧ UInt8.ofNat (0xE0 ||| a) &&& 0xF0 = 0xE0 ∧
    (UInt8.ofNat (0xE0 ||| a) &&& 0x0F).toNat = a := by
  revert a
  decide

theorem lead_four (a : Nat) (h : a < 8) : ¬ UInt8.ofNat (0xF0 ||| a) < 0x80 ∧
    ¬ UInt8.ofNat (0xF0 ||| a) &&& 0xE0 = 0xC0 ∧ ¬ UInt8.ofNat (0xF0 ||| a) &&& 0xF0 = 0xE0 ∧
    UInt8.ofNat (0xF0 ||| a) &&& 0xF8 = 0xF0 ∧ (UInt8.ofNat (0xF0 ||| a) &&& 0x07).toNat = a := by
  revert a
  decide

theorem trail_byte (a : Nat) (h : a < 64) : UInt8.ofNat (0x80 ||| a) &&& 0xC0 = 0x80 ∧
    (UInt8.ofNat (0x80 ||| a) &&& 0x3F).toNat = a := by
  revert a
  decide

/-- One continuation byte appends its six bits. -/
theorem continuation_cons (n cp a : Nat) (h : a < 64) (t : Bytes) :
    continuation (n + 1) cp (UInt8.ofNat (0x80 ||| a) :: t) = continuation n (cp * 64 + a) t := by
  obtain ⟨hb, ha⟩ := trail_byte a h
  have hor : cp <<< 6 ||| a = cp * 64 + a := by
    rw [← Nat.shiftLeft_add_eq_or_of_lt (by simpa using h), Nat.shiftLeft_eq]
  simp only [continuation, if_pos hb, ha, hor]

theorem and_63 (n : Nat) : n &&& 0x3F = n % 64 := Nat.and_two_pow_sub_one_eq_mod n 6

/-- Decoding undoes encoding, whatever bytes follow. -/
theorem decodeHead_encode (cp : Nat) (rest : Bytes) (hmax : cp ≤ 0x10FFFF)
    (hsur : cp < 0xD800 ∨ 0xDFFF < cp) :
    decodeHead (ucEncodeCodepoint cp ++ rest) = ⟨cp, (ucEncodeCodepoint cp).length⟩ := by
  unfold ucEncodeCodepoint
  split
  · rename_i h
    have hn : (UInt8.ofNat cp).toNat = cp := by simp; omega
    have hlt : UInt8.ofNat cp < 0x80 := by
      rw [UInt8.lt_iff_toNat_lt, hn]
      exact h
    simp [decodeHead, hlt, hn]
  · split
    · rename_i h1 h2
      obtain ⟨ha, hb, hc⟩ := lead_two (cp >>> 6) (by simp [Nat.shiftRight_eq_div_pow]; omega)
      simp only [List.cons_append, List.nil_append, decodeHead, if_neg ha, if_pos hb, hc,
        decodeMultibyte, and_63]
      rw [continuation_cons 0 _ _ (Nat.mod_lt _ (by decide))]
      have he : cp >>> 6 * 64 + cp % 64 = cp := by simp [Nat.shiftRight_eq_div_pow]; omega
      simp only [continuation, he, minCp, List.length_cons, List.length_nil]
      rw [if_neg (by omega)]
    · split
      · rename_i h1 h2 h3
        obtain ⟨ha, hb, hc, hd⟩ :=
          lead_three (cp >>> 12) (by simp [Nat.shiftRight_eq_div_pow]; omega)
        rw [if_neg (by omega)]
        simp only [List.cons_append, List.nil_append, decodeHead, if_neg ha, if_neg hb, if_pos hc,
          hd, decodeMultibyte, and_63]
        rw [continuation_cons 1 _ _ (Nat.mod_lt _ (by decide)),
          continuation_cons 0 _ _ (Nat.mod_lt _ (by decide))]
        have he : (cp >>> 12 * 64 + cp >>> 6 % 64) * 64 + cp % 64 = cp := by
          simp only [Nat.shiftRight_eq_div_pow]; omega
        simp only [continuation, he, minCp, List.length_cons, List.length_nil]
        rw [if_neg (by omega)]
      · rename_i h1 h2 h3
        obtain ⟨ha, hb, hc, hd, hf⟩ :=
          lead_four (cp >>> 18) (by simp [Nat.shiftRight_eq_div_pow]; omega)
        simp only [List.cons_append, List.nil_append, decodeHead, if_neg ha, if_neg hb, if_neg hc,
          if_pos hd, hf, decodeMultibyte, and_63]
        rw [continuation_cons 2 _ _ (Nat.mod_lt _ (by decide)),
          continuation_cons 1 _ _ (Nat.mod_lt _ (by decide)),
          continuation_cons 0 _ _ (Nat.mod_lt _ (by decide))]
        have he : ((cp >>> 18 * 64 + cp >>> 12 % 64) * 64 + cp >>> 6 % 64) * 64 + cp % 64 = cp := by
          simp only [Nat.shiftRight_eq_div_pow]; omega
        simp only [continuation, he, minCp, List.length_cons, List.length_nil]
        rw [if_neg (by omega)]

/-! ## The byte table is invertible -/

/-- After `b` bytes, every mapped codepoint leads back to its byte. -/
theorem buildBytes_inverse (b : Nat) (hb : b ≤ 256) :
    256 ≤ (buildBytes b).2 ∧ ∀ b' < b,
      ((buildBytes b).1.byteToCp b' = b' ∧ selfMapped b' = true ∨
        256 ≤ (buildBytes b).1.byteToCp b' ∧ (buildBytes b).1.byteToCp b' < (buildBytes b).2) ∧
      (buildBytes b).1.cpToByte ((buildBytes b).1.byteToCp b') = b' := by
  induction b with
  | zero => exact ⟨Nat.le_refl _, fun b' h => absurd h (Nat.not_lt_zero _)⟩
  | succ b ih =>
    obtain ⟨hn, hprev⟩ := ih (by omega)
    cases hs : selfMapped b with
    | true =>
      simp only [buildBytes, hs, ↓reduceIte]
      refine ⟨hn, fun b' hb' => ?_⟩
      by_cases he : b' = b
      · subst b'; simp [hs]
      · obtain ⟨hcase, hinv⟩ := hprev b' (by omega)
        have hne : (buildBytes b).1.byteToCp b' ≠ b := by omega
        simp [Function.update, he, hne, hinv, hcase]
    | false =>
      simp only [buildBytes, hs, Bool.false_eq_true, ↓reduceIte]
      refine ⟨by omega, fun b' hb' => ?_⟩
      by_cases he : b' = b
      · subst b'; simp; omega
      · obtain ⟨hcase, hinv⟩ := hprev b' (by omega)
        have hne : (buildBytes b).1.byteToCp b' ≠ (buildBytes b).2 := by omega
        simp only [Function.update, he, hne, hinv, ↓reduceDIte, and_true]
        exact hcase.imp_right fun h => ⟨h.1, by omega⟩

theorem buildBytes_next : (buildBytes 256).2 = UC_BYTES_UNICODE_REV_SIZE := by
  decide +kernel

theorem byteToCp_lt (b : Nat) (hb : b < 256) :
    ucBuildBytesToUnicode.byteToCp b < UC_BYTES_UNICODE_REV_SIZE := by
  have h := (buildBytes_inverse 256 (Nat.le_refl _)).2 b hb
  have hn := buildBytes_next
  simp only [UC_BYTES_UNICODE_REV_SIZE] at hn ⊢
  simp only [ucBuildBytesToUnicode]
  omega

theorem byteToCp_pos (b : Nat) (hb : b < 256) : 0 < ucBuildBytesToUnicode.byteToCp b := by
  have h := ((buildBytes_inverse 256 (Nat.le_refl _)).2 b hb).1
  rw [← ucBuildBytesToUnicode] at h
  rcases h with ⟨he, hs⟩ | h
  · refine Nat.pos_of_ne_zero fun h0 => ?_
    obtain rfl : b = 0 := by omega
    exact Bool.false_ne_true hs
  · omega

theorem cpToByte_byteToCp (b : Nat) (hb : b < 256) :
    ucBuildBytesToUnicode.cpToByte (ucBuildBytesToUnicode.byteToCp b) = b := by
  have h := (buildBytes_inverse 256 (Nat.le_refl _)).2 b hb
  simp only [ucBuildBytesToUnicode]
  exact h.2

end Mlxd.Unicode
