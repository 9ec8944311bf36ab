import Mlxd.Json
import Mlxd.Lib.Buffer

/-!
# The UTF-8 codec

The shortest forms of the scalar values are given by their bit fields. The decoder finds the
form that starts at a position and reads no byte outside the buffer, the encoder inverts it,
and the scan tells the concatenations of shortest forms from everything else.
-/
namespace Mlxd.Utf8Codec

open Mlxd.Unicode Mlxd.Json Mlxd.Lib.Buffer

/-! ## Well-formed encodings -/

/-- The codepoints that are not surrogates. -/
def Scalar (cp : Nat) : Prop := cp ≤ 0x10FFFF ∧ ¬ (0xD800 ≤ cp ∧ cp ≤ 0xDFFF)

/-- The shortest form of a scalar value, its bit fields from the lead byte on. -/
inductive Encodes : Nat → Bytes → Prop
  | one (a : Nat) (ha : a < 0x80) : Encodes a [UInt8.ofNat a]
  | two (a b : Nat) (ha : a < 32) (hb : b < 64) (hmin : 0x80 ≤ a * 64 + b) :
      Encodes (a * 64 + b) [UInt8.ofNat (0xC0 + a), UInt8.ofNat (0x80 + b)]
  | three (a b c : Nat) (ha : a < 16) (hb : b < 64) (hc : c < 64)
      (hmin : 0x800 ≤ (a * 64 + b) * 64 + c) (hscalar : Scalar ((a * 64 + b) * 64 + c)) :
      Encodes ((a * 64 + b) * 64 + c)
        [UInt8.ofNat (0xE0 + a), UInt8.ofNat (0x80 + b), UInt8.ofNat (0x80 + c)]
  | four (a b c d : Nat) (ha : a < 8) (hb : b < 64) (hc : c < 64) (hd : d < 64)
      (hmin : 0x10000 ≤ ((a * 64 + b) * 64 + c) * 64 + d)
      (hscalar : Scalar (((a * 64 + b) * 64 + c) * 64 + d)) :
      Encodes (((a * 64 + b) * 64 + c) * 64 + d)
        [UInt8.ofNat (0xF0 + a), UInt8.ofNat (0x80 + b), UInt8.ofNat (0x80 + c),
          UInt8.ofNat (0x80 + d)]

/-- A concatenation of shortest forms. -/
inductive WellFormed : Bytes → Prop
  | nil : WellFormed []
  | cons {cp : Nat} {s t : Bytes} (hs : Encodes cp s) (ht : WellFormed t) : WellFormed (s ++ t)

/-! ## The decoder on a buffer -/

def u32 (n : Nat) : Nat := n % 4294967296

/-- The loop over the continuation bytes; the inner `none` is a malformed byte. -/
def trailLoop (text : Array UInt8) (pos : Nat) : Nat → Nat → Nat → Option (Option Nat)
  | 0, _, cp => some (some cp)
  | n + 1, i, cp => do
    let b ← load text (u32 (pos + i))
    if b &&& 0xC0 ≠ 0x80 then some none
    else trailLoop text pos n (i + 1) (u32 (cp <<< 6) ||| (b &&& 0x3F).toNat)

/-- The continuation bytes of a lead byte that announces `byteLen` bytes. -/
def trailAt (text : Array UInt8) (len pos byteLen cp : Nat) : Option CpInfo :=
  if len - pos < byteLen then some invalid
  else do
    match ← trailLoop text pos (byteLen - 1) 1 cp with
    | none => some invalid
    | some cp =>
      if cp < minCp byteLen ∨ (0xD800 ≤ cp ∧ cp ≤ 0xDFFF) ∨ 0x10FFFF < cp then some invalid
      else some ⟨cp, byteLen⟩

/-- `ucDecodeCodepoint` on a buffer of which `len` bytes are text; `none` is a read outside it. -/
def ucDecodeCodepointAt (text : Array UInt8) (len pos : Nat) : Option CpInfo :=
  if len ≤ pos then some ⟨0, 0⟩
  else do
    let lead ← load text pos
    if lead < 0x80 then some ⟨lead.toNat, 1⟩
    else if lead &&& 0xE0 = 0xC0 then trailAt text len pos 2 (lead &&& 0x1F).toNat
    else if lead &&& 0xF0 = 0xE0 then trailAt text len pos 3 (lead &&& 0x0F).toNat
    else if lead &&& 0xF8 = 0xF0 then trailAt text len pos 4 (lead &&& 0x07).toNat
    else some invalid

/-- The scan on a buffer; the fuel bounds the codepoints. -/
def scanLoop (text : Array UInt8) (n : Nat) : Nat → Nat → Bool → Option UcScanResult
  | 0, _, sawNonAscii => some (if sawNonAscii then .valid else .ascii)
  | fuel + 1, pos, sawNonAscii =>
    if pos < n then do
      let r ← ucDecodeCodepointAt text n pos
      if r.len = 0 then some (if sawNonAscii then .valid else .ascii)
      else if r.cp = 0xFFFD ∧ r.len = 1 then some .invalid
      else scanLoop text n fuel (u32 (pos + r.len)) (sawNonAscii || 0x80 ≤ r.cp)
    else some (if sawNonAscii then .valid else .ascii)

def ucUtf8ScanAt (text : Array UInt8) (len : Nat) : Option UcScanResult :=
  if len = 0 then some .ascii else scanLoop text (min len UINT32_MAX) len 0 false

/-! ## No read outside the buffer -/

theorem shift_or_lt {cp low bound : Nat} (hlow : low < 64) (hcp : cp + 1 ≤ bound) :
    (cp <<< 6 ||| low) + 1 ≤ bound * 64 := by
  rw [← Nat.shiftLeft_add_eq_or_of_lt (by simpa using hlow), Nat.shiftLeft_eq]
  omega

theorem trailLoop_eq (text : Array UInt8) (pos n i cp : Nat) (hbound : pos + i + n ≤ text.size)
    (hsize : text.size ≤ UINT32_MAX) (hcp : (cp + 1) * 64 ^ n ≤ 4294967296) :
    trailLoop text pos n i cp = some (continuation n cp (text.toList.drop (pos + i))) := by
  induction n generalizing i cp with
  | zero => rfl
  | succ n ih =>
    have hi : pos + i < text.size := by omega
    have hlist : pos + i < text.toList.length := by simpa using hi
    have hidx : u32 (pos + i) = pos + i := Nat.mod_eq_of_lt (by simp [UINT32_MAX] at hsize; omega)
    have hpow : (cp + 1) * 64 * 64 ^ n ≤ 4294967296 := by
      rw [Nat.mul_assoc, ← Nat.pow_succ']
      exact hcp
    have hle : (cp + 1) * 64 ≤ (cp + 1) * 64 * 64 ^ n :=
      Nat.le_mul_of_pos_right _ (Nat.pow_pos (by decide))
    have hshift : u32 (cp <<< 6) = cp <<< 6 := by
      rw [u32, Nat.shiftLeft_eq]
      exact Nat.mod_eq_of_lt (by omega)
    rw [trailLoop, hidx, load, Array.getElem?_eq_getElem hi, List.drop_eq_getElem_cons hlist,
      continuation, Array.getElem_toList]
    simp only [Option.bind_eq_bind, Option.bind_some, hshift]
    by_cases hb : text[pos + i] &&& 0xC0 = 0x80
    · rw [if_neg (by simpa using hb), if_pos hb, Nat.add_assoc]
      refine ih (i + 1) _ (by omega) (le_trans (Nat.mul_le_mul_right _ ?_) hpow)
      refine shift_or_lt ?_ (Nat.le_refl _)
      have hlow := Nat.and_le_right (n := text[pos + i].toNat) (m := 0x3F)
      rw [UInt8.toNat_and]
      exact Nat.lt_succ_of_le hlow
    · rw [if_pos (by simpa using hb), if_neg hb]

theorem trailAt_eq (text : Array UInt8) (pos n cp : Nat) (hpos : pos < text.size) (hn : 0 < n)
    (hsize : text.size ≤ UINT32_MAX) (hcp : (cp + 1) * 64 ^ (n - 1) ≤ 4294967296) :
    trailAt text text.size pos n cp = some (decodeMultibyte n cp (text.toList.drop (pos + 1))) := by
  unfold trailAt
  split
  · rename_i hshort
    have hnone : continuation (n - 1) cp (text.toList.drop (pos + 1)) = none := by
      by_contra hne
      obtain ⟨cp', hc⟩ := Option.ne_none_iff_exists'.mp hne
      have := continuation_length _ _ _ _ hc
      simp only [List.length_drop, Array.length_toList] at this
      omega
    rw [decodeMultibyte, hnone]
  · rw [trailLoop_eq text pos (n - 1) 1 cp (by omega) hsize hcp, decodeMultibyte]
    simp only [Option.bind_eq_bind, Option.bind_some]
    cases continuation (n - 1) cp (text.toList.drop (pos + 1)) with
    | none => rfl
    | some cp' =>
      dsimp only
      split <;> rfl

theorem field_lt (b : UInt8) (mask : UInt8) : (b &&& mask).toNat + 1 ≤ mask.toNat + 1 := by
  rw [UInt8.toNat_and]
  exact Nat.succ_le_succ Nat.and_le_right

/-- The decoder reads only the text and finds what its head decodes to. -/
theorem ucDecodeCodepointAt_eq (text : Array UInt8) (pos : Nat) (hsize : text.size ≤ UINT32_MAX) :
    ucDecodeCodepointAt text text.size pos = some (ucDecodeCodepoint text.toList pos) := by
  rw [ucDecodeCodepoint]
  by_cases hpos : pos < text.size
  · have hlist : pos < text.toList.length := by simpa using hpos
    have hfield : ∀ n mask, (mask + 1) * 64 ^ (n - 1) ≤ 4294967296 →
        ∀ low : UInt8, low.toNat + 1 ≤ mask + 1 → (low.toNat + 1) * 64 ^ (n - 1) ≤ 4294967296 :=
      fun n mask h low hlow => le_trans (Nat.mul_le_mul_right _ hlow) h
    rw [ucDecodeCodepointAt, if_neg (by omega), load, Array.getElem?_eq_getElem hpos,
      List.drop_eq_getElem_cons hlist, decodeHead, Array.getElem_toList]
    simp only [Option.bind_eq_bind, Option.bind_some]
    rw [trailAt_eq text pos 2 _ hpos (by decide) hsize
        (hfield 2 0x1F (by decide) _ (field_lt _ 0x1F)),
      trailAt_eq text pos 3 _ hpos (by decide) hsize
        (hfield 3 0x0F (by decide) _ (field_lt _ 0x0F)),
      trailAt_eq text pos 4 _ hpos (by decide) hsize
        (hfield 4 0x07 (by decide) _ (field_lt _ 0x07))]
    repeat' split
    all_goals rfl
  · rw [ucDecodeCodepointAt, if_pos (by omega), List.drop_eq_nil_of_le (by simp; omega)]
    rfl

theorem eq_invalid_iff (info : CpInfo) : info = invalid ↔ info.cp = 0xFFFD ∧ info.len = 1 := by
  obtain ⟨cp, len⟩ := info
  simp [invalid]

/-- The scan of a buffer reads only the buffer. -/
theorem scanLoop_eq (text : Array UInt8) (fuel pos : Nat) (saw : Bool)
    (hsize : text.size ≤ UINT32_MAX) (hpos : pos ≤ text.size) :
    scanLoop text text.size fuel pos saw =
      some (ucUtf8ScanLoop fuel (text.toList.drop pos) saw) := by
  induction fuel generalizing pos saw with
  | zero => rfl
  | succ fuel ih =>
    by_cases hlt : pos < text.size
    · have hne : text.toList.drop pos ≠ [] := by
        simpa [List.drop_eq_nil_iff] using hlt
      have hlen := decodeHead_len_pos _ hne
      have hle := decodeHead_len_le (text.toList.drop pos)
      simp only [List.length_drop, Array.length_toList] at hle
      have hnext : u32 (pos + (decodeHead (text.toList.drop pos)).len) =
          pos + (decodeHead (text.toList.drop pos)).len :=
        Nat.mod_eq_of_lt (by simp [UINT32_MAX] at hsize; omega)
      have hinvalid : ((decodeHead (text.toList.drop pos)).cp = 0xFFFD ∧
          (decodeHead (text.toList.drop pos)).len = 1) ↔
          decodeHead (text.toList.drop pos) = invalid := (eq_invalid_iff _).symm
      rw [scanLoop, if_pos hlt, ucDecodeCodepointAt_eq text pos hsize, ucUtf8ScanLoop, if_neg hne]
      simp only [Option.bind_eq_bind, Option.bind_some, ucDecodeCodepoint, hinvalid, hnext,
        if_neg (Nat.pos_iff_ne_zero.mp hlen)]
      split
      · rfl
      · rw [ih _ _ (by omega), List.drop_drop]
    · rw [scanLoop, if_neg hlt, ucUtf8ScanLoop,
        if_pos (List.drop_eq_nil_of_le (by simpa using hlt))]

theorem ucUtf8ScanAt_eq (text : Array UInt8) (hsize : text.size ≤ UINT32_MAX) :
    ucUtf8ScanAt text text.size = some (ucUtf8Scan text.toList) := by
  rw [ucUtf8ScanAt, ucUtf8Scan, List.take_of_length_le (by simpa using hsize),
    Nat.min_eq_left hsize]
  split
  · rename_i h
    obtain rfl : text = #[] := by simpa using h
    rfl
  · rw [scanLoop_eq text _ 0 false hsize (Nat.zero_le _)]
    simp

/-! ## The decoder finds the shortest forms -/

theorem mark_two {a : Nat} (h : a < 32) : 0xC0 ||| a = 0xC0 + a := by
  revert a
  decide

theorem mark_three {a : Nat} (h : a < 16) : 0xE0 ||| a = 0xE0 + a := by
  revert a
  decide

theorem mark_four {a : Nat} (h : a < 8) : 0xF0 ||| a = 0xF0 + a := by
  revert a
  decide

theorem mark_trail {a : Nat} (h : a < 64) : 0x80 ||| a = 0x80 + a := by
  revert a
  decide

/-- A shortest form is what the encoder writes. -/
theorem Encodes.canonical {cp : Nat} {s : Bytes} (h : Encodes cp s) :
    Scalar cp ∧ s = ucEncodeCodepoint cp := by
  cases h with
  | one a ha => exact ⟨⟨by omega, by omega⟩, by rw [ucEncodeCodepoint, if_pos ha]⟩
  | two a b ha hb hmin =>
    have hhi : (a * 64 + b) >>> 6 = a := by rw [Nat.shiftRight_eq_div_pow]; omega
    have hlo : (a * 64 + b) % 64 = b := by omega
    refine ⟨⟨by omega, by omega⟩, ?_⟩
    rw [ucEncodeCodepoint, if_neg (by omega), if_pos (by omega), and_63, hhi, hlo, mark_two ha,
      mark_trail hb]
  | three a b c ha hb hc hmin hscalar =>
    have hhi : ((a * 64 + b) * 64 + c) >>> 12 = a := by
      rw [Nat.shiftRight_eq_div_pow]
      omega
    have hmid : ((a * 64 + b) * 64 + c) >>> 6 % 64 = b := by
      rw [Nat.shiftRight_eq_div_pow]
      omega
    have hlo : ((a * 64 + b) * 64 + c) % 64 = c := by omega
    refine ⟨hscalar, ?_⟩
    rw [ucEncodeCodepoint, if_neg (by omega), if_neg (by omega), if_pos (by omega),
      if_neg hscalar.2, and_63, and_63, hhi, hmid, hlo, mark_three ha, mark_trail hb,
      mark_trail hc]
  | four a b c d ha hb hc hd hmin hscalar =>
    have hhi : (((a * 64 + b) * 64 + c) * 64 + d) >>> 18 = a := by
      rw [Nat.shiftRight_eq_div_pow]
      omega
    have hmid : (((a * 64 + b) * 64 + c) * 64 + d) >>> 12 % 64 = b := by
      rw [Nat.shiftRight_eq_div_pow]
      omega
    have hmid' : (((a * 64 + b) * 64 + c) * 64 + d) >>> 6 % 64 = c := by
      rw [Nat.shiftRight_eq_div_pow]
      omega
    have hlo : (((a * 64 + b) * 64 + c) * 64 + d) % 64 = d := by omega
    refine ⟨hscalar, ?_⟩
    rw [ucEncodeCodepoint, if_neg (by omega), if_neg (by omega), if_neg (by omega),
      if_pos hscalar.1, and_63, and_63, and_63, hhi, hmid, hmid', hlo, mark_four ha,
      mark_trail hb, mark_trail hc, mark_trail hd]

/-- The encoder writes the shortest form. -/
theorem encodes_ucEncodeCodepoint {cp : Nat} (h : Scalar cp) :
    Encodes cp (ucEncodeCodepoint cp) := by
  obtain ⟨hmax, hsur⟩ := h
  unfold ucEncodeCodepoint
  split
  · exact .one cp ‹_›
  · split
    · rename_i h1 h2
      have hcp : cp >>> 6 * 64 + cp % 64 = cp := by rw [Nat.shiftRight_eq_div_pow]; omega
      have hhi : cp >>> 6 < 32 := by rw [Nat.shiftRight_eq_div_pow]; omega
      have hlo : cp % 64 < 64 := Nat.mod_lt _ (by decide)
      have h := Encodes.two (cp >>> 6) (cp % 64) hhi hlo (by omega)
      rwa [hcp, ← mark_two hhi, ← mark_trail hlo, ← and_63] at h
    · split
      · rename_i h1 h2 h3
        have hcp : (cp >>> 12 * 64 + cp >>> 6 % 64) * 64 + cp % 64 = cp := by
          simp only [Nat.shiftRight_eq_div_pow]
          omega
        have hhi : cp >>> 12 < 16 := by rw [Nat.shiftRight_eq_div_pow]; omega
        have hmid : cp >>> 6 % 64 < 64 := Nat.mod_lt _ (by decide)
        have hlo : cp % 64 < 64 := Nat.mod_lt _ (by decide)
        have h := Encodes.three (cp >>> 12) (cp >>> 6 % 64) (cp % 64) hhi hmid hlo (by omega)
          (by rw [hcp]; exact ⟨hmax, hsur⟩)
        rwa [hcp, ← mark_three hhi, ← mark_trail hmid, ← mark_trail hlo, ← and_63, ← and_63] at h
      · rename_i h1 h2 h3
        have hcp : ((cp >>> 18 * 64 + cp >>> 12 % 64) * 64 + cp >>> 6 % 64) * 64 + cp % 64 = cp := by
          simp only [Nat.shiftRight_eq_div_pow]
          omega
        have hhi : cp >>> 18 < 8 := by rw [Nat.shiftRight_eq_div_pow]; omega
        have hmid : cp >>> 12 % 64 < 64 := Nat.mod_lt _ (by decide)
        have hmid' : cp >>> 6 % 64 < 64 := Nat.mod_lt _ (by decide)
        have hlo : cp % 64 < 64 := Nat.mod_lt _ (by decide)
        have h := Encodes.four (cp >>> 18) (cp >>> 12 % 64) (cp >>> 6 % 64) (cp % 64) hhi hmid
          hmid' hlo (by omega) (by rw [hcp]; exact ⟨hmax, hsur⟩)
        rwa [hcp, ← mark_four hhi, ← mark_trail hmid, ← mark_trail hmid', ← mark_trail hlo,
          ← and_63, ← and_63, ← and_63] at h

theorem encodes_iff (cp : Nat) (s : Bytes) :
    Encodes cp s ↔ Scalar cp ∧ s = ucEncodeCodepoint cp :=
  ⟨Encodes.canonical, fun ⟨hscalar, hs⟩ => hs ▸ encodes_ucEncodeCodepoint hscalar⟩

theorem Encodes.pos {cp : Nat} {s : Bytes} (h : Encodes cp s) : 0 < s.length := by
  cases h <;> simp

/-- What starts with a shortest form decodes to it. -/
theorem Encodes.decodeHead {cp : Nat} {s : Bytes} (h : Encodes cp s) (t : Bytes) :
    decodeHead (s ++ t) = ⟨cp, s.length⟩ := by
  obtain ⟨⟨hmax, hsur⟩, rfl⟩ := (encodes_iff cp s).mp h
  exact decodeHead_encode cp t hmax (by omega)

/-- The length tells a shortest form of U+FFFD from an invalid byte. -/
theorem Encodes.ne_invalid {cp : Nat} {s : Bytes} (h : Encodes cp s) : ⟨cp, s.length⟩ ≠ invalid := by
  rintro he
  cases h with
  | one a ha =>
    have := congrArg CpInfo.cp he
    simp only [invalid] at this
    omega
  | _ => exact absurd (congrArg CpInfo.len he) (by simp [invalid])

theorem byte_cases {p : UInt8 → Prop} (h : ∀ n < 256, p (UInt8.ofNat n)) (b : UInt8) : p b := by
  have := h b.toNat (UInt8.toNat_lt b)
  rwa [UInt8.ofNat_toNat] at this

theorem trail_fields (b : UInt8) : b &&& 0xC0 = 0x80 →
    b = UInt8.ofNat (0x80 + (b &&& 0x3F).toNat) ∧ (b &&& 0x3F).toNat < 64 := by
  revert b
  exact byte_cases (by decide +kernel)

theorem lead_fields (b : UInt8) :
    (b < 0x80 → b = UInt8.ofNat b.toNat ∧ b.toNat < 0x80) ∧
    (b &&& 0xE0 = 0xC0 →
      b = UInt8.ofNat (0xC0 + (b &&& 0x1F).toNat) ∧ (b &&& 0x1F).toNat < 32) ∧
    (b &&& 0xF0 = 0xE0 →
      b = UInt8.ofNat (0xE0 + (b &&& 0x0F).toNat) ∧ (b &&& 0x0F).toNat < 16) ∧
    (b &&& 0xF8 = 0xF0 →
      b = UInt8.ofNat (0xF0 + (b &&& 0x07).toNat) ∧ (b &&& 0x07).toNat < 8) := by
  revert b
  exact byte_cases (by decide +kernel)

/-- The bytes a run of continuation bytes consumes, with their six-bit fields. -/
theorem continuation_fields (n cp cp' : Nat) (s : Bytes) (h : continuation n cp s = some cp') :
    ∃ fields : List Nat, fields.length = n ∧ (∀ a ∈ fields, a < 64) ∧
      s.take n = fields.map (fun a => UInt8.ofNat (0x80 + a)) ∧
      cp' = fields.foldl (fun cp a => cp * 64 + a) cp := by
  induction n generalizing cp s with
  | zero => exact ⟨[], rfl, by simp, rfl, (Option.some.inj h).symm⟩
  | succ n ih =>
    cases s with
    | nil => simp [continuation] at h
    | cons b s =>
      simp only [continuation] at h
      split at h
      · rename_i hb
        obtain ⟨hbyte, hlt⟩ := trail_fields b hb
        obtain ⟨fields, hlen, hall, htake, hcp⟩ := ih _ _ h
        refine ⟨(b &&& 0x3F).toNat :: fields, by simp [hlen], ?_, ?_, ?_⟩
        · simpa only [List.forall_mem_cons] using ⟨hlt, hall⟩
        · rw [List.take_succ_cons, htake, List.map_cons, ← hbyte]
        · rw [hcp, List.foldl_cons, ← Nat.shiftLeft_add_eq_or_of_lt (by simpa using hlt),
            Nat.shiftLeft_eq]
      · contradiction

/-- A multi-byte form that is not rejected is the shortest form of its codepoint. -/
theorem decodeMultibyte_fields {n cp : Nat} {t : Bytes} (h : decodeMultibyte n cp t ≠ invalid) :
    ∃ fields : List Nat, fields.length = n - 1 ∧ (∀ a ∈ fields, a < 64) ∧
      t.take (n - 1) = fields.map (fun a => UInt8.ofNat (0x80 + a)) ∧
      decodeMultibyte n cp t = ⟨fields.foldl (fun cp a => cp * 64 + a) cp, n⟩ ∧
      minCp n ≤ fields.foldl (fun cp a => cp * 64 + a) cp ∧
      Scalar (fields.foldl (fun cp a => cp * 64 + a) cp) := by
  unfold decodeMultibyte at h ⊢
  cases hc : continuation (n - 1) cp t with
  | none => simp [hc] at h
  | some cp' =>
    simp only [hc] at h ⊢
    split at h
    · exact absurd rfl h
    · rename_i hvalid
      obtain ⟨fields, hlen, hall, htake, rfl⟩ := continuation_fields _ _ _ _ hc
      rw [if_neg hvalid]
      exact ⟨fields, hlen, hall, htake, rfl, by omega, by omega, by omega⟩

/-- What decodes starts with the shortest form of the codepoint found. -/
theorem encodes_decodeHead (s : Bytes) (hs : s ≠ []) (h : decodeHead s ≠ invalid) :
    Encodes (decodeHead s).cp (s.take (decodeHead s).len) := by
  cases s with
  | nil => exact absurd rfl hs
  | cons b t =>
    obtain ⟨hone, htwo, hthree, hfour⟩ := lead_fields b
    simp only [decodeHead] at h ⊢
    split at h
    · rename_i h1
      obtain ⟨hb, hlt⟩ := hone h1
      rw [if_pos h1]
      have he := Encodes.one _ hlt
      rwa [← hb] at he
    · split at h
      · rename_i h1 h2
        obtain ⟨hb, hlt⟩ := htwo h2
        obtain ⟨fields, hlen, hall, htake, hinfo, hmin, hscalar⟩ := decodeMultibyte_fields h
        obtain ⟨x, rfl⟩ := List.length_eq_one_iff.mp hlen
        rw [if_neg h1, if_pos h2, hinfo]
        have he := Encodes.two _ x hlt (hall x (by simp)) hmin
        rw [← hb] at he
        simpa only [List.take_succ_cons, htake, List.map_cons, List.map_nil, List.foldl_cons,
          List.foldl_nil] using he
      · split at h
        · rename_i h1 h2 h3
          obtain ⟨hb, hlt⟩ := hthree h3
          obtain ⟨fields, hlen, hall, htake, hinfo, hmin, hscalar⟩ := decodeMultibyte_fields h
          obtain ⟨x, y, rfl⟩ := List.length_eq_two.mp hlen
          rw [if_neg h1, if_neg h2, if_pos h3, hinfo]
          have he := Encodes.three _ x y hlt (hall x (by simp)) (hall y (by simp)) hmin hscalar
          rw [← hb] at he
          simpa only [List.take_succ_cons, htake, List.map_cons, List.map_nil, List.foldl_cons,
            List.foldl_nil] using he
        · split at h
          · rename_i h1 h2 h3 h4
            obtain ⟨hb, hlt⟩ := hfour h4
            obtain ⟨fields, hlen, hall, htake, hinfo, hmin, hscalar⟩ := decodeMultibyte_fields h
            obtain ⟨x, y, z, rfl⟩ := List.length_eq_three.mp hlen
            rw [if_neg h1, if_neg h2, if_neg h3, if_pos h4, hinfo]
            have he := Encodes.four _ x y z hlt (hall x (by simp)) (hall y (by simp))
              (hall z (by simp)) hmin hscalar
            rw [← hb] at he
            simpa only [List.take_succ_cons, htake, List.map_cons, List.map_nil, List.foldl_cons,
              List.foldl_nil] using he
          · exact absurd rfl h

/-- Where no shortest form starts, the byte is invalid. -/
theorem decodeHead_invalid_iff (s : Bytes) (hs : s ≠ []) :
    decodeHead s = invalid ↔ ¬ ∃ cp form, Encodes cp form ∧ form <+: s := by
  constructor
  · rintro h ⟨cp, form, he, t, rfl⟩
    rw [he.decodeHead t] at h
    exact he.ne_invalid h
  · intro h
    by_contra hne
    exact h ⟨_, _, encodes_decodeHead s hs hne, List.take_prefix _ _⟩

/-! ## Well-formed text -/

/-- Well-formed text that is not empty starts with a shortest form. -/
theorem WellFormed.split {s : Bytes} (h : WellFormed s) (hs : s ≠ []) :
    ∃ cp form tail, Encodes cp form ∧ WellFormed tail ∧ s = form ++ tail := by
  cases h with
  | nil => exact absurd rfl hs
  | cons hform htail => exact ⟨_, _, _, hform, htail, rfl⟩

/-- The check reads off the characters one by one. -/
theorem wellFormed_iff (s : Bytes) : WellFormed s ↔ isUtf8 s = true := by
  constructor
  · intro h
    induction h with
    | nil => rfl
    | @cons cp s t hs ht ih =>
      have hne : s ≠ [] := List.length_pos_iff.mp hs.pos
      have hd := hs.decodeHead []
      rw [List.append_nil] at hd
      refine isUtf8_append s t ?_ ih
      rw [isUtf8_step s hne, hd]
      simp only [List.drop_length]
      simpa [isUtf8, isUtf8Loop] using hs.ne_invalid
  · intro h
    induction hn : s.length using Nat.strong_induction_on generalizing s with
    | _ n ih =>
      subst hn
      by_cases hs : s = []
      · rw [hs]
        exact .nil
      · have hpos := decodeHead_len_pos s hs
        have hlen := List.length_pos_iff.mpr hs
        rw [isUtf8_step s hs, Bool.and_eq_true, decide_eq_true_eq] at h
        rw [← List.take_append_drop (decodeHead s).len s]
        exact .cons (encodes_decodeHead s hs h.1)
          (ih _ (by simp only [List.length_drop]; omega) _ h.2 rfl)

/-- A codepoint is ASCII exactly when the bytes of its form are. -/
theorem Encodes.ascii_iff {cp : Nat} {s : Bytes} (h : Encodes cp s) :
    cp < 0x80 ↔ ∀ b ∈ s, b < 0x80 := by
  have high : ∀ n, 0x80 ≤ n → n < 256 → ¬ UInt8.ofNat n < 0x80 := fun n hn hlt hc => by
    rw [UInt8.lt_iff_toNat_lt, UInt8.toNat_ofNat', Nat.mod_eq_of_lt hlt] at hc
    exact absurd hc (by simpa using hn)
  cases h with
  | one a ha =>
    simp only [List.mem_singleton, forall_eq, ha, true_iff]
    rw [UInt8.lt_iff_toNat_lt, UInt8.toNat_ofNat', Nat.mod_eq_of_lt (by omega)]
    exact ha
  | two a b ha hb hmin =>
    exact ⟨fun h => by omega, fun h => absurd (h _ List.mem_cons_self) (high _ (by omega) (by omega))⟩
  | three a b c ha hb hc hmin hscalar =>
    exact ⟨fun h => by omega, fun h => absurd (h _ List.mem_cons_self) (high _ (by omega) (by omega))⟩
  | four a b c d ha hb hc hd hmin hscalar =>
    exact ⟨fun h => by omega, fun h => absurd (h _ List.mem_cons_self) (high _ (by omega) (by omega))⟩

/-- The scan reports the first invalid byte, or whether a character was not ASCII. -/
theorem ucUtf8ScanLoop_spec (fuel : Nat) (s : Bytes) (saw : Bool) (hfuel : s.length ≤ fuel) :
    ucUtf8ScanLoop fuel s saw =
      if isUtf8 s then if saw || s.any (0x80 ≤ ·) then .valid else .ascii else .invalid := by
  induction fuel generalizing s saw with
  | zero =>
    obtain rfl : s = [] := List.length_eq_zero_iff.mp (by omega)
    simp [ucUtf8ScanLoop, isUtf8, isUtf8Loop]
  | succ fuel ih =>
    by_cases hs : s = []
    · rw [hs]
      simp [ucUtf8ScanLoop, isUtf8, isUtf8Loop]
    · have hpos := decodeHead_len_pos s hs
      have hlen := List.length_pos_iff.mpr hs
      rw [ucUtf8ScanLoop, if_neg hs, isUtf8_step s hs]
      by_cases hinvalid : decodeHead s = invalid
      · simp [hinvalid]
      · have hany : (0x80 ≤ (decodeHead s).cp : Bool) =
            (s.take (decodeHead s).len).any (0x80 ≤ ·) := by
          have h := (encodes_decodeHead s hs hinvalid).ascii_iff
          rw [Bool.eq_iff_iff, ← not_iff_not]
          simpa using h
        have hsplit : s.any (0x80 ≤ ·) = ((s.take (decodeHead s).len).any (0x80 ≤ ·) ||
            (s.drop (decodeHead s).len).any (0x80 ≤ ·)) := by
          rw [← List.any_append, List.take_append_drop]
        rw [if_neg hinvalid, ih _ _ (by simp only [List.length_drop]; omega), hany, hsplit]
        simp [hinvalid, Bool.or_assoc]

theorem ucUtf8Scan_eq (s : Bytes) (hs : s.length ≤ UINT32_MAX) : ucUtf8Scan s =
    if isUtf8 s then if s.any (0x80 ≤ ·) then .valid else .ascii else .invalid := by
  rw [ucUtf8Scan, List.take_of_length_le hs, ucUtf8ScanLoop_spec _ _ _ (Nat.le_refl _)]
  simp

theorem wellFormed_of_ascii (s : Bytes) (h : ∀ b ∈ s, b < 0x80) : WellFormed s := by
  induction s with
  | nil => exact .nil
  | cons b s ih =>
    have hb := h b (by simp)
    obtain ⟨hbyte, hlt⟩ := (lead_fields b).1 hb
    have he := Encodes.one _ hlt
    rw [← hbyte] at he
    exact .cons he (ih fun x hx => h x (by simp [hx]))

theorem any_high_iff (s : Bytes) :
    (∀ b ∈ s, b < 0x80) ↔ ¬ s.any (fun b => decide (0x80 ≤ b)) = true := by
  simp

/-! ## The codec -/

/-- At every position of a buffer the decoder finds the shortest form that starts there, the
encoder gives its bytes back, and the scan sorts the buffers by their forms. -/
theorem utf8_codec :
    (∀ text : Array UInt8, text.size ≤ UINT32_MAX → ∀ pos < text.size,
      (∀ cp form, Encodes cp form → form <+: text.toList.drop pos →
        ucDecodeCodepointAt text text.size pos = some ⟨cp, form.length⟩ ∧
        ucEncodeCodepoint cp = form) ∧
      ((¬ ∃ cp form, Encodes cp form ∧ form <+: text.toList.drop pos) →
        ucDecodeCodepointAt text text.size pos = some ⟨0xFFFD, 1⟩)) ∧
    (∀ cp, Scalar cp → ∀ text : Array UInt8, text.size ≤ UINT32_MAX → ∀ before rest,
      text.toList = before ++ ucEncodeCodepoint cp ++ rest →
      ucDecodeCodepointAt text text.size before.length =
        some ⟨cp, (ucEncodeCodepoint cp).length⟩) ∧
    ∀ text : Array UInt8, text.size ≤ UINT32_MAX → ∃ scan,
      ucUtf8ScanAt text text.size = some scan ∧
      (scan = .invalid ↔ ¬ WellFormed text.toList) ∧
      (scan = .ascii ↔ ∀ b ∈ text.toList, b < 0x80) ∧
      (scan = .valid ↔ WellFormed text.toList ∧ ¬ ∀ b ∈ text.toList, b < 0x80) := by
  refine ⟨fun text hsize pos hpos => ⟨?_, ?_⟩, ?_, ?_⟩
  · rintro cp form he ⟨t, ht⟩
    refine ⟨?_, ((encodes_iff cp form).mp he).2.symm⟩
    rw [ucDecodeCodepointAt_eq text pos hsize, ucDecodeCodepoint, ← ht, he.decodeHead t]
  · intro h
    have hne : text.toList.drop pos ≠ [] := by simpa [List.drop_eq_nil_iff] using hpos
    rw [ucDecodeCodepointAt_eq text pos hsize, ucDecodeCodepoint,
      (decodeHead_invalid_iff _ hne).mpr h]
    rfl
  · intro cp hcp text hsize before rest htext
    have he : Encodes cp (ucEncodeCodepoint cp) := (encodes_iff cp _).mpr ⟨hcp, rfl⟩
    rw [ucDecodeCodepointAt_eq text _ hsize, ucDecodeCodepoint, htext, List.append_assoc,
      List.drop_left, he.decodeHead rest]
  · intro text hsize
    refine ⟨_, ucUtf8ScanAt_eq text hsize, ?_⟩
    rw [ucUtf8Scan_eq _ (by simpa using hsize), wellFormed_iff, any_high_iff]
    have hwell := fun h => (wellFormed_iff _).mp (wellFormed_of_ascii text.toList h)
    rw [any_high_iff] at hwell
    generalize isUtf8 text.toList = utf8 at hwell ⊢
    generalize (text.toList.any fun b => decide (0x80 ≤ b)) = high at hwell ⊢
    cases utf8 with
    | true => cases high <;> simp
    | false =>
      obtain rfl : high = true := by simpa using hwell
      simp

/-- A genuine U+FFFD is text, and its own lead byte alone is not. -/
example : ucUtf8ScanAt #[0xEF, 0xBF, 0xBD] 3 = some .valid ∧ ucUtf8ScanAt #[0xEF] 1 = some .invalid ∧
    ucDecodeCodepointAt #[0xEF, 0xBF, 0xBD] 3 0 = some ⟨0xFFFD, 3⟩ := by
  decide

end Mlxd.Utf8Codec
