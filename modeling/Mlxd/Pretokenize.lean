import Mlxd.BpeMerge

/-!
# The pretokenizer

The hand-written matchers of the seven alternatives, on byte positions. Each returns
the end of its match, or its start when it does not match. Whatever they return, the
slices of `gpt2Pretokenize` are non-empty, contiguous and cover the text.
-/
namespace Mlxd.Pretokenize

open Mlxd.Unicode Mlxd.BpeMerge

structure PretokSlice where
  off : Nat
  len : Nat
  deriving DecidableEq, Repr

def byteAt (text : Bytes) (i : Nat) : UInt8 := text.getD i 0

/-- Pattern 1, with the ASCII letters folded to lower case. -/
def matchContraction (text : Bytes) (i : Nat) : Nat :=
  if byteAt text i ≠ 0x27 ∨ text.length ≤ i + 1 then i
  else
    let next := byteAt text (i + 1) ||| 0x20
    if next = 0x73 ∨ next = 0x74 ∨ next = 0x6D ∨ next = 0x64 then i + 2
    else if i + 2 < text.length then
      let next2 := byteAt text (i + 2) ||| 0x20
      if next = 0x72 ∧ next2 = 0x65 ∨ next = 0x76 ∧ next2 = 0x65 ∨ next = 0x6C ∧ next2 = 0x6C then
        i + 3
      else i
    else i

/-- Advance while the codepoint read at the position is in the set. -/
def scanWhile (p : Nat → Bool) (read : Nat → CpInfo) (len : Nat) : Nat → Nat → Nat
  | 0, stop => stop
  | fuel + 1, stop =>
    if stop < len ∧ p (read stop).cp then scanWhile p read len fuel (stop + (read stop).len)
    else stop

def scanLetterMarkRun (T : UcTables) (text : Bytes) (i : Nat) : Nat :=
  scanWhile (ucIsLetterOrMark T) (ucDecodeCodepoint text) text.length text.length i

/-- Pattern 2; the caller has ruled out a number at `i`. -/
def matchLettersRun (T : UcTables) (text : Bytes) (i : Nat) (first : CpInfo) : Nat :=
  if ucIsLetterOrMark T first.cp then scanLetterMarkRun T text (i + first.len)
  else if first.cp ≠ 0x0D ∧ first.cp ≠ 0x0A then
    let afterOpt := i + first.len
    let stop := scanLetterMarkRun T text afterOpt
    if afterOpt < stop then stop else i
  else i

/-- Neither whitespace, letter, mark nor number. -/
def isPunct (T : UcTables) (cp : Nat) : Bool :=
  !(ucIsWhitespaceCp cp || ucIsLetterOrMark T cp || ucIsNumber T cp)

def isNewline (cp : Nat) : Bool := cp == 0x0D || cp == 0x0A

/-- The codepoint at `pos`, reusing the one already decoded at `i`. -/
def reuseFirst (text : Bytes) (i : Nat) (first : CpInfo) (pos : Nat) : CpInfo :=
  if pos = i then first else ucDecodeCodepoint text pos

/-- A single byte read as a codepoint. -/
def readByte (text : Bytes) (pos : Nat) : CpInfo := ⟨(byteAt text pos).toNat, 1⟩

/-- Pattern 4. -/
def matchSpacePunct (T : UcTables) (text : Bytes) (i : Nat) (first : CpInfo) : Nat :=
  let p := if byteAt text i = 0x20 then i + 1 else i
  let stop := scanWhile (isPunct T) (reuseFirst text i first) text.length text.length p
  if stop = p then i else scanWhile isNewline (readByte text) text.length text.length stop

/-- A whitespace run: its end, its last codepoint, and one past its last newline or 0. -/
structure WsRun where
  stop : Nat
  lastCp : Nat
  nlEnd : Nat

def scanWs (read : Nat → CpInfo) (len : Nat) : Nat → WsRun → WsRun
  | 0, r => r
  | fuel + 1, r =>
    if r.stop < len ∧ ucIsWhitespaceCp (read r.stop).cp then
      let c := read r.stop
      scanWs read len fuel {
        stop := r.stop + c.len
        lastCp := r.stop
        nlEnd := if isNewline c.cp then r.stop + c.len else r.nlEnd }
    else r

/-- Patterns 5, 6 and 7. -/
def matchWsRun (text : Bytes) (i : Nat) (first : CpInfo) : Nat :=
  let r := scanWs (reuseFirst text i first) text.length text.length ⟨i, i, 0⟩
  if r.stop = i then i
  else if r.nlEnd ≠ 0 then r.nlEnd
  else if r.stop = text.length then r.stop
  else if i < r.lastCp then r.lastCp
  else r.stop

/-- The end of the slice that starts at `i`: the first alternative that matches. -/
def sliceEnd (T : UcTables) (text : Bytes) (i : Nat) : Nat :=
  let first := ucDecodeCodepoint text i
  let stop := matchContraction text i
  let stop := if stop = i then
      if ucIsNumber T first.cp then i + first.len else matchLettersRun T text i first
    else stop
  let stop := if stop = i then matchSpacePunct T text i first else stop
  let stop := if stop = i then matchWsRun text i first else stop
  if stop = i then i + first.len else stop

/-- The slices from `i` on; `none` when they do not fit the reserved buffer. -/
def pretokLoop (T : UcTables) (cap : Nat) (text : Bytes) : Nat → Nat → Nat →
    Option (List PretokSlice)
  | 0, _, _ => some []
  | fuel + 1, i, count =>
    if i < text.length then
      if cap ≤ count then none
      else
        let stop := sliceEnd T text i
        (pretokLoop T cap text fuel stop (count + 1)).map (⟨i, stop - i⟩ :: ·)
    else some []

def gpt2Pretokenize (T : UcTables) (cap : Nat) (text : Bytes) : Option (List PretokSlice) :=
  if INT32_MAX < text.length then none else pretokLoop T cap text text.length 0 0

/-! ## Every matcher stays inside the text -/

section Bounds

variable (T : UcTables) (text : Bytes) (i : Nat)

theorem decode_bounds (h : i < text.length) :
    0 < (ucDecodeCodepoint text i).len ∧ i + (ucDecodeCodepoint text i).len ≤ text.length := by
  have hne : text.drop i ≠ [] := by simpa using h
  have h1 := decodeHead_len_pos _ hne
  have h2 := decodeHead_len_le (text.drop i)
  simp only [List.length_drop] at h2
  exact ⟨h1, by rw [ucDecodeCodepoint]; omega⟩

theorem scanWhile_le (p : Nat → Bool) (read : Nat → CpInfo) (len : Nat)
    (hread : ∀ j < len, j + (read j).len ≤ len) (fuel stop : Nat) (h : stop ≤ len) :
    stop ≤ scanWhile p read len fuel stop ∧ scanWhile p read len fuel stop ≤ len := by
  induction fuel generalizing stop with
  | zero => exact ⟨Nat.le_refl _, h⟩
  | succ fuel ih =>
    simp only [scanWhile]
    split
    · rename_i hc
      have := ih _ (hread stop hc.1)
      omega
    · exact ⟨Nat.le_refl _, h⟩

theorem scanLetterMarkRun_le (h : i ≤ text.length) :
    i ≤ scanLetterMarkRun T text i ∧ scanLetterMarkRun T text i ≤ text.length :=
  scanWhile_le _ _ _ (fun j hj => (decode_bounds text j hj).2) _ _ h

theorem matchContraction_le (h : i < text.length) :
    i ≤ matchContraction text i ∧ matchContraction text i ≤ text.length := by
  simp only [matchContraction]
  repeat' split
  all_goals omega

theorem reuseFirst_decode : reuseFirst text i (ucDecodeCodepoint text i) = ucDecodeCodepoint text := by
  funext pos
  simp only [reuseFirst]
  split <;> simp_all

theorem matchLettersRun_le (h : i < text.length) :
    i ≤ matchLettersRun T text i (ucDecodeCodepoint text i) ∧
      matchLettersRun T text i (ucDecodeCodepoint text i) ≤ text.length := by
  have := scanLetterMarkRun_le T text _ (decode_bounds text i h).2
  simp only [matchLettersRun]
  repeat' split
  all_goals omega

theorem matchSpacePunct_le (h : i < text.length) :
    i ≤ matchSpacePunct T text i (ucDecodeCodepoint text i) ∧
      matchSpacePunct T text i (ucDecodeCodepoint text i) ≤ text.length := by
  have hp : i ≤ (if byteAt text i = 0x20 then i + 1 else i) ∧
      (if byteAt text i = 0x20 then i + 1 else i) ≤ text.length := by
    split <;> omega
  simp only [matchSpacePunct, reuseFirst_decode]
  generalize (if byteAt text i = 0x20 then i + 1 else i) = p at hp
  have h1 := scanWhile_le (isPunct T) _ _ (fun j hj => (decode_bounds text j hj).2)
    text.length _ hp.2
  have h2 := scanWhile_le isNewline (readByte text) _ (fun j hj => hj) text.length _ h1.2
  split <;> omega

theorem scanWs_le (fuel : Nat) (r : WsRun) (h : r.lastCp ≤ r.stop) (hs : r.stop ≤ text.length)
    (hn : r.nlEnd ≠ 0 → i ≤ r.nlEnd ∧ r.nlEnd ≤ r.stop) (hi : i ≤ r.stop) :
    let r' := scanWs (ucDecodeCodepoint text) text.length fuel r
    r'.lastCp ≤ r'.stop ∧ r'.stop ≤ text.length ∧ i ≤ r'.stop ∧
      (r'.nlEnd ≠ 0 → i ≤ r'.nlEnd ∧ r'.nlEnd ≤ r'.stop) := by
  induction fuel generalizing r with
  | zero => exact ⟨h, hs, hi, hn⟩
  | succ fuel ih =>
    simp only [scanWs]
    split
    · rename_i hc
      have hd := decode_bounds text r.stop hc.1
      refine ih _ (by simp) hd.2 ?_ (by simp only; omega)
      simp only
      split <;> omega
    · exact ⟨h, hs, hi, hn⟩

theorem matchWsRun_le (h : i < text.length) :
    i ≤ matchWsRun text i (ucDecodeCodepoint text i) ∧
      matchWsRun text i (ucDecodeCodepoint text i) ≤ text.length := by
  have := scanWs_le text i text.length ⟨i, i, 0⟩ (Nat.le_refl _) (Nat.le_of_lt h)
    (fun h => absurd rfl h) (Nat.le_refl _)
  simp only [matchWsRun, reuseFirst_decode]
  simp only at this
  repeat' split
  all_goals omega

theorem sliceEnd_bounds (h : i < text.length) :
    i < sliceEnd T text i ∧ sliceEnd T text i ≤ text.length := by
  have h0 := decode_bounds text i h
  have h1 := matchContraction_le text i h
  have h2 := matchLettersRun_le T text i h
  have h3 := matchSpacePunct_le T text i h
  have h4 := matchWsRun_le text i h
  simp only [sliceEnd]
  repeat' split
  all_goals omega

end Bounds

/-! ## The slices partition the text -/

/-- Non-empty contiguous slices from `i` to `stop`. -/
def Partition (i stop : Nat) : List PretokSlice → Prop
  | [] => i = stop
  | w :: rest => w.off = i ∧ 0 < w.len ∧ Partition (i + w.len) stop rest

theorem partition_le {i stop : Nat} {slices : List PretokSlice} (h : Partition i stop slices) :
    i ≤ stop := by
  induction slices generalizing i with
  | nil => exact Nat.le_of_eq h
  | cons w rest ih =>
    have := ih h.2.2
    omega

/-- The slices from `i` on, each ending where the next one starts. -/
def slicesFrom (T : UcTables) (text : Bytes) : Nat → Nat → List PretokSlice
  | 0, _ => []
  | fuel + 1, i =>
    if i < text.length then
      ⟨i, sliceEnd T text i - i⟩ :: slicesFrom T text fuel (sliceEnd T text i)
    else []

theorem pretokLoop_eq (T : UcTables) (cap : Nat) (text : Bytes) (fuel i count : Nat)
    (hcap : text.length - i + count ≤ cap) :
    pretokLoop T cap text fuel i count = some (slicesFrom T text fuel i) := by
  induction fuel generalizing i count with
  | zero => rfl
  | succ fuel ih =>
    simp only [pretokLoop, slicesFrom]
    split
    · rename_i hi
      have := sliceEnd_bounds T text i hi
      rw [if_neg (by omega), ih _ _ (by omega)]
      rfl
    · rfl

theorem slicesFrom_partition (T : UcTables) (text : Bytes) (fuel i : Nat) (hi : i ≤ text.length)
    (hf : text.length ≤ i + fuel) : Partition i text.length (slicesFrom T text fuel i) := by
  induction fuel generalizing i with
  | zero => exact Nat.le_antisymm hi hf
  | succ fuel ih =>
    simp only [slicesFrom]
    split
    · rename_i hlt
      have h := sliceEnd_bounds T text i hlt
      refine ⟨rfl, by simp only; omega, ?_⟩
      have he : i + (sliceEnd T text i - i) = sliceEnd T text i := by omega
      simp only [he]
      exact ih _ h.2 (by omega)
    · simp only [Partition]
      omega

theorem gpt2Pretokenize_eq (T : UcTables) (cap : Nat) (text : Bytes)
    (hlen : text.length ≤ INT32_MAX) (hcap : text.length ≤ cap) :
    gpt2Pretokenize T cap text = some (slicesFrom T text text.length 0) := by
  rw [gpt2Pretokenize, if_neg (Nat.not_lt.mpr hlen), pretokLoop_eq _ _ _ _ _ _ (by omega)]

end Mlxd.Pretokenize
