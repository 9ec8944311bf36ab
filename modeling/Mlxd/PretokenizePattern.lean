import Mlxd.Lib.Regex
import Mlxd.Pretokenize

/-!
# The documented pattern of the pretokenizer

The pattern is read over the codepoints of the text; an invalid byte is one U+FFFD.
The matchers of contractions and of letter runs end where the match of their
alternative ends, and return their start where it does not match.
-/
namespace Mlxd.Pretokenize

open Mlxd.Unicode Mlxd.BpeMerge Mlxd.Regex

/-- The codepoints of a text, each with the bytes it takes. -/
def cpInfos (s : Bytes) : List CpInfo :=
  if h : s = [] then []
  else
    have := decodeHead_len_pos s h
    have := List.length_pos_iff.mpr h
    decodeHead s :: cpInfos (s.drop (decodeHead s).len)
termination_by s.length
decreasing_by
  simp only [List.length_drop]
  omega

def cls (p : Nat → Bool) : Pattern CpInfo := .set fun c => p c.cp

/-- An ASCII letter, given in lower case, in either case. -/
def letter (b : Nat) : Pattern CpInfo := cls fun c => c == b || c == b - 0x20

def quote : Pattern CpInfo := cls (· == 0x27)

/-- `(?i:'s|'t|'re|'ve|'m|'ll|'d)` -/
def contraction : Pattern CpInfo := alts [
  .seq quote (letter 0x73), .seq quote (letter 0x74),
  .seq quote (.seq (letter 0x72) (letter 0x65)), .seq quote (.seq (letter 0x76) (letter 0x65)),
  .seq quote (letter 0x6D), .seq quote (.seq (letter 0x6C) (letter 0x6C)),
  .seq quote (letter 0x64)]

/-- `[^\r\n\p{L}\p{N}]` -/
def notNewlineLetterNumber (T : UcTables) (cp : Nat) : Bool :=
  !(isNewline cp || ucIsLetter T cp || ucIsNumber T cp)

def nonSpace (cp : Nat) : Bool := !ucIsWhitespaceCp cp

/-- The seven alternatives, in declared order. -/
def pretokPattern (T : UcTables) : Pattern CpInfo := alts [
  contraction,
  .seq (.opt (cls (notNewlineLetterNumber T))) (.plus (cls (ucIsLetterOrMark T))),
  cls (ucIsNumber T),
  .seq (.opt (cls (· == 0x20))) (.seq (.plus (cls (isPunct T))) (.star (cls isNewline))),
  .seq (.star (cls ucIsWhitespaceCp)) (.plus (cls isNewline)),
  .seq (.plus (cls ucIsWhitespaceCp)) (.notAhead fun c => nonSpace c.cp),
  .plus (cls ucIsWhitespaceCp)]

/-- The byte positions of successive runs of codepoints. -/
def spans (off : Nat) : List (List CpInfo) → List PretokSlice
  | [] => []
  | m :: ms => ⟨off, (m.map CpInfo.len).sum⟩ :: spans (off + (m.map CpInfo.len).sum) ms

/-! ## Codepoints and bytes -/

@[simp] theorem cpInfos_nil : cpInfos [] = [] := by
  rw [cpInfos]
  rfl

theorem cpInfos_cons (s : Bytes) (h : s ≠ []) :
    cpInfos s = decodeHead s :: cpInfos (s.drop (decodeHead s).len) := by
  rw [cpInfos, dif_neg h]

section Text

variable (text : Bytes)

theorem cpInfos_end : cpInfos (text.drop text.length) = [] := by simp

theorem cpInfos_drop (i : Nat) (h : i < text.length) :
    cpInfos (text.drop i) = ucDecodeCodepoint text i ::
      cpInfos (text.drop (i + (ucDecodeCodepoint text i).len)) := by
  have hne : text.drop i ≠ [] := by simpa using h
  rw [cpInfos_cons _ hne, List.drop_drop]
  rfl

/-- The codepoints take exactly the bytes of the text. -/
theorem cpInfos_bytes (s : Bytes) : ((cpInfos s).map CpInfo.len).sum = s.length := by
  induction s using cpInfos.induct with
  | case1 => simp
  | case2 s h _ _ ih =>
    have := decodeHead_len_le s
    rw [cpInfos_cons s h, List.map_cons, List.sum_cons, ih, List.length_drop]
    omega

theorem decodeHead_ascii (b : UInt8) (t : Bytes) (h : b < 0x80) :
    decodeHead (b :: t) = ⟨b.toNat, 1⟩ := by
  simp [decodeHead, h]

theorem decodeMultibyte_ge (n cp : Nat) (t : Bytes) : 0x80 ≤ (decodeMultibyte n cp t).cp := by
  unfold decodeMultibyte
  split
  · decide
  · split
    · decide
    · rename_i h
      have hmin : 0x80 ≤ minCp n := by
        unfold minCp
        split <;> decide
      simp only
      omega

theorem decodeHead_nonascii (b : UInt8) (t : Bytes) (h : ¬ b < 0x80) :
    0x80 ≤ (decodeHead (b :: t)).cp := by
  simp only [decodeHead, if_neg h]
  repeat' split
  all_goals first
    | exact decodeMultibyte_ge _ _ _
    | decide

/-- An ASCII codepoint is read exactly where its byte stands. -/
theorem decode_cp_iff (i : Nat) (h : i < text.length) (n : Nat) (hn : n < 0x80) :
    (ucDecodeCodepoint text i).cp = n ↔ byteAt text i = UInt8.ofNat n := by
  have hd : text.drop i = text[i] :: text.drop (i + 1) := List.drop_eq_getElem_cons h
  have hb : byteAt text i = text[i] := by simp [byteAt, h]
  rw [ucDecodeCodepoint, hd, hb]
  by_cases ha : text[i] < 0x80
  · rw [decodeHead_ascii _ _ ha, ← UInt8.toNat_inj]
    simp only [UInt8.toNat_ofNat']
    omega
  · have h1 := decodeHead_nonascii text[i] (text.drop (i + 1)) ha
    rw [UInt8.lt_iff_toNat_lt, Nat.not_lt] at ha
    simp only [UInt8.reduceToNat] at ha
    rw [← UInt8.toNat_inj]
    simp only [UInt8.toNat_ofNat']
    omega

theorem decode_len_one (i : Nat) (h : i < text.length)
    (ha : (ucDecodeCodepoint text i).cp < 0x80) : (ucDecodeCodepoint text i).len = 1 := by
  have hd : text.drop i = text[i] :: text.drop (i + 1) := List.drop_eq_getElem_cons h
  rw [ucDecodeCodepoint, hd] at ha ⊢
  by_cases hb : text[i] < 0x80
  · rw [decodeHead_ascii _ _ hb]
  · have := decodeHead_nonascii text[i] (text.drop (i + 1)) hb
    omega

/-- Folding with `0x20` accepts exactly the two cases of a letter. -/
theorem fold_iff (x : UInt8) (b : Nat) (hb : 0x61 ≤ b ∧ b ≤ 0x7A) :
    x ||| 0x20 = UInt8.ofNat b ↔ x = UInt8.ofNat b ∨ x = UInt8.ofNat (b - 0x20) := by
  have h : ∀ n < 256, n ||| 0x20 = if n / 32 % 2 = 1 then n else n + 32 := by decide +kernel
  have hx := h x.toNat x.toNat_lt
  have := x.toNat_lt
  simp only [← UInt8.toNat_inj, UInt8.toNat_or, UInt8.toNat_ofNat', UInt8.reduceToNat, hx]
  split <;> omega

theorem letter_iff (i : Nat) (h : i < text.length) (b : Nat) (hb : 0x61 ≤ b ∧ b ≤ 0x7A) :
    ((ucDecodeCodepoint text i).cp == b || (ucDecodeCodepoint text i).cp == b - 0x20) = true ↔
      byteAt text i ||| 0x20 = UInt8.ofNat b := by
  rw [fold_iff _ b hb, Bool.or_eq_true, beq_iff_eq, beq_iff_eq,
    decode_cp_iff text i h b (by omega), decode_cp_iff text i h (b - 0x20) (by omega)]

/-- The matcher's end is the end of the pattern's match, and its start when there is none. -/
def Ends (i stop : Nat) (r : Pattern CpInfo) : Prop :=
  firstRest r (cpInfos (text.drop i)) = if stop = i then none else some (cpInfos (text.drop stop))

variable {text}

/-- Try the next alternatives when the first one does not match. -/
theorem Ends.or {i a b : Nat} {r : Pattern CpInfo} {rs : List (Pattern CpInfo)}
    (ha : Ends text i a r) (hb : a = i → Ends text i b (alts rs)) :
    Ends text i (if a = i then b else a) (alts (r :: rs)) := by
  unfold Ends at *
  rw [firstRest_alts_cons, ha]
  by_cases h : a = i
  · simp only [if_pos h, Option.none_or]
    exact hb h
  · simp only [if_neg h, Option.some_or]

theorem Ends.last {i stop : Nat} {r : Pattern CpInfo} (h : Ends text i stop r) :
    Ends text i stop (alts [r]) := by
  unfold Ends at *
  rw [firstRest_alts_cons, h, firstRest_alts_nil, Option.or_none]

/-! ## The matchers -/

/-- A class of ASCII codepoints consumes one byte. -/
theorem ascii_head {i : Nat} (h : i < text.length) (p : Nat → Bool)
    (hp : ∀ cp, p cp = true → cp < 0x80) (r : Pattern CpInfo) :
    firstRest (.seq (cls p) r) (cpInfos (text.drop i)) =
      if p (ucDecodeCodepoint text i).cp then firstRest r (cpInfos (text.drop (i + 1)))
      else none := by
  rw [cpInfos_drop text i h, cls, firstRest_set_seq]
  split
  · contradiction
  · rename_i c t he
    obtain ⟨rfl, rfl⟩ := List.cons.inj he
    split
    · rename_i hc
      rw [decode_len_one text i h (hp _ hc)]
    · rfl

theorem letter_ascii (b : Nat) (hb : 0x61 ≤ b ∧ b ≤ 0x7A) (cp : Nat)
    (h : (cp == b || cp == b - 0x20) = true) : cp < 0x80 := by
  simp only [Bool.or_eq_true, beq_iff_eq] at h
  omega

theorem letter_seq {i : Nat} (h : i < text.length) (b : Nat) (hb : 0x61 ≤ b ∧ b ≤ 0x7A)
    (r : Pattern CpInfo) : firstRest (.seq (letter b) r) (cpInfos (text.drop i)) =
      if byteAt text i ||| 0x20 = UInt8.ofNat b then firstRest r (cpInfos (text.drop (i + 1)))
      else none := by
  rw [letter, ascii_head h _ (letter_ascii b hb)]
  exact if_congr (letter_iff text i h b hb) rfl rfl

theorem seq_eps (r : Pattern CpInfo) (s : List CpInfo) :
    firstRest (.seq r .eps) s = firstRest r s := by
  simp [firstRest, rests]

theorem letter_last {i : Nat} (h : i < text.length) (b : Nat) (hb : 0x61 ≤ b ∧ b ≤ 0x7A) :
    firstRest (letter b) (cpInfos (text.drop i)) =
      if byteAt text i ||| 0x20 = UInt8.ofNat b then some (cpInfos (text.drop (i + 1)))
      else none := by
  rw [← seq_eps, letter_seq h b hb]
  rfl

theorem quote_seq {i : Nat} (h : i < text.length) (r : Pattern CpInfo) :
    firstRest (.seq quote r) (cpInfos (text.drop i)) =
      if byteAt text i = 0x27 then firstRest r (cpInfos (text.drop (i + 1))) else none := by
  rw [quote, ascii_head h _ (fun cp hc => by simp only [beq_iff_eq] at hc; omega)]
  refine if_congr ?_ rfl rfl
  rw [beq_iff_eq]
  exact decode_cp_iff text i h 0x27 (by decide)

theorem contraction_ends {i : Nat} (h : i < text.length) :
    Ends text i (matchContraction text i) contraction := by
  unfold Ends contraction matchContraction
  simp only [firstRest_alts_cons, firstRest_alts_nil, quote_seq h]
  by_cases hq : byteAt text i = 0x27
  · by_cases h1 : text.length ≤ i + 1
    · simp [hq, h1, List.drop_eq_nil_of_le h1, letter, cls, firstRest_set_seq]
    · have h1' : i + 1 < text.length := by omega
      simp only [hq, h1, ne_eq, not_true_eq_false, or_self, ↓reduceIte]
      rw [letter_last h1' 0x73 (by decide), letter_last h1' 0x74 (by decide),
        letter_seq h1' 0x72 (by decide), letter_seq h1' 0x76 (by decide),
        letter_last h1' 0x6D (by decide), letter_seq h1' 0x6C (by decide),
        letter_last h1' 0x64 (by decide)]
      by_cases h2 : i + 1 + 1 < text.length
      · rw [letter_last h2 0x65 (by decide), letter_last h2 0x6C (by decide)]
        generalize byteAt text (i + 1) ||| 0x20 = next
        generalize byteAt text (i + 1 + 1) ||| 0x20 = next2
        simp only [UInt8.reduceOfNat, h2, ↓reduceIte]
        by_cases hs : next = 0x73 ∨ next = 0x74 ∨ next = 0x6D ∨ next = 0x64
        · rcases hs with rfl | rfl | rfl | rfl <;> simp
        · simp only [not_or] at hs
          simp only [hs, or_self, ↓reduceIte, Option.none_or, Option.or_none]
          by_cases hr : next = 0x72 ∨ next = 0x76 ∨ next = 0x6C
          · rcases hr with rfl | rfl | rfl <;> simp <;> split <;> simp
          · simp only [not_or] at hr
            simp [hr]
      · have hnil : cpInfos (text.drop (i + 1 + 1)) = [] := by
          rw [List.drop_eq_nil_of_le (by omega), cpInfos_nil]
        simp only [hnil, letter, cls, firstRest_set_nil, UInt8.reduceOfNat, h2, ↓reduceIte]
        generalize byteAt text (i + 1) ||| 0x20 = next
        by_cases hs : next = 0x73 ∨ next = 0x74 ∨ next = 0x6D ∨ next = 0x64
        · rcases hs with rfl | rfl | rfl | rfl <;> simp <;> exact hnil
        · simp only [not_or] at hs
          simp [hs]
  · simp [hq]

/-- A scan drops the run of its class. -/
theorem scanWhile_drop (p : Nat → Bool) (fuel j : Nat) (hj : j ≤ text.length)
    (hf : text.length ≤ j + fuel) :
    cpInfos (text.drop (scanWhile p (ucDecodeCodepoint text) text.length fuel j)) =
      (cpInfos (text.drop j)).dropWhile fun c => p c.cp := by
  induction fuel generalizing j with
  | zero =>
    obtain rfl : j = text.length := by omega
    simp [scanWhile]
  | succ fuel ih =>
    simp only [scanWhile]
    by_cases hlt : j < text.length
    · obtain ⟨h0, h1⟩ := decode_bounds text j hlt
      rw [cpInfos_drop text j hlt, List.dropWhile_cons]
      by_cases hp : p (ucDecodeCodepoint text j).cp
      · rw [if_pos ⟨hlt, hp⟩, if_pos hp]
        exact ih _ h1 (by omega)
      · rw [if_neg (fun h => hp h.2), if_neg hp, cpInfos_drop text j hlt]
    · obtain rfl : j = text.length := by omega
      simp

theorem scanWhile_self_iff (p : Nat → Bool) (j : Nat) (hj : j < text.length) :
    scanWhile p (ucDecodeCodepoint text) text.length text.length j = j ↔
      p (ucDecodeCodepoint text j).cp = false := by
  obtain ⟨n, hn⟩ : ∃ n, text.length = n + 1 := ⟨text.length - 1, by omega⟩
  obtain ⟨h0, h1⟩ := decode_bounds text j hj
  have hle := scanWhile_le p (ucDecodeCodepoint text) text.length
    (fun k hk => (decode_bounds text k hk).2) n _ h1
  rw [show scanWhile p (ucDecodeCodepoint text) text.length text.length j =
    scanWhile p (ucDecodeCodepoint text) text.length (n + 1) j by rw [← hn]]
  simp only [scanWhile]
  by_cases hp : p (ucDecodeCodepoint text j).cp
  · rw [if_pos ⟨hj, hp⟩, hp]
    simp only [Bool.true_eq_false, iff_false]
    omega
  · simp [hp]

/-- A scan is a non-empty greedy run. -/
theorem scanWhile_ends (p : Nat → Bool) (j : Nat) (hj : j ≤ text.length) :
    Ends text j (scanWhile p (ucDecodeCodepoint text) text.length text.length j)
      (.plus (cls p)) := by
  unfold Ends
  rw [scanWhile_drop p _ j hj (by omega), cls, firstRest_plus_set]
  by_cases hlt : j < text.length
  · rw [cpInfos_drop text j hlt]
    simp only [scanWhile_self_iff p j hlt]
    cases hp : p (ucDecodeCodepoint text j).cp <;> simp [hp]
  · obtain rfl : j = text.length := by omega
    have : scanWhile p (ucDecodeCodepoint text) text.length text.length text.length =
        text.length := by
      cases text <;> simp [scanWhile]
    simp [this]

theorem letter_of_mark {T : UcTables} {cp : Nat} (h : ucIsLetterOrMark T cp = false) :
    ucIsLetter T cp = false := by
  simp only [ucIsLetterOrMark, Bool.or_eq_false_iff] at h
  exact h.1

/-- Where no number starts, the letter matcher is the second alternative. -/
theorem matchLettersRun_ends (T : UcTables) {i : Nat} (h : i < text.length)
    (hnum : ucIsNumber T (ucDecodeCodepoint text i).cp = false) :
    Ends text i (matchLettersRun T text i (ucDecodeCodepoint text i))
      (.seq (.opt (cls (notNewlineLetterNumber T))) (.plus (cls (ucIsLetterOrMark T)))) := by
  obtain ⟨h0, h1⟩ := decode_bounds text i h
  have hrun := scanWhile_ends (ucIsLetterOrMark T) _ h1
  have hdrop := scanWhile_drop (ucIsLetterOrMark T) text.length _ h1 (by omega)
  have hle := scanLetterMarkRun_le T text _ h1
  rw [← scanLetterMarkRun] at hrun hdrop
  have hwhole : firstRest (.plus (cls (ucIsLetterOrMark T))) (cpInfos (text.drop i)) =
      if ucIsLetterOrMark T (ucDecodeCodepoint text i).cp then
        some (cpInfos (text.drop (scanLetterMarkRun T text (i + (ucDecodeCodepoint text i).len))))
      else none := by
    rw [cls, firstRest_plus_set, cpInfos_drop text i h, hdrop]
  unfold Ends at *
  simp only [matchLettersRun]
  generalize scanLetterMarkRun T text (i + (ucDecodeCodepoint text i).len) = stop at *
  rw [show cls (notNewlineLetterNumber T) = .set fun c => notNewlineLetterNumber T c.cp from rfl,
    firstRest_opt_seq, firstRest_set_seq, hwhole, cpInfos_drop text i h]
  simp only [hrun]
  by_cases hlm : ucIsLetterOrMark T (ucDecodeCodepoint text i).cp
  · simp only [hlm, ↓reduceIte]
    rw [if_neg (show ¬ stop = i by omega)]
    split
    · split <;> rfl
    · rfl
  · simp only [Bool.not_eq_true] at hlm
    simp only [hlm, notNewlineLetterNumber, letter_of_mark hlm, hnum, isNewline, Bool.or_false,
      Bool.false_eq_true, ↓reduceIte, Option.or_none, Bool.not_eq_true', Bool.or_eq_false_iff,
      beq_eq_false_iff_ne]
    split
    · by_cases hs : stop = i + (ucDecodeCodepoint text i).len
      · simp [hs]
      · rw [if_neg hs, if_pos (show i + (ucDecodeCodepoint text i).len < stop by omega),
          if_neg (show ¬ stop = i by omega)]
    · simp

end Text

end Mlxd.Pretokenize
