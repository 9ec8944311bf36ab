import Mlxd.PretokenizePattern

/-!
# The pretokenizer equals the documented pattern

The punctuation and whitespace matchers end where their alternatives do, so the
slices of `gpt2Pretokenize` are the successive matches of the whole pattern.
-/
namespace Mlxd.Pretokenize

open Mlxd.Unicode Mlxd.BpeMerge Mlxd.Regex

section Text

variable {text : Bytes}

/-! ## Punctuation -/

theorem scanWhile_congr (p : Nat → Bool) (read read' : Nat → CpInfo) (len : Nat)
    (hp : ∀ j < len, p (read j).cp = p (read' j).cp)
    (hl : ∀ j < len, p (read j).cp = true → (read j).len = (read' j).len) (fuel j : Nat) :
    scanWhile p read len fuel j = scanWhile p read' len fuel j := by
  induction fuel generalizing j with
  | zero => rfl
  | succ fuel ih =>
    simp only [scanWhile]
    by_cases hj : j < len
    · rw [hp j hj]
      split
      · rename_i hc
        rw [hl j hj (by rw [hp j hj]; exact hc.2), ih]
      · rfl
    · simp [hj]

/-- Newlines are found bytewise just as codepointwise. -/
theorem scanNewlines_eq (fuel j : Nat) :
    scanWhile isNewline (readByte text) text.length fuel j =
      scanWhile isNewline (ucDecodeCodepoint text) text.length fuel j := by
  have hcp : ∀ k < text.length, ∀ n < 0x80, ((byteAt text k).toNat == n) =
      ((ucDecodeCodepoint text k).cp == n) := by
    intro k hk n hn
    rw [Bool.eq_iff_iff, beq_iff_eq, beq_iff_eq, decode_cp_iff text k hk n hn, ← UInt8.toNat_inj]
    simp only [UInt8.toNat_ofNat']
    omega
  refine scanWhile_congr _ _ _ _ (fun k hk => ?_) (fun k hk hp => ?_) _ _
  · simp only [isNewline, readByte, hcp k hk 0x0D (by decide), hcp k hk 0x0A (by decide)]
  · simp only [isNewline, readByte, hcp k hk 0x0D (by decide), hcp k hk 0x0A (by decide),
      Bool.or_eq_true, beq_iff_eq] at hp
    exact (decode_len_one text k hk (by omega)).symm

theorem punct_run (T : UcTables) {j : Nat} (hj : j ≤ text.length) :
    let stop := scanWhile (isPunct T) (ucDecodeCodepoint text) text.length text.length j
    firstRest (.seq (.plus (cls (isPunct T))) (.star (cls isNewline))) (cpInfos (text.drop j)) =
      if stop = j then none
      else some (cpInfos (text.drop
        (scanWhile isNewline (ucDecodeCodepoint text) text.length text.length stop))) := by
  have hle := scanWhile_le (isPunct T) (ucDecodeCodepoint text) text.length
    (fun k hk => (decode_bounds text k hk).2) text.length j hj
  have hdrop := scanWhile_drop (isPunct T) text.length j hj (by omega)
  simp only
  rw [scanWhile_drop isNewline _ _ hle.2 (by omega), hdrop, cls, cls, firstRest_plus_star]
  by_cases hlt : j < text.length
  · rw [cpInfos_drop text j hlt]
    simp only [scanWhile_self_iff (isPunct T) j hlt]
    cases hp : isPunct T (ucDecodeCodepoint text j).cp <;> simp [hp]
  · obtain rfl : j = text.length := by omega
    rw [if_pos (by omega)]
    simp

theorem matchSpacePunct_ends (T : UcTables) {i : Nat} (h : i < text.length) :
    Ends text i (matchSpacePunct T text i (ucDecodeCodepoint text i))
      (.seq (.opt (cls (· == 0x20)))
        (.seq (.plus (cls (isPunct T))) (.star (cls isNewline)))) := by
  have hspace : ((ucDecodeCodepoint text i).cp == 0x20) = true ↔ byteAt text i = 0x20 := by
    rw [beq_iff_eq]
    exact decode_cp_iff text i h 0x20 (by decide)
  unfold Ends
  rw [show cls (· == 0x20) = .set fun c => c.cp == 0x20 from rfl, firstRest_opt_seq]
  rw [show (Pattern.set fun c : CpInfo => c.cp == 0x20) = cls (· == 0x20) from rfl,
    ascii_head h _ (fun cp hc => by simp only [beq_iff_eq] at hc; omega)]
  simp only [matchSpacePunct, reuseFirst_decode, scanNewlines_eq, hspace]
  have hbnd : ∀ j ≤ text.length,
      j ≤ scanWhile (isPunct T) (ucDecodeCodepoint text) text.length text.length j ∧
      scanWhile (isPunct T) (ucDecodeCodepoint text) text.length text.length j ≤
        scanWhile isNewline (ucDecodeCodepoint text) text.length text.length
          (scanWhile (isPunct T) (ucDecodeCodepoint text) text.length text.length j) := by
    intro j hj
    have h1 := scanWhile_le (isPunct T) (ucDecodeCodepoint text) text.length
      (fun k hk => (decode_bounds text k hk).2) text.length j hj
    have h2 := scanWhile_le isNewline (ucDecodeCodepoint text) text.length
      (fun k hk => (decode_bounds text k hk).2) text.length _ h1.2
    exact ⟨h1.1, h2.1⟩
  by_cases hb : byteAt text i = 0x20
  · have hnot : scanWhile (isPunct T) (ucDecodeCodepoint text) text.length text.length i = i := by
      rw [scanWhile_self_iff _ i h, beq_iff_eq.mp (hspace.mpr hb)]
      rfl
    simp only [hb, ↓reduceIte, punct_run T (show i + 1 ≤ text.length from h),
      punct_run T (Nat.le_of_lt h), hnot, Option.or_none]
    have := hbnd (i + 1) h
    split
    · simp
    · rw [if_neg (by omega)]
  · simp only [hb, ↓reduceIte, Option.none_or, punct_run T (Nat.le_of_lt h)]
    have := hbnd i (Nat.le_of_lt h)
    split
    · simp
    · rw [if_neg (by omega)]

/-! ## Whitespace -/

theorem scanWs_stop (read : Nat → CpInfo) (len fuel : Nat) (r : WsRun) :
    (scanWs read len fuel r).stop = scanWhile ucIsWhitespaceCp read len fuel r.stop := by
  induction fuel generalizing r with
  | zero => rfl
  | succ fuel ih =>
    simp only [scanWs, scanWhile]
    split
    · exact ih _
    · rfl

def wsCp (c : CpInfo) : Bool := ucIsWhitespaceCp c.cp

def nlCp (c : CpInfo) : Bool := isNewline c.cp

/-- One iteration of the whitespace scan. -/
def WsRun.next (text : Bytes) (r : WsRun) : WsRun where
  stop := r.stop + (ucDecodeCodepoint text r.stop).len
  lastCp := r.stop
  nlEnd := if isNewline (ucDecodeCodepoint text r.stop).cp then
    r.stop + (ucDecodeCodepoint text r.stop).len else r.nlEnd

theorem scanWs_succ (fuel : Nat) (r : WsRun) (hlt : r.stop < text.length)
    (hw : wsCp (ucDecodeCodepoint text r.stop) = true) :
    scanWs (ucDecodeCodepoint text) text.length (fuel + 1) r =
      scanWs (ucDecodeCodepoint text) text.length fuel (r.next text) := by
  rw [scanWs, if_pos ⟨hlt, hw⟩]
  rfl

theorem scanWs_done (fuel : Nat) (r : WsRun)
    (h : ¬ (r.stop < text.length ∧ wsCp (ucDecodeCodepoint text r.stop) = true)) :
    scanWs (ucDecodeCodepoint text) text.length fuel r = r := by
  cases fuel with
  | zero => rfl
  | succ fuel => exact if_neg h

/-- The whitespace run at the start of a position, as the loop sees it. -/
theorem ws_cases (r : WsRun) (hr : r.stop ≤ text.length) :
    (¬ (r.stop < text.length ∧ wsCp (ucDecodeCodepoint text r.stop) = true) ∧
      ∀ q, afterLast wsCp q (cpInfos (text.drop r.stop)) = none ∧
        fromLast wsCp (cpInfos (text.drop r.stop)) = none) ∨
    (r.stop < text.length ∧ wsCp (ucDecodeCodepoint text r.stop) = true) := by
  by_cases hlt : r.stop < text.length
  · cases hw : wsCp (ucDecodeCodepoint text r.stop) with
    | true => exact .inr ⟨hlt, rfl⟩
    | false =>
      refine .inl ⟨fun h => by simp at h, fun q => ?_⟩
      rw [cpInfos_drop text r.stop hlt]
      simp [afterLast, fromLast, hw]
  · refine .inl ⟨fun h => hlt h.1, fun q => ?_⟩
    rw [show r.stop = text.length by omega, cpInfos_end]
    exact ⟨rfl, rfl⟩

/-- The scan records what follows the last newline of the run, if there is one. -/
theorem scanWs_nlEnd (fuel : Nat) (r : WsRun) (hr : r.stop ≤ text.length)
    (hf : text.length ≤ r.stop + fuel) :
    match afterLast wsCp nlCp (cpInfos (text.drop r.stop)) with
    | none => (scanWs (ucDecodeCodepoint text) text.length fuel r).nlEnd = r.nlEnd
    | some u => r.stop < (scanWs (ucDecodeCodepoint text) text.length fuel r).nlEnd ∧
        cpInfos (text.drop (scanWs (ucDecodeCodepoint text) text.length fuel r).nlEnd) = u := by
  induction fuel generalizing r with
  | zero =>
    rw [show r.stop = text.length by omega, cpInfos_end]
    rfl
  | succ fuel ih =>
    rcases ws_cases r hr with ⟨hd, hn⟩ | ⟨hlt, hw⟩
    · rw [scanWs_done _ r hd, (hn nlCp).1]
    · obtain ⟨h0, h1⟩ := decode_bounds text r.stop hlt
      have := ih (r.next text) h1 (by simp only [WsRun.next]; omega)
      rw [scanWs_succ fuel r hlt hw, cpInfos_drop text r.stop hlt, afterLast, if_pos hw]
      rw [show (r.next text).stop = r.stop + (ucDecodeCodepoint text r.stop).len from rfl] at this
      cases hu : afterLast wsCp nlCp
          (cpInfos (text.drop (r.stop + (ucDecodeCodepoint text r.stop).len))) with
      | some u =>
        simp only [hu, Option.some_or] at this ⊢
        exact ⟨by omega, this.2⟩
      | none =>
        simp only [hu, Option.none_or] at this ⊢
        rw [this]
        cases hn : isNewline (ucDecodeCodepoint text r.stop).cp
        · simp [nlCp, hn, WsRun.next]
        · simp only [nlCp, hn, ↓reduceIte, WsRun.next]
          exact ⟨by omega, trivial⟩

/-- The scan records the last codepoint of the run. -/
theorem scanWs_lastCp (fuel : Nat) (r : WsRun) (hr : r.stop ≤ text.length)
    (hf : text.length ≤ r.stop + fuel) :
    match fromLast wsCp (cpInfos (text.drop r.stop)) with
    | none => (scanWs (ucDecodeCodepoint text) text.length fuel r).lastCp = r.lastCp
    | some u => r.stop ≤ (scanWs (ucDecodeCodepoint text) text.length fuel r).lastCp ∧
        cpInfos (text.drop (scanWs (ucDecodeCodepoint text) text.length fuel r).lastCp) = u := by
  induction fuel generalizing r with
  | zero =>
    rw [show r.stop = text.length by omega, cpInfos_end]
    rfl
  | succ fuel ih =>
    rcases ws_cases r hr with ⟨hd, hn⟩ | ⟨hlt, hw⟩
    · rw [scanWs_done _ r hd, (hn nlCp).2]
    · obtain ⟨h0, h1⟩ := decode_bounds text r.stop hlt
      have := ih (r.next text) h1 (by simp only [WsRun.next]; omega)
      rw [scanWs_succ fuel r hlt hw, cpInfos_drop text r.stop hlt, fromLast, if_pos hw]
      rw [show (r.next text).stop = r.stop + (ucDecodeCodepoint text r.stop).len from rfl] at this
      cases hu : fromLast wsCp
          (cpInfos (text.drop (r.stop + (ucDecodeCodepoint text r.stop).len))) with
      | some u =>
        simp only [hu, Option.some_or] at this ⊢
        exact ⟨by omega, this.2⟩
      | none =>
        simp only [hu, Option.none_or] at this ⊢
        rw [this]
        exact ⟨Nat.le_refl _, cpInfos_drop text r.stop hlt⟩

theorem nlCp_ws {c : CpInfo} (h : nlCp c = true) : wsCp c = true := by
  simp only [nlCp, isNewline, Bool.or_eq_true, beq_iff_eq] at h
  rcases h with h | h <;> (simp only [wsCp, h]; rfl)

theorem wsNewlines_rest (i : Nat) :
    firstRest (.seq (.star (cls ucIsWhitespaceCp)) (.plus (cls isNewline)))
      (cpInfos (text.drop i)) = afterLast wsCp nlCp (cpInfos (text.drop i)) :=
  firstRest_star_plus wsCp nlCp (fun _ => nlCp_ws) _

/-- Without a codepoint behind the run nothing is held back. -/
theorem wsHeld_rest {i : Nat} (h : i < text.length) :
    firstRest (.seq (.plus (cls ucIsWhitespaceCp)) (.notAhead fun c => nonSpace c.cp))
        (cpInfos (text.drop i)) = if wsCp (ucDecodeCodepoint text i) then
      (if (cpInfos (text.drop i)).dropWhile wsCp = [] then some []
      else fromLast wsCp (cpInfos (text.drop (i + (ucDecodeCodepoint text i).len)))) else none := by
  rw [show cls ucIsWhitespaceCp = .set wsCp from rfl, firstRest_plus_seq, cpInfos_drop text i h,
    List.dropWhile_cons]
  simp only
  cases wsCp (ucDecodeCodepoint text i)
  · rfl
  · exact findSome_runs_notAhead wsCp _

theorem wsRun_rest {i : Nat} (h : i < text.length) :
    firstRest (.plus (cls ucIsWhitespaceCp)) (cpInfos (text.drop i)) =
      if wsCp (ucDecodeCodepoint text i) then some ((cpInfos (text.drop i)).dropWhile wsCp)
      else none := by
  rw [show cls ucIsWhitespaceCp = .set wsCp from rfl, firstRest_plus_set, cpInfos_drop text i h,
    List.dropWhile_cons]
  simp only
  cases wsCp (ucDecodeCodepoint text i) <;> rfl

/-- One greedy scan resolves the last three alternatives. -/
theorem matchWsRun_ends {i : Nat} (h : i < text.length) :
    Ends text i (matchWsRun text i (ucDecodeCodepoint text i)) (alts [
      .seq (.star (cls ucIsWhitespaceCp)) (.plus (cls isNewline)),
      .seq (.plus (cls ucIsWhitespaceCp)) (.notAhead fun c => nonSpace c.cp),
      .plus (cls ucIsWhitespaceCp)]) := by
  have hi := Nat.le_of_lt h
  have hnl := scanWs_nlEnd text.length ⟨i, i, 0⟩ hi (by simp only; omega)
  have hlast := scanWs_lastCp text.length ⟨i, i, 0⟩ hi (by simp only; omega)
  have hstop := scanWs_stop (ucDecodeCodepoint text) text.length text.length ⟨i, i, 0⟩
  have hdrop := scanWhile_drop ucIsWhitespaceCp text.length i hi (by omega)
  have hself := scanWhile_self_iff ucIsWhitespaceCp i h
  have hle := scanWhile_le ucIsWhitespaceCp (ucDecodeCodepoint text) text.length
    (fun k hk => (decode_bounds text k hk).2) text.length i hi
  simp only at hnl hlast hstop
  unfold Ends
  simp only [firstRest_alts_cons, firstRest_alts_nil, Option.or_none, matchWsRun, reuseFirst_decode]
  generalize scanWs (ucDecodeCodepoint text) text.length text.length ⟨i, i, 0⟩ = r at *
  rw [← hstop] at hdrop hself hle
  have hdrop' : cpInfos (text.drop r.stop) = (cpInfos (text.drop i)).dropWhile wsCp := hdrop
  rw [wsNewlines_rest, wsHeld_rest h, wsRun_rest h, ← hdrop']
  cases hw : wsCp (ucDecodeCodepoint text i) with
  | false =>
    rw [if_pos (hself.mpr hw), cpInfos_drop text i h, afterLast]
    simp [hw]
  | true =>
    have hne : ¬ r.stop = i := fun he => Bool.false_ne_true ((hself.mp he).symm.trans hw)
    simp only [if_neg hne, ↓reduceIte]
    cases ha : afterLast wsCp nlCp (cpInfos (text.drop i)) with
    | some u =>
      simp only [ha] at hnl
      rw [if_pos (show r.nlEnd ≠ 0 by omega), if_neg (show ¬ r.nlEnd = i by omega), hnl.2,
        Option.some_or]
    | none =>
      simp only [ha] at hnl
      simp only [hnl, ne_eq, not_true_eq_false, ↓reduceIte, Option.none_or]
      by_cases hend : r.stop = text.length
      · have hnil : cpInfos (text.drop r.stop) = [] := by rw [hend, cpInfos_end]
        rw [if_pos hend, if_pos hnil, if_neg hne, hnil, Option.some_or]
      · have hcons : ¬ cpInfos (text.drop r.stop) = [] := by
          rw [cpInfos_drop text r.stop (by omega)]
          exact List.cons_ne_nil _ _
        simp only [if_neg hend, if_neg hcons]
        have hcp := cpInfos_drop text i h
        cases hv : fromLast wsCp (cpInfos (text.drop (i + (ucDecodeCodepoint text i).len))) with
        | some v =>
          simp only [hcp, fromLast, hw, hv, ↓reduceIte, Option.some_or] at hlast
          -- the last codepoint of the run is not its first one
          have hlt : i < r.lastCp := by
            refine Nat.lt_of_le_of_ne hlast.1 fun he => ?_
            have hsuf := (fromLast_suffix wsCp _ v hv).length_le
            rw [← hlast.2, ← he, hcp, List.length_cons] at hsuf
            exact Nat.not_succ_le_self _ hsuf
          rw [if_pos hlt, if_neg (show ¬ r.lastCp = i by omega), hlast.2, Option.some_or]
        | none =>
          simp only [hcp, fromLast, hw, hv, ↓reduceIte, Option.none_or] at hlast
          have hlen : text.length - r.lastCp = text.length - i := by
            rw [← List.length_drop, ← List.length_drop, ← cpInfos_bytes, ← cpInfos_bytes,
              hlast.2, hcp]
          rw [if_neg (show ¬ i < r.lastCp by omega), if_neg hne, Option.none_or]

/-! ## The whole alternation -/

section Disjoint

variable {T : UcTables}
  (hdisj : ∀ cp, inRanges cp T.number = true →
    inRanges cp T.letter = false ∧ inRanges cp T.mark = false)

include hdisj

/-- No number is a letter or a mark. -/
theorem number_not_letter (cp : Nat) (h : ucIsNumber T cp = true) :
    ucIsLetter T cp = false ∧ ucIsLetterOrMark T cp = false := by
  simp only [ucIsNumber, ucIsLetterOrMark, ucIsLetter, ucIsMark] at h ⊢
  split at h
  · rename_i hlt
    simp only [Bool.and_eq_true, decide_eq_true_eq] at h
    simp only [if_pos hlt, Bool.or_false]
    have : ∀ n < 0x80, 0x30 ≤ n ∧ n ≤ 0x39 →
        ((decide (0x41 ≤ n) && decide (n ≤ 0x5A)) || (decide (0x61 ≤ n) && decide (n ≤ 0x7A))) =
          false := by decide
    exact ⟨this cp hlt h, this cp hlt h⟩
  · rename_i hge
    simp only [if_neg hge, hdisj cp h, Bool.or_self, and_self]

/-- Numbers never match the second alternative and always match the third. -/
theorem number_ends {i : Nat} (h : i < text.length)
    (hnum : ucIsNumber T (ucDecodeCodepoint text i).cp = true) :
    Ends text i i
      (.seq (.opt (cls (notNewlineLetterNumber T))) (.plus (cls (ucIsLetterOrMark T)))) ∧
    Ends text i (i + (ucDecodeCodepoint text i).len) (cls (ucIsNumber T)) := by
  obtain ⟨h0, -⟩ := decode_bounds text i h
  obtain ⟨-, hlm⟩ := number_not_letter hdisj _ hnum
  unfold Ends
  rw [if_pos rfl, if_neg (by omega), cpInfos_drop text i h, cls, firstRest_opt_seq,
    firstRest_set_seq, cls, firstRest_plus_set, cls, firstRest_set_cons]
  simp [notNewlineLetterNumber, hnum, hlm]

omit hdisj

theorem not_number_ends {i : Nat} (h : i < text.length)
    (hnum : ucIsNumber T (ucDecodeCodepoint text i).cp = false) :
    Ends text i i (cls (ucIsNumber T)) := by
  unfold Ends
  rw [if_pos rfl, cpInfos_drop text i h, cls, firstRest_set_cons, hnum]
  rfl

/-- Every codepoint starts a match: it is a letter or mark, a number, space or punctuation. -/
theorem pretokPattern_total (c : CpInfo) (t : List CpInfo) :
    firstRest (pretokPattern T) (c :: t) ≠ none := by
  intro h
  simp only [pretokPattern, firstRest_alts_cons, Option.or_eq_none_iff] at h
  obtain ⟨-, h2, h3, h4, -, -, h7, -⟩ := h
  rw [cls, firstRest_opt_seq, Option.or_eq_none_iff, cls, firstRest_plus_set] at h2
  rw [cls, firstRest_set_cons] at h3
  rw [cls, firstRest_opt_seq, Option.or_eq_none_iff, cls, cls, firstRest_plus_star] at h4
  rw [cls, firstRest_plus_set] at h7
  have hlm : ucIsLetterOrMark T c.cp = false := by simpa using h2.2
  have hn : ucIsNumber T c.cp = false := by simpa using h3
  have hp : isPunct T c.cp = false := by simpa using h4.2
  have hw : ucIsWhitespaceCp c.cp = false := by simpa using h7
  simp [isPunct, hw, hlm, hn] at hp

theorem orElse_assoc (i a b c : Nat) :
    (if (if a = i then b else a) = i then c else if a = i then b else a) =
      if a = i then (if b = i then c else b) else a := by
  split <;> simp_all

include hdisj

/-- The first matcher that advances ends where the pattern's match ends. -/
theorem sliceEnd_spec {i : Nat} (h : i < text.length) :
    firstRest (pretokPattern T) (cpInfos (text.drop i)) =
      some (cpInfos (text.drop (sliceEnd T text i))) := by
  obtain ⟨a, b, ha, hb, hab⟩ : ∃ a b, Ends text i a
      (.seq (.opt (cls (notNewlineLetterNumber T))) (.plus (cls (ucIsLetterOrMark T)))) ∧
      Ends text i b (cls (ucIsNumber T)) ∧ (if a = i then b else a) =
        if ucIsNumber T (ucDecodeCodepoint text i).cp then i + (ucDecodeCodepoint text i).len
        else matchLettersRun T text i (ucDecodeCodepoint text i) := by
    cases hnum : ucIsNumber T (ucDecodeCodepoint text i).cp with
    | true =>
      obtain ⟨h2, h3⟩ := number_ends hdisj h hnum
      exact ⟨_, _, h2, h3, by simp⟩
    | false =>
      exact ⟨_, _, matchLettersRun_ends T h hnum, not_number_ends h hnum, by split <;> simp_all⟩
  have hends := (contraction_ends h).or fun _ => ha.or fun _ => hb.or fun _ =>
    (matchSpacePunct_ends T h).or fun _ => matchWsRun_ends h
  have htotal : firstRest (pretokPattern T) (cpInfos (text.drop i)) ≠ none := by
    rw [cpInfos_drop text i h]
    exact pretokPattern_total _ _
  unfold Ends at hends
  rw [pretokPattern] at htotal ⊢
  have hslice : sliceEnd T text i = (fun stop => if stop = i then
      i + (ucDecodeCodepoint text i).len else stop) (if matchContraction text i = i then
        if a = i then if b = i then
          if matchSpacePunct T text i (ucDecodeCodepoint text i) = i then
            matchWsRun text i (ucDecodeCodepoint text i)
          else matchSpacePunct T text i (ucDecodeCodepoint text i)
        else b else a
      else matchContraction text i) := by
    simp only [sliceEnd, ← hab, orElse_assoc]
  rw [hends] at htotal ⊢
  rw [hslice]
  generalize (if matchContraction text i = i then _ else _) = stop at htotal ⊢
  have hne : ¬ stop = i := fun he => htotal (if_pos he)
  simp only [if_neg hne]

/-- The slices are the successive matches. -/
theorem slicesFrom_spans (fuel i : Nat) (hi : i ≤ text.length) (hf : text.length ≤ i + fuel) :
    slicesFrom T text fuel i = spans i (findAll (pretokPattern T) (cpInfos (text.drop i))) := by
  induction fuel generalizing i with
  | zero =>
    obtain rfl : i = text.length := by omega
    rw [cpInfos_end, findAll_nil]
    rfl
  | succ fuel ih =>
    simp only [slicesFrom]
    by_cases hlt : i < text.length
    · have hb := sliceEnd_bounds T text i hlt
      have hs := sliceEnd_spec hdisj hlt
      obtain ⟨m, hm⟩ := firstRest_suffix _ _ _ hs
      have hlen : (m.map CpInfo.len).sum = sliceEnd T text i - i := by
        have := cpInfos_bytes (text.drop i)
        rw [← hm, List.map_append, List.sum_append, cpInfos_bytes] at this
        simp only [List.length_drop] at this
        omega
      have hne : m ≠ [] := by
        rintro rfl
        simp at hlen
        omega
      rw [if_pos hlt, ← hm, findAll_of_rest _ _ _ (hm ▸ hs) hne, spans, hlen, ih _ hb.2 (by omega)]
      rw [show i + (sliceEnd T text i - i) = sliceEnd T text i by omega]
    · obtain rfl : i = text.length := by omega
      rw [if_neg hlt, cpInfos_end, findAll_nil]
      rfl

end Disjoint

end Text

/-- The slices of the pretokenizer are the successive matches of the documented pattern;
they are non-empty, contiguous and cover the text. -/
theorem gpt2Pretokenize_matches (T : UcTables)
    (hdisj : ∀ cp, inRanges cp T.number = true →
      inRanges cp T.letter = false ∧ inRanges cp T.mark = false)
    (cap : Nat) (text : Bytes) (hlen : text.length ≤ INT32_MAX) (hcap : text.length ≤ cap) :
    gpt2Pretokenize T cap text = some (spans 0 (findAll (pretokPattern T) (cpInfos text))) ∧
      Partition 0 text.length (spans 0 (findAll (pretokPattern T) (cpInfos text))) := by
  have hs := slicesFrom_spans hdisj text.length 0 (Nat.zero_le text.length) (by omega)
  rw [List.drop_zero] at hs
  rw [gpt2Pretokenize_eq T cap text hlen hcap, ← hs]
  exact ⟨rfl, slicesFrom_partition T text text.length 0 (Nat.zero_le _) (by omega)⟩

/-- One letter, one mark and one number above ASCII. -/
def sampleTables : UcTables where
  letter := #[⟨0xE9, 0xE9⟩]
  mark := #[⟨0x301, 0x301⟩]
  number := #[⟨0xB2, 0xB3⟩]

/-- A contraction, a letter run, a number, punctuation and spaces given back. -/
theorem gpt2Pretokenize_matches_sample :
    ∃ slices, gpt2Pretokenize sampleTables 64 (Json.ascii "it's 7,  ok") = some slices ∧
      slices = spans 0 (findAll (pretokPattern sampleTables) (cpInfos (Json.ascii "it's 7,  ok"))) ∧
      Partition 0 11 slices :=
  have h := gpt2Pretokenize_matches sampleTables
    (fun cp h => by
      have hcp : cp = 0xB2 ∨ cp = 0xB3 := by
        change inRangesLoop cp #[⟨0xB2, 0xB3⟩] 1 0 1 = true at h
        simp [inRangesLoop] at h
        omega
      rcases hcp with rfl | rfl <;> decide)
    64 (Json.ascii "it's 7,  ok") (by decide) (by decide)
  ⟨_, h.1, rfl, h.2⟩

end Mlxd.Pretokenize
