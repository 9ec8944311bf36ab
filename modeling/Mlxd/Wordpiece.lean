import Mlxd.TokScratch

/-!
# WordPiece against its reference

The reference splits the lowercased text into words and takes from each, left to right, the
longest vocabulary match that ends at a character boundary. The encoder on its buffers computes
it for every vocabulary, prefix and byte string.
-/
namespace Mlxd.Wordpiece

open Mlxd.Unicode Mlxd.TokLoad Mlxd.Lib.Buffer Mlxd.TokScratch
open Mlxd.BpeMerge (INT32_MAX)
open Mlxd.Json (ascii)
open Mlxd.Pretokenize (byteAt)
open Mlxd.Encode (isContinuation lowerAscii wpIsSpace wpIsPunct)

/-! ## The reference -/

/-- The word read so far, unless it is empty. -/
def flush (cur : Bytes) : List Bytes := if cur = [] then [] else [cur]

/-- Spaces end a word and are dropped; a punctuation byte is a word of its own. -/
def splitWords (cur : Bytes) : Bytes → List Bytes
  | [] => flush cur
  | c :: rest =>
    if wpIsSpace c then flush cur ++ splitWords [] rest
    else if wpIsPunct c then flush cur ++ [c] :: splitWords [] rest
    else splitWords (cur ++ [c]) rest

section Reference

variable (tok : Tokenizer) (word : Bytes)

/-- What is looked up for the piece from `pos` to `stop`: its bytes, after the continuation
prefix unless the piece is the first one. -/
def pieceKey (pos stop : Nat) : Bytes :=
  if 0 < pos then tok.wpPrefix ++ slice word pos stop else slice word pos stop

/-- The piece from `pos` to `stop` ends at the end of the word or before a non-continuation
byte, and is the vocabulary's entry `id`. -/
structure Candidate (pos stop id : Nat) : Prop where
  nonempty : pos < stop
  inside : stop ≤ word.length
  boundary : stop = word.length ∨ isContinuation (byteAt word stop) = false
  entry : tok.vocab.lookup (pieceKey tok word pos stop) = some id

structure Longest (pos stop id : Nat) : Prop extends Candidate tok word pos stop id where
  longest : ∀ stop' id', Candidate tok word pos stop' id' → stop' ≤ stop

/-- Longest matches take the word from `pos` to its end; the texts and ids of the pieces. -/
inductive Matched : Nat → List (Bytes × Nat) → Prop where
  | done : Matched word.length []
  | piece {pos stop id : Nat} {rest : List (Bytes × Nat)} :
      Longest tok word pos stop id → Matched stop rest →
      Matched pos ((slice word pos stop, id) :: rest)

/-- Longest matches lead from `pos` to a position where nothing matches. -/
inductive Stuck : Nat → Prop where
  | here {pos : Nat} : pos < word.length → (∀ stop id, ¬ Candidate tok word pos stop id) →
      Stuck pos
  | later {pos stop id : Nat} : Longest tok word pos stop id → Stuck stop → Stuck pos

/-- The ids of a word: those of its pieces, or the unknown id alone. -/
inductive WordIds (unk : Int) : List Int → Prop where
  | matched {pieces : List (Bytes × Nat)} : Matched tok word 0 pieces →
      WordIds unk (pieces.map fun p => (p.2 : Int))
  | unknown : Stuck tok word 0 → WordIds unk [unk]

/-- The ids of a text, word by word. -/
def Reference (unk : Int) (text : Bytes) (ids : List Int) : Prop :=
  ∃ idss, List.Forall₂ (WordIds tok · unk) (splitWords [] (text.map lowerAscii)) idss ∧
    ids = idss.flatten

variable {tok word}

theorem Longest.unique {pos stop id stop' id' : Nat} (h : Longest tok word pos stop id)
    (h' : Longest tok word pos stop' id') : stop = stop' ∧ id = id' := by
  obtain rfl : stop = stop' := Nat.le_antisymm (h'.longest _ _ h.toCandidate)
    (h.longest _ _ h'.toCandidate)
  exact ⟨rfl, Option.some.inj (h.entry.symm.trans h'.entry)⟩

theorem Matched.unique {pos : Nat} {p p' : List (Bytes × Nat)} (h : Matched tok word pos p)
    (h' : Matched tok word pos p') : p = p' := by
  induction h generalizing p' with
  | done =>
    cases h' with
    | done => rfl
    | piece hl => exact absurd (Nat.lt_of_lt_of_le hl.nonempty hl.inside) (Nat.lt_irrefl _)
  | piece hl _ ih =>
    cases h' with
    | done => exact absurd (Nat.lt_of_lt_of_le hl.nonempty hl.inside) (Nat.lt_irrefl _)
    | piece hl' hrest' =>
      obtain ⟨rfl, rfl⟩ := hl.unique hl'
      rw [ih hrest']

theorem Matched.not_stuck {pos : Nat} {p : List (Bytes × Nat)} (h : Matched tok word pos p) :
    ¬ Stuck tok word pos := by
  induction h with
  | done =>
    intro hs
    cases hs with
    | here hlt => exact Nat.lt_irrefl _ hlt
    | later hl => exact absurd (Nat.lt_of_lt_of_le hl.nonempty hl.inside) (Nat.lt_irrefl _)
  | piece hl _ ih =>
    intro hs
    cases hs with
    | here _ hnone => exact hnone _ _ hl.toCandidate
    | later hl' hstuck =>
      obtain ⟨rfl, rfl⟩ := hl.unique hl'
      exact ih hstuck

theorem WordIds.unique {unk : Int} {ids ids' : List Int} (h : WordIds tok word unk ids)
    (h' : WordIds tok word unk ids') : ids = ids' := by
  cases h with
  | matched hm =>
    cases h' with
    | matched hm' => rw [hm.unique hm']
    | unknown hs => exact absurd hs hm.not_stuck
  | unknown hs =>
    cases h' with
    | matched hm' => exact absurd hs hm'.not_stuck
    | unknown => rfl

/-- The reference determines the ids. -/
theorem Reference.unique {unk : Int} {text : Bytes} {ids ids' : List Int}
    (h : Reference tok unk text ids) (h' : Reference tok unk text ids') : ids = ids' := by
  obtain ⟨idss, hall, rfl⟩ := h
  obtain ⟨idss', hall', rfl⟩ := h'
  suffices idss = idss' by rw [this]
  generalize splitWords [] (text.map lowerAscii) = words at hall hall'
  induction hall generalizing idss' with
  | nil => cases hall'; rfl
  | cons hw _ ih =>
    cases hall' with
    | cons hw' hrest' => rw [hw.unique hw', ih _ hrest']

/-- The texts of the pieces are the word. -/
theorem Matched.texts {pos : Nat} {p : List (Bytes × Nat)} (h : Matched tok word pos p) :
    (p.map Prod.fst).flatten = word.drop pos := by
  induction h with
  | done => simp
  | @piece pos stop id rest hl _ ih =>
    rw [List.map_cons, List.flatten_cons, ih, slice]
    have hsplit : word.drop stop = (word.drop pos).drop (stop - pos) := by
      rw [List.drop_drop, Nat.add_sub_cancel' (Nat.le_of_lt hl.nonempty)]
    rw [hsplit, List.take_append_drop]

end Reference

/-! ## One word -/

section Word

variable {tok : Tokenizer} {word : Bytes} {pos : Nat}

/-- Stepping back skips exactly the ends before continuation bytes. -/
theorem wpShrink_spec (stop : Nat) (h : pos ≤ stop) :
    pos ≤ Encode.wpShrink word pos stop ∧ Encode.wpShrink word pos stop ≤ stop ∧
      (pos < Encode.wpShrink word pos stop →
        isContinuation (byteAt word (Encode.wpShrink word pos stop)) = false) ∧
      ∀ k, Encode.wpShrink word pos stop < k → k ≤ stop →
        isContinuation (byteAt word k) = true := by
  induction stop with
  | zero => exact ⟨h, Nat.le_refl _, fun hlt => absurd hlt (Nat.not_lt_zero _), fun k hk hk' => by
      simp only [Encode.wpShrink] at hk; omega⟩
  | succ stop ih =>
    simp only [Encode.wpShrink]
    split
    · rename_i hc
      obtain ⟨h1, h2, h3, h4⟩ := ih (by omega)
      refine ⟨h1, by omega, h3, fun k hk hk' => ?_⟩
      by_cases he : k = stop + 1
      · rw [he]
        exact hc.2
      · exact h4 k hk (by omega)
    · rename_i hc
      refine ⟨h, Nat.le_refl _, fun hlt => ?_, fun k hk hk' => by omega⟩
      simpa [hlt] using hc

/-- A probe finds the longest match among the ends up to `stop`, when those beyond it miss. -/
theorem wpProbe_spec (n stop : Nat) (hn : stop ≤ n + pos) (hpos : pos ≤ stop)
    (hstop : stop ≤ word.length)
    (hbound : pos < stop → stop = word.length ∨ isContinuation (byteAt word stop) = false)
    (hbeyond : ∀ stop' id, Candidate tok word pos stop' id → stop' ≤ stop) :
    match Encode.wpProbe tok word pos n stop with
    | some (id, stop') => Longest tok word pos stop' id
    | none => ∀ stop' id, ¬ Candidate tok word pos stop' id := by
  induction n generalizing stop with
  | zero =>
    intro stop' id hc
    have := hbeyond _ _ hc
    have := hc.nonempty
    omega
  | succ n ih =>
    by_cases hlt : pos < stop
    · simp only [Encode.wpProbe, if_pos hlt]
      cases hlook : tok.vocab.lookup (pieceKey tok word pos stop) with
      | some id =>
        simp only [pieceKey] at hlook
        simp only [hlook]
        exact ⟨⟨hlt, hstop, hbound hlt, hlook⟩, hbeyond⟩
      | none =>
        simp only [pieceKey] at hlook
        simp only [hlook]
        obtain ⟨h1, h2, h3, h4⟩ := @wpShrink_spec word pos (stop - 1) (by omega)
        refine ih _ (by omega) h1 (by omega) (fun h => .inr (h3 h)) fun stop' id hc => ?_
        by_contra hgt
        have hle := hbeyond _ _ hc
        by_cases he : stop' = stop
        · subst stop'
          exact absurd (hlook.symm.trans hc.entry) (by simp)
        · have hcont := h4 stop' (by omega) (by omega)
          rcases hc.boundary with hb | hb
          · omega
          · exact absurd (hcont.symm.trans hb) (by decide)
    · simp only [Encode.wpProbe, if_neg hlt]
      intro stop' id hc
      have := hbeyond _ _ hc
      have := hc.nonempty
      omega

/-- From `pos` on, the pieces either reach the end of the word or get stuck. -/
theorem wpPieces_spec (n : Nat) (hn : word.length ≤ n + pos) (hpos : pos ≤ word.length) :
    match Encode.wpPieces tok word n pos with
    | some ids => ∃ pieces, Matched tok word pos pieces ∧ ids = pieces.map fun p => (p.2 : Int)
    | none => Stuck tok word pos := by
  induction n generalizing pos with
  | zero =>
    obtain rfl : pos = word.length := by omega
    exact ⟨[], .done, rfl⟩
  | succ n ih =>
    by_cases hlt : pos < word.length
    · simp only [Encode.wpPieces, if_pos hlt]
      have hprobe := @wpProbe_spec tok word pos word.length word.length (by omega)
        hpos (Nat.le_refl _) (fun _ => .inl rfl) fun _ _ hc => hc.inside
      cases hres : Encode.wpProbe tok word pos word.length word.length with
      | none =>
        rw [hres] at hprobe
        exact .here hlt hprobe
      | some res =>
        obtain ⟨id, stop⟩ := res
        rw [hres] at hprobe
        have hlong : Longest tok word pos stop id := hprobe
        have hrest := @ih stop (by have := hlong.nonempty; omega) hlong.inside
        simp only
        cases hpieces : Encode.wpPieces tok word n stop with
        | none =>
          rw [hpieces] at hrest
          exact .later hlong hrest
        | some ids =>
          rw [hpieces] at hrest
          obtain ⟨pieces, hm, rfl⟩ := hrest
          exact ⟨_, .piece hlong hm, rfl⟩
    · simp only [Encode.wpPieces, if_neg hlt]
      obtain rfl : pos = word.length := by omega
      exact ⟨[], .done, rfl⟩

theorem wpEmitWord_reference (word : Bytes) (unk : Int) :
    WordIds tok word unk (Encode.wpEmitWord tok word unk) := by
  have h := @wpPieces_spec tok word 0 word.length (Nat.le_refl _)
    (Nat.zero_le _)
  rw [Encode.wpEmitWord]
  cases hp : Encode.wpPieces tok word word.length 0 with
  | none =>
    rw [hp] at h
    exact .unknown h
  | some ids =>
    rw [hp] at h
    obtain ⟨pieces, hm, rfl⟩ := h
    exact .matched hm

/-- Every piece takes at least one byte. -/
theorem wpPieces_length {n : Nat} {ids : List Int} (hpos : pos ≤ word.length)
    (h : Encode.wpPieces tok word n pos = some ids) (hn : word.length ≤ n + pos) :
    ids.length + pos ≤ word.length := by
  have hspec := @wpPieces_spec tok word pos n hn hpos
  rw [h] at hspec
  obtain ⟨pieces, hm, rfl⟩ := hspec
  rw [List.length_map]
  clear h hn
  induction hm with
  | done => simp
  | piece hl _ ih =>
    have h1 := hl.nonempty
    have h2 := ih hl.inside
    simp only [List.length_cons]
    omega

end Word

/-! ## All words -/

section Words

variable (tok : Tokenizer) (unk : Int) (text : Bytes)

theorem drop_cons {i : Nat} (h : i < text.length) :
    text.drop i = byteAt text i :: text.drop (i + 1) := by
  rw [List.drop_eq_getElem_cons h, byteAt, List.getD_eq_getElem?_getD, List.getElem?_eq_getElem h,
    Option.getD_some]

theorem slice_succ {wstart i : Nat} (hw : wstart ≤ i) (h : i < text.length) :
    slice text wstart (i + 1) = slice text wstart i ++ [byteAt text i] := by
  have hget : (text.drop wstart)[i - wstart]? = some (byteAt text i) := by
    rw [List.getElem?_drop, Nat.add_sub_cancel' hw, byteAt, List.getD_eq_getElem?_getD,
      List.getElem?_eq_getElem h, Option.getD_some]
  rw [slice, slice, Nat.succ_sub hw, List.take_add_one, hget, Option.toList_some]

@[simp] theorem slice_self (i : Nat) : slice text i i = [] := by
  rw [slice, Nat.sub_self, List.take_zero]

theorem slice_one {i : Nat} (h : i < text.length) : slice text i (i + 1) = [byteAt text i] := by
  rw [slice_succ text (Nat.le_refl i) h, slice_self, List.nil_append]

theorem slice_ne_nil {i j : Nat} (hij : i < j) (h : j ≤ text.length) : slice text i j ≠ [] := by
  have hlen : (slice text i j).length = j - i := by
    simp only [slice, List.length_take, List.length_drop]
    omega
  intro he
  rw [he, List.length_nil] at hlen
  omega

/-- The word read so far is emitted unless it is empty. -/
theorem flush_ids {wstart i : Nat} (hw : wstart ≤ i) (hi : i ≤ text.length) :
    (flush (slice text wstart i)).flatMap (Encode.wpEmitWord tok · unk) =
      if wstart < i then Encode.wpEmitWord tok (slice text wstart i) unk else [] := by
  by_cases h : wstart < i
  · rw [flush, if_neg (slice_ne_nil text h hi), if_pos h, List.flatMap_cons, List.flatMap_nil,
      List.append_nil]
  · obtain rfl : wstart = i := by omega
    rw [slice_self, flush, if_pos rfl, if_neg h, List.flatMap_nil]

/-- The loop over the text emits the words of the reference in order. -/
theorem wpWords_spec (n i wstart : Nat) (total : List Int) (hn : text.length ≤ n + i)
    (hw : wstart ≤ i) (hi : i ≤ text.length) {ids : List Int} {last : Nat}
    (hr : Encode.wpWords tok text unk n i wstart total = (ids, last)) :
    (if last < text.length then ids ++ Encode.wpEmitWord tok (slice text last text.length) unk
      else ids) = total ++ (splitWords (slice text wstart i) (text.drop i)).flatMap
        (Encode.wpEmitWord tok · unk) := by
  induction n generalizing i wstart total with
  | zero =>
    obtain rfl : i = text.length := by omega
    obtain ⟨rfl, rfl⟩ := Prod.mk.inj hr
    simp only [List.drop_length, splitWords, flush_ids tok unk text hw hi]
    split <;> simp
  | succ n ih =>
    by_cases hlt : i < text.length
    · have hupto : (if wstart < i then total ++ Encode.wpEmitWord tok (slice text wstart i) unk
          else total) = total ++ (flush (slice text wstart i)).flatMap
            (Encode.wpEmitWord tok · unk) := by
        rw [flush_ids tok unk text hw hi]
        split <;> simp
      simp only [Encode.wpWords, if_pos hlt, hupto] at hr
      rw [drop_cons text hlt, splitWords]
      by_cases hspace : wpIsSpace (byteAt text i) = true
      · simp only [if_pos hspace] at hr
        have h := ih (i + 1) (i + 1) _ (by omega) (Nat.le_refl _) hlt hr
        simp only [slice_self, List.append_assoc] at h
        simpa only [if_pos hspace, List.flatMap_append, List.append_assoc] using h
      · by_cases hpunct : wpIsPunct (byteAt text i) = true
        · simp only [if_neg hspace, if_pos hpunct] at hr
          have h := ih (i + 1) (i + 1) _ (by omega) (Nat.le_refl _) hlt hr
          simp only [slice_self, List.append_assoc] at h
          simp only [if_neg hspace, if_pos hpunct, List.flatMap_append, List.flatMap_cons]
          rw [← slice_one text hlt]
          exact h
        · simp only [if_neg hspace, if_neg hpunct] at hr
          have h := ih (i + 1) wstart total (by omega) (by omega) hlt hr
          rw [slice_succ text hw hlt] at h
          simpa only [if_neg hspace, if_neg hpunct] using h
    · obtain rfl : i = text.length := by omega
      simp only [Encode.wpWords, if_neg hlt, Prod.mk.injEq] at hr
      obtain ⟨rfl, rfl⟩ := hr
      simp only [List.drop_length, splitWords, flush_ids tok unk text hw hi]
      split <;> simp

end Words

/-- The ids of the words are those of the reference. -/
theorem words_reference (tok : Tokenizer) (unk : Int) (text : Bytes) :
    Reference tok unk text ((splitWords [] (text.map lowerAscii)).flatMap
      (Encode.wpEmitWord tok · unk)) := by
  refine ⟨_, ?_, List.flatMap_def⟩
  generalize splitWords [] (text.map lowerAscii) = words
  induction words with
  | nil => exact .nil
  | cons word words ih => exact .cons (wpEmitWord_reference word unk) ih

/-! ## One word on the buffers -/

section Buffers

variable {tok : Tokenizer} {lower : Bytes} {cells : Array UInt8} {wstart wlen : Nat}

theorem word_length (hw : wstart + wlen ≤ lower.length) :
    (slice lower wstart (wstart + wlen)).length = wlen := by
  simp only [slice, List.length_take, List.length_drop]
  omega

/-- A piece of the word is a slice of the text. -/
theorem slice_word (pos : Nat) {stop : Nat} (h : stop ≤ wlen) :
    slice (slice lower wstart (wstart + wlen)) pos stop =
      slice lower (wstart + pos) (wstart + stop) := by
  simp only [slice, List.drop_take, List.drop_drop, List.take_take]
  congr 1
  omega

variable (hcells : Holds cells lower) (hw : wstart + wlen ≤ lower.length)

include hcells hw

theorem load_word {k : Nat} (hk : k < wlen) :
    load cells (wstart + k) = some (byteAt (slice lower wstart (wstart + wlen)) k) := by
  have hlt : wstart + k < lower.length := by omega
  rw [hcells.get hlt, byteAt, List.getD_eq_getElem?_getD, slice, Nat.add_sub_cancel_left,
    List.getElem?_take_of_lt hk, List.getElem?_drop, List.getElem?_eq_getElem hlt, Option.getD_some]

theorem wpShrink_eq (pos : Nat) {stop : Nat} (h : stop < wlen) :
    wpShrink cells wstart pos stop =
      some (Encode.wpShrink (slice lower wstart (wstart + wlen)) pos stop) := by
  induction stop with
  | zero => rfl
  | succ stop ih =>
    simp only [wpShrink, Encode.wpShrink, load_word hcells hw h, Option.bind_eq_bind,
      Option.bind_some]
    by_cases hpos : pos < stop + 1
    · cases hc : isContinuation (byteAt (slice lower wstart (wstart + wlen)) (stop + 1)) with
      | true => simpa [hpos] using ih (by omega)
      | false => simp [hpos]
    · simp [hpos]

/-- A probe reads the pieces out of its key. -/
theorem wpProbe_eq {pos kstart plen : Nat} {key : List UInt8}
    (hkey : ∀ stop, pos < stop → stop ≤ wlen → loadSlice key kstart (kstart + (stop - pos + plen)) =
      some (pieceKey tok (slice lower wstart (wstart + wlen)) pos stop))
    (n stop : Nat) (hstop : stop ≤ wlen) :
    wpProbe tok cells wstart pos key kstart plen n stop =
      some (Encode.wpProbe tok (slice lower wstart (wstart + wlen)) pos n stop) := by
  induction n generalizing stop with
  | zero => rfl
  | succ n ih =>
    by_cases hlt : pos < stop
    · simp only [wpProbe, Encode.wpProbe, if_pos hlt, hkey stop hlt hstop, Option.bind_eq_bind,
        Option.bind_some, pieceKey]
      cases tok.vocab.lookup (if 0 < pos then
          tok.wpPrefix ++ slice (slice lower wstart (wstart + wlen)) pos stop
        else slice (slice lower wstart (wstart + wlen)) pos stop) with
      | some id => rfl
      | none =>
        simp only [wpShrink_eq hcells hw pos (show stop - 1 < wlen by omega), Option.bind_some]
        have := (@wpShrink_spec (slice lower wstart (wstart + wlen)) pos (stop - 1)
          (by omega)).2.1
        exact ih _ (by omega)
    · simp only [wpProbe, Encode.wpProbe, if_neg hlt]

/-- The key of a later piece stands in the key buffer. -/
theorem fillCand_spec {pos : Nat} {cand : Array UInt8} (hpos : pos ≤ wlen)
    (hcand : tok.wpPrefix.length + wlen ≤ cand.size) :
    Safe (fillCand tok cells wstart pos wlen cand) fun cand' => cand'.size = cand.size ∧
      Holds cand' (tok.wpPrefix ++ slice lower (wstart + pos) (wstart + wlen)) := by
  have hrest : (slice lower (wstart + pos) (wstart + wlen)).length ≤ wlen := by
    simp only [slice, List.length_take]
    omega
  rw [fillCand, hcells.loadSlice (show wstart + pos ≤ wstart + wlen by omega) hw]
  refine (safe_storeSlice (Holds.nil cand) tok.wpPrefix ?_).bind ?_
  · simp only [List.length_nil]
    omega
  rintro cand' ⟨hsize, hholds⟩
  refine (safe_storeSlice hholds (slice lower (wstart + pos) (wstart + wlen)) ?_).mono ?_
  · simp only [List.nil_append]
    omega
  · rintro cand'' ⟨hsize', hholds'⟩
    exact ⟨hsize'.trans hsize, hholds'⟩

theorem probe_first (n : Nat) :
    wpProbe tok cells wstart 0 cells.toList (wstart + 0) 0 n wlen =
      some (Encode.wpProbe tok (slice lower wstart (wstart + wlen)) 0 n wlen) := by
  refine wpProbe_eq hcells hw (fun stop _ hstop => ?_) n wlen (Nat.le_refl _)
  rw [hcells.loadSlice (Nat.le_add_right _ _) (by omega), pieceKey, if_neg (Nat.lt_irrefl 0),
    slice_word 0 hstop, slice]
  rfl

theorem probe_later {pos : Nat} {cand : Array UInt8} (hpos : 0 < pos)
    (hcand : Holds cand (tok.wpPrefix ++ slice lower (wstart + pos) (wstart + wlen))) (n : Nat) :
    wpProbe tok cells wstart pos cand.toList 0 tok.wpPrefix.length n wlen =
      some (Encode.wpProbe tok (slice lower wstart (wstart + wlen)) pos n wlen) := by
  refine wpProbe_eq hcells hw (fun stop hlt hstop => ?_) n wlen (Nat.le_refl _)
  have hlen : (slice lower (wstart + pos) (wstart + wlen)).length = wlen - pos := by
    simp only [slice, List.length_take, List.length_drop]
    omega
  rw [hcand.loadSlice (Nat.zero_le _) (by simp only [List.length_append, hlen]; omega), pieceKey,
    if_pos hpos, slice_word pos hstop, List.drop_zero, Nat.sub_zero, Nat.zero_add, Nat.add_comm,
    List.take_length_add_append]
  simp only [slice, List.take_take]
  congr 3
  omega

end Buffers

/-- The output cells hold exactly these ids. -/
structure Holding (o : WpOut) (outSize candSize : Nat) (ids : List Int) : Prop where
  out : Holds o.out ids
  total : o.total = ids.length
  outSize : o.out.size = outSize
  candSize : o.cand.size = candSize

/-- A word of at least one byte gets at most one id a byte. -/
theorem wpEmitWord_length (tok : Tokenizer) (word : Bytes) (unk : Int) (h : 0 < word.length) :
    (Encode.wpEmitWord tok word unk).length ≤ word.length := by
  rw [Encode.wpEmitWord]
  cases hp : Encode.wpPieces tok word word.length 0 with
  | none => exact h
  | some ids => exact wpPieces_length (Nat.zero_le _) hp (Nat.le_refl _)

section Emit

variable {tok : Tokenizer} {lower : Bytes} {cells : Array UInt8}
variable {outSize candSize : Nat}

/-- The pieces follow the ids of the earlier words, or the unknown id does. -/
theorem wpEmitLoop_spec {wstart wlen : Nat} (hcells : Holds cells lower)
    (hw : wstart + wlen ≤ lower.length) (unk : Int) (done : List Int)
    (hout : done.length + wlen ≤ outSize) (hcand : tok.wpPrefix.length + wlen ≤ candSize)
    (n pos : Nat) (hn : wlen ≤ n + pos) (hpos : pos ≤ wlen) (pieces : List Int)
    (hpieces : pieces.length ≤ pos) (o : WpOut)
    (ho : Holding o outSize candSize (done ++ pieces)) :
    Safe (wpEmitLoop tok cells wstart wlen unk done.length n pos o) fun o' =>
      Holding o' outSize candSize (done ++
        (Encode.wpPieces tok (slice lower wstart (wstart + wlen)) n pos).elim [unk]
          (pieces ++ ·)) := by
  induction n generalizing pos pieces o with
  | zero =>
    refine Safe.of_some ?_
    simpa [Encode.wpPieces] using ho
  | succ n ih =>
    have hlen := word_length hw
    by_cases hlt : pos < wlen
    · simp only [wpEmitLoop, Encode.wpPieces, hlen, if_pos hlt]
      -- the key buffer is filled for every piece but the first
      have hfound : Safe (if 0 < pos then fillCand tok cells wstart pos wlen o.cand
          else some o.cand) fun cand => cand.size = candSize ∧
            (if 0 < pos then wpProbe tok cells wstart pos cand.toList 0 tok.wpPrefix.length wlen wlen
              else wpProbe tok cells wstart pos cells.toList (wstart + pos) 0 wlen wlen) =
              some (Encode.wpProbe tok (slice lower wstart (wstart + wlen)) pos wlen wlen) := by
        by_cases h0 : 0 < pos
        · simp only [if_pos h0]
          refine (fillCand_spec hcells hw hpos (by rw [ho.candSize]; exact hcand)).mono ?_
          rintro cand ⟨hsize, hholds⟩
          exact ⟨hsize.trans ho.candSize, probe_later hcells hw h0 hholds wlen⟩
        · obtain rfl : pos = 0 := by omega
          simp only [if_neg h0]
          exact Safe.of_some ⟨ho.candSize, probe_first hcells hw wlen⟩
      refine hfound.bind ?_
      rintro cand ⟨hsize, hprobe⟩
      rw [hprobe]
      have hspec := @wpProbe_spec tok (slice lower wstart (wstart + wlen)) pos
        wlen wlen (by omega) hpos (by omega)
        (fun _ => .inl hlen.symm) fun _ _ hc => hlen ▸ hc.inside
      cases hres : Encode.wpProbe tok (slice lower wstart (wstart + wlen)) pos wlen wlen with
      | none =>
        simp only [Option.bind_eq_bind, Option.bind_some, Option.elim_none]
        refine (safe_store ho.out.left (by rw [ho.outSize]; omega) unk).bind ?_
        rintro out ⟨hosize, hholds⟩
        exact Safe.of_some ⟨hholds, by simp, hosize.trans ho.outSize, hsize⟩
      | some res =>
        obtain ⟨id, stop⟩ := res
        rw [hres] at hspec
        have hlong : Longest tok _ pos stop id := hspec
        have hgt := hlong.nonempty
        have hle := hlong.inside
        simp only [Option.bind_eq_bind, Option.bind_some]
        rw [ho.total]
        refine (safe_store ho.out (by
          rw [ho.outSize]; simp only [List.length_append]; omega) (id : Int)).bind ?_
        rintro out ⟨hosize, hholds⟩
        refine (ih stop (by omega) (by omega) (pieces ++ [(id : Int)])
          (by simp only [List.length_append, List.length_singleton]; omega)
          ⟨out, cand, (done ++ pieces).length + 1⟩
          ⟨by simpa using hholds, by simp [Nat.add_assoc], hosize.trans ho.outSize, hsize⟩).mono ?_
        intro o' ho'
        cases hrest : Encode.wpPieces tok (slice lower wstart (wstart + wlen)) n stop with
        | none => simpa [hrest] using ho'
        | some rest => simpa [hrest] using ho'
    · simp only [wpEmitLoop, Encode.wpPieces, hlen, if_neg hlt]
      refine Safe.of_some ?_
      simpa using ho

theorem wpEmitWord_spec {wstart wlen : Nat} (hcells : Holds cells lower)
    (hw : wstart + wlen ≤ lower.length) (unk : Int) (done : List Int)
    (hout : done.length + wlen ≤ outSize) (hcand : tok.wpPrefix.length + wlen ≤ candSize)
    {o : WpOut} (ho : Holding o outSize candSize done) :
    Safe (wpEmitWord tok cells wstart wlen unk o) fun o' => Holding o' outSize candSize
      (done ++ Encode.wpEmitWord tok (slice lower wstart (wstart + wlen)) unk) := by
  rw [wpEmitWord, ho.total]
  refine (wpEmitLoop_spec hcells hw unk done hout hcand wlen 0 (Nat.le_refl _) (Nat.zero_le _) []
    (Nat.le_refl _) o (by simpa using ho)).mono ?_
  intro o' ho'
  rw [Encode.wpEmitWord, word_length hw]
  cases hp : Encode.wpPieces tok (slice lower wstart (wstart + wlen)) wlen 0 with
  | none => simpa [hp] using ho'
  | some ids => simpa [hp] using ho'

/-- The word before `i`, if there is one, gets its ids. -/
theorem pendingWord_holding (hcells : Holds cells lower) (unk : Int)
    (hout : lower.length ≤ outSize) (hcand : tok.wpPrefix.length + lower.length ≤ candSize)
    {i wstart : Nat} (hwi : wstart ≤ i) (hi : i ≤ lower.length) {total : List Int}
    (htotal : total.length ≤ wstart) {o : WpOut} (ho : Holding o outSize candSize total) :
    Safe (if wstart < i then wpEmitWord tok cells wstart (i - wstart) unk o else some o)
      fun o' => ∃ ids, (if wstart < i then
          total ++ Encode.wpEmitWord tok (slice lower wstart i) unk else total) = ids ∧
        Holding o' outSize candSize ids ∧ ids.length ≤ i := by
  by_cases hlt : wstart < i
  · have he : wstart + (i - wstart) = i := by omega
    have hlen := @word_length lower wstart (i - wstart) (by omega)
    have hle := wpEmitWord_length tok (slice lower wstart (wstart + (i - wstart))) unk (by omega)
    simp only [if_pos hlt]
    refine (wpEmitWord_spec hcells (by omega) unk total (by omega) (by omega) ho).mono ?_
    intro o' ho'
    rw [he] at ho' hlen hle
    exact ⟨_, rfl, ho', by simp only [List.length_append]; omega⟩
  · simp only [if_neg hlt]
    exact Safe.of_some ⟨_, rfl, ho, by omega⟩

/-- Every word gets its ids, and they take at most the bytes read so far. -/
theorem wpWords_holding (hcells : Holds cells lower) (unk : Int) (hout : lower.length ≤ outSize)
    (hcand : tok.wpPrefix.length + lower.length ≤ candSize) (n i wstart : Nat)
    (hwi : wstart ≤ i) (hi : i ≤ lower.length) (total : List Int) (htotal : total.length ≤ wstart)
    {o : WpOut} (ho : Holding o outSize candSize total) :
    Safe (wpWords tok cells lower.length unk n i wstart o) fun r =>
      ∃ ids, Encode.wpWords tok lower unk n i wstart total = (ids, r.2) ∧
        Holding r.1 outSize candSize ids ∧ ids.length ≤ r.2 ∧ r.2 ≤ lower.length := by
  induction n generalizing i wstart total o with
  | zero => exact Safe.of_some ⟨total, rfl, ho, htotal, hwi.trans hi⟩
  | succ n ih =>
    by_cases hlt : i < lower.length
    · have hload : load cells i = some (byteAt lower i) := by
        rw [hcells.get hlt, byteAt, List.getD_eq_getElem?_getD, List.getElem?_eq_getElem hlt,
          Option.getD_some]
      simp only [wpWords, Encode.wpWords, if_pos hlt, hload, Option.bind_eq_bind, Option.bind_some]
      have hword := pendingWord_holding hcells unk hout hcand hwi hi htotal ho
      by_cases hspace : wpIsSpace (byteAt lower i) = true
      · simp only [if_pos hspace]
        refine hword.bind ?_
        rintro o' ⟨ids, hids, ho', hle⟩
        rw [hids]
        exact ih (i + 1) (i + 1) (Nat.le_refl _) hlt ids (by omega) ho'
      · by_cases hpunct : wpIsPunct (byteAt lower i) = true
        · simp only [if_neg hspace, if_pos hpunct]
          refine hword.bind ?_
          rintro o' ⟨ids, hids, ho', hle⟩
          rw [hids]
          have hlen := @word_length lower i 1 hlt
          have hone := wpEmitWord_length tok (slice lower i (i + 1)) unk (by omega)
          refine (wpEmitWord_spec hcells hlt unk ids (by omega) (by omega) ho').bind ?_
          intro o'' ho''
          exact ih (i + 1) (i + 1) (Nat.le_refl _) hlt _
            (by simp only [List.length_append]; omega) ho''
        · simp only [if_neg hspace, if_neg hpunct]
          exact ih (i + 1) wstart (by omega) hlt total htotal ho
    · simp only [wpWords, Encode.wpWords, if_neg hlt]
      exact Safe.of_some ⟨total, rfl, ho, htotal, hwi.trans hi⟩

end Emit

/-! ## The encoder -/

section Encoder

variable (mem : Memory) (tok : Tokenizer) {s : EncodeScratch} (text : Bytes)

/-- The id of a word that has no pieces. -/
def wpUnk : Int := if 0 ≤ tok.unkId then tok.unkId else 0

theorem lower_flatMap : text.flatMap (fun c => [lowerAscii c]) = text.map lowerAscii :=
  List.flatMap_pure_eq_map lowerAscii text

/-- With its reservation the encoder stays inside the buffers and leaves the reference's ids. -/
theorem encodeWordpiece_spec (hs : Sized s) : Safe (encodeWordpiece mem tok s text) fun r =>
    Sized r.1 ∧ (r.2 = none ↔ INT32_MAX < text.length ∨
      ∃ s', scratchReserveMask mem s (text.length + tok.wpPrefix.length) wpMask = .error s') ∧
    ∀ n, r.2 = some n → ∃ ids, Reference tok (wpUnk tok) text ids ∧ Holds r.1.out.cells ids ∧
      ids.length = n ∧ n ≤ text.length := by
  rw [encodeWordpiece]
  by_cases hint : INT32_MAX < text.length
  · rw [if_pos hint]
    exact Safe.of_some ⟨hs, by simp [hint], by simp⟩
  · rw [if_neg hint]
    have hends := reserve_ends mem hs (text.length + tok.wpPrefix.length) wpMask
    cases hres : scratchReserveMask mem s (text.length + tok.wpPrefix.length) wpMask with
    | error s' =>
      rw [hres] at hends
      exact Safe.of_some ⟨hends, by simp, by simp⟩
    | ok s' =>
      rw [hres] at hends
      obtain ⟨hs', -, hroom⟩ := hends
      have htextRoom := hroom.text rfl
      have houtRoom := hroom.out rfl
      have hcandRoom := hroom.cand rfl
      simp only
      have hspell := spellBytes_spec (fun c => [lowerAscii c]) text (Holds.nil s'.text.cells)
        (by rw [lower_flatMap, List.length_map, List.length_nil]; omega)
      refine hspell.bind ?_
      rintro ⟨cells, tlen⟩ ⟨hsize, hholds, -⟩
      rw [List.nil_append, lower_flatMap] at hholds
      simp only at hsize hholds ⊢
      have hlen : (text.map lowerAscii).length = text.length := List.length_map _
      have hwords := @wpWords_holding tok _ _ s'.out.cells.size
        s'.cand.cells.size hholds (wpUnk tok) (by omega) (by omega) text.length 0 0
        (Nat.le_refl _) (Nat.zero_le _) [] (Nat.le_refl _)
        ⟨s'.out.cells, s'.cand.cells, 0⟩ ⟨Holds.nil _, rfl, rfl, rfl⟩
      rw [hlen] at hwords
      refine hwords.bind ?_
      rintro ⟨o, last⟩ ⟨ids, hids, ho, hle, hlast⟩
      simp only at hids ho hle hlast ⊢
      have hspec := wpWords_spec tok (wpUnk tok) (text.map lowerAscii) text.length 0 0 [] (by omega)
        (Nat.le_refl _) (Nat.zero_le _) hids
      rw [slice_self, List.drop_zero, List.nil_append, hlen] at hspec
      -- the word that the end of the text ends
      have hfinal := @pendingWord_holding tok _ _ s'.out.cells.size s'.cand.cells.size hholds
        (wpUnk tok) (by omega) (by omega) text.length last (by omega) (by omega) ids hle o ho
      rw [hspec] at hfinal
      refine hfinal.bind ?_
      rintro o' ⟨_, rfl, ho', htotal⟩
      refine Safe.of_some ⟨?_, by simp [hint], ?_⟩
      · exact { hs' with
          text := hs'.text.trans hsize.symm
          out := hs'.out.trans ho'.outSize.symm
          cand := hs'.cand.trans ho'.candSize.symm }
      · rintro n ⟨⟩
        exact ⟨_, words_reference tok (wpUnk tok) text, ho'.out, ho'.total.symm,
          ho'.total ▸ htotal⟩

/-- The encoder without buffers gives the same ids. -/
theorem encodeWordpiece_same (hs : Sized s) {s' : EncodeScratch} {n : Nat}
    (h : encodeWordpiece mem tok s text = some (s', some n)) :
    Encode.encodeWordpiece tok text = some (s'.out.cells.toList.take n) := by
  obtain ⟨_, he, -, hnone, hsome⟩ := encodeWordpiece_spec mem tok text hs
  obtain rfl := Option.some.inj (h.symm.trans he)
  obtain ⟨ids, href, hholds, rfl, -⟩ := hsome n rfl
  have haccept := mt hnone.mpr (by simp)
  obtain ⟨hint, hreserve⟩ := not_or.mp haccept
  have hroom : ¬ UINT32_MAX / 3 < text.length + tok.wpPrefix.length := fun hlt =>
    hreserve ⟨s, by rw [scratchReserveMask, if_pos hlt]⟩
  rw [hholds.take, Encode.encodeWordpiece, if_neg hint, if_neg hroom]
  cases hwords : Encode.wpWords tok (text.map lowerAscii) (wpUnk tok) (text.map lowerAscii).length
    0 0 [] with
  | mk ids' last =>
    have hspec := wpWords_spec tok (wpUnk tok) (text.map lowerAscii) _ 0 0 [] (Nat.le_refl _)
      (Nat.le_refl _) (Nat.zero_le _) hwords
    rw [slice_self, List.drop_zero, List.nil_append] at hspec
    have hids := href.unique (words_reference tok (wpUnk tok) text)
    rw [hids, ← hspec]
    simp only [wpUnk] at hwords ⊢
    simp only [hwords]

end Encoder

/-- Whatever the allocator does, an accepted text gets exactly the ids of the reference, and the
pieces of a word matched to its end join to the word. Texts are refused for their length or for
a failed reservation only. -/
theorem encodeWordpiece_reference (mem : Memory) (tok : Tokenizer) (s : EncodeScratch)
    (hs : Sized s) (text : Bytes) :
    (∃ s' count, encodeWordpiece mem tok s text = some (s', count) ∧
      (count = none ↔ INT32_MAX < text.length ∨
        ∃ s', scratchReserveMask mem s (text.length + tok.wpPrefix.length) wpMask = .error s') ∧
      ∀ n, count = some n → ∀ ids, Reference tok (wpUnk tok) text ids ↔
        Holds s'.out.cells ids ∧ ids.length = n) ∧
    ∀ word pieces, Matched tok word 0 pieces → (pieces.map Prod.fst).flatten = word := by
  refine ⟨?_, fun word pieces hm => by rw [hm.texts, List.drop_zero]⟩
  obtain ⟨⟨s', count⟩, he, -, hnone, hsome⟩ := encodeWordpiece_spec mem tok text hs
  refine ⟨s', count, he, hnone, fun n hn ids => ?_⟩
  obtain ⟨ids', href, hholds, hlen, -⟩ := hsome n hn
  constructor
  · intro h
    rw [h.unique href]
    exact ⟨hholds, hlen⟩
  · rintro ⟨h, hn'⟩
    have hids : ids = ids' := by rw [← h.take, ← hholds.take, hn', hlen]
    rw [hids]
    exact href

/-! ## A small vocabulary -/

/-- New cells hold `x`. -/
def fillWith {α : Type} (x : α) : Allocator α :=
  ⟨fun _ n => some (Array.replicate n x), fun _ n b' h => by
    obtain rfl := Option.some.inj h
    exact Array.size_replicate⟩

def zeroedMemory : Memory :=
  ⟨fillWith default, fillWith ⟨0, 0, 0, 0, 0⟩, fillWith 0, fillWith ⟨0, 0⟩, fillWith 0, fillWith 0,
    fillWith 0⟩

/-- A scratch before its first reservation. -/
def emptyScratch : EncodeScratch :=
  ⟨⟨#[], 0⟩, ⟨#[], 0⟩, 0, ⟨#[], 0⟩, ⟨#[], 0⟩, ⟨#[], 0⟩, ⟨#[], 0⟩, ⟨#[], 0⟩⟩

theorem emptyScratch_sized : Sized emptyScratch := ⟨rfl, rfl, rfl, rfl, rfl, rfl, rfl⟩

def unableTokenizer : Tokenizer :=
  { BpeMerge.doubleA with
    type := .wordpiece
    vocab := (∅ : StrMap).insert (ascii "[UNK]") 0 |>.insert (ascii "un") 10
      |>.insert (ascii "##able") 12 }

/-- One word in two pieces, and one that nothing matches. -/
theorem encodeWordpiece_reference_unable :
    Sized emptyScratch ∧ Reference unableTokenizer 0 (ascii "Unable x") [10, 12, 0] := by
  refine ⟨emptyScratch_sized, ?_⟩
  obtain ⟨⟨s', count, he, -, hids⟩, -⟩ := encodeWordpiece_reference zeroedMemory unableTokenizer
    emptyScratch emptyScratch_sized (ascii "Unable x")
  have heval : (encodeWordpiece zeroedMemory unableTokenizer emptyScratch (ascii "Unable x")).map
      (fun r => (r.2, r.1.out.cells.toList.take 3)) = some (some 3, [10, 12, 0]) := by
    decide +kernel
  rw [he, Option.map_some, Option.some.injEq, Prod.mk.injEq] at heval
  refine (hids 3 heval.1 _).mpr ⟨?_, rfl⟩
  rw [← heval.2]
  exact List.take_prefix _ _

end Mlxd.Wordpiece
