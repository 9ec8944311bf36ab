import Mlxd.Detok
import Mlxd.Utf8Codec

/-!
# Byte conservation of the detokenizer

The withheld bytes live in a buffer that is grown on demand. As long as it can be grown, the chunks
and the withheld bytes are the texts of the tokens, in order. In a stream that is UTF-8 the buffer
starts at a character boundary, so every cut ends on one.
-/
namespace Mlxd.DetokStream

open Mlxd.Unicode Mlxd.Json Mlxd.Utf8Codec Mlxd.Detok Mlxd.TokLoad Mlxd.Decode

/-! ## The buffer -/

/-- The withheld bytes and the room of the buffer they stand in. -/
structure State where
  buf : Bytes
  cap : Nat

/-- Whether the two allocations of a call succeed. -/
structure Answers where
  grow : Bool
  out : Bool

/-- Double the capacity until the bytes fit; the fuel bounds the doublings. -/
def growLoop (need : Nat) : Nat → Nat → Nat
  | 0, newCap => newCap
  | fuel + 1, newCap => if newCap < need then growLoop need fuel (newCap * 2) else newCap

/-- Copy `s` behind the withheld bytes; `none` when the buffer cannot be grown. -/
def append (s : Bytes) (grow : Bool) (d : State) : Option State :=
  if s.length = 0 then some d
  else if d.cap < d.buf.length + s.length then
    if grow then
      some ⟨d.buf ++ s, growLoop (d.buf.length + s.length) (d.buf.length + s.length)
        (if d.cap = 0 then 64 else d.cap)⟩
    else none
  else some ⟨d.buf ++ s, d.cap⟩

/-- Hand out the bytes before the boundary; nothing changes when the copy fails. -/
def emitChunk (boundary : Nat) (out : Bool) (d : State) : Option Bytes × State :=
  if out then (some (emit d.buf boundary).1, ⟨(emit d.buf boundary).2, d.cap⟩) else (none, d)

/-- `detok_feed` for the decoded text of a token, `none` when decoding failed. -/
def feed (s : Option Bytes) (answers : Answers) (d : State) : Option Bytes × State :=
  match s with
  | none => (none, d)
  | some s =>
    match append (cstr s) answers.grow d with
    | none => (none, d)
    | some d => emitChunk (utf8CompletePrefix d.buf) answers.out d

def flush (out : Bool) (d : State) : Option Bytes × State := emitChunk d.buf.length out d

/-! ## Streams of calls -/

/-- The decoded text and the allocations of one call. -/
structure Feed where
  text : Option Bytes
  answers : Answers

/-- The text of the token, empty when it cannot be decoded. -/
def Feed.bytes (f : Feed) : Bytes := cstr (f.text.getD [])

/-- The texts of the tokens, one after the other. -/
def texts (fs : List Feed) : Bytes := fs.flatMap Feed.bytes

/-- The chunks handed out and the detokenizer. -/
structure Stream where
  chunks : List Bytes
  d : State

def Stream.feed (t : Stream) (f : Feed) : Stream :=
  let (chunk, d) := DetokStream.feed f.text f.answers t.d
  ⟨t.chunks ++ chunk.toList, d⟩

/-- The calls on a new detokenizer. -/
def stream (fs : List Feed) : Stream := fs.foldl Stream.feed ⟨[], ⟨[], 0⟩⟩

theorem append_grown (s : Bytes) (d : State) : (append s true d).isSome := by
  unfold append
  split
  · rfl
  · split <;> rfl

theorem append_buf {s : Bytes} {grow : Bool} {d d' : State} (h : append s grow d = some d') :
    d'.buf = d.buf ++ s := by
  unfold append at h
  split at h
  · rename_i hs
    obtain rfl := Option.some.inj h
    rw [List.length_eq_zero_iff.mp hs, List.append_nil]
  · split at h
    · split at h
      · obtain rfl := Option.some.inj h
        rfl
      · contradiction
    · obtain rfl := Option.some.inj h
      rfl

/-- A call whose allocations succeed is the call of the allocation-free model. -/
theorem feed_detokFeed (tok : Tokenizer) (id : Int) (d : State) :
    ((feed (tokenizerDecode tok [id]) ⟨true, true⟩ d).1.map fun out =>
      (out, (feed (tokenizerDecode tok [id]) ⟨true, true⟩ d).2.buf)) = detokFeed tok d.buf id := by
  unfold feed detokFeed
  cases tokenizerDecode tok [id] with
  | none => rfl
  | some s =>
    obtain ⟨d', happend⟩ := Option.isSome_iff_exists.mp (append_grown (cstr s) d)
    simp [happend, emitChunk, append_buf happend]

/-! ## The cut -/

theorem utf8CharLen_pos (b : UInt8) : 0 < utf8CharLen b := by
  unfold utf8CharLen
  repeat' split
  all_goals decide

theorem utf8CharLen_le (b : UInt8) : utf8CharLen b ≤ 4 := by
  unfold utf8CharLen
  repeat' split
  all_goals decide

theorem utf8CompleteLoop_drop (x : Bytes) (fuel i k : Nat) :
    utf8CompleteLoop x fuel (i + k) = i + utf8CompleteLoop (x.drop i) fuel k := by
  induction fuel generalizing k with
  | zero => rfl
  | succ fuel ih =>
    have hget : (x.drop i).getD k 0 = x.getD (i + k) 0 := by
      simp only [List.getD_eq_getElem?_getD, List.getElem?_drop]
    simp only [utf8CompleteLoop, List.length_drop, hget, Nat.add_assoc i k, ih]
    by_cases hlt : i + k < x.length
    · rw [if_pos hlt, if_pos (show k < x.length - i by omega)]
      by_cases hcut : x.length < i + (k + utf8CharLen (x.getD (i + k) 0))
      · rw [if_pos hcut, if_pos (show x.length - i < k + _ by omega)]
      · rw [if_neg hcut, if_neg (show ¬ x.length - i < k + _ by omega)]
    · rw [if_neg hlt, if_neg (show ¬ k < x.length - i by omega)]

theorem utf8CompleteLoop_fuel (n m : Nat) (x : Bytes) (hn : x.length ≤ n) (hm : x.length ≤ m) :
    utf8CompleteLoop x n 0 = utf8CompleteLoop x m 0 := by
  induction n generalizing m x with
  | zero =>
    obtain rfl : x = [] := List.length_eq_zero_iff.mp (by omega)
    cases m <;> rfl
  | succ n ih =>
    cases m with
    | zero =>
      obtain rfl : x = [] := List.length_eq_zero_iff.mp (by omega)
      rfl
    | succ m =>
      have hpos := utf8CharLen_pos (x.getD 0 0)
      simp only [utf8CompleteLoop, Nat.zero_add]
      split
      · split
        · rfl
        · have hn' : (x.drop (utf8CharLen (x.getD 0 0))).length ≤ n := by
            simp only [List.length_drop]
            omega
          have hm' : (x.drop (utf8CharLen (x.getD 0 0))).length ≤ m := by
            simp only [List.length_drop]
            omega
          have hcut := utf8CompleteLoop_drop x n (utf8CharLen (x.getD 0 0)) 0
          have hcut' := utf8CompleteLoop_drop x m (utf8CharLen (x.getD 0 0)) 0
          rw [Nat.add_zero] at hcut hcut'
          rw [hcut, hcut', ih m _ hn' hm']
      · rfl

/-- The cut falls behind the first character when it fits, and before it otherwise. -/
theorem utf8CompletePrefix_cons (b : UInt8) (t : Bytes) :
    utf8CompletePrefix (b :: t) =
      if (b :: t).length < utf8CharLen b then 0
      else utf8CharLen b + utf8CompletePrefix ((b :: t).drop (utf8CharLen b)) := by
  have hpos := utf8CharLen_pos b
  rw [utf8CompletePrefix, List.length_cons, utf8CompleteLoop]
  simp only [Nat.zero_add, List.length_cons, List.getD_cons_zero, Nat.zero_lt_succ, ↓reduceIte]
  split
  · rfl
  · have hcut := utf8CompleteLoop_drop (b :: t) t.length (utf8CharLen b) 0
    rw [Nat.add_zero] at hcut
    rw [hcut, utf8CompletePrefix, utf8CompleteLoop_fuel _ _ _ _ (Nat.le_refl _)]
    simp only [List.length_drop, List.length_cons]
    omega

theorem utf8CompletePrefix_le (x : Bytes) : utf8CompletePrefix x ≤ x.length := by
  induction hn : x.length using Nat.strong_induction_on generalizing x with
  | _ n ih =>
    subst hn
    cases x with
    | nil => exact Nat.le_refl _
    | cons b t =>
      have hpos := utf8CharLen_pos b
      rw [utf8CompletePrefix_cons]
      split
      · exact Nat.zero_le _
      · have hrest := ih ((b :: t).drop (utf8CharLen b)).length (by
          simp only [List.length_drop, List.length_cons]
          omega) _ rfl
        rw [List.length_drop] at hrest
        omega

/-- What the cut leaves is shorter than a character. -/
theorem utf8CompletePrefix_rest (x : Bytes) : (x.drop (utf8CompletePrefix x)).length ≤ 3 := by
  induction hn : x.length using Nat.strong_induction_on generalizing x with
  | _ n ih =>
    subst hn
    cases x with
    | nil => exact Nat.zero_le _
    | cons b t =>
      have hpos := utf8CharLen_pos b
      have hle := utf8CharLen_le b
      rw [utf8CompletePrefix_cons]
      split
      · rw [List.drop_zero]
        omega
      · rw [← List.drop_drop]
        refine ih _ ?_ _ rfl
        simp only [List.length_drop, List.length_cons]
        omega

/-- The lead byte of a shortest form announces its length. -/
theorem utf8CharLen_encodes {cp : Nat} {b : UInt8} {t : Bytes} (h : Encodes cp (b :: t)) :
    utf8CharLen b = (b :: t).length := by
  have hd := h.decodeHead []
  have hne := h.ne_invalid
  rw [List.append_nil] at hd
  rw [← hd] at hne
  have hmb : ∀ n low, decodeMultibyte n low t ≠ invalid → (decodeMultibyte n low t).len = n :=
    fun n low hvalid => by
      obtain ⟨fields, -, -, -, he, -⟩ := decodeMultibyte_fields hvalid
      rw [he]
  have hlen := congrArg CpInfo.len hd
  simp only [decodeHead] at hne hlen
  rw [← hlen, utf8CharLen]
  split
  · rfl
  · rename_i h1
    rw [if_neg h1] at hne
    split
    · rename_i h2
      rw [if_pos h2] at hne
      exact (hmb _ _ hne).symm
    · rename_i h2
      rw [if_neg h2] at hne
      split
      · rename_i h3
        rw [if_pos h3] at hne
        exact (hmb _ _ hne).symm
      · rename_i h3
        rw [if_neg h3] at hne
        split
        · rename_i h4
          rw [if_pos h4] at hne
          exact (hmb _ _ hne).symm
        · rename_i h4
          exact absurd rfl (by rwa [if_neg h4] at hne)

/-- Nothing more is cut off from what the cut leaves. -/
theorem utf8CompletePrefix_drop (x : Bytes) :
    utf8CompletePrefix (x.drop (utf8CompletePrefix x)) = 0 := by
  induction hn : x.length using Nat.strong_induction_on generalizing x with
  | _ n ih =>
    subst hn
    cases x with
    | nil => rfl
    | cons b t =>
      have hpos := utf8CharLen_pos b
      have hcons := utf8CompletePrefix_cons b t
      rw [hcons]
      split
      · next hshort => rw [List.drop_zero, hcons, if_pos hshort]
      · rw [← List.drop_drop]
        refine ih _ ?_ _ rfl
        simp only [List.length_drop, List.length_cons]
        omega

/-- Well-formed text behind well-formed text is well-formed. -/
theorem wellFormed_of_append {x y : Bytes} (hx : WellFormed x) (h : WellFormed (x ++ y)) :
    WellFormed y := by
  induction hx with
  | nil => exact h
  | @cons cp form tail hform _ ih =>
    obtain ⟨b, f, rfl⟩ := List.exists_cons_of_ne_nil (List.length_pos_iff.mp hform.pos)
    obtain ⟨cp', form', tail', hform', htail', hsplit⟩ := h.split (by simp)
    obtain ⟨b', f', rfl⟩ := List.exists_cons_of_ne_nil (List.length_pos_iff.mp hform'.pos)
    rw [List.append_assoc] at hsplit
    obtain rfl : b = b' := (List.cons.inj hsplit).1
    have hlen : (b :: f).length = (b :: f').length :=
      (utf8CharLen_encodes hform).symm.trans (utf8CharLen_encodes hform')
    exact ih ((List.append_inj hsplit hlen).2 ▸ htail')

/-- A start of well-formed text is cut between two characters. -/
theorem utf8CompletePrefix_wellFormed (x rest : Bytes) (h : WellFormed (x ++ rest)) :
    WellFormed (x.take (utf8CompletePrefix x)) ∧
      WellFormed (x.drop (utf8CompletePrefix x) ++ rest) := by
  induction hn : x.length using Nat.strong_induction_on generalizing x with
  | _ n ih =>
    subst hn
    cases x with
    | nil => exact ⟨.nil, h⟩
    | cons b t =>
      have hpos := utf8CharLen_pos b
      rw [utf8CompletePrefix_cons]
      split
      · exact ⟨.nil, h⟩
      · rename_i hfits
        obtain ⟨cp, form, tail, he, htail, hsplit⟩ := h.split (by simp)
        obtain ⟨b', form', rfl⟩ := List.exists_cons_of_ne_nil (List.length_pos_iff.mp he.pos)
        obtain rfl : b = b' := (List.cons.inj hsplit).1
        have hlen := utf8CharLen_encodes he
        have hform : b :: form' <+: b :: t :=
          List.prefix_of_prefix_length_le ⟨tail, hsplit.symm⟩ ⟨rest, rfl⟩ (by omega)
        obtain ⟨x', hx'⟩ := hform
        rw [← hx', List.append_assoc, List.append_cancel_left_eq] at hsplit
        rw [← hx', hlen, List.drop_left, ← List.drop_drop, List.drop_left, List.take_length_add_append]
        obtain ⟨hchunk, hrest⟩ := ih x'.length (by
          rw [← hx', List.length_append, List.length_cons]
          omega) x' (by rwa [hsplit]) rfl
        exact ⟨.cons he hchunk, hrest⟩

/-- Something is cut off exactly when some prefix consists of characters. -/
theorem utf8CompletePrefix_pos_iff {x more : Bytes} (h : WellFormed (x ++ more)) :
    0 < utf8CompletePrefix x ↔ ∃ k < x.length, WellFormed (x.take (k + 1)) := by
  constructor
  · intro hcut
    have hle := utf8CompletePrefix_le x
    refine ⟨utf8CompletePrefix x - 1, by omega, ?_⟩
    rw [Nat.sub_add_cancel hcut]
    exact (utf8CompletePrefix_wellFormed x more h).1
  · rintro ⟨k, hk, hprefix⟩
    cases x with
    | nil => exact absurd hk (Nat.not_lt_zero k)
    | cons b t =>
      obtain ⟨cp, form, tail, hform, -, hsplit⟩ := hprefix.split (by simp)
      obtain ⟨b', f, rfl⟩ := List.exists_cons_of_ne_nil (List.length_pos_iff.mp hform.pos)
      rw [List.take_succ_cons, List.cons_append] at hsplit
      obtain ⟨rfl, htake⟩ := List.cons.inj hsplit
      have hlen := utf8CharLen_encodes hform
      have hpos := utf8CharLen_pos b
      have hfits : f.length ≤ t.length := by
        have hcount := congrArg List.length htake
        rw [List.length_take, List.length_append] at hcount
        omega
      rw [utf8CompletePrefix_cons, if_neg (by rw [hlen]; simp only [List.length_cons]; omega)]
      omega

/-! ## Conservation -/

theorem growLoop_ge (need fuel newCap : Nat) (h : need ≤ newCap * 2 ^ fuel) :
    need ≤ growLoop need fuel newCap := by
  induction fuel generalizing newCap with
  | zero => simpa [growLoop] using h
  | succ fuel ih =>
    rw [growLoop]
    split
    · exact ih _ (by rwa [Nat.mul_assoc, ← Nat.pow_succ'])
    · omega

theorem append_fits {s : Bytes} {grow : Bool} {d d' : State} (h : append s grow d = some d')
    (hfits : d.buf.length ≤ d.cap) : d'.buf.length ≤ d'.cap := by
  unfold append at h
  split at h
  · obtain rfl := Option.some.inj h
    exact hfits
  · split at h
    · split at h
      · obtain rfl := Option.some.inj h
        rw [List.length_append]
        refine growLoop_ge _ _ _ (le_trans Nat.lt_two_pow_self.le (Nat.le_mul_of_pos_left _ ?_))
        split <;> omega
      · contradiction
    · obtain rfl := Option.some.inj h
      simp only [List.length_append]
      omega

/-- What a call may do: hand out a chunk that ends on a boundary, take the text only, or leave the
detokenizer as it is. -/
inductive Fed (f : Feed) (d : State) : Option Bytes × State → Prop
  | chunk {d' : State} (takes : append f.bytes f.answers.grow d = some d') :
      Fed f d (some (d'.buf.take (utf8CompletePrefix d'.buf)),
        ⟨d'.buf.drop (utf8CompletePrefix d'.buf), d'.cap⟩)
  | withheld {d' : State} (takes : append f.bytes f.answers.grow d = some d')
      (noCopy : f.answers.out = false) : Fed f d (none, d')
  | undecoded (text : f.text = none) : Fed f d (none, d)
  | refused (noRoom : f.answers.grow = false) : Fed f d (none, d)

theorem feed_fed (f : Feed) (d : State) : Fed f d (feed f.text f.answers d) := by
  obtain ⟨text, grow, out⟩ := f
  cases text with
  | none => exact .undecoded rfl
  | some s =>
    unfold feed
    cases happend : append (cstr s) grow d with
    | none =>
      simp only [happend]
      cases grow with
      | false => exact .refused rfl
      | true => simpa [happend] using append_grown (cstr s) d
    | some d' =>
      simp only [happend]
      cases out with
      | true => exact .chunk happend
      | false => exact .withheld happend rfl

section Call

variable {f : Feed} {d : State}

/-- With memory for its buffer a call takes the token's text, whatever else fails. -/
theorem feed_bytes (hgrow : f.answers.grow = true) :
    (feed f.text f.answers d).1.toList.flatten ++ (feed f.text f.answers d).2.buf =
      d.buf ++ f.bytes := by
  have hfed := feed_fed f d
  generalize feed f.text f.answers d = res at hfed
  cases hfed with
  | chunk takes => simp [append_buf takes]
  | withheld takes => simp [append_buf takes]
  | undecoded text => simp [Feed.bytes, text, cstr]
  | refused noRoom => simp [hgrow] at noRoom

theorem feed_fits (hfits : d.buf.length ≤ d.cap) :
    (feed f.text f.answers d).2.buf.length ≤ (feed f.text f.answers d).2.cap := by
  have hfed := feed_fed f d
  generalize feed f.text f.answers d = res at hfed
  cases hfed with
  | chunk takes =>
    have hfits' := append_fits takes hfits
    simp only [List.length_drop]
    omega
  | withheld takes => exact append_fits takes hfits
  | undecoded | refused => exact hfits

/-- A call that hands out a chunk leaves at most three bytes. -/
theorem feed_residual (hchunk : (feed f.text f.answers d).1.isSome) :
    (feed f.text f.answers d).2.buf.length ≤ 3 := by
  have hfed := feed_fed f d
  generalize feed f.text f.answers d = res at hfed hchunk
  cases hfed with
  | chunk => exact utf8CompletePrefix_rest _
  | withheld | undecoded | refused => contradiction

theorem feed_succeeds (htext : f.text.isSome) (hgrow : f.answers.grow = true)
    (hout : f.answers.out = true) : (feed f.text f.answers d).1.isSome := by
  have hfed := feed_fed f d
  generalize feed f.text f.answers d = res at hfed
  cases hfed with
  | chunk => rfl
  | withheld takes noCopy => simp [hout] at noCopy
  | undecoded text => simp [text] at htext
  | refused noRoom => simp [hgrow] at noRoom

/-- A call that fails loses nothing of what is withheld. -/
theorem feed_fails (hfail : (feed f.text f.answers d).1 = none) :
    (feed f.text f.answers d).2.buf = d.buf ∨
      (feed f.text f.answers d).2.buf = d.buf ++ f.bytes := by
  have hfed := feed_fed f d
  generalize feed f.text f.answers d = res at hfed hfail
  cases hfed with
  | chunk => contradiction
  | withheld takes => exact .inr (append_buf takes)
  | undecoded | refused => exact .inl rfl

/-- In front of well-formed text a call hands out well-formed text and leaves a boundary. -/
theorem feed_wellFormed (hgrow : f.answers.grow = true) (rest : Bytes)
    (h : WellFormed (d.buf ++ (f.bytes ++ rest))) :
    (∀ chunk ∈ (feed f.text f.answers d).1, WellFormed chunk) ∧
      WellFormed ((feed f.text f.answers d).2.buf ++ rest) := by
  have hfed := feed_fed f d
  generalize feed f.text f.answers d = res at hfed
  cases hfed with
  | chunk takes =>
    rw [← List.append_assoc, ← append_buf takes] at h
    simpa using utf8CompletePrefix_wellFormed _ _ h
  | withheld takes =>
    rw [← List.append_assoc, ← append_buf takes] at h
    simpa using h
  | undecoded text => simpa [Feed.bytes, text, cstr] using h
  | refused noRoom => simp [hgrow] at noRoom

end Call

/-! ### Streams -/

theorem stream_append (fs : List Feed) (f : Feed) : stream (fs ++ [f]) = (stream fs).feed f := by
  rw [stream, List.foldl_append]
  rfl

theorem texts_append (fs : List Feed) (f : Feed) : texts (fs ++ [f]) = texts fs ++ f.bytes := by
  rw [texts, List.flatMap_append, List.flatMap_singleton, texts]

theorem stream_fits (fs : List Feed) : (stream fs).d.buf.length ≤ (stream fs).d.cap := by
  induction fs using List.reverseRecOn with
  | nil => exact Nat.zero_le _
  | append_singleton fs f ih =>
    rw [stream_append]
    exact feed_fits ih

theorem stream_bytes (fs : List Feed) (hgrow : ∀ f ∈ fs, f.answers.grow = true) :
    (stream fs).chunks.flatten ++ (stream fs).d.buf = texts fs := by
  induction fs using List.reverseRecOn with
  | nil => rfl
  | append_singleton fs f ih =>
    have hprev := ih fun x hx => hgrow x (by simp [hx])
    have hcall := feed_bytes (d := (stream fs).d) (hgrow f (by simp))
    rw [stream_append, texts_append, ← hprev, List.append_assoc, ← hcall]
    simp only [Stream.feed, List.flatten_append, List.append_assoc]

/-- The withheld bytes stay short as long as every chunk can be copied out. -/
theorem stream_residual (fs : List Feed) (h : ∀ f ∈ fs, f.answers.out = true) :
    (stream fs).d.buf.length ≤ 3 := by
  induction fs using List.reverseRecOn with
  | nil => exact Nat.zero_le _
  | append_singleton fs f ih =>
    have hprev := ih fun x hx => h x (by simp [hx])
    have hout := h f (by simp)
    have hfed := feed_fed f (stream fs).d
    rw [stream_append, Stream.feed]
    generalize feed f.text f.answers (stream fs).d = res at hfed
    cases hfed with
    | chunk => exact utf8CompletePrefix_rest _
    | withheld takes noCopy => simp [hout] at noCopy
    | undecoded | refused => exact hprev

/-- In well-formed text every chunk and the withheld rest are well-formed. -/
theorem stream_wellFormed (fs : List Feed) (hgrow : ∀ f ∈ fs, f.answers.grow = true) (rest : Bytes)
    (h : WellFormed (texts fs ++ rest)) :
    (∀ chunk ∈ (stream fs).chunks, WellFormed chunk) ∧
      WellFormed ((stream fs).d.buf ++ rest) := by
  induction fs using List.reverseRecOn generalizing rest with
  | nil => exact ⟨by simp [stream], h⟩
  | append_singleton fs f ih =>
    rw [texts_append, List.append_assoc] at h
    obtain ⟨hchunks, hbuf⟩ := ih (fun x hx => hgrow x (by simp [hx])) _ h
    obtain ⟨hchunk, hrest⟩ := feed_wellFormed (hgrow f (by simp)) rest hbuf
    rw [stream_append]
    refine ⟨fun chunk hmem => ?_, hrest⟩
    rcases List.mem_append.mp hmem with hmem | hmem
    · exact hchunks chunk hmem
    · exact hchunk chunk (Option.mem_toList.mp hmem)

/-- After any calls that find memory for the buffer the chunks and the withheld bytes are the texts
of the tokens; the next call hands out a chunk if its allocations succeed, leaves then at most three
bytes, and loses nothing if it fails; and the chunks of a UTF-8 stream, with the flushed rest, are
UTF-8 each. -/
theorem detok_conserves (fs : List Feed) (hgrow : ∀ f ∈ fs, f.answers.grow = true) :
    (stream fs).chunks.flatten ++ (stream fs).d.buf = texts fs ∧
    (∀ f : Feed, f.text.isSome → f.answers.grow = true → f.answers.out = true →
      (feed f.text f.answers (stream fs).d).1.isSome) ∧
    (∀ f : Feed, (feed f.text f.answers (stream fs).d).1.isSome →
      (stream (fs ++ [f])).d.buf.length ≤ 3) ∧
    (∀ f : Feed, (feed f.text f.answers (stream fs).d).1 = none →
      (stream (fs ++ [f])).d.buf = (stream fs).d.buf ∨
        (stream (fs ++ [f])).d.buf = (stream fs).d.buf ++ f.bytes) ∧
    ((∀ f ∈ fs, f.answers.out = true) → (stream fs).d.buf.length ≤ 3) ∧
    (stream fs).d.buf.length ≤ (stream fs).d.cap ∧
    (flush true (stream fs).d).1 = some (stream fs).d.buf ∧
    (WellFormed (texts fs) → ∀ chunk ∈ (stream fs).chunks ++ [(stream fs).d.buf],
      WellFormed chunk) := by
  refine ⟨stream_bytes fs hgrow, fun f => feed_succeeds, fun f hf => ?_, fun f hf => ?_,
    stream_residual fs, stream_fits fs, ?_, fun h => ?_⟩
  · rw [stream_append]
    exact feed_residual hf
  · rw [stream_append]
    exact feed_fails hf
  · simp [flush, emitChunk, emit]
  · obtain ⟨hchunks, hrest⟩ := stream_wellFormed fs hgrow [] (by rwa [List.append_nil])
    rw [List.append_nil] at hrest
    simpa [or_imp, forall_and] using ⟨hchunks, hrest⟩

/-- U+2581 in two tokens, of which the second goes on with a letter. -/
def splitCharacter : List Feed :=
  [⟨some [0xE2, 0x96], ⟨true, true⟩⟩, ⟨some [0x81, 0x61], ⟨true, true⟩⟩]

theorem detok_conserves_split : (stream splitCharacter).chunks = [[], [0xE2, 0x96, 0x81, 0x61]] ∧
    (stream splitCharacter).chunks.flatten ++ (stream splitCharacter).d.buf =
      [0xE2, 0x96, 0x81, 0x61] :=
  ⟨by decide, (detok_conserves splitCharacter (by decide)).1⟩

end Mlxd.DetokStream
