import Mlxd.Decode

/-!
# The streaming detokenizer

Each id is decoded on its own and the text is handed out up to the last complete
character. The outputs join to the one-shot decoding unless a token stands for a NUL
byte with text after it, or a U+2581 is spread over several tokens.
-/
namespace Mlxd.Detok

open Mlxd.Unicode Mlxd.Json Mlxd.TokLoad Mlxd.ByteLevel Mlxd.Decode

def utf8CharLen (lead : UInt8) : Nat :=
  if lead < 0x80 then 1
  else if lead &&& 0xE0 = 0xC0 then 2
  else if lead &&& 0xF0 = 0xE0 then 3
  else if lead &&& 0xF8 = 0xF0 then 4
  else 1

/-- The length of the longest prefix that ends no character in the middle. -/
def utf8CompleteLoop (buf : Bytes) : Nat → Nat → Nat
  | 0, i => i
  | fuel + 1, i =>
    if i < buf.length then
      let cl := utf8CharLen (buf.getD i 0)
      if buf.length < i + cl then i else utf8CompleteLoop buf fuel (i + cl)
    else i

def utf8CompletePrefix (buf : Bytes) : Nat := utf8CompleteLoop buf buf.length 0

/-- Hand out the bytes before the boundary and keep the rest. -/
def emit (buf : Bytes) (boundary : Nat) : Bytes × Bytes := (buf.take boundary, buf.drop boundary)

/-- The withheld bytes of a new detokenizer; none is made for WordPiece. -/
def detokCreate (tok : Tokenizer) : Option Bytes :=
  if tok.type = .wordpiece then none else some []

/-- The output for one id and the withheld bytes after it. -/
def detokFeed (tok : Tokenizer) (buf : Bytes) (id : Int) : Option (Bytes × Bytes) :=
  match tokenizerDecode tok [id] with
  | none => none
  | some s =>
    let buf := buf ++ cstr s
    some (emit buf (utf8CompletePrefix buf))

def detokFlush (buf : Bytes) : Bytes × Bytes := emit buf buf.length

/-- The outputs for the ids one at a time, and of the flush at the end. -/
def detokOutputs (tok : Tokenizer) (buf : Bytes) : List Int → Option (List Bytes)
  | [] => some [(detokFlush buf).1]
  | id :: ids =>
    match detokFeed tok buf id with
    | none => none
    | some (out, buf) => (detokOutputs tok buf ids).map (out :: ·)

/-- The outputs joined as C strings. -/
def detokText (tok : Tokenizer) (ids : List Int) : Option Bytes :=
  (detokCreate tok).bind fun buf => (detokOutputs tok buf ids).map (·.flatMap cstr)

/-! ## C strings of concatenations -/

theorem zero_not_mem_cstr (s : Bytes) : (0 : UInt8) ∉ cstr s := by
  intro h
  have := List.mem_takeWhile_imp h
  simp at this

theorem cstr_append (x y : Bytes) (h : (0 : UInt8) ∉ x) : cstr (x ++ y) = x ++ cstr y := by
  induction x with
  | nil => rfl
  | cons a x ih =>
    simp only [List.mem_cons, not_or] at h
    rw [List.cons_append, cstr, List.takeWhile_cons_of_pos (by simpa using Ne.symm h.1), ← cstr,
      ih h.2]
    rfl

theorem cstr_zero (x y : Bytes) (h : (0 : UInt8) ∉ x) : cstr (x ++ 0 :: y) = x := by
  rw [cstr_append x _ h]
  simp [cstr]

theorem cstr_append_of_mem (x y : Bytes) (h : (0 : UInt8) ∈ x) : cstr (x ++ y) = cstr x := by
  induction x with
  | nil => simp at h
  | cons a x ih =>
    by_cases ha : a = 0
    · simp [ha, cstr]
    · have hx : (0 : UInt8) ∈ x := (List.mem_cons.mp h).resolve_left (Ne.symm ha)
      have := ih hx
      simp only [cstr, List.cons_append] at this ⊢
      rw [List.takeWhile_cons_of_pos (by simpa using ha),
        List.takeWhile_cons_of_pos (by simpa using ha), this]

/-! ## The outputs -/

theorem emit_flatten (buf : Bytes) (boundary : Nat) :
    (emit buf boundary).1 ++ (emit buf boundary).2 = buf := List.take_append_drop boundary buf

/-- The outputs join to the texts of the single tokens. -/
theorem detokOutputs_spec (tok : Tokenizer) (f : Int → Bytes) (ids : List Int) (buf : Bytes)
    (hf : ∀ id ∈ ids, tokenizerDecode tok [id] = some (f id)) (hbuf : (0 : UInt8) ∉ buf) :
    ∃ outs, detokOutputs tok buf ids = some outs ∧
      outs.flatMap cstr = buf ++ ids.flatMap fun id => cstr (f id) := by
  induction ids generalizing buf with
  | nil =>
    refine ⟨_, rfl, ?_⟩
    simp [detokFlush, emit, cstr_of_not_mem buf hbuf]
  | cons id ids ih =>
    have hnew : (0 : UInt8) ∉ buf ++ cstr (f id) := by
      simp [hbuf, zero_not_mem_cstr]
    have hsplit := emit_flatten (buf ++ cstr (f id)) (utf8CompletePrefix (buf ++ cstr (f id)))
    simp only [detokOutputs, detokFeed, hf id (by simp)]
    generalize emit (buf ++ cstr (f id)) (utf8CompletePrefix (buf ++ cstr (f id))) = p at hsplit
    rw [← hsplit] at hnew
    simp only [List.mem_append, not_or] at hnew
    obtain ⟨outs, houts, htext⟩ := ih p.2 (fun i hi => hf i (by simp [hi])) hnew.2
    refine ⟨p.1 :: outs, by simp [houts], ?_⟩
    rw [List.flatMap_cons, htext, cstr_of_not_mem _ hnew.1, List.flatMap_cons,
      ← List.append_assoc, hsplit, List.append_assoc]

/-- One id that cannot be decoded ends the stream. -/
theorem detokOutputs_none (tok : Tokenizer) (ids : List Int) (buf : Bytes) (id : Int)
    (hid : id ∈ ids) (h : tokenizerDecode tok [id] = none) : detokOutputs tok buf ids = none := by
  induction ids generalizing buf with
  | nil => simp at hid
  | cons i ids ih =>
    simp only [detokOutputs]
    split
    · rfl
    · rename_i out buf' hfeed
      rcases List.mem_cons.mp hid with rfl | hid
      · simp [detokFeed, h] at hfeed
      · rw [ih buf' hid]
        rfl

/-! ## Where streaming and one-shot decoding agree -/

/-- Once a piece holds a NUL, the pieces after it start with a NUL or are empty. -/
def Quiet (pieces : List Bytes) : Prop :=
  ∀ L r R, pieces = L ++ r :: R → (0 : UInt8) ∈ r → ∀ x ∈ R, cstr x = []

theorem quiet_cons (r : Bytes) (rs : List Bytes) :
    Quiet (r :: rs) ↔ ((0 : UInt8) ∈ r → ∀ x ∈ rs, cstr x = []) ∧ Quiet rs := by
  constructor
  · exact fun h => ⟨h [] r rs rfl, fun L r' R he => h (r :: L) r' R (by rw [he]; rfl)⟩
  · rintro ⟨h, hs⟩ L r' R he
    cases L with
    | nil =>
      obtain ⟨rfl, rfl⟩ := List.cons.inj he
      exact h
    | cons x L => exact hs L r' R (List.cons.inj he).2

theorem quiet_append (L rs : List Bytes) (hL : ∀ r ∈ L, (0 : UInt8) ∉ r) :
    Quiet (L ++ rs) ↔ Quiet rs := by
  induction L with
  | nil => rfl
  | cons r L ih =>
    rw [List.cons_append, quiet_cons, ih fun x hx => hL x (by simp [hx])]
    exact ⟨fun h => h.2, fun h => ⟨fun h0 => absurd h0 (hL r (by simp)), h⟩⟩

theorem quiet_of_silent (rs : List Bytes) (h : ∀ x ∈ rs, cstr x = []) : Quiet rs :=
  fun L r R he _ x hx => h x (by simp [he, hx])

/-- Cutting the whole at its first NUL equals cutting each piece exactly when the pieces
are quiet. -/
theorem cstr_flatten_iff (rs : List Bytes) : rs.flatMap cstr = cstr rs.flatten ↔ Quiet rs := by
  induction rs with
  | nil => exact ⟨fun _ L r R he => by simp at he, fun _ => rfl⟩
  | cons r rs ih =>
    rw [quiet_cons, List.flatMap_cons, List.flatten_cons]
    by_cases h : (0 : UInt8) ∈ r
    · rw [cstr_append_of_mem _ _ h, List.append_right_eq_self, List.flatMap_eq_nil_iff]
      exact ⟨fun hx => ⟨fun _ => hx, quiet_of_silent rs hx⟩, fun hx => hx.1 h⟩
    · rw [cstr_append _ _ h, cstr_of_not_mem r h, List.append_cancel_left_eq, ih]
      exact ⟨fun hq => ⟨fun h0 => absurd h0 h, hq⟩, fun hq => hq.2⟩

/-- The NUL-free pieces in front let no marker straddle. -/
def NoStraddleBeforeNul (pieces : List Bytes) : Prop :=
  ∀ L R, pieces = L ++ R → (∀ r ∈ L, (0 : UInt8) ∉ r) → NoStraddle L

theorem split_first_nul (rs : List Bytes) (hrs : ∀ r ∈ rs, (0 : UInt8) ∉ r ∨ r = [0]) :
    (∀ r ∈ rs, (0 : UInt8) ∉ r) ∨
      ∃ L R, rs = L ++ [0] :: R ∧ ∀ r ∈ L, (0 : UInt8) ∉ r := by
  induction rs with
  | nil => exact .inl (by simp)
  | cons r rs ih =>
    rcases hrs r (by simp) with h | rfl
    · rcases ih fun x hx => hrs x (by simp [hx]) with hs | ⟨L, R, rfl, hL⟩
      · exact .inl (by simpa [h] using hs)
      · exact .inr ⟨r :: L, R, rfl, by simpa [h] using hL⟩
    · exact .inr ⟨[], rs, rfl, by simp⟩

theorem zero_not_mem_flatten (L : List Bytes) (h : ∀ r ∈ L, (0 : UInt8) ∉ r) :
    (0 : UInt8) ∉ L.flatten := by
  simp only [List.mem_flatten, not_exists, not_and]
  exact fun r hr => h r hr

theorem flatMap_cstr_replace (L : List Bytes) (h : ∀ r ∈ L, (0 : UInt8) ∉ r) :
    (L.flatMap fun r => cstr (replaceMarkers r)) = L.flatMap replaceMarkers :=
  List.flatMap_congr fun r hr =>
    cstr_of_not_mem _ fun h0 => h r hr ((zero_mem_replaceMarkers r).mp h0)

/-- Rewriting and cutting each piece equals rewriting and cutting the whole exactly when
the pieces are quiet and no marker straddles before the first NUL. -/
theorem cstr_replace_flatten_iff (rs : List Bytes)
    (hrs : ∀ r ∈ rs, (0 : UInt8) ∉ r ∨ r = [0]) :
    (rs.flatMap fun r => cstr (replaceMarkers r)) = cstr (replaceMarkers rs.flatten) ↔
      Quiet rs ∧ NoStraddleBeforeNul rs := by
  rcases split_first_nul rs hrs with hfree | ⟨L, R, rfl, hL⟩
  · have hwhole : (0 : UInt8) ∉ replaceMarkers rs.flatten := fun h =>
      zero_not_mem_flatten rs hfree ((zero_mem_replaceMarkers _).mp h)
    have hquiet : Quiet rs := fun L r R he h0 => absurd h0 (hfree r (by simp [he]))
    have hprefix : NoStraddleBeforeNul rs ↔ NoStraddle rs :=
      ⟨fun h => h rs [] (by simp) hfree, fun h L R he _ => (he ▸ h).left⟩
    rw [flatMap_cstr_replace rs hfree, cstr_of_not_mem _ hwhole, hprefix]
    rcases replaceMarkers_flatten rs with ⟨h1, h2⟩ | ⟨h1, h2⟩
    · exact ⟨fun _ => ⟨hquiet, h1⟩, fun _ => h2.symm⟩
    · exact ⟨fun he => absurd (congrArg List.length he) (by omega), fun h => absurd h.2 h1⟩
  · have hsilent : (R.flatMap fun r => cstr (replaceMarkers r)) = [] ↔ ∀ x ∈ R, cstr x = [] := by
      rw [List.flatMap_eq_nil_iff]
      refine forall₂_congr fun x hx => ?_
      rcases hrs x (by simp [hx]) with h0 | rfl
      · rw [cstr_of_not_mem x h0, cstr_of_not_mem _ fun h => h0 ((zero_mem_replaceMarkers x).mp h),
          replaceMarkers_eq_nil]
      · simp [replaceMarkers, cstr]
    have hquiet : Quiet (L ++ [0] :: R) ↔ ∀ x ∈ R, cstr x = [] := by
      rw [quiet_append L _ hL, quiet_cons]
      exact ⟨fun h => h.1 (by simp), fun h => ⟨fun _ => h, quiet_of_silent R h⟩⟩
    have hprefix : NoStraddleBeforeNul (L ++ [0] :: R) ↔ NoStraddle L := by
      refine ⟨fun h => h L _ rfl hL, fun h A B he hA => ?_⟩
      rcases List.append_eq_append_iff.mp he with ⟨as, rfl, hB⟩ | ⟨cs, rfl, hB⟩
      · cases as with
        | nil => simpa using h
        | cons x as => exact absurd (hA x (by simp)) (by simp [(List.cons.inj hB).1.symm])
      · exact h.left
    have hflat : (L ++ [0] :: R).flatten = L.flatten ++ 0 :: R.flatten := by simp
    have hzero : cstr (replaceMarkers [0]) = [] := rfl
    have hLfree : (0 : UInt8) ∉ replaceMarkers L.flatten := fun h =>
      zero_not_mem_flatten L hL ((zero_mem_replaceMarkers _).mp h)
    rw [hquiet, hprefix, ← hsilent, hflat, replaceMarkers_zero, cstr_zero _ _ hLfree,
      List.flatMap_append, List.flatMap_cons, hzero, List.nil_append, flatMap_cstr_replace L hL]
    rcases replaceMarkers_flatten L with ⟨h1, h2⟩ | ⟨h1, h2⟩
    · rw [h2, List.append_right_eq_self]
      exact ⟨fun h => ⟨h, h1⟩, fun h => h.1⟩
    · refine ⟨fun he => ?_, fun h => absurd h.2 h1⟩
      have := congrArg List.length he
      simp only [List.length_append] at this
      omega

/-! ## The two tokenizer kinds -/

section Tok

variable (tok : Tokenizer)

/-- The bytes a token stands for, before markers are rewritten. -/
def tokenBytes (id : Int) : Bytes :=
  match tok.type with
  | .bpe =>
    match tokenizerDecodeToken tok id with
    | none => []
    | some token => decodeToken tok.bytesUnicode token
  | _ => spRaw tok id

/-- A byte-level token of 4 GiB or more, which no decoder accepts. -/
def Oversized (id : Int) : Prop :=
  tok.type = .bpe ∧ ∃ token, tokenizerDecodeToken tok id = some token ∧ UINT32_MAX < token.length

theorem decodeByteLevel_some (htype : tok.type = .bpe) (ids : List Int)
    (h : ∀ id ∈ ids, ¬ Oversized tok id) :
    decodeByteLevel tok ids = some (ids.flatMap (tokenBytes tok)) := by
  induction ids with
  | nil => rfl
  | cons id ids ih =>
    have hrest := ih fun i hi => h i (by simp [hi])
    simp only [decodeByteLevel, List.flatMap_cons, tokenBytes, htype]
    cases hd : tokenizerDecodeToken tok id with
    | none => simpa [tokenBytes, htype] using hrest
    | some token =>
      have hlen : ¬ UINT32_MAX < token.length := fun hlen => h id (by simp) ⟨htype, token, hd, hlen⟩
      simp only [if_neg hlen, hrest, Option.map_some]

theorem decodeByteLevel_none (ids : List Int) (id : Int) (hid : id ∈ ids)
    (h : Oversized tok id) : decodeByteLevel tok ids = none := by
  obtain ⟨-, token, hd, hlen⟩ := h
  induction ids with
  | nil => simp at hid
  | cons i ids ih =>
    simp only [decodeByteLevel]
    rcases List.mem_cons.mp hid with rfl | hid
    · simp only [hd, if_pos hlen]
    · rw [ih hid]
      split
      · rfl
      · split <;> rfl

theorem spRaw_shape (id : Int) : (0 : UInt8) ∉ spRaw tok id ∨ spRaw tok id = [0] := by
  unfold spRaw
  split
  · exact .inl (by simp)
  · rename_i token htoken
    split
    · rename_i b _
      by_cases hb : b = 0
      · exact .inr (by rw [hb])
      · exact .inl (by simpa using Ne.symm hb)
    · obtain ⟨s, -, rfl⟩ : ∃ s, tok.idToToken id.toNat = some s ∧ cstr s = token := by
        unfold tokenizerDecodeToken at htoken
        split at htoken
        · contradiction
        · exact Option.map_eq_some_iff.mp htoken
      exact .inl (zero_not_mem_cstr s)

/-- Streaming joins to the one-shot text exactly when the tokens after the first NUL byte
add no text and, for SentencePiece, no U+2581 before it is spread over several tokens. -/
theorem detokText_eq_decode_iff (htype : tok.type ≠ .wordpiece) (ids : List Int) :
    detokText tok ids = (tokenizerDecode tok ids).map cstr ↔
      (∃ id ∈ ids, Oversized tok id) ∨
      (Quiet (ids.map (tokenBytes tok)) ∧
        (tok.type = .sentencepieceBpe → NoStraddleBeforeNul (ids.map (tokenBytes tok)))) := by
  have hcreate : ∀ outs, detokOutputs tok [] ids = outs →
      detokText tok ids = outs.map (·.flatMap cstr) := by
    rintro outs rfl
    rw [detokText, detokCreate, if_neg htype]
    rfl
  cases ht : tok.type with
  | wordpiece => exact absurd ht htype
  | bpe =>
    by_cases hbig : ∃ id ∈ ids, Oversized tok id
    · obtain ⟨id, hid, hover⟩ := hbig
      have hone : tokenizerDecode tok [id] = none := by
        simp only [tokenizerDecode, ht]
        exact decodeByteLevel_none tok [id] id (by simp) hover
      rw [hcreate _ (detokOutputs_none tok ids [] id hid hone)]
      simp only [tokenizerDecode, ht, decodeByteLevel_none tok ids id hid hover, Option.map_none]
      exact ⟨fun _ => .inl ⟨id, hid, hover⟩, fun _ => trivial⟩
    · simp only [not_exists, not_and] at hbig
      obtain ⟨outs, houts, htext⟩ := detokOutputs_spec tok (tokenBytes tok) ids [] (fun id hid => by
        simp only [tokenizerDecode, ht]
        rw [decodeByteLevel_some tok ht [id] (by simpa using hbig id hid)]
        simp) (by simp)
      rw [hcreate _ houts]
      simp only [tokenizerDecode, ht, decodeByteLevel_some tok ht ids hbig, Option.map_some, htext,
        List.nil_append, Option.some.injEq, reduceCtorEq, false_implies, and_true]
      rw [or_iff_right (by simpa using hbig), ← cstr_flatten_iff, List.flatMap_map,
        ← List.flatMap_def]
  | sentencepieceBpe =>
    have hover : ¬ ∃ id ∈ ids, Oversized tok id := by
      rintro ⟨id, -, hbpe, -⟩
      rw [ht] at hbpe
      contradiction
    have hbytes : tokenBytes tok = spRaw tok := by
      funext id
      simp only [tokenBytes, ht]
    obtain ⟨outs, houts, htext⟩ := detokOutputs_spec tok
      (fun id => replaceMarkers (spRaw tok id)) ids [] (fun id _ => by
        simp [tokenizerDecode, ht, decodeSentencepiece]) (by simp)
    rw [hcreate _ houts, or_iff_right hover, hbytes]
    simp only [tokenizerDecode, ht, decodeSentencepiece, Option.map_some, htext, List.nil_append,
      Option.some.injEq, true_implies, Bool.false_eq_true, false_and, ↓reduceIte]
    rw [← cstr_replace_flatten_iff _ (by
      rintro r hr
      obtain ⟨id, -, rfl⟩ := List.mem_map.mp hr
      exact spRaw_shape tok id), List.flatMap_map, ← List.flatMap_def]

end Tok

/-- A SentencePiece tokenizer.json with the byte tokens of U+2581. -/
def markerRoot : Value := .obj [(ascii "model", .obj [(ascii "type", .str (ascii "BPE")),
  (ascii "vocab", .obj [(ascii "<0xE2>", .int 0), (ascii "<0x96>", .int 1),
    (ascii "<0x81>", .int 2)])])]

/-- The three byte tokens decode to a space at once, and to U+2581 one at a time. -/
theorem detok_marker_differs : ¬ ∀ root tok, tokenizerLoadJson root = some tok →
    tok.type ≠ .wordpiece → ∀ ids, detokText tok ids = (tokenizerDecode tok ids).map cstr := by
  intro h
  have hload : (tokenizerLoadJson markerRoot).map (fun tok => (tok.type,
      detokText tok [0, 1, 2], (tokenizerDecode tok [0, 1, 2]).map cstr)) =
      some (.sentencepieceBpe, some [0xE2, 0x96, 0x81], some [0x20]) := by
    decide +kernel
  obtain ⟨tok, htok, he⟩ := Option.map_eq_some_iff.mp hload
  obtain ⟨htype, hstream, hwhole⟩ : _ ∧ _ ∧ _ := ⟨congrArg (·.1) he, congrArg (·.2.1) he,
    congrArg (·.2.2) he⟩
  have heq := h markerRoot tok htok (by simp only at htype; rw [htype]; decide) [0, 1, 2]
  simp only at hstream hwhole
  rw [hstream, hwhole] at heq
  exact absurd heq (by decide)

/-- Three plain tokens stream to their one-shot text. -/
theorem detokText_eq_decode_iff_plain : BpeMerge.doubleA.type ≠ .wordpiece ∧
    detokText BpeMerge.doubleA [0, 1, 0] = (tokenizerDecode BpeMerge.doubleA [0, 1, 0]).map cstr := by
  refine ⟨by decide, (detokText_eq_decode_iff BpeMerge.doubleA (by decide) [0, 1, 0]).mpr
    (.inr ⟨?_, fun h => absurd h (by decide)⟩)⟩
  intro L r R he h0
  have hr : r ∈ [0, 1, 0].map (tokenBytes BpeMerge.doubleA) := by rw [he]; simp
  have : ∀ x ∈ [0, 1, 0].map (tokenBytes BpeMerge.doubleA), (0 : UInt8) ∉ x := by decide +kernel
  exact absurd h0 (this r hr)

end Mlxd.Detok
