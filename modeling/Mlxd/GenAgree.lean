import Mlxd.DetokStream
import Mlxd.GenTerminal

/-!
# Streamed and whole responses

The same tokens are answered twice, with a whole response and with streamed chunks, on connections
that stay alive. A whole response is one document, so one text that is not UTF-8 or one
log-probability that is not finite keeps all of it from being written; the two agree exactly when the
generated bytes and the header are UTF-8, every token can be decoded, and the log-probabilities that
are written are finite.
-/
namespace Mlxd.Http

open Mlxd.Unicode Mlxd.Json Mlxd.Engine Mlxd.TokLoad Mlxd.Detok Mlxd.Decode
open Mlxd.Utf8Codec Mlxd.DetokStream

/-! ## What is promised -/

/-- Nothing fails and the write queue stays short. -/
structure Alive (env : Env) : Prop where
  allocs : ∀ n, env.allocs n = true
  writes : ∀ n, env.writes n = true
  backlog : ∀ n, env.backlog n = false

/-- Allocations succeed and the connection takes every write. -/
structure Served (env : Env) : Prop where
  allocs : ∀ n, env.allocs n = true
  writes : ∀ n, env.writes n = true

theorem Alive.served {env : Env} (h : Alive env) : Served env := ⟨h.allocs, h.writes⟩

/-- The request, streamed or whole. -/
def StartParams.asked (p : StartParams) (stream : Bool) : StartParams := { p with stream := stream }

def chunksOf : Event → List (Chunk Nat)
  | .async chunks => chunks
  | _ => []

/-- The events bring these tokens and then the end, in any number of passes, and no close. -/
def Delivers (events : List Event) (tokens : List (Int × Nat)) (reason : FinishReason) : Prop :=
  (∀ e ∈ events, e ≠ .connClosed) ∧
    events.flatMap chunksOf = (tokens.map fun t => .token t.1 t.2) ++ [.done reason]

/-- The first choice of a response or a chunk. -/
def firstChoice (doc : Value) : Option Value :=
  match objGet (some doc) (ascii "choices") with
  | some (.arr (choice :: _)) => some choice
  | _ => none

/-- The text of a document: the content of the message or delta of a chat, or the text. -/
def contentOf (chat : Bool) (member : String) (doc : Value) : Option Bytes :=
  getStr (if chat then objGet (objGet (firstChoice doc) (ascii member)) (ascii "content")
    else objGet (firstChoice doc) (ascii "text"))

/-- Exactly one response was written, with status 200 and that text. -/
def Answered (chat : Bool) (written : List (Wire × Bool)) (T : Bytes) : Prop :=
  ∃ doc, written = [(.response 200 doc, true)] ∧ contentOf chat "message" doc = some T

def deltaOf (chat : Bool) : Wire × Bool → Bytes
  | (.sse doc, _) => (contentOf chat "delta" doc).getD []
  | _ => []

/-- The streamed text. -/
def deltas (chat : Bool) (written : List (Wire × Bool)) : Bytes := written.flatMap (deltaOf chat)

/-- The text of a token; none when it cannot be decoded. -/
def tokenText (tok : Tokenizer) (id : Int) : Bytes := cstr ((tokenizerDecode tok [id]).getD [])

def Decodable (tok : Tokenizer) (t : Int × Nat) : Prop := (tokenizerDecode tok [t.1]).isSome = true

def textOf (tok : Tokenizer) (tokens : List (Int × Nat)) : Bytes :=
  tokens.flatMap fun t => tokenText tok t.1

/-- Behind the text so far, a character ends within the next text. -/
def EndsCharacter (sofar text : Bytes) : Prop :=
  ∃ k < text.length, isUtf8 (sofar ++ text.take (k + 1)) = true

instance (sofar text : Bytes) : Decidable (EndsCharacter sofar text) :=
  inferInstanceAs (Decidable (∃ k < text.length, _))

/-- Every token that ends a character has a finite log-probability. -/
def FiniteLogprobs (tok : Tokenizer) (tokens : List (Int × Nat)) : Prop :=
  ∀ before t, before ++ [t] <+: tokens → EndsCharacter (textOf tok before) (tokenText tok t.1) →
    isFinite t.2 = true

theorem textOf_snoc (tok : Tokenizer) (tokens : List (Int × Nat)) (t : Int × Nat) :
    textOf tok (tokens ++ [t]) = textOf tok tokens ++ tokenText tok t.1 := by
  rw [textOf, List.flatMap_append, List.flatMap_singleton]
  rfl

/-! ## Texts of documents -/

theorem contentOf_chatResponse (h : Header) (content : Bytes) (reason : FinishReason) (u : Usage)
    (lps : List TokenLogprob) :
    contentOf true "message" (genBuildChatResponse h content reason u lps) = some content := rfl

theorem contentOf_completionResponse (h : Header) (content : Bytes) (reason : FinishReason)
    (u : Usage) : contentOf false "message" (genBuildCompletionResponse h content reason u) =
      some content := rfl

theorem contentOf_completionChunk (h : Header) (t : Option Bytes) (final : Option FinishReason) :
    contentOf false "delta" (genSseCompletionChunk h t final) = some (t.getD []) := rfl

theorem contentOf_chunk (h : Header) (d : SseChunkParams) :
    (contentOf true "delta" (genSseChunk h d)).getD [] = d.deltaText.getD [] := by
  obtain ⟨role, t, lp, final, usage⟩ := d
  cases role <;> cases t <;> cases final <;> rfl

theorem writable_genBuildChatResponse (h : Header) (content : Bytes) (reason : FinishReason)
    (u : Usage) (lps : List TokenLogprob) :
    writable (genBuildChatResponse h content reason u lps) = true ↔
      h.Utf8 ∧ isUtf8 content = true ∧
        ∀ lp ∈ lps, isUtf8 lp.token = true ∧ isFinite lp.logprob = true := by
  have husage := writable_addUsage (some u)
  have hlps : ∀ lps : List TokenLogprob, writableItems (lps.map addLogprobEntry) =
      lps.all fun lp => isUtf8 lp.token && isFinite lp.logprob := by
    intro lps
    induction lps with
    | nil => rfl
    | cons lp rest ih =>
      rw [List.map_cons, writableItems, ih, writable_logprobEntry, List.all_cons]
  rw [Option.map_some, Option.getD_some] at husage
  simp only [genBuildChatResponse, writable, writableMembers_append, husage, Bool.and_true,
    Bool.and_eq_true, writable_headMembers h "chat.completion" (by decide)]
  refine and_congr_right fun _ => ?_
  cases lps with
  | nil =>
    simp (disch := first | decide | exact finishReason_ascii _) [writable, writableMembers,
      writableItems, writable_text, isUtf8_ascii]
  | cons lp rest =>
    simp (disch := first | decide | exact finishReason_ascii _) [writable, writableMembers,
      writableItems, writable_text, isUtf8_ascii, hlps, writable_logprobEntry]

theorem writable_genBuildCompletionResponse (h : Header) (content : Bytes) (reason : FinishReason)
    (u : Usage) : writable (genBuildCompletionResponse h content reason u) = true ↔
      h.Utf8 ∧ isUtf8 content = true := by
  have husage := writable_addUsage (some u)
  rw [Option.map_some, Option.getD_some] at husage
  simp only [genBuildCompletionResponse, writable, writableMembers_append, husage, Bool.and_true,
    Bool.and_eq_true, writable_headMembers h "text_completion" (by decide)]
  refine and_congr_right fun _ => ?_
  simp (disch := first | decide | exact finishReason_ascii _) [writable, writableMembers,
    writableItems, writable_text, isUtf8_ascii]

theorem writable_genSseCompletionChunk (h : Header) (t : Option Bytes)
    (final : Option FinishReason) : writable (genSseCompletionChunk h t final) = true ↔
      h.Utf8 ∧ isUtf8 (t.getD []) = true := by
  simp only [genSseCompletionChunk, writable, writableMembers_append, Bool.and_eq_true, writable_headMembers h "text_completion" (by decide)]
  refine and_congr_right fun _ => ?_
  cases final <;> simp (disch := first | decide | exact finishReason_ascii _) [writable,
    writableMembers, writableItems, writable_text, isUtf8_ascii]

/-! ## The detokenizer -/

/-- A token's text goes out up to the last boundary. -/
theorem detokFeed_cut {tok : Tokenizer} {t : Int × Nat} (ht : Decodable tok t) (withheld : Bytes) :
    detokFeed tok withheld t.1 = some (emit (withheld ++ tokenText tok t.1)
      (utf8CompletePrefix (withheld ++ tokenText tok t.1))) := by
  obtain ⟨s, hs⟩ := Option.isSome_iff_exists.mp ht
  have htext : tokenText tok t.1 = cstr s := by rw [tokenText, hs, Option.getD_some]
  rw [detokFeed, hs, htext]

/-- A text releases something exactly when a character ends within it. -/
theorem released_iff {released withheld text more : Bytes} (hidle : utf8CompletePrefix withheld = 0)
    (hreleased : WellFormed released) (hmore : WellFormed ((withheld ++ text) ++ more)) :
    (emit (withheld ++ text) (utf8CompletePrefix (withheld ++ text))).1 ≠ [] ↔
      EndsCharacter (released ++ withheld) text := by
  have hpiece : (emit (withheld ++ text) (utf8CompletePrefix (withheld ++ text))).1 ≠ [] ↔
      0 < utf8CompletePrefix (withheld ++ text) := by
    rw [← List.length_pos_iff, emit, List.length_take, Nat.lt_min]
    have hle := utf8CompletePrefix_le (withheld ++ text)
    omega
  rw [hpiece, utf8CompletePrefix_pos_iff hmore]
  constructor
  · rintro ⟨k, hk, hinit⟩
    rw [List.length_append] at hk
    have hreach : withheld.length ≤ k := by
      by_contra hshort
      have hinside : ∃ k < withheld.length, WellFormed (withheld.take (k + 1)) := by
        refine ⟨k, by omega, ?_⟩
        rwa [List.take_append_of_le_length (by omega)] at hinit
      rw [List.append_assoc] at hmore
      have hcut := (utf8CompletePrefix_pos_iff hmore).mpr hinside
      omega
    refine ⟨k - withheld.length, by omega, ?_⟩
    rw [← wellFormed_iff, List.append_assoc]
    rw [List.take_append, List.take_of_length_le (by omega),
      show k + 1 - withheld.length = k - withheld.length + 1 by omega] at hinit
    rw [wellFormed_iff] at hreleased hinit ⊢
    exact isUtf8_append _ _ hreleased hinit
  · rintro ⟨k, hk, hends⟩
    rw [← wellFormed_iff, List.append_assoc] at hends
    refine ⟨withheld.length + k, by rw [List.length_append]; omega, ?_⟩
    rw [Nat.add_assoc, List.take_length_add_append]
    exact wellFormed_of_append hreleased hends

/-- What a token releases and leaves: behind a UTF-8 start of a UTF-8 stream both are UTF-8, and
something is released exactly when the token ends a character. -/
structure Cuts (tok : Tokenizer) (sofar withheld piece rest : Bytes) (t : Int × Nat) : Prop where
  feed : detokFeed tok withheld t.1 = some (piece, rest)
  join : piece ++ rest = withheld ++ tokenText tok t.1
  idle : utf8CompletePrefix rest = 0
  utf8 : ∀ more, WellFormed (withheld ++ (tokenText tok t.1 ++ more)) →
    WellFormed piece ∧ WellFormed (rest ++ more)
  ends : ∀ released more, released ++ withheld = sofar → WellFormed released →
    WellFormed (withheld ++ (tokenText tok t.1 ++ more)) →
      (piece ≠ [] ↔ EndsCharacter sofar (tokenText tok t.1))

theorem detokFeed_decodable {tok : Tokenizer} {t : Int × Nat} (ht : Decodable tok t)
    (sofar : Bytes) {withheld : Bytes} (hidle : utf8CompletePrefix withheld = 0) :
    ∃ piece rest, Cuts tok sofar withheld piece rest t := by
  refine ⟨_, _, detokFeed_cut ht withheld, emit_flatten _ _, utf8CompletePrefix_drop _,
    fun more hmore => ?_, fun released more hsofar hreleased hmore => ?_⟩
  · rw [← List.append_assoc] at hmore
    exact utf8CompletePrefix_wellFormed _ more hmore
  · rw [← List.append_assoc] at hmore
    rw [← hsofar]
    exact released_iff hidle hreleased hmore

/-- A property of each token with the text before it, when one more token comes. -/
theorem forall_prefix_snoc {P : List (Int × Nat) → Int × Nat → Prop} (tokens : List (Int × Nat))
    (t : Int × Nat) : (∀ before t', before ++ [t'] <+: tokens ++ [t] → P before t') ↔
      (∀ before t', before ++ [t'] <+: tokens → P before t') ∧ P tokens t := by
  constructor
  · intro h
    exact ⟨fun before t' hinit => h before t' (hinit.trans (List.prefix_append _ _)),
      h tokens t (List.prefix_refl _)⟩
  · rintro ⟨hall, hlast⟩ before t' hinit
    rcases List.prefix_concat_iff.mp hinit with heq | hshort
    · obtain ⟨rfl, hsame⟩ := List.append_inj' heq rfl
      obtain rfl := List.singleton_inj.mp hsame
      exact hlast
    · exact hall before t' hshort

theorem detokFeed_not_decodable {tok : Tokenizer} {t : Int × Nat} (ht : ¬ Decodable tok t)
    (withheld : Bytes) : detokFeed tok withheld t.1 = none := by
  rw [Decodable, Bool.not_eq_true, Option.isSome_eq_false_iff, Option.isNone_iff_eq_none] at ht
  rw [detokFeed, ht]

/-! ## Runs that drain to the end -/

section Run

variable (tok : Tokenizer) (env : Env) (p : StartParams)

/-- What a request satisfies while it takes tokens, and what it has written when it ends. -/
structure Course where
  going : List (Int × Nat) → Loop → Prop
  ended : List (Int × Nat) → FinishReason → List (Wire × Bool) → Prop
  failed : List (Wire × Bool) → Prop

/-- One token keeps the course or fails it, and the end of the stream ends it. -/
structure Course.Holds (c : Course) : Prop where
  same : ∀ {ids m m'}, c.going ids m → m'.gr = m.gr → m'.conn = m.conn → c.going ids m'
  conn : ∀ {ids m}, c.going ids m → m.gr.conn = true
  token : ∀ {ids t m}, Attached p m → c.going ids m → Decodable tok t →
    (onToken tok env t.1 t.2 m).1 = true ∧ c.going (ids ++ [t]) (onToken tok env t.1 t.2 m).2
  lost : ∀ {ids t m}, Attached p m → c.going ids m → ¬ Decodable tok t →
    (onToken tok env t.1 t.2 m).1 = false ∧ c.failed (onToken tok env t.1 t.2 m).2.conn.written
  done : ∀ {ids m} reason, Attached p m → c.going ids m →
    c.ended ids reason (finishResponse env reason m).conn.written

/-- A request on its course. -/
structure Course.On (c : Course) (ids : List (Int × Nat)) (m : Loop) : Prop where
  attached : Attached p m
  going : c.going ids m

/-- A request that is over, with what it has written for all its tokens. -/
structure Course.Finished (c : Course) (tokens : List (Int × Nat)) (reason : FinishReason)
    (m : Loop) : Prop where
  left : Over m
  ended : (∀ t ∈ tokens, Decodable tok t) → c.ended tokens reason m.conn.written
  failed : (¬ ∀ t ∈ tokens, Decodable tok t) → c.failed m.conn.written

variable {tok env p} {c : Course} {m : Loop}

theorem Course.On.same (hc : c.Holds tok env p) {ids : List (Int × Nat)} (h : c.On p ids m)
    {m' : Loop} (hgr : m'.gr = m.gr) (hconn : m'.conn = m.conn) (hlate : m'.late = m.late) :
    c.On p ids m' :=
  ⟨h.attached.congr hlate hconn (by rw [hgr]) (by rw [hgr]) (by rw [hgr])
    (fun hf => by rw [hgr]; exact hf) (by rw [hgr]), hc.same h.going hgr hconn⟩

/-- A token that can be decoded keeps the request on its course. -/
theorem Course.On.token (hc : c.Holds tok env p) {ids : List (Int × Nat)} (h : c.On p ids m)
    {t : Int × Nat} (ht : Decodable tok t) : (onToken tok env t.1 t.2 m).1 = true ∧
      c.On p (ids ++ [t]) (onToken tok env t.1 t.2 m).2 := by
  obtain ⟨hgo, hgoing⟩ := hc.token h.attached h.going ht
  refine ⟨hgo, ?_, hgoing⟩
  rcases onToken_attached tok env t.1 t.2 h.attached with hattached | hover
  · exact hattached.1
  · have hconn := hc.conn hgoing
    rw [hover.conn] at hconn
    contradiction

/-- A token that cannot be decoded stops the loop and fails the request. -/
theorem Course.On.stopped (hc : c.Holds tok env p) {ids : List (Int × Nat)} (h : c.On p ids m)
    {t : Int × Nat} (ht : ¬ Decodable tok t) (rest : List (Chunk Nat)) :
    Over (drainLoop tok env (.token t.1 t.2 :: rest) m) ∧
      c.failed (drainLoop tok env (.token t.1 t.2 :: rest) m).conn.written := by
  obtain ⟨hstop, hfailed⟩ := hc.lost h.attached h.going ht
  rw [drainLoop_token, touch_open h.attached.opened, if_neg (by simp [hstop])]
  refine ⟨?_, hfailed⟩
  rcases onToken_attached tok env t.1 t.2 h.attached with ⟨-, hgo⟩ | hover
  · rw [hstop] at hgo
    contradiction
  · exact hover

/-- The end of the stream behind some tokens. -/
theorem drain_ends (hc : c.Holds tok env p) (tokens : List (Int × Nat)) (reason : FinishReason)
    {ids : List (Int × Nat)} (h : c.On p ids m) (hids : ∀ t ∈ ids, Decodable tok t) :
    c.Finished tok (ids ++ tokens) reason
      (drainLoop tok env ((tokens.map fun t => .token t.1 t.2) ++ [.done reason]) m) := by
  induction tokens generalizing ids m with
  | nil =>
    simp only [List.map_nil, List.nil_append, List.append_nil, drainLoop,
      touch_open h.attached.opened]
    exact ⟨(finishResponse_over env reason h.attached).1, fun _ => hc.done reason h.attached h.going,
      fun hnot => absurd hids hnot⟩
  | cons t rest ih =>
    rw [List.map_cons, List.cons_append]
    by_cases ht : Decodable tok t
    · obtain ⟨hgo, hon⟩ := h.token hc ht
      have hall : ∀ t' ∈ ids ++ [t], Decodable tok t' := by
        intro t' ht'
        rcases List.mem_append.mp ht' with ht' | ht'
        · exact hids t' ht'
        · rwa [List.mem_singleton.mp ht']
      have hrest := ih hon hall
      rw [List.append_assoc] at hrest
      rwa [drainLoop_token, touch_open h.attached.opened, if_pos hgo]
    · obtain ⟨hover, hfailed⟩ := h.stopped hc ht ((rest.map fun t => .token t.1 t.2) ++ [.done reason])
      have hnot : ¬ ∀ t' ∈ ids ++ t :: rest, Decodable tok t' := fun hall => ht (hall t (by simp))
      exact ⟨hover, fun hall => absurd hall hnot, fun _ => hfailed⟩

/-- Tokens without the end keep the request on its course, or fail it at the first that cannot be
decoded. -/
theorem drain_tokens (hc : c.Holds tok env p) (tokens : List (Int × Nat))
    {ids : List (Int × Nat)} (h : c.On p ids m) :
    ((∀ t ∈ tokens, Decodable tok t) ∧
        c.On p (ids ++ tokens) (drainLoop tok env (tokens.map fun t => .token t.1 t.2) m)) ∨
      ((¬ ∀ t ∈ tokens, Decodable tok t) ∧
        Over (drainLoop tok env (tokens.map fun t => .token t.1 t.2) m) ∧
        c.failed (drainLoop tok env (tokens.map fun t => .token t.1 t.2) m).conn.written) := by
  induction tokens generalizing ids m with
  | nil =>
    rw [List.append_nil]
    exact .inl ⟨by simp, h.same hc (touch_gr _ _) (touch_conn _ _) (by
      rw [List.map_nil, drainLoop, touch_open h.attached.opened])⟩
  | cons t rest ih =>
    rw [List.map_cons]
    by_cases ht : Decodable tok t
    · obtain ⟨hgo, hon⟩ := h.token hc ht
      have hcons : (∀ t' ∈ t :: rest, Decodable tok t') ↔ ∀ t' ∈ rest, Decodable tok t' := by
        simp [ht]
      have hrest := ih hon
      rw [List.append_assoc, List.singleton_append] at hrest
      rwa [hcons, drainLoop_token, touch_open h.attached.opened, if_pos hgo]
    · exact .inr ⟨fun hall => ht (hall t (by simp)), h.stopped hc ht _⟩

theorem Course.Finished.later {tokens : List (Int × Nat)} {reason : FinishReason}
    (h : c.Finished tok tokens reason m) (events : List Event) :
    c.Finished tok tokens reason (handleAll tok env events m) := by
  obtain ⟨hover, hwritten⟩ := handleAll_over tok env events h.left
  refine ⟨hover, ?_, ?_⟩
  · rw [hwritten]
    exact h.ended
  · rw [hwritten]
    exact h.failed

/-- Every delivery takes the request to its end, however the tokens are spread over passes. -/
theorem run_ends (hc : c.Holds tok env p) (events : List Event) (tokens : List (Int × Nat))
    (reason : FinishReason) {ids : List (Int × Nat)} (h : c.On p ids m)
    (hids : ∀ t ∈ ids, Decodable tok t) (hdelivers : Delivers events tokens reason) :
    c.Finished tok (ids ++ tokens) reason (handleAll tok env events m) := by
  induction events generalizing ids tokens m with
  | nil =>
    obtain ⟨-, hnone⟩ := hdelivers
    simp at hnone
  | cons e later ih =>
    obtain ⟨hopen, hchunks⟩ := hdelivers
    have hlater : ∀ e' ∈ later, e' ≠ .connClosed := fun e' he' => hopen e' (by simp [he'])
    rw [List.flatMap_cons] at hchunks
    change c.Finished tok (ids ++ tokens) reason (handleAll tok env later (handle tok env e m))
    cases e with
    | async chunks =>
      change chunks ++ _ = _ at hchunks
      rw [handle, genOnAsync, if_neg (by simp [h.attached.opened])]
      have hsplit : (chunks = (tokens.map fun t => .token t.1 t.2) ++ [.done reason]) ∨
          ∃ first rest, tokens = first ++ rest ∧ chunks = (first.map fun t => .token t.1 t.2) ∧
            later.flatMap chunksOf = (rest.map fun t => .token t.1 t.2) ++ [.done reason] := by
        rcases List.append_eq_append_iff.mp hchunks with ⟨back, hmap, hback⟩ | ⟨back, hmap, hback⟩
        · obtain ⟨first, rest, rfl, rfl, rfl⟩ := List.map_eq_append_iff.mp hmap
          exact .inr ⟨first, rest, rfl, rfl, hback⟩
        · rcases List.append_eq_singleton_iff.mp hback.symm with ⟨rfl, hdone⟩ | ⟨rfl, -⟩
          · exact .inr ⟨tokens, [], by simp, by simpa using hmap, hdone⟩
          · exact .inl hmap
      rcases hsplit with rfl | ⟨first, rest, rfl, rfl, hrest⟩
      · exact (drain_ends hc tokens reason h hids).later later
      · rcases drain_tokens hc first h with ⟨hfirst, hon⟩ | ⟨hnot, hover, hfailed⟩
        · rw [← List.append_assoc]
          refine ih rest hon ?_ ⟨hlater, hrest⟩
          intro t ht
          exact (List.mem_append.mp ht).elim (hids t) (hfirst t)
        · have hall : ¬ ∀ t ∈ ids ++ (first ++ rest), Decodable tok t := by
            intro hall
            exact hnot fun t ht => hall t (by simp [ht])
          exact Course.Finished.later ⟨hover, fun h => absurd h hall, fun _ => hfailed⟩ later
    | timer =>
      have htimer : m.gr.timerInited = false := by
        by_contra hinited
        have hgone := h.attached.sound.timer (by simpa using hinited)
        rw [h.attached.conn] at hgone
        contradiction
      rw [handle, htimer]
      exact ih tokens h hids ⟨hlater, hchunks⟩
    | connClosed => exact absurd rfl (hopen .connClosed (by simp))
    | drain =>
      have hsame : c.On p ids (handle tok env .drain m) := by
        rw [handle, if_pos (h.attached.sound.observed.trans h.attached.conn), genRequestDrain,
          if_neg (by simp [h.attached.opened]), streamCancel, touch_open h.attached.opened]
        exact h.same hc rfl rfl rfl
      exact ih tokens hsame hids ⟨hlater, hchunks⟩

end Run

/-! ## Writes on a live connection -/

section Alive

variable {tok : Tokenizer} {env : Env} {p : StartParams} {m : Loop}

theorem write_open (hserved : Served env) (wire : Wire) (closeAfter : Bool)
    (hopen : m.gr.closing = false) (hconn : m.conn.closing = false) :
    httpConnWrite env wire closeAfter m =
      { m.tick with conn := { m.conn with written := m.conn.written ++ [(wire, closeAfter)] } } := by
  rw [httpConnWrite, touch_open hopen, queueWrite, if_neg (by simp [hconn]),
    if_pos (hserved.writes _)]

/-- A chunk is written unless its document cannot be. -/
theorem writeSse_open (hserved : Served env) (doc : Value) (hopen : m.gr.closing = false)
    (hconn : m.conn.closing = false) :
    (writeSse env doc m).1 = writable doc ∧ (writeSse env doc m).2.gr = m.gr ∧
      (writeSse env doc m).2.conn = { m.conn with
        written := m.conn.written ++ if writable doc = true then [(.sse doc, false)] else [] } := by
  rw [writeSse, build, if_pos (hserved.allocs _), yyjsonMutWrite]
  by_cases hdoc : writable doc = true
  · rw [if_pos hdoc, if_pos hdoc]
    have hwrite := @write_open env m.tick hserved (.sse doc) false hopen hconn
    dsimp only
    rw [hwrite]
    exact ⟨hdoc.symm, rfl, rfl⟩
  · rw [if_neg hdoc, if_neg hdoc, List.append_nil]
    exact ⟨by simpa using hdoc, rfl, rfl⟩

/-- A request that has detached from a connection that is open. -/
structure Live (m : Loop) : Prop where
  detached : Detached m
  opened : m.conn.closing = false

theorem Live.tick (h : Live m) : Live m.tick := ⟨h.detached.tick, h.opened⟩

/-- A response is written unless its document cannot be. -/
theorem respond_live (hserved : Served env) (status : Nat) (doc : Value) (h : Live m) :
    (respond env status doc m).conn.written =
      m.conn.written ++ if writable doc = true then [(.response status doc, true)] else [] := by
  rw [respond, build, if_pos (hserved.allocs _), yyjsonMutWrite]
  by_cases hdoc : writable doc = true
  · rw [if_pos hdoc, if_pos hdoc]
    dsimp only
    rw [if_pos (hserved.allocs _)]
    rw [@write_open env m.tick.tick hserved _ _ h.detached.opened h.opened]
    rfl
  · rw [if_neg hdoc, if_neg hdoc, List.append_nil]
    dsimp only
    rw [close_conn env h.detached.tick]
    rfl

theorem finishDone_live (hserved : Served env) (h : Live m) :
    (finishDone env m).conn.written = m.conn.written ++ [(.sseDone, true)] := by
  rw [finishDone, if_pos (hserved.allocs _),
    @write_open env m.tick hserved _ _ h.detached.opened h.opened]
  rfl

theorem Attached.live (h : Attached p m) : Live (detachConn m).2 := by
  obtain ⟨-, hdetached, -⟩ := h.detach
  refine ⟨hdetached, ?_⟩
  rw [detachConn, if_pos h.conn]
  exact h.alive

/-! ## The whole response -/

/-- The accumulated and the withheld bytes are the text so far; in a UTF-8 stream all of it is, and
the entries are finite exactly when the log-probabilities of the tokens that end a character are. -/
structure Gathered (tok : Tokenizer) (ids : List (Int × Nat)) (gr : GenRequest) : Prop where
  text : gr.accum ++ gr.detok = textOf tok ids
  idle : utf8CompletePrefix gr.detok = 0
  utf8 : ∀ more, WellFormed (textOf tok ids ++ more) → WellFormed gr.accum ∧
    WellFormed (gr.detok ++ more) ∧ ∀ lp ∈ gr.lpEntries, WellFormed lp.token
  finite : ∀ more, WellFormed (textOf tok ids ++ more) →
    ((∀ lp ∈ gr.lpEntries, isFinite lp.logprob = true) ↔
      (gr.logprobs = true → FiniteLogprobs tok ids))

/-- Nothing is written while a whole response is gathered. -/
structure WholeGoing (tok : Tokenizer) (p : StartParams) (ids : List (Int × Nat)) (m : Loop) :
    Prop where
  conn : m.gr.conn = true
  kept : m.gr.suppressWrites = false
  written : m.conn.written = []
  asked : m.gr.logprobs = (p.logprobs && p.chat)
  gathered : Gathered tok ids m.gr

/-- What has to be written can be: the text, the header and, in a chat, the log-probabilities. -/
def Writes (tok : Tokenizer) (p : StartParams) (ids : List (Int × Nat)) : Prop :=
  isUtf8 (textOf tok ids) = true ∧ p.header.Utf8 ∧
    (p.chat = true → p.logprobs = true → FiniteLogprobs tok ids)

/-- A whole response is written when it can be. -/
def wholeCourse (tok : Tokenizer) (p : StartParams) : Course where
  going := WholeGoing tok p
  ended := fun ids _ written =>
    (Writes tok p ids → Answered p.chat written (textOf tok ids)) ∧
      (¬ Writes tok p ids → ∀ T, ¬ Answered p.chat written T)
  failed := fun written => ∀ T, ¬ Answered p.chat written T

theorem not_answered_nil (chat : Bool) (T : Bytes) : ¬ Answered chat [] T := by
  rintro ⟨doc, hdoc, -⟩
  cases hdoc

theorem accumAppend_alive (hserved : Served env) (s : Bytes) (m : Loop) :
    ∃ m', accumAppend env s m = (true, m') ∧ m'.conn = m.conn ∧
      m'.gr = { m.gr with accum := m.gr.accum ++ s } := by
  rw [accumAppend]
  split
  · next hempty =>
    refine ⟨m, rfl, rfl, ?_⟩
    rw [hempty, List.append_nil]
  · rw [hserved.allocs, if_pos rfl]
    exact ⟨_, rfl, rfl, rfl⟩

/-- The entry that is kept with a piece. -/
def keptEntries (gr : GenRequest) (piece : Bytes) (logprob : Nat) : List TokenLogprob :=
  if piece = [] ∨ gr.logprobs = false then [] else [⟨piece, logprob⟩]

theorem mem_keptEntries {gr : GenRequest} {piece : Bytes} {logprob : Nat} {lp : TokenLogprob} :
    lp ∈ keptEntries gr piece logprob ↔
      piece ≠ [] ∧ gr.logprobs = true ∧ lp = ⟨piece, logprob⟩ := by
  rw [keptEntries]
  split
  · next hnone =>
    refine iff_of_false List.not_mem_nil ?_
    rintro ⟨hpiece, hasked, -⟩
    rcases hnone with hnone | hnone
    · exact hpiece hnone
    · simp [hasked] at hnone
  · next hsome =>
    rw [not_or, Bool.not_eq_false] at hsome
    rw [List.mem_singleton]
    exact ⟨fun h => ⟨hsome.1, hsome.2, h⟩, fun h => h.2.2⟩

theorem keepPiece_alive (hserved : Served env) (piece : Bytes) (logprob : Nat) (m : Loop) :
    ∃ m', keepPiece env piece logprob m = (true, m') ∧ m'.conn = m.conn ∧
      m'.gr = { m.gr with
        accum := m.gr.accum ++ piece
        lpEntries := m.gr.lpEntries ++ keptEntries m.gr piece logprob } := by
  rw [keepPiece, keptEntries]
  split
  · next hempty =>
    refine ⟨m, rfl, rfl, ?_⟩
    rw [if_pos (.inl hempty), hempty, List.append_nil, List.append_nil]
  · next hpiece =>
    obtain ⟨m', happend, hconn, hgr⟩ := accumAppend_alive hserved piece m
    have hlogprobs : m'.gr.logprobs = m.gr.logprobs := by rw [hgr]
    rw [happend]
    dsimp only
    rw [hlogprobs]
    by_cases hasked : m.gr.logprobs = false
    · refine ⟨m', ?_, hconn, ?_⟩
      · rw [if_pos (by simp [hasked])]
      · rw [if_pos (.inr hasked), List.append_nil, hgr]
    · rw [if_neg (by simpa using hasked), if_pos (hserved.allocs _),
        if_neg (by simpa [hpiece] using hasked)]
      refine ⟨_, rfl, hconn, ?_⟩
      rw [setGr_gr, hgr]

/-- A token of a whole request is gathered. -/
theorem onToken_whole (hserved : Served env) (hstream : p.stream = false) (h : Attached p m)
    {t : Int × Nat} {piece rest : Bytes} (hfeed : detokFeed tok m.gr.detok t.1 = some (piece, rest)) :
    (onToken tok env t.1 t.2 m).1 = true ∧ (onToken tok env t.1 t.2 m).2.conn = m.conn ∧
      (onToken tok env t.1 t.2 m).2.gr = { m.gr with
        completionTokens := m.gr.completionTokens + 1, detok := rest
        accum := m.gr.accum ++ piece
        lpEntries := m.gr.lpEntries ++ keptEntries m.gr piece t.2 } := by
  have hsse : m.gr.sse = false := h.follows.sse.trans hstream
  obtain ⟨m', hkeep, hconn, hgr⟩ := keepPiece_alive hserved piece t.2
    ((counted m).tick.setGr { (counted m).gr with detok := rest })
  rw [onToken_fed tok env h.opened (hserved.allocs _) hfeed, onPiece,
    if_neg (by simp [Loop.setGr, counted, hsse]), hkeep]
  exact ⟨rfl, hconn, hgr⟩

theorem Gathered.piece {ids : List (Int × Nat)} {t : Int × Nat} {gr : GenRequest}
    (h : Gathered tok ids gr) {piece rest : Bytes} {n : Int}
    (hcuts : Cuts tok (textOf tok ids) gr.detok piece rest t) :
    Gathered tok (ids ++ [t]) { gr with
      completionTokens := n, detok := rest, accum := gr.accum ++ piece
      lpEntries := gr.lpEntries ++ keptEntries gr piece t.2 } := by
  refine ⟨?_, hcuts.idle, fun more hmore => ?_, fun more hmore => ?_⟩
  · rw [textOf_snoc, ← h.text]
    dsimp only
    rw [List.append_assoc, hcuts.join, List.append_assoc]
  · rw [textOf_snoc, List.append_assoc] at hmore
    obtain ⟨haccum, hdetok, hlps⟩ := h.utf8 _ hmore
    obtain ⟨hpiece, hrest⟩ := hcuts.utf8 more hdetok
    refine ⟨?_, hrest, fun lp hlp => ?_⟩
    · rw [wellFormed_iff] at haccum hpiece ⊢
      exact isUtf8_append _ _ haccum hpiece
    · rcases List.mem_append.mp hlp with hlp | hlp
      · exact hlps lp hlp
      · obtain ⟨-, -, rfl⟩ := mem_keptEntries.mp hlp
        exact hpiece
  · rw [textOf_snoc, List.append_assoc] at hmore
    obtain ⟨haccum, hdetok, -⟩ := h.utf8 _ hmore
    have hends := hcuts.ends gr.accum more h.text haccum hdetok
    have hadded : (∀ lp ∈ keptEntries gr piece t.2, isFinite lp.logprob = true) ↔
        (gr.logprobs = true → EndsCharacter (textOf tok ids) (tokenText tok t.1) →
          isFinite t.2 = true) := by
      rw [← hends]
      constructor
      · intro hall hasked hpiece
        exact hall ⟨piece, t.2⟩ (mem_keptEntries.mpr ⟨hpiece, hasked, rfl⟩)
      · intro hall lp hlp
        obtain ⟨hpiece, hasked, rfl⟩ := mem_keptEntries.mp hlp
        exact hall hasked hpiece
    dsimp only
    rw [List.forall_mem_append, h.finite _ hmore, hadded, FiniteLogprobs, FiniteLogprobs,
      forall_prefix_snoc, imp_and]

theorem finishError_whole (hserved : Served env) (message : String) (kind : GenErrKind)
    (h : Attached p m) (hsse : m.gr.sse = false) (hkept : m.gr.suppressWrites = false)
    (hwritten : m.conn.written = []) (T : Bytes) :
    ¬ Answered p.chat (finishError env message kind m).conn.written T := by
  obtain ⟨-, -, -, hgr, hwrote, -⟩ := h.detach
  rw [finishError_eq, answered_conn env h hkept]
  simp only [answerError]
  rw [if_neg (by simp [hgr, hsse]), respond_live hserved _ _ h.live, hwrote, hwritten,
    List.nil_append]
  rintro ⟨doc, hdoc, -⟩
  split at hdoc
  · cases kind <;> cases hdoc
  · cases hdoc

/-- The document of a whole response. -/
def wholeDoc (p : StartParams) (content : Bytes) (reason : FinishReason) (u : Usage)
    (lps : List TokenLogprob) : Value :=
  if p.chat then genBuildChatResponse p.header content reason u lps
  else genBuildCompletionResponse p.header content reason u

theorem contentOf_wholeDoc (p : StartParams) (content : Bytes) (reason : FinishReason) (u : Usage)
    (lps : List TokenLogprob) :
    contentOf p.chat "message" (wholeDoc p content reason u lps) = some content := by
  rw [wholeDoc]
  cases p.chat with
  | false => exact contentOf_completionResponse _ _ _ _
  | true => exact contentOf_chatResponse _ _ _ _ _

/-- The entries are written with the text they are cut from. -/
theorem Gathered.writable_wholeDoc {ids : List (Int × Nat)} {gr : GenRequest}
    (h : Gathered tok ids gr) (hasked : gr.logprobs = (p.logprobs && p.chat))
    (reason : FinishReason) (u : Usage) :
    writable (wholeDoc p (textOf tok ids) reason u gr.lpEntries) = true ↔
      Writes tok p ids := by
  rw [wholeDoc, Writes]
  cases hchat : p.chat with
  | false =>
    rw [if_neg (by simp), writable_genBuildCompletionResponse]
    simp [and_comm]
  | true =>
    rw [if_pos rfl, writable_genBuildChatResponse, and_left_comm]
    refine and_congr_right fun htext => and_congr_right fun _ => ?_
    rw [← wellFormed_iff, ← List.append_nil (textOf tok ids)] at htext
    have hutf8 := (h.utf8 [] htext).2.2
    have hfinite := h.finite [] htext
    rw [hasked, hchat, Bool.and_true] at hfinite
    rw [forall_prop_of_true rfl, ← hfinite]
    exact ⟨fun hall lp hlp => (hall lp hlp).2,
      fun hall lp hlp => ⟨(wellFormed_iff _).mp (hutf8 lp hlp), hall lp hlp⟩⟩

/-- Behind the flush the whole text is answered, unless its document cannot be written. -/
theorem finishResponse_whole (hserved : Served env) (reason : FinishReason)
    {ids : List (Int × Nat)} (h : Attached p m) (hstream : p.stream = false)
    (hgoing : WholeGoing tok p ids m) :
    ∃ u, (finishResponse env reason m).conn.written =
      if writable (wholeDoc p (textOf tok ids) reason u m.gr.lpEntries) = true then
        [(.response 200 (wholeDoc p (textOf tok ids) reason u m.gr.lpEntries), true)]
      else [] := by
  have hsse : m.gr.sse = false := h.follows.sse.trans hstream
  have hflush : detokFlush m.gr.detok = (m.gr.detok, []) := by simp [detokFlush, emit]
  have hattached : Attached p (m.tick.setGr { m.gr with detok := [] }) :=
    h.congr rfl rfl rfl rfl rfl (fun hf => ⟨hf.chat, hf.sse, hf.header, hf.includeUsage⟩) rfl
  obtain ⟨m₁, happend, hconn₁, hgr₁⟩ :=
    accumAppend_alive hserved m.gr.detok (m.tick.setGr { m.gr with detok := [] })
  have hattached₁ := accumAppend_attached env hattached happend
  have haccum : m₁.gr.accum = textOf tok ids := by
    rw [hgr₁]
    exact hgoing.gathered.text
  have hlps : m₁.gr.lpEntries = m.gr.lpEntries := by rw [hgr₁]; rfl
  have hchat : m₁.gr.chat = p.chat := hattached₁.follows.chat
  have hsse₁ : m₁.gr.sse = false := hattached₁.follows.sse.trans hstream
  have hkept₁ : m₁.gr.suppressWrites = false := by
    rw [hgr₁]
    exact hgoing.kept
  have hrun : finishResponse env reason m = finishDetached env m.gr.detok reason m₁ := by
    simp only [finishResponse, touch_open h.opened, hserved.allocs, Bool.not_true,
      Bool.false_eq_true, if_false, hflush]
    rw [if_neg (by simp [Loop.setGr, hsse]), happend]
  obtain ⟨-, -, -, hgr, hwrote, -⟩ := hattached₁.detach
  have hnone : (detachConn m₁).2.conn.written = [] := by
    rw [hwrote, hconn₁]
    exact hgoing.written
  rw [hrun, finishDetached_eq, answered_conn env hattached₁ hkept₁, answerResponse,
    if_neg (by simp [hgr, hsse₁]), finishWhole, respond_live hserved _ _ hattached₁.live, hnone,
    List.nil_append]
  refine ⟨usageOf m₁.gr, ?_⟩
  simp only [wholeDoc, hgr, hchat, haccum, hlps, hattached₁.follows.header]
  rfl

theorem whole_token (hserved : Served env) (hstream : p.stream = false) {ids : List (Int × Nat)}
    {t : Int × Nat} (h : Attached p m) (hgoing : WholeGoing tok p ids m) (ht : Decodable tok t) :
    (onToken tok env t.1 t.2 m).1 = true ∧
      WholeGoing tok p (ids ++ [t]) (onToken tok env t.1 t.2 m).2 := by
  obtain ⟨piece, rest, hcuts⟩ := detokFeed_decodable ht (textOf tok ids) hgoing.gathered.idle
  obtain ⟨hgo, hconn, hgr⟩ := onToken_whole hserved hstream h hcuts.feed
  refine ⟨hgo, ?_, ?_, ?_, ?_, ?_⟩
  · rw [hgr]
    exact hgoing.conn
  · rw [hgr]
    exact hgoing.kept
  · rw [hconn]
    exact hgoing.written
  · rw [hgr]
    exact hgoing.asked
  · rw [hgr]
    exact hgoing.gathered.piece hcuts

theorem whole_lost (hserved : Served env) (hstream : p.stream = false) {ids : List (Int × Nat)}
    {t : Int × Nat} (h : Attached p m) (hgoing : WholeGoing tok p ids m) (ht : ¬ Decodable tok t) :
    (onToken tok env t.1 t.2 m).1 = false ∧
      ∀ T, ¬ Answered p.chat (onToken tok env t.1 t.2 m).2.conn.written T := by
  have hnone := detokFeed_not_decodable ht m.gr.detok
  have hrun := @onToken_unfed tok env m t.1 t.2 h.opened (by simp [hnone])
  have hcounted : Attached p (counted m).tick := h.congr rfl rfl rfl rfl rfl
    (fun hf => ⟨hf.chat, hf.sse, hf.header, hf.includeUsage⟩) rfl
  have hcancel : Attached p (streamCancel (counted m).tick) := cancel_attached hcounted
  have hgr : (streamCancel (counted m).tick).gr = (counted m).gr := touch_gr _ _
  have hconn : (streamCancel (counted m).tick).conn = m.conn := touch_conn _ _
  have hkept : (streamCancel (counted m).tick).gr.suppressWrites = false := by
    rw [hgr]
    exact hgoing.kept
  have hwritten : (streamCancel (counted m).tick).conn.written = [] := by
    rw [hconn]
    exact hgoing.written
  have hnot := finishError_whole hserved "detokenizer error" .internal hcancel
    (hcancel.follows.sse.trans hstream) hkept hwritten
  rw [hrun]
  exact ⟨rfl, hnot⟩

theorem whole_done (hserved : Served env) (hstream : p.stream = false) {ids : List (Int × Nat)}
    (reason : FinishReason) (h : Attached p m) (hgoing : WholeGoing tok p ids m) :
    (wholeCourse tok p).ended ids reason (finishResponse env reason m).conn.written := by
  obtain ⟨u, hwritten⟩ := finishResponse_whole hserved reason h hstream hgoing
  have hdoc := hgoing.gathered.writable_wholeDoc hgoing.asked reason u
  constructor
  · intro hwrites
    rw [hwritten, if_pos (hdoc.mpr hwrites)]
    exact ⟨_, rfl, contentOf_wholeDoc _ _ _ _ _⟩
  · intro hnot T
    rw [hwritten, if_neg fun hyes => hnot (hdoc.mp hyes)]
    exact not_answered_nil p.chat T

theorem wholeCourse_holds (hserved : Served env) (hstream : p.stream = false) :
    (wholeCourse tok p).Holds tok env p where
  same := fun h hgr hconn =>
    ⟨hgr ▸ h.conn, hgr ▸ h.kept, hconn ▸ h.written, hgr ▸ h.asked, hgr ▸ h.gathered⟩
  conn := fun h => h.conn
  token := whole_token hserved hstream
  lost := whole_lost hserved hstream
  done := whole_done hserved hstream

/-! ## The streamed response -/

theorem deltas_append (chat : Bool) (x y : List (Wire × Bool)) :
    deltas chat (x ++ y) = deltas chat x ++ deltas chat y := List.flatMap_append

/-- In a UTF-8 stream with finite log-probabilities what has gone out and the withheld bytes are the
text so far. -/
structure StreamGoing (tok : Tokenizer) (p : StartParams) (ids : List (Int × Nat)) (m : Loop) :
    Prop where
  conn : m.gr.conn = true
  kept : m.gr.suppressWrites = false
  present : m.gr.connGone = false
  asked : m.gr.logprobs = (p.logprobs && p.chat)
  idle : utf8CompletePrefix m.gr.detok = 0
  text : ∀ more, WellFormed (textOf tok ids ++ more) →
    (p.chat = true → p.logprobs = true → FiniteLogprobs tok ids) →
      deltas p.chat m.conn.written ++ m.gr.detok = textOf tok ids ∧
        WellFormed (deltas p.chat m.conn.written) ∧ WellFormed (m.gr.detok ++ more)

def streamCourse (tok : Tokenizer) (p : StartParams) : Course where
  going := StreamGoing tok p
  ended := fun ids _ written => isUtf8 (textOf tok ids) = true →
    (p.chat = true → p.logprobs = true → FiniteLogprobs tok ids) →
      deltas p.chat written = textOf tok ids
  failed := fun _ => True

/-- The chunk for a piece carries it. -/
theorem emitDoc_text (gr : GenRequest) {piece : Bytes} (hpiece : piece ≠ []) (logprob : Nat) :
    ∃ doc, emitDoc gr piece logprob = some doc ∧
      (contentOf gr.chat "delta" doc).getD [] = piece ∧
      (gr.header.Utf8 → isUtf8 piece = true →
        (gr.chat = true → gr.logprobs = true → isFinite logprob = true) → writable doc = true) := by
  rw [emitDoc]
  cases gr.chat with
  | false =>
    refine ⟨_, by rw [if_neg (by simp), if_neg hpiece], ?_, ?_⟩
    · rw [contentOf_completionChunk]
      rfl
    · intro hheader hutf8 _
      exact (writable_genSseCompletionChunk _ _ _).mpr ⟨hheader, hutf8⟩
  | true =>
    rw [if_pos rfl, if_neg hpiece]
    have hchunk : ∀ role, (contentOf true "delta" (genSseChunk gr.header
        { roleFirst := role, deltaText := some piece
          logprob := if gr.logprobs = true then some ⟨piece, logprob⟩ else none })).getD [] = piece ∧
        (gr.header.Utf8 → isUtf8 piece = true →
          (true = true → gr.logprobs = true → isFinite logprob = true) →
          writable (genSseChunk gr.header
            { roleFirst := role, deltaText := some piece
              logprob := if gr.logprobs = true then some ⟨piece, logprob⟩ else none }) = true) := by
      intro role
      refine ⟨contentOf_chunk _ _, fun hheader hutf8 hfinite => ?_⟩
      rw [writable_genSseChunk]
      refine ⟨hheader, ?_, fun _ lp hlp => ?_⟩
      · rintro t ⟨⟩
        exact hutf8
      · dsimp only at hlp
        split at hlp
        · next hasked =>
          obtain rfl := Option.some.inj hlp
          exact ⟨hutf8, hfinite rfl hasked⟩
        · contradiction
    dsimp only
    split
    · exact ⟨_, rfl, hchunk true⟩
    · exact ⟨_, rfl, hchunk false⟩

theorem emit_alive (halive : Alive env) (h : Attached p m) (hheader : p.header.Utf8)
    {piece : Bytes} (hpiece : piece ≠ []) (logprob : Nat) (hkept : m.gr.suppressWrites = false)
    (hpresent : m.gr.connGone = false) (hasked : m.gr.logprobs = (p.logprobs && p.chat)) :
    ∃ (sent : Bool) (added : List (Wire × Bool)),
      (emitSseChunk env piece logprob m).gr = { m.gr with roleSent := sent } ∧
      (emitSseChunk env piece logprob m).conn.written = m.conn.written ++ added ∧
      (isUtf8 piece = true → (p.chat = true → p.logprobs = true → isFinite logprob = true) →
        deltas p.chat added = piece) := by
  obtain ⟨doc, hdoc, hcontent, hwritable⟩ := emitDoc_text m.gr hpiece logprob
  obtain ⟨hsent, hgr, hconn⟩ := @writeSse_open env m halive.served doc h.opened h.alive
  rw [h.follows.header, h.follows.chat, hasked] at hwritable
  rw [h.follows.chat] at hcontent
  rw [emitSseChunk, if_neg (by simp [hpresent, h.conn, hkept]), hdoc]
  dsimp only
  have hdeltas : isUtf8 piece = true →
      (p.chat = true → p.logprobs = true → isFinite logprob = true) → deltas p.chat
        (if writable doc = true then [(Wire.sse doc, false)] else []) = piece := by
    intro hutf8 hfinite
    have hall : p.chat = true → (p.logprobs && p.chat) = true → isFinite logprob = true :=
      fun hchat hboth => hfinite hchat (Bool.and_eq_true_iff.mp hboth).1
    rw [if_pos (hwritable hheader hutf8 hall), deltas, List.flatMap_singleton]
    exact hcontent
  split
  · refine ⟨true, _, ?_, ?_, hdeltas⟩
    · rw [setGr_gr, hgr]
    · rw [setGr_conn, hconn]
  · refine ⟨m.gr.roleSent, _, ?_, ?_, hdeltas⟩
    · rw [hgr]
    · rw [hconn]

theorem checkBacklog_alive (halive : Alive env) (hopen : m.gr.closing = false) :
    (checkBacklog env m).gr = m.gr ∧ (checkBacklog env m).conn = m.conn := by
  rw [checkBacklog]
  split
  · exact ⟨rfl, rfl⟩
  · rw [touch_open hopen]
    dsimp only
    rw [if_neg (by simp [halive.backlog])]
    exact ⟨rfl, rfl⟩

theorem stream_token (halive : Alive env) (hstream : p.stream = true) (hheader : p.header.Utf8)
    {ids : List (Int × Nat)} {t : Int × Nat} (h : Attached p m) (hgoing : StreamGoing tok p ids m)
    (ht : Decodable tok t) : (onToken tok env t.1 t.2 m).1 = true ∧
      StreamGoing tok p (ids ++ [t]) (onToken tok env t.1 t.2 m).2 := by
  obtain ⟨piece, rest, hcuts⟩ := detokFeed_decodable ht (textOf tok ids) hgoing.idle
  have hsse : m.gr.sse = true := h.follows.sse.trans hstream
  have hfed : Attached p ((counted m).tick.setGr { (counted m).gr with detok := rest }) :=
    h.congr rfl rfl rfl rfl rfl (fun hf => ⟨hf.chat, hf.sse, hf.header, hf.includeUsage⟩) rfl
  rw [onToken_fed tok env h.opened (halive.allocs _) hcuts.feed, onPiece,
    if_pos (by simp [Loop.setGr, counted, hsse])]
  refine ⟨rfl, ?_⟩
  dsimp only
  -- what the piece adds to the chunks, whether it is empty or not
  have hadds : ∃ (m' : Loop) (sent : Bool) (added : List (Wire × Bool)),
      (if piece = [] then (counted m).tick.setGr { (counted m).gr with detok := rest } else
        emitSseChunk env piece t.2
          ((counted m).tick.setGr { (counted m).gr with detok := rest })) = m' ∧
      m'.gr = { (counted m).gr with detok := rest, roleSent := sent } ∧
      m'.conn.written = m.conn.written ++ added ∧
      (isUtf8 piece = true → (piece ≠ [] → p.chat = true → p.logprobs = true →
        isFinite t.2 = true) → deltas p.chat added = piece) := by
    by_cases hpiece : piece = []
    · rw [if_pos hpiece]
      refine ⟨_, m.gr.roleSent, [], rfl, rfl, (List.append_nil _).symm, fun _ _ => ?_⟩
      rw [hpiece]
      rfl
    · rw [if_neg hpiece]
      obtain ⟨sent, added, hgr, hwritten, hdeltas⟩ :=
        emit_alive halive hfed hheader hpiece t.2 hgoing.kept hgoing.present hgoing.asked
      exact ⟨_, sent, added, rfl, hgr, hwritten,
        fun hutf8 hfinite => hdeltas hutf8 (hfinite hpiece)⟩
  obtain ⟨m', sent, added, hrun, hgr, hwritten, hdeltas⟩ := hadds
  rw [hrun]
  have hopen : m'.gr.closing = false := by
    rw [hgr]
    exact h.opened
  obtain ⟨hgr', hconn'⟩ := checkBacklog_alive halive hopen
  refine ⟨?_, ?_, ?_, ?_, ?_, fun more hmore hfinite => ?_⟩
  · rw [hgr', hgr]
    exact hgoing.conn
  · rw [hgr', hgr]
    exact hgoing.kept
  · rw [hgr', hgr]
    exact hgoing.present
  · rw [hgr', hgr]
    exact hgoing.asked
  · rw [hgr', hgr]
    exact hcuts.idle
  · rw [textOf_snoc, List.append_assoc] at hmore
    simp only [FiniteLogprobs, forall_prefix_snoc, imp_and] at hfinite
    obtain ⟨htext, hout, hdetok⟩ := hgoing.text _ hmore hfinite.1
    obtain ⟨hpiece, hrest⟩ := hcuts.utf8 more hdetok
    have hends := hcuts.ends _ more htext hout hdetok
    have hadded := hdeltas ((wellFormed_iff _).mp hpiece) fun hne hchat hasked =>
      hfinite.2 hchat hasked (hends.mp hne)
    rw [hgr', hconn', hgr, hwritten, deltas_append, hadded, textOf_snoc]
    refine ⟨?_, ?_, hrest⟩
    · dsimp only
      rw [List.append_assoc, hcuts.join, ← List.append_assoc, htext]
    · rw [wellFormed_iff] at hout hpiece ⊢
      exact isUtf8_append _ _ hout hpiece

/-- A write of a detached request on a live connection, with what it adds to the streamed text. -/
structure Adds (chat : Bool) (x : Bytes) (m m' : Loop) : Prop where
  live : Live m'
  sameChat : m'.gr.chat = m.gr.chat
  sameHeader : m'.gr.header = m.gr.header
  text : deltas chat m'.conn.written = deltas chat m.conn.written ++ x

theorem Adds.none {chat : Bool} (h : Live m) : Adds chat [] m m :=
  ⟨h, rfl, rfl, (List.append_nil _).symm⟩

theorem Adds.trans {chat : Bool} {x y : Bytes} {m₁ m₂ m₃ : Loop} (h : Adds chat x m₁ m₂)
    (h' : Adds chat y m₂ m₃) : Adds chat (x ++ y) m₁ m₃ :=
  ⟨h'.live, h'.sameChat.trans h.sameChat, h'.sameHeader.trans h.sameHeader, by
    rw [h'.text, h.text, List.append_assoc]⟩

/-- A chunk adds its text when it can be written, and nothing when it has none. -/
theorem writeSse_adds (halive : Alive env) {chat : Bool} {doc : Value} {x : Bytes} (h : Live m)
    (hcontent : (contentOf chat "delta" doc).getD [] = x) (hwritable : x ≠ [] → writable doc = true) :
    Adds chat x m (writeSse env doc m).2 := by
  obtain ⟨-, hgr, hconn⟩ := @writeSse_open env m halive.served doc h.detached.opened h.opened
  refine ⟨⟨(writeSse_kept env doc h.detached).detached, ?_⟩, by rw [hgr], by rw [hgr], ?_⟩
  · rw [hconn]
    exact h.opened
  · rw [hconn]
    dsimp only
    rw [deltas_append]
    congr 1
    split
    · rw [deltas, List.flatMap_singleton]
      exact hcontent
    · next hnot =>
      by_contra hne
      exact hnot (hwritable fun hx => hne hx.symm)

theorem finishFlush_adds (halive : Alive env) (h : Live m) (hheader : m.gr.header.Utf8)
    {flushOut : Bytes} (hutf8 : isUtf8 flushOut = true) :
    Adds m.gr.chat flushOut m (finishFlush env flushOut m) := by
  rw [finishFlush]
  split
  · next hempty =>
    rw [hempty]
    exact Adds.none h
  · cases hchat : m.gr.chat with
    | true =>
      rw [if_pos rfl]
      dsimp only
      have hwrite : Adds true flushOut m (writeSse env (genSseChunk m.gr.header
          { roleFirst := !m.gr.roleSent, deltaText := some flushOut }) m).2 := by
        apply writeSse_adds halive h
        · exact contentOf_chunk _ _
        · intro _
          rw [writable_genSseChunk]
          refine ⟨hheader, ?_, fun _ lp hlp => by contradiction⟩
          rintro t ⟨⟩
          exact hutf8
      split
      · exact ⟨⟨hwrite.live.detached.role, hwrite.live.opened⟩, hwrite.sameChat,
          hwrite.sameHeader, hwrite.text⟩
      · exact hwrite
    | false =>
      rw [if_neg (by simp)]
      apply writeSse_adds halive h
      · rw [contentOf_completionChunk, Option.getD_some, Option.getD_some]
      · intro _
        exact (writable_genSseCompletionChunk _ _ _).mpr ⟨hheader, hutf8⟩

/-- A chat's chunk without text adds nothing. -/
theorem writeSse_silent (halive : Alive env) (h : Live m) {d : SseChunkParams}
    (htext : d.deltaText = none) : Adds true [] m (writeSse env (genSseChunk m.gr.header d) m).2 := by
  apply writeSse_adds halive h
  · rw [contentOf_chunk, htext]
    rfl
  · intro hne
    exact absurd rfl hne

theorem finishSse_text (halive : Alive env) (h : Live m) (hheader : m.gr.header.Utf8)
    {flushOut : Bytes} (hutf8 : isUtf8 flushOut = true) (reason : FinishReason) :
    deltas m.gr.chat (finishSse env flushOut reason m).conn.written =
      deltas m.gr.chat m.conn.written ++ flushOut := by
  have hflush := finishFlush_adds halive h hheader hutf8
  have hdone : ∀ m' : Loop, Live m' → deltas m.gr.chat (finishDone env m').conn.written =
      deltas m.gr.chat m'.conn.written := by
    intro m' hlive
    rw [finishDone_live halive.served hlive, deltas_append]
    exact List.append_nil _
  simp only [finishSse, hflush.sameChat]
  cases hchat : m.gr.chat with
  | true =>
    rw [hchat] at hflush hdone
    rw [if_pos rfl]
    have hrole : Adds true [] (finishFlush env flushOut m)
        (finishRole env (finishFlush env flushOut m)) := by
      rw [finishRole]
      split
      · exact Adds.none hflush.live
      · exact writeSse_silent halive hflush.live rfl
    have hfinal := @writeSse_silent env _ halive hrole.live { final := some reason } rfl
    have husage : Adds true [] (writeSse env (genSseChunk
        (finishRole env (finishFlush env flushOut m)).gr.header { final := some reason })
          (finishRole env (finishFlush env flushOut m))).2
        (finishUsage env (writeSse env (genSseChunk
          (finishRole env (finishFlush env flushOut m)).gr.header { final := some reason })
            (finishRole env (finishFlush env flushOut m))).2) := by
      rw [finishUsage]
      split
      · exact writeSse_silent halive hfinal.live rfl
      · exact Adds.none hfinal.live
    have hall := ((hflush.trans hrole).trans hfinal).trans husage
    rw [hdone _ hall.live, hall.text]
    simp
  | false =>
    rw [hchat] at hflush hdone
    rw [if_neg (by simp)]
    have hfinal : Adds false [] (finishFlush env flushOut m) (writeSse env (genSseCompletionChunk
        (finishFlush env flushOut m).gr.header none (some reason)) (finishFlush env flushOut m)).2 := by
      apply writeSse_adds halive hflush.live
      · rfl
      · intro hne
        exact absurd rfl hne
    have hall := hflush.trans hfinal
    rw [hdone _ hall.live, hall.text, List.append_nil]

theorem stream_done (halive : Alive env) (hstream : p.stream = true) (hheader : p.header.Utf8)
    {ids : List (Int × Nat)} (reason : FinishReason) (h : Attached p m)
    (hgoing : StreamGoing tok p ids m) :
    (streamCourse tok p).ended ids reason (finishResponse env reason m).conn.written := by
  intro hutf8 hfinite
  have hsse : m.gr.sse = true := h.follows.sse.trans hstream
  have hflush : detokFlush m.gr.detok = (m.gr.detok, []) := by simp [detokFlush, emit]
  have hattached : Attached p (m.tick.setGr { m.gr with detok := [] }) :=
    h.congr rfl rfl rfl rfl rfl (fun hf => ⟨hf.chat, hf.sse, hf.header, hf.includeUsage⟩) rfl
  have hrun : finishResponse env reason m =
      finishDetached env m.gr.detok reason (m.tick.setGr { m.gr with detok := [] }) := by
    simp only [finishResponse, touch_open h.opened, halive.allocs, Bool.not_true,
      Bool.false_eq_true, if_false, hflush]
    rw [accumAppend, if_pos (by simp [Loop.setGr, hsse])]
  obtain ⟨-, -, -, hgr, hwritten, -⟩ := hattached.detach
  have hlive := hattached.live
  have hall := hgoing.text []
  rw [List.append_nil, List.append_nil, wellFormed_iff, wellFormed_iff, wellFormed_iff] at hall
  obtain ⟨htext, -, hdetok⟩ := hall hutf8 hfinite
  have hchat : (detachConn (m.tick.setGr { m.gr with detok := [] })).2.gr.chat = p.chat := by
    rw [hgr]
    exact h.follows.chat
  have hhead : (detachConn (m.tick.setGr { m.gr with detok := [] })).2.gr.header.Utf8 := by
    rw [hgr]
    exact h.follows.header ▸ hheader
  have hsum := finishSse_text halive hlive hhead hdetok reason
  rw [hchat, hwritten] at hsum
  rw [hrun, finishDetached_streamed env hattached hsse hgoing.kept, hsum]
  exact htext

theorem streamCourse_holds (halive : Alive env) (hstream : p.stream = true)
    (hheader : p.header.Utf8) : (streamCourse tok p).Holds tok env p where
  same := fun h hgr hconn => ⟨hgr ▸ h.conn, hgr ▸ h.kept, hgr ▸ h.present, hgr ▸ h.asked,
    hgr ▸ h.idle, hgr ▸ hconn ▸ h.text⟩
  conn := fun h => h.conn
  token := stream_token halive hstream hheader
  lost := by
    intro ids t m h _ ht
    have hnone := detokFeed_not_decodable ht m.gr.detok
    rw [onToken_unfed tok env h.opened (by simp [hnone])]
    exact ⟨rfl, trivial⟩
  done := stream_done halive hstream hheader

/-! ## The agreement -/

/-- A started request is on its course, with nothing taken. -/
theorem start_live (hserved : Served env) (p : StartParams) : Attached p (genRequestStart env p) ∧
    (genRequestStart env p).conn.written = (if p.stream = true then [(.sseHead, false)] else []) ∧
    (genRequestStart env p).gr.accum = [] ∧ (genRequestStart env p).gr.detok = [] ∧
    (genRequestStart env p).gr.lpEntries = [] ∧
    (genRequestStart env p).gr.suppressWrites = false ∧
    (genRequestStart env p).gr.connGone = false ∧
    (genRequestStart env p).gr.logprobs = (p.logprobs && p.chat) := by
  have hphase := start_phase env p
  by_cases hstream : p.stream = true
  · simp only [genRequestStart, hstream, if_true, queueWrite, Bool.false_eq_true, if_false,
      hserved.writes] at hphase ⊢
    refine ⟨?_, rfl, rfl, rfl, rfl, rfl, rfl, rfl⟩
    rcases hphase with hattached | hover
    · exact hattached
    · exact absurd hover.conn (by simp [Loop.tick])
  · simp only [genRequestStart, hstream] at hphase ⊢
    refine ⟨?_, rfl, rfl, rfl, rfl, rfl, rfl, rfl⟩
    rcases hphase with hattached | hover
    · exact hattached
    · exact absurd hover.conn (by simp)

theorem finiteLogprobs_nil (tok : Tokenizer) : FiniteLogprobs tok [] := by
  intro before t hinit
  simp at hinit

theorem start_gathered (tok : Tokenizer) {gr : GenRequest} (haccum : gr.accum = [])
    (hdetok : gr.detok = []) (hlps : gr.lpEntries = []) : Gathered tok [] gr := by
  refine ⟨?_, ?_, fun more hmore => ?_, fun more hmore => ?_⟩
  · rw [haccum, hdetok]
    rfl
  · rw [hdetok]
    rfl
  · rw [haccum, hdetok, hlps]
    exact ⟨.nil, hmore, by simp⟩
  · rw [hlps]
    exact iff_of_true (by simp) fun _ => finiteLogprobs_nil tok

theorem whole_run (hserved : Served env) (hstream : p.stream = false) {tokens : List (Int × Nat)}
    {reason : FinishReason} {events : List Event} (hdelivers : Delivers events tokens reason) :
    (wholeCourse tok p).Finished tok tokens reason
      (handleAll tok env events (genRequestStart env p)) := by
  obtain ⟨hattached, hwritten, haccum, hdetok, hlps, hkept, -, hasked⟩ := start_live hserved p
  rw [if_neg (by simp [hstream])] at hwritten
  exact run_ends (wholeCourse_holds hserved hstream) events tokens reason
    (⟨hattached, hattached.conn, hkept, hwritten, hasked, start_gathered tok haccum hdetok hlps⟩ :
      (wholeCourse tok p).On p [] (genRequestStart env p)) (by simp) hdelivers

theorem stream_run (halive : Alive env) (hstream : p.stream = true) (hheader : p.header.Utf8)
    {tokens : List (Int × Nat)} {reason : FinishReason} {events : List Event}
    (hdelivers : Delivers events tokens reason) :
    (streamCourse tok p).Finished tok tokens reason
      (handleAll tok env events (genRequestStart env p)) := by
  obtain ⟨hattached, hwritten, -, hdetok, -, hkept, hpresent, hasked⟩ := start_live halive.served p
  rw [if_pos hstream] at hwritten
  have hgoing : StreamGoing tok p [] (genRequestStart env p) := by
    refine ⟨hattached.conn, hkept, hpresent, hasked, by rw [hdetok]; rfl, fun more hmore _ => ?_⟩
    rw [hwritten, hdetok]
    exact ⟨rfl, .nil, hmore⟩
  exact run_ends (streamCourse_holds halive hstream hheader) events tokens reason
    (⟨hattached, hgoing⟩ : (streamCourse tok p).On p [] (genRequestStart env p)) (by simp) hdelivers

end Alive

theorem quietSocket_alive : Alive quietSocket := ⟨fun _ => rfl, fun _ => rfl, fun _ => rfl⟩

/-- Three plain tokens, the end in a pass of its own. -/
def threeTokens : List Event :=
  [.async [.token 0 0, .token 1 0], .timer, .async [.token 0 0], .async [.done .stop]]

/-- A chat that asks for log-probabilities. -/
def logprobStart : StartParams := { chatStart (ascii "m") with logprobs := true }

end Mlxd.Http
