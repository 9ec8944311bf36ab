import Mlxd.Json
import Mlxd.Stream

/-!
# Documents of a generation response

The documents of the streamed chunks, the whole responses and the errors, and what goes on the
wire. A string that is not UTF-8 or a log-probability that is not finite keeps a document from being
written.
-/
namespace Mlxd.Http

open Mlxd.Unicode Mlxd.Json Mlxd.Engine

def finishReasonStr : FinishReason → String
  | .stop => "stop"
  | .length => "length"
  | .toolCalls => "tool_calls"
  | .contentFilter => "content_filter"
  | .cancelled => "cancelled"

def finishReasonWireStr (r : FinishReason) : String :=
  if r = .cancelled then "stop" else finishReasonStr r

/-- What is common to all documents of a request. -/
structure Header where
  id : Bytes
  model : Bytes
  created : Int

structure Usage where
  promptTokens : Int
  completionTokens : Int
  totalTokens : Int

/-- A token's text and log-probability, by its bits; there are no alternatives. -/
structure TokenLogprob where
  token : Bytes
  logprob : Nat

/-! ## Parts -/

def text (s : String) : Value := .str (ascii s)

def addUsage (u : Usage) : List (Bytes × Value) :=
  [(ascii "usage", .obj [(ascii "prompt_tokens", .int u.promptTokens),
    (ascii "completion_tokens", .int u.completionTokens),
    (ascii "total_tokens", .int u.totalTokens)])]

def addLogprobEntry (tl : TokenLogprob) : Value :=
  .obj [(ascii "token", .str tl.token), (ascii "logprob", .real tl.logprob),
    (ascii "bytes", .arr (tl.token.map fun b => .int b.toNat)), (ascii "top_logprobs", .arr [])]

/-- The first members, in order. -/
def headMembers (h : Header) (object : String) : List (Bytes × Value) :=
  [(ascii "id", .str h.id), (ascii "object", text object), (ascii "created", .int h.created),
    (ascii "model", .str h.model)]

/-! ## Streamed chunks -/

structure SseChunkParams where
  roleFirst : Bool := false
  deltaText : Option Bytes := none
  logprob : Option TokenLogprob := none
  /-- The reason of the final chunk. -/
  final : Option FinishReason := none
  usage : Option Usage := none

def genSseChunk (h : Header) (p : SseChunkParams) : Value :=
  let delta : List (Bytes × Value) :=
    (if p.roleFirst then [(ascii "role", text "assistant")] else []) ++
      (p.deltaText.map fun t => (ascii "content", Value.str t)).toList
  let logprobs : Value :=
    match p.logprob with
    | none => .null
    | some lp => .obj [(ascii "content", .arr [addLogprobEntry lp])]
  let finish : Value :=
    match p.final with
    | none => .null
    | some r => text (finishReasonWireStr r)
  let choice : Value := .obj [(ascii "index", .int 0), (ascii "delta", .obj delta),
    (ascii "logprobs", logprobs), (ascii "finish_reason", finish)]
  let choices : List Value :=
    if p.roleFirst || p.deltaText.isSome || p.final.isSome then [choice] else []
  .obj (headMembers h "chat.completion.chunk" ++ [(ascii "choices", .arr choices)] ++
    (p.usage.map addUsage).getD [])

def genSseCompletionChunk (h : Header) (deltaText : Option Bytes) (final : Option FinishReason) :
    Value :=
  let finish : Value :=
    match final with
    | none => .null
    | some r => text (finishReasonWireStr r)
  .obj (headMembers h "text_completion" ++ [(ascii "choices", .arr [.obj
    [(ascii "text", .str (deltaText.getD [])), (ascii "index", .int 0), (ascii "logprobs", .null),
      (ascii "finish_reason", finish)]])])

/-! ## Whole responses -/

/-- Entries are passed as null until the first one is stored. -/
def genBuildChatResponse (h : Header) (content : Bytes) (reason : FinishReason) (u : Usage)
    (lpEntries : List TokenLogprob) : Value :=
  let logprobs : Value :=
    if lpEntries = [] then .null
    else .obj [(ascii "content", .arr (lpEntries.map addLogprobEntry))]
  .obj (headMembers h "chat.completion" ++ [(ascii "choices", .arr [.obj
    [(ascii "index", .int 0),
      (ascii "message", .obj [(ascii "role", text "assistant"), (ascii "content", .str content)]),
      (ascii "logprobs", logprobs),
      (ascii "finish_reason", text (finishReasonWireStr reason))]])] ++ addUsage u)

def genBuildCompletionResponse (h : Header) (content : Bytes) (reason : FinishReason) (u : Usage) :
    Value :=
  .obj (headMembers h "text_completion" ++ [(ascii "choices", .arr [.obj
    [(ascii "text", .str content), (ascii "index", .int 0),
      (ascii "finish_reason", text (finishReasonWireStr reason))]])] ++ addUsage u)

/-! ## Errors -/

/-- Status, type and code of an error. -/
def errorKindMap : GenErrKind → Nat × String × Option String
  | .contextLength => (400, "invalid_request_error", some "context_length_exceeded")
  | .internal => (500, "server_error", none)

def errorEnvelopeSerialize (message type : String) (code : Option String) : Value :=
  .obj [(ascii "error", .obj ([(ascii "message", text message), (ascii "type", text type)] ++
    (code.map fun c => (ascii "code", text c)).toList))]

/-! ## What can be written -/

/-- The texts that all documents of a request carry. -/
def Header.Utf8 (h : Header) : Prop := isUtf8 h.id = true ∧ isUtf8 h.model = true

/-- A text of ASCII characters is UTF-8. -/
theorem isUtf8_ascii (s : String) (h : (s.toList.all fun c => c.toNat < 128) = true) :
    isUtf8 (ascii s) = true := by
  rw [ascii]
  generalize s.toList = cs at h ⊢
  induction cs with
  | nil => rfl
  | cons c rest ih =>
    simp only [List.all_cons, Bool.and_eq_true, decide_eq_true_eq] at h
    have hbyte : isUtf8 [UInt8.ofNat c.toNat] = true := by
      have hlead : UInt8.ofNat c.toNat < 0x80 := by
        rw [UInt8.lt_iff_toNat_lt]
        simp
        omega
      simp [isUtf8, isUtf8Loop, decodeHead, hlead, invalid]
      omega
    exact isUtf8_append [_] _ hbyte (ih h.2)

theorem writableMembers_append (xs ys : List (Bytes × Value)) :
    writableMembers (xs ++ ys) = (writableMembers xs && writableMembers ys) := by
  induction xs with
  | nil => rfl
  | cons x xs ih =>
    obtain ⟨key, v⟩ := x
    simp [writableMembers, ih, Bool.and_assoc]

theorem writableItems_bytes (s : Bytes) :
    writableItems (s.map fun b => Value.int b.toNat) = true := by
  induction s with
  | nil => rfl
  | cons b s ih => simp [writableItems, writable, ih]

theorem writable_text (s : String) (h : (s.toList.all fun c => c.toNat < 128) = true) :
    writable (text s) = true := isUtf8_ascii s h

theorem finishReason_ascii (r : FinishReason) :
    ((finishReasonWireStr r).toList.all fun c => c.toNat < 128) = true := by
  cases r <;> decide

theorem writable_logprobEntry (lp : TokenLogprob) :
    writable (addLogprobEntry lp) = (isUtf8 lp.token && isFinite lp.logprob) := by
  simp (disch := decide) [addLogprobEntry, writable, isUtf8_ascii, writableItems_bytes,
    writableMembers, writableItems]

theorem writable_headMembers (h : Header) (object : String)
    (hobject : (object.toList.all fun c => c.toNat < 128) = true) :
    writableMembers (headMembers h object) = true ↔ h.Utf8 := by
  simp (disch := first | decide | assumption) [headMembers, writable, writableMembers,
    isUtf8_ascii, writable_text, Header.Utf8]

theorem writable_addUsage (u : Option Usage) :
    writableMembers ((u.map addUsage).getD []) = true := by
  cases u with
  | none => rfl
  | some u => simp (disch := decide) [addUsage, writable, writableMembers, isUtf8_ascii]

/-- A chunk can be written when the texts it carries are UTF-8 and its log-probability is finite. -/
theorem writable_genSseChunk (h : Header) (p : SseChunkParams) :
    writable (genSseChunk h p) = true ↔ h.Utf8 ∧ (∀ t, p.deltaText = some t → isUtf8 t = true) ∧
      ((p.roleFirst || p.deltaText.isSome || p.final.isSome) = true →
        ∀ lp, p.logprob = some lp → isUtf8 lp.token = true ∧ isFinite lp.logprob = true) := by
  obtain ⟨role, t, lp, final, usage⟩ := p
  have hdelta : writableMembers ((if role then [(ascii "role", text "assistant")] else []) ++
      (t.map fun t => (ascii "content", Value.str t)).toList) = true ↔
        ∀ t', t = some t' → isUtf8 t' = true := by
    rw [writableMembers_append]
    cases role <;> cases t <;>
      simp (disch := decide) [writableMembers, writable, writable_text, isUtf8_ascii]
  simp only [genSseChunk, writable, writableMembers_append, writable_addUsage, Bool.and_true,
    Bool.and_eq_true, writable_headMembers h "chat.completion.chunk" (by decide)]
  refine and_congr_right fun _ => ?_
  by_cases hchoice : (role || t.isSome || final.isSome) = true
  · simp only [hchoice, if_true, forall_const, writableMembers, writable, writableItems, hdelta,
      Bool.and_eq_true]
    cases lp <;> cases final <;>
      simp (disch := first | decide | exact finishReason_ascii _) [writable, writableMembers,
        writableItems, writable_logprobEntry, writable_text, isUtf8_ascii]
  · obtain rfl : t = none := by
      cases t with
      | none => rfl
      | some t => simp at hchoice
    rw [Bool.not_eq_true] at hchoice
    simp only [hchoice]
    simp (disch := decide) [writable, writableMembers, writableItems, isUtf8_ascii]

/-! ## The wire -/

inductive Wire where
  | sseHead
  | sse (doc : Value)
  | sseDone
  /-- A response that closes the connection. -/
  | response (status : Nat) (doc : Value)

end Mlxd.Http
