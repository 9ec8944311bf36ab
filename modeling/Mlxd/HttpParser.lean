import Mlxd.Lib.Incremental
import Mlxd.Unicode

/-!
# The request parser of a connection

`conn.c` over a byte machine that stands for llhttp: it says what each byte belongs to and what it
ends or completes, calls back in that order, hands out the bytes of a target or a body in spans that
end at the latest with the data of a call, and stops where a callback fails or pauses. The buffers
can always grow.
-/
namespace Mlxd.HttpParser

open Mlxd.Unicode Mlxd.Lib.Incremental

/-! ## llhttp -/

inductive Kind where
  | url | body
  deriving DecidableEq, Repr

inductive Mark where
  /-- The byte belongs to a span. -/
  | span (kind : Kind)
  /-- The span before the byte is handed out. -/
  | spanEnd
  | headersComplete
  | messageComplete
  /-- The byte is malformed. -/
  | invalid
  deriving DecidableEq, Repr

structure Llhttp where
  State : Type
  init : State
  step : State → UInt8 → State × List Mark
  /-- The content length of the message, if it has one. -/
  contentLength : State → Option Nat
  shouldKeepAlive : State → Bool
  methodName : State → Bytes

inductive Errno where
  | ok | paused
  /-- A callback failed. -/
  | user
  | invalid
  deriving DecidableEq, Repr

/-- A span that is not handed out yet. -/
abbrev Span : Type := Option (Kind × Bytes)

/-! ## The context -/

inductive ParseStatus where
  | incomplete | complete | error | tooLarge
  deriving DecidableEq, Repr

/-- The zeroed request has neither a method nor a path. -/
structure HttpParsedRequest where
  method : Option Bytes := none
  path : Option Bytes := none
  body : Option Bytes := none
  bodyLen : Nat := 0
  keepAlive : Bool := false
  deriving DecidableEq, Repr

structure HttpParserCtx (L : Llhttp) where
  parser : L.State
  url : Bytes
  body : Bytes
  maxBody : Nat
  methodPtr : Option Bytes
  complete : Bool
  tooLarge : Bool
  keepAlive : Bool
  consumed : Nat
  lastStatus : ParseStatus

variable {L : Llhttp}

def MLXD_HTTP_MAX_URL : Nat := 8192

def httpParserCreate (L : Llhttp) (maxBodyBytes : Nat) : HttpParserCtx L :=
  { parser := L.init, url := [], body := [], methodPtr := none, complete := false, tooLarge := false
    maxBody := if maxBodyBytes = 0 then 2 ^ 20 else maxBodyBytes
    keepAlive := false, consumed := 0, lastStatus := .incomplete }

def clearBuffers (c : HttpParserCtx L) : HttpParserCtx L :=
  { c with
    url := [], body := [], complete := false, tooLarge := false, keepAlive := false
    methodPtr := none, consumed := 0 }

def httpParserReset (c : HttpParserCtx L) : HttpParserCtx L :=
  { clearBuffers c with lastStatus := .incomplete, parser := L.init }

/-! ## Callbacks -/

def onUrl (data : Bytes) (c : HttpParserCtx L) : Bool × HttpParserCtx L :=
  if MLXD_HTTP_MAX_URL < c.url.length + data.length then (false, c)
  else (true, { c with url := c.url ++ data })

def onBody (data : Bytes) (c : HttpParserCtx L) : Bool × HttpParserCtx L :=
  if c.maxBody < c.body.length + data.length then (false, { c with tooLarge := true })
  else (true, { c with body := c.body ++ data })

def onHeadersComplete (c : HttpParserCtx L) : Bool × HttpParserCtx L :=
  match L.contentLength c.parser with
  | none => (true, c)
  | some length => if c.maxBody < length then (false, { c with tooLarge := true }) else (true, c)

/-- The callback pauses the parser. -/
def onMessageComplete (c : HttpParserCtx L) : HttpParserCtx L :=
  { c with keepAlive := L.shouldKeepAlive c.parser, complete := true }

/-! ## Execution -/

def flush (span : Span) (c : HttpParserCtx L) : Bool × HttpParserCtx L :=
  match span with
  | none => (true, c)
  | some (.url, data) => onUrl data c
  | some (.body, data) => onBody data c

/-- A byte goes on with its span or starts one. -/
def extend (kind : Kind) (b : UInt8) (span : Span) (c : HttpParserCtx L) :
    Errno × Span × HttpParserCtx L :=
  match span with
  | none => (.ok, some (kind, [b]), c)
  | some (k, data) =>
    if k = kind then (.ok, some (kind, data ++ [b]), c)
    else
      match flush (some (k, data)) c with
      | (true, c) => (.ok, some (kind, [b]), c)
      | (false, c) => (.user, none, c)

def onMark (b : UInt8) (mark : Mark) (span : Span) (c : HttpParserCtx L) :
    Errno × Span × HttpParserCtx L :=
  match mark with
  | .span kind => extend kind b span c
  | .spanEnd =>
    match flush span c with
    | (false, c) => (.user, none, c)
    | (true, c) => (.ok, none, c)
  | .headersComplete =>
    match flush span c with
    | (false, c) => (.user, none, c)
    | (true, c) =>
      match onHeadersComplete c with
      | (false, c) => (.user, none, c)
      | (true, c) => (.ok, none, c)
  | .messageComplete =>
    match flush span c with
    | (false, c) => (.user, none, c)
    | (true, c) => (.paused, none, onMessageComplete c)
  | .invalid => (.invalid, none, c)

def onMarks (b : UInt8) : List Mark → Span → HttpParserCtx L → Errno × Span × HttpParserCtx L
  | [], span, c => (.ok, span, c)
  | mark :: rest, span, c =>
    match onMark b mark span c with
    | (.ok, span, c) => onMarks b rest span c
    | stopped => stopped

/-- `pos` bytes are consumed; a span is handed out at the latest with the end of the data. -/
def llhttpExecute (pos : Nat) : Bytes → Span → HttpParserCtx L → Errno × Nat × HttpParserCtx L
  | [], span, c =>
    match flush span c with
    | (true, c) => (.ok, pos, c)
    | (false, c) => (.user, pos, c)
  | b :: rest, span, c =>
    match onMarks b (L.step c.parser b).2 span { c with parser := (L.step c.parser b).1 } with
    | (.ok, span, c) => llhttpExecute (pos + 1) rest span c
    | (err, _, c) => (err, pos + 1, c)

/-- The target up to its query, its fragment or its end as a C string. -/
def pathOf (url : Bytes) : Bytes := url.takeWhile fun b => b ≠ 0 && b ≠ 63 && b ≠ 35

def httpParserFeed (c : HttpParserCtx L) (data : Bytes) :
    ParseStatus × HttpParsedRequest × HttpParserCtx L :=
  if c.lastStatus = .incomplete then
    match llhttpExecute 0 data none c with
    | (err, pos, c) =>
      if c.tooLarge then
        (.tooLarge, {}, { c with consumed := data.length, lastStatus := .tooLarge })
      else if err ≠ .ok ∧ err ≠ .paused ∧ c.complete = false then
        (.error, {}, { c with consumed := data.length, lastStatus := .error })
      else if c.complete then
        (.complete,
          { method := some (L.methodName c.parser), path := some (pathOf c.url)
            body := if c.body = [] then none else some c.body
            bodyLen := c.body.length, keepAlive := c.keepAlive },
          { c with
            consumed := if err = .paused then pos else data.length
            methodPtr := some (L.methodName c.parser), lastStatus := .complete })
      else (.incomplete, {}, { c with consumed := data.length })
  else (c.lastStatus, {}, c)

/-! ## Messages of a byte stream -/

structure Message where
  method : Bytes
  path : Bytes
  body : Bytes
  keepAlive : Bool
  deriving DecidableEq, Repr

/-- The request that carries a message. -/
def Message.request (r : Message) : HttpParsedRequest :=
  { method := some r.method, path := some r.path
    body := if r.body = [] then none else some r.body
    bodyLen := r.body.length, keepAlive := r.keepAlive }

@[simp] theorem Message.request_keepAlive (r : Message) : r.request.keepAlive = r.keepAlive := rfl

/-- A message that is being read. -/
structure Partial (L : Llhttp) where
  state : L.State
  url : Bytes
  body : Bytes

def Partial.start (L : Llhttp) : Partial L := ⟨L.init, [], []⟩

section Reader

variable (maxBody : Nat)

def Partial.mark (b : UInt8) (a : Partial L) : Mark → Verdict (Partial L) Message
  | .span .url =>
    if MLXD_HTTP_MAX_URL < a.url.length + 1 then .dead else .going { a with url := a.url ++ [b] }
  | .span .body =>
    if maxBody < a.body.length + 1 then .dead else .going { a with body := a.body ++ [b] }
  | .spanEnd => .going a
  | .headersComplete =>
    match L.contentLength a.state with
    | none => .going a
    | some length => if maxBody < length then .dead else .going a
  | .messageComplete =>
    .done ⟨L.methodName a.state, pathOf a.url, a.body, L.shouldKeepAlive a.state⟩
  | .invalid => .dead

def Partial.marks (b : UInt8) : List Mark → Partial L → Verdict (Partial L) Message
  | [], a => .going a
  | mark :: rest, a =>
    match a.mark maxBody b mark with
    | .going a => Partial.marks b rest a
    | stopped => stopped

/-- What one byte does to the message; the limits hold at every byte. -/
def Partial.step (a : Partial L) (b : UInt8) : Verdict (Partial L) Message :=
  Partial.marks maxBody b (L.step a.state b).2 { a with state := (L.step a.state b).1 }

end Reader

/-! ## The parser reads messages -/

def spanOf (kind : Kind) : Span → Bytes
  | some (k, data) => if k = kind then data else []
  | none => []

section Relation

variable (maxBody : Nat)

/-- The parser is inside a message and none of its callbacks has failed. -/
structure Fresh (c : HttpParserCtx L) : Prop where
  limit : c.maxBody = maxBody
  complete : c.complete = false
  tooLarge : c.tooLarge = false
  lastStatus : c.lastStatus = .incomplete

/-- The context and the pending span hold the message so far, which is within the limits. -/
structure Reads (span : Span) (c : HttpParserCtx L) (a : Partial L) : Prop where
  fresh : Fresh maxBody c
  state : c.parser = a.state
  url : c.url ++ spanOf .url span = a.url
  body : c.body ++ spanOf .body span = a.body
  urlFits : a.url.length ≤ MLXD_HTTP_MAX_URL
  bodyFits : a.body.length ≤ maxBody

/-- A span that is already too long: its callback will fail. -/
structure Spoiled (span : Span) (c : HttpParserCtx L) : Prop where
  fresh : Fresh maxBody c
  fails : (flush span c).1 = false

/-- A callback has failed before the message was complete. -/
structure Failed (c : HttpParserCtx L) : Prop where
  limit : c.maxBody = maxBody
  complete : c.complete = false

/-- The message is complete and the parser paused. -/
structure Completed (c : HttpParserCtx L) (r : Message) : Prop where
  limit : c.maxBody = maxBody
  complete : c.complete = true
  tooLarge : c.tooLarge = false
  method : L.methodName c.parser = r.method
  path : pathOf c.url = r.path
  body : c.body = r.body
  keepAlive : c.keepAlive = r.keepAlive

/-- Something was refused, or will be as soon as the span is handed out. -/
def Refused : Errno × Span × HttpParserCtx L → Prop
  | (.ok, span, c) => Spoiled maxBody span c
  | (.paused, _, _) => False
  | (_, _, c) => Failed maxBody c

/-- What the parser does where the reader says something. -/
def Follows (out : Errno × Span × HttpParserCtx L) : Verdict (Partial L) Message → Prop
  | .going a => out.1 = .ok ∧ Reads maxBody out.2.1 out.2.2 a
  | .done r => out.1 = .paused ∧ Completed maxBody out.2.2 r
  | .dead => Refused maxBody out

end Relation

section Spans

variable {maxBody : Nat} {span : Span} {c : HttpParserCtx L} {a : Partial L}

/-- Within the limits a span is taken. -/
theorem Reads.flush (h : Reads maxBody span c a) :
    ∃ c', flush span c = (true, c') ∧ Reads maxBody none c' a := by
  have hurl := h.url
  have hbody := h.body
  cases span with
  | none => exact ⟨c, rfl, h⟩
  | some taken =>
    obtain ⟨kind, data⟩ := taken
    obtain ⟨hlimit, hcomplete, htooLarge, hstatus⟩ := h.fresh
    cases kind with
    | url =>
      simp only [spanOf, if_true, reduceCtorEq, if_false, List.append_nil] at hurl hbody
      have hfits := h.urlFits
      rw [← hurl, List.length_append] at hfits
      refine ⟨{ c with url := c.url ++ data }, ?_, ?_⟩
      · rw [HttpParser.flush, onUrl, if_neg (by omega)]
      · exact ⟨⟨hlimit, hcomplete, htooLarge, hstatus⟩, h.state, by simpa [spanOf] using hurl,
          by simpa [spanOf] using hbody, h.urlFits, h.bodyFits⟩
    | body =>
      simp only [spanOf, if_true, reduceCtorEq, if_false, List.append_nil] at hurl hbody
      have hfits := h.bodyFits
      rw [← hbody, List.length_append] at hfits
      refine ⟨{ c with body := c.body ++ data }, ?_, ?_⟩
      · rw [HttpParser.flush, onBody, if_neg (by omega)]
      · exact ⟨⟨hlimit, hcomplete, htooLarge, hstatus⟩, h.state, by simpa [spanOf] using hurl,
          by simpa [spanOf] using hbody, h.urlFits, h.bodyFits⟩

/-- The span does not fit into its buffer. -/
def TooLong (c : HttpParserCtx L) : Span → Prop
  | none => False
  | some (.url, data) => MLXD_HTTP_MAX_URL < c.url.length + data.length
  | some (.body, data) => c.maxBody < c.body.length + data.length

theorem flush_fails : (flush span c).1 = false ↔ TooLong c span := by
  match span with
  | none => simp [flush, TooLong]
  | some (.url, data) =>
    rw [flush, onUrl, TooLong]
    split
    · next hlong => exact ⟨fun _ => hlong, fun _ => rfl⟩
    · next hfits => exact ⟨fun h => by contradiction, fun h => absurd h hfits⟩
  | some (.body, data) =>
    rw [flush, onBody, TooLong]
    split
    · next hlong => exact ⟨fun _ => hlong, fun _ => rfl⟩
    · next hfits => exact ⟨fun h => by contradiction, fun h => absurd h hfits⟩

/-- A failed callback completes nothing. -/
theorem Spoiled.flush (h : Spoiled maxBody span c) :
    ∃ c', flush span c = (false, c') ∧ Failed maxBody c' := by
  have hlong := flush_fails.mp h.fails
  match span with
  | none => exact hlong.elim
  | some (.url, data) => exact ⟨c, if_pos hlong, h.fresh.limit, h.fresh.complete⟩
  | some (.body, data) => exact ⟨_, if_pos hlong, h.fresh.limit, h.fresh.complete⟩

/-- A longer span is still too long. -/
theorem Spoiled.extend {kind : Kind} {data : Bytes} (h : Spoiled maxBody (some (kind, data)) c)
    (b : UInt8) : Spoiled maxBody (some (kind, data ++ [b])) c := by
  refine ⟨h.fresh, flush_fails.mpr ?_⟩
  have hlong := flush_fails.mp h.fails
  cases kind with
  | url =>
    rw [TooLong] at hlong ⊢
    rw [List.length_append]
    omega
  | body =>
    rw [TooLong] at hlong ⊢
    rw [List.length_append]
    omega

theorem Spoiled.onMark (h : Spoiled maxBody span c) (b : UInt8) (mark : Mark) :
    Refused maxBody (onMark b mark span c) := by
  obtain ⟨c', hflush, hfailed⟩ := h.flush
  cases mark with
  | span kind =>
    cases span with
    | none => exact absurd h.fails (by simp [HttpParser.flush])
    | some taken =>
      obtain ⟨k, data⟩ := taken
      rw [HttpParser.onMark, HttpParser.extend]
      split
      · next hsame =>
        subst hsame
        exact h.extend b
      · rw [hflush]
        exact hfailed
  | spanEnd =>
    rw [HttpParser.onMark, hflush]
    exact hfailed
  | headersComplete =>
    rw [HttpParser.onMark, hflush]
    exact hfailed
  | messageComplete =>
    rw [HttpParser.onMark, hflush]
    exact hfailed
  | invalid => exact ⟨h.fresh.limit, h.fresh.complete⟩

theorem Reads.empty (h : Reads maxBody none c a) (kind : Kind) :
    Reads maxBody (some (kind, [])) c a := by
  have hempty : ∀ k, spanOf k (some (kind, ([] : Bytes))) = [] := by
    intro k
    rw [spanOf]
    split <;> rfl
  exact ⟨h.fresh, h.state, by rw [hempty]; exact h.url, by rw [hempty]; exact h.body, h.urlFits,
    h.bodyFits⟩

/-- A byte goes behind a span of its kind, which may be a new one. -/
theorem Reads.extend (h : Reads maxBody span c a) (kind : Kind) (b : UInt8) :
    ∃ data c', extend kind b span c = (.ok, some (kind, data ++ [b]), c') ∧
      Reads maxBody (some (kind, data)) c' a := by
  cases span with
  | none => exact ⟨[], c, rfl, h.empty kind⟩
  | some taken =>
    obtain ⟨k, data⟩ := taken
    rw [HttpParser.extend]
    split
    · next hsame =>
      subst hsame
      exact ⟨data, c, rfl, h⟩
    · obtain ⟨c', hflush, hreads⟩ := h.flush
      rw [hflush]
      exact ⟨[], c', rfl, hreads.empty kind⟩

theorem Reads.byte {kind : Kind} {data : Bytes} (h : Reads maxBody (some (kind, data)) c a)
    (b : UInt8) :
    Follows maxBody (.ok, some (kind, data ++ [b]), c) (a.mark maxBody b (.span kind)) := by
  have hurl := h.url
  have hbody := h.body
  have hlimit := h.fresh.limit
  cases kind with
  | url =>
    simp only [spanOf, if_true, reduceCtorEq, if_false, List.append_nil] at hurl hbody
    rw [Partial.mark]
    split
    · next hlong =>
      refine ⟨h.fresh, ?_⟩
      rw [← hurl, List.length_append] at hlong
      rw [HttpParser.flush, onUrl, if_pos (by simp; omega)]
    · next hfits =>
      refine ⟨rfl, h.fresh, h.state, ?_, ?_, ?_, h.bodyFits⟩
      · simp [spanOf, ← hurl]
      · simpa [spanOf] using hbody
      · rw [List.length_append, List.length_singleton]
        omega
  | body =>
    simp only [spanOf, if_true, reduceCtorEq, if_false, List.append_nil] at hurl hbody
    rw [Partial.mark]
    split
    · next hlong =>
      refine ⟨h.fresh, ?_⟩
      rw [← hbody, List.length_append] at hlong
      rw [HttpParser.flush, onBody, if_pos (by simp; omega)]
    · next hfits =>
      refine ⟨rfl, h.fresh, h.state, ?_, ?_, h.urlFits, ?_⟩
      · simpa [spanOf] using hurl
      · simp [spanOf, ← hbody]
      · rw [List.length_append, List.length_singleton]
        omega

theorem Reads.onMark (h : Reads maxBody span c a) (b : UInt8) (mark : Mark) :
    Follows maxBody (onMark b mark span c) (a.mark maxBody b mark) := by
  obtain ⟨c', hflush, hreads⟩ := h.flush
  obtain ⟨hlimit, hcomplete, htooLarge, -⟩ := hreads.fresh
  have hurl := hreads.url
  have hbody := hreads.body
  simp only [spanOf, List.append_nil] at hurl hbody
  cases mark with
  | span kind =>
    obtain ⟨data, c₁, hextend, hreads₁⟩ := h.extend kind b
    rw [HttpParser.onMark, hextend]
    exact hreads₁.byte b
  | spanEnd =>
    rw [HttpParser.onMark, hflush]
    exact ⟨rfl, hreads⟩
  | headersComplete =>
    rw [HttpParser.onMark, hflush, Partial.mark, ← hreads.state]
    dsimp only
    rw [onHeadersComplete]
    cases L.contentLength c'.parser with
    | none => exact ⟨rfl, hreads⟩
    | some length =>
      dsimp only
      rw [hlimit]
      by_cases hlong : maxBody < length
      · rw [if_pos hlong, if_pos hlong]
        exact ⟨rfl, hcomplete⟩
      · rw [if_neg hlong, if_neg hlong]
        exact ⟨rfl, hreads⟩
  | messageComplete =>
    rw [HttpParser.onMark, hflush, Partial.mark, ← hreads.state, ← hurl, ← hbody]
    exact ⟨rfl, hlimit, rfl, htooLarge, rfl, rfl, rfl, rfl⟩
  | invalid => exact ⟨h.fresh.limit, h.fresh.complete⟩

/-! ## A call of the parser -/

theorem Spoiled.onMarks (h : Spoiled maxBody span c) (b : UInt8) (marks : List Mark) :
    Refused maxBody (onMarks b marks span c) := by
  induction marks generalizing span c with
  | nil => exact h
  | cons mark rest ih =>
    have hmark := h.onMark b mark
    rw [HttpParser.onMarks]
    split
    · next heq =>
      rw [heq] at hmark
      exact ih hmark
    · exact hmark

theorem Reads.onMarks (h : Reads maxBody span c a) (b : UInt8) (marks : List Mark) :
    Follows maxBody (onMarks b marks span c) (Partial.marks maxBody b marks a) := by
  induction marks generalizing span c a with
  | nil => exact ⟨rfl, h⟩
  | cons mark rest ih =>
    have hmark := h.onMark b mark
    rw [HttpParser.onMarks, Partial.marks]
    cases hverdict : a.mark maxBody b mark with
    | going a' =>
      rw [hverdict] at hmark
      obtain ⟨hok, hreads⟩ := hmark
      split
      · next heq =>
        rw [heq] at hreads
        exact ih hreads
      · next hstop => exact (hstop _ _ (Prod.ext hok rfl)).elim
    | done r =>
      rw [hverdict] at hmark
      split
      · next heq =>
        rw [heq] at hmark
        exact absurd hmark.1 (by simp)
      · exact hmark
    | dead =>
      rw [hverdict] at hmark
      split
      · next heq =>
        rw [heq] at hmark
        exact Spoiled.onMarks hmark b rest
      · exact hmark

/-- The next state of llhttp changes neither the buffers nor the flags. -/
theorem Spoiled.state (h : Spoiled maxBody span c) (state : L.State) :
    Spoiled maxBody span { c with parser := state } := by
  obtain ⟨hlimit, hcomplete, htooLarge, hstatus⟩ := h.fresh
  refine ⟨⟨hlimit, hcomplete, htooLarge, hstatus⟩, flush_fails.mpr ?_⟩
  have hlong := flush_fails.mp h.fails
  match span with
  | none => exact hlong
  | some (.url, data) => exact hlong
  | some (.body, data) => exact hlong

theorem Reads.next (h : Reads maxBody span c a) (b : UInt8) :
    Reads maxBody span { c with parser := (L.step c.parser b).1 }
      { a with state := (L.step a.state b).1 } := by
  obtain ⟨hlimit, hcomplete, htooLarge, hstatus⟩ := h.fresh
  exact ⟨⟨hlimit, hcomplete, htooLarge, hstatus⟩, by rw [h.state], h.url, h.body, h.urlFits,
    h.bodyFits⟩

/-- What a call of llhttp leaves where a callback has failed. -/
def Stopped (maxBody : Nat) (out : Errno × Nat × HttpParserCtx L) : Prop :=
  out.1 ≠ .ok ∧ out.1 ≠ .paused ∧ Failed maxBody out.2.2

theorem stopped_of_refused {err : Errno} (hrefused : Refused maxBody (err, span, c))
    (herr : err ≠ .ok) (pos : Nat) : Stopped maxBody (err, pos, c) := by
  cases err with
  | ok => contradiction
  | paused => exact absurd hrefused id
  | user => exact ⟨by simp, by simp, hrefused⟩
  | invalid => exact ⟨by simp, by simp, hrefused⟩

theorem Spoiled.execute (h : Spoiled maxBody span c) (pos : Nat) (data : Bytes) :
    Stopped maxBody (llhttpExecute pos data span c) := by
  induction data generalizing span c pos with
  | nil =>
    obtain ⟨c', hflush, hfailed⟩ := h.flush
    rw [llhttpExecute, hflush]
    exact ⟨by simp, by simp, hfailed⟩
  | cons b rest ih =>
    have hmarks := (h.state (L.step c.parser b).1).onMarks b (L.step c.parser b).2
    rw [llhttpExecute]
    split
    · next heq =>
      rw [heq] at hmarks
      exact ih hmarks (pos + 1)
    · next hstop heq =>
      rw [heq] at hmarks
      exact stopped_of_refused hmarks hstop _

/-- A call of llhttp follows the reader up to its verdict. -/
def Executes (maxBody total : Nat) (out : Errno × Nat × HttpParserCtx L) :
    Verdict (Partial L) Message × Bytes → Prop
  | (.going a, _) => out.1 = .ok ∧ Reads maxBody none out.2.2 a
  | (.done r, rest) =>
    out.1 = .paused ∧ Completed maxBody out.2.2 r ∧ out.2.1 + rest.length = total
  | (.dead, _) => Stopped maxBody out

theorem Reads.execute (h : Reads maxBody span c a) (pos : Nat) (data : Bytes) :
    Executes maxBody (pos + data.length) (llhttpExecute pos data span c)
      (run (Partial.step maxBody) a data) := by
  induction data generalizing span c a pos with
  | nil =>
    obtain ⟨c', hflush, hreads⟩ := h.flush
    rw [llhttpExecute, hflush, run]
    exact ⟨rfl, hreads⟩
  | cons b rest ih =>
    have hmarks := (h.next b).onMarks b (L.step c.parser b).2
    rw [llhttpExecute, run, Partial.step, ← h.state]
    rw [h.state] at hmarks ⊢
    cases hverdict : Partial.marks maxBody b (L.step a.state b).2
        { a with state := (L.step a.state b).1 } with
    | going a' =>
      rw [hverdict] at hmarks
      obtain ⟨hok, hreads⟩ := hmarks
      split
      · next heq =>
        rw [heq] at hreads
        have hrest := ih hreads (pos + 1)
        rwa [Nat.add_assoc, Nat.add_comm 1] at hrest
      · next hstop heq =>
        rw [heq] at hok
        exact (hstop hok).elim
    | done r =>
      rw [hverdict] at hmarks
      split
      · next heq =>
        rw [heq] at hmarks
        exact absurd hmarks.1 (by simp)
      · next heq =>
        rw [heq] at hmarks
        refine ⟨hmarks.1, hmarks.2, ?_⟩
        rw [List.length_cons]
        exact Nat.add_right_comm _ _ _
    | dead =>
      rw [hverdict] at hmarks
      split
      · next heq =>
        rw [heq] at hmarks
        exact Spoiled.execute hmarks (pos + 1) rest
      · next hstop heq =>
        rw [heq] at hmarks
        exact stopped_of_refused hmarks hstop _

/-- A feed follows the reader: a request comes out where a message is complete, and then alone. -/
def Feeds (maxBody : Nat) (data : Bytes) (out : ParseStatus × HttpParsedRequest × HttpParserCtx L) :
    Verdict (Partial L) Message × Bytes → Prop
  | (.going a, _) => out.1 = .incomplete ∧ Reads maxBody none out.2.2 a
  | (.done r, rest) =>
    out.1 = .complete ∧ out.2.1 = r.request ∧ out.2.2.lastStatus = .complete ∧
      out.2.2.maxBody = maxBody ∧ out.2.2.consumed + rest.length = data.length
  | (.dead, _) => (out.1 = .error ∨ out.1 = .tooLarge) ∧ out.2.2.lastStatus = out.1

theorem Reads.feed (h : Reads maxBody none c a) (data : Bytes) :
    Feeds maxBody data (httpParserFeed c data) (run (Partial.step maxBody) a data) := by
  have hexecute := h.execute 0 data
  rw [httpParserFeed, if_pos h.fresh.lastStatus]
  rw [Nat.zero_add] at hexecute
  generalize llhttpExecute 0 data none c = out at hexecute ⊢
  obtain ⟨err, pos, c'⟩ := out
  generalize run (Partial.step maxBody) a data = verdict at hexecute ⊢
  obtain ⟨verdict, rest⟩ := verdict
  dsimp only
  cases verdict with
  | going a' =>
    obtain ⟨hok, hreads⟩ := hexecute
    dsimp only at hok hreads
    obtain ⟨hlimit, hcomplete, htooLarge, hstatus⟩ := hreads.fresh
    rw [if_neg (by simp [htooLarge]), if_neg (by simp [hok]), if_neg (by simp [hcomplete])]
    exact ⟨rfl, ⟨hlimit, hcomplete, htooLarge, hstatus⟩, hreads.state, hreads.url, hreads.body,
      hreads.urlFits, hreads.bodyFits⟩
  | done r =>
    obtain ⟨hpaused, hcompleted, htotal⟩ := hexecute
    dsimp only at hpaused hcompleted htotal
    rw [if_neg (by simp [hcompleted.tooLarge]), if_neg (by simp [hpaused]),
      if_pos hcompleted.complete]
    refine ⟨rfl, ?_, rfl, hcompleted.limit, ?_⟩
    · rw [Message.request, hcompleted.method, hcompleted.path, hcompleted.body,
        hcompleted.keepAlive]
    · dsimp only
      rw [if_pos hpaused]
      exact htotal
  | dead =>
    obtain ⟨hok, hpaused, hfailed⟩ := hexecute
    split
    · exact ⟨.inr rfl, rfl⟩
    · rw [if_pos ⟨hok, hpaused, hfailed.complete⟩]
      exact ⟨.inl rfl, rfl⟩

theorem reset_reads (h : c.maxBody = maxBody) :
    Reads maxBody none (httpParserReset c) (Partial.start L) :=
  ⟨⟨h, rfl, rfl, rfl⟩, rfl, rfl, rfl, Nat.zero_le _, Nat.zero_le _⟩

/-- The status stays until a reset, and no request comes out. -/
theorem feed_sticky (h : c.lastStatus ≠ .incomplete) (data : Bytes) :
    httpParserFeed c data = (c.lastStatus, {}, c) := if_neg h

end Spans

end Mlxd.HttpParser
