import Mlxd.GenReentrancy

/-!
# The end of a generation request

A request that drains the end of its stream with the connection alive takes one terminal action
and leaves the connection alone from then on. A chat streamed to its end is written in the order
of the protocol exactly when the texts all its chunks carry are UTF-8; otherwise no chunk can be
written, and the head is followed by the end of the stream alone.
-/
namespace Mlxd.Http

open Mlxd.Unicode Mlxd.Json Mlxd.Engine Mlxd.TokLoad Mlxd.Detok

/-! ## What is promised -/

/-- No write so far closes the connection. -/
def Conn.Plain (c : Conn) : Prop := ∀ w ∈ c.written, w.2 = false

/-- One terminal action was taken: the last write closes the connection behind it, or the
connection was closed without such a write. -/
def Conn.Ended (c : Conn) : Prop :=
  (c.closing = false ∧ ∃ body wire, c.written = body ++ [(wire, true)] ∧ ∀ w ∈ body, w.2 = false) ∨
    (c.closing = true ∧ c.Plain)

def sseOf (h : Header) (p : SseChunkParams) : Wire × Bool := (.sse (genSseChunk h p), false)

/-- A chunk with the role, and text or not. -/
def SseChunkParams.IsRole (p : SseChunkParams) : Prop :=
  p.roleFirst = true ∧ p.final = none ∧ p.usage = none

/-- A chunk with text and no role. -/
def SseChunkParams.IsDelta (p : SseChunkParams) : Prop :=
  p.roleFirst = false ∧ p.deltaText.isSome = true ∧ p.final = none ∧ p.usage = none

/-- The head, the role, content, the reason, the usage if it is asked for, and the end. -/
def SseOrder (h : Header) (includeUsage : Bool) (reason : FinishReason)
    (written : List (Wire × Bool)) : Prop :=
  ∃ (role : SseChunkParams) (deltas : List SseChunkParams) (usage : Option Usage),
    role.IsRole ∧ (∀ d ∈ deltas, d.IsDelta) ∧ usage.isSome = includeUsage ∧
      written = (.sseHead, false) :: (sseOf h role :: deltas.map (sseOf h) ++
        sseOf h { final := some reason } ::
          (usage.map fun u => sseOf h { usage := some u }).toList) ++ [(.sseDone, true)]

section Terminal

variable (tok : Tokenizer) (env : Env) {m : Loop}

/-- The chunk that ends a pass of the drain loop, and the state it is drained in. -/
def drained : List (Chunk Nat) → Loop → Option (Chunk Nat × Loop)
  | [], _ => none
  | .token id logprob :: rest, m =>
    if (onToken tok env id logprob (touch .stream m)).1 then
      drained rest (onToken tok env id logprob (touch .stream m)).2
    else none
  | c :: _, m => some (c, touch .stream m)

/-- The same for an event of the loop: a closing request drains nothing. -/
def drainedAt (chunks : List (Chunk Nat)) (m : Loop) : Option (Chunk Nat × Loop) :=
  if m.gr.closing then none else drained tok env chunks m

/-! ## Without a connection -/

/-- What a request without its connection does leaves the connection alone. -/
structure Idle (m m' : Loop) : Prop where
  conn : m'.conn = m.conn
  gone : m'.gr.conn = false

theorem Idle.trans {m₁ m₂ m₃ : Loop} (h : Idle m₁ m₂) (h' : Idle m₂ m₃) : Idle m₁ m₃ :=
  ⟨h'.conn.trans h.conn, h'.gone⟩

/-- The same from any state with that connection. -/
theorem Idle.from {m₁ m' : Loop} (h : Idle m₁ m') (hconn : m₁.conn = m.conn) : Idle m m' :=
  ⟨h.conn.trans hconn, h.gone⟩

@[simp] theorem touch_gr (u : Use) (m : Loop) : (touch u m).gr = m.gr := by
  rw [touch]
  split <;> rfl

@[simp] theorem touch_conn (u : Use) (m : Loop) : (touch u m).conn = m.conn := by
  rw [touch]
  split <;> rfl

theorem touch_idle (u : Use) (h : m.gr.conn = false) : Idle m (touch u m) := ⟨by simp, by simpa⟩

theorem streamCancel_idle (h : m.gr.conn = false) : Idle m (streamCancel m) :=
  ⟨touch_conn .stream m, by simpa [streamCancel] using h⟩

theorem teardown_conn (m : Loop) :
    (tryTeardown env m).conn = m.conn ∧ (tryTeardown env m).gr.conn = m.gr.conn := by
  rw [tryTeardown]
  split
  · exact ⟨rfl, rfl⟩
  · split <;> exact ⟨rfl, rfl⟩

theorem teardown_idle (h : m.gr.conn = false) : Idle m (tryTeardown env m) :=
  ⟨(teardown_conn env m).1, (teardown_conn env m).2.trans h⟩

theorem detach_gone (h : m.gr.conn = false) : detachConn m = (false, m) := by
  rw [detachConn, if_neg (by simp [h])]

theorem finishError_idle (message : String) (kind : GenErrKind) (h : m.gr.conn = false) :
    Idle m (finishError env message kind m) := by
  simp only [finishError, detach_gone h]
  exact teardown_idle env h

theorem accumAppend_idle {s : Bytes} {room : Bool} {m' : Loop} (h : m.gr.conn = false)
    (happend : accumAppend env s m = (room, m')) : Idle m m' := by
  rw [accumAppend] at happend
  split at happend
  · obtain ⟨-, rfl⟩ := Prod.mk.inj happend
    exact ⟨rfl, h⟩
  · obtain ⟨-, rfl⟩ := Prod.mk.inj happend
    split <;> exact ⟨rfl, h⟩

theorem finishResponse_idle (reason : FinishReason) (h : m.gr.conn = false) :
    Idle m (finishResponse env reason m) := by
  refine (touch_idle .detok h).trans ?_
  simp only [finishResponse]
  have hgone := (touch_idle .detok h).gone
  generalize touch .detok m = m at hgone
  split
  · exact (finishError_idle (m := m.tick) env _ _ hgone).from rfl
  · split
    · rename_i happend
      have hidle := (accumAppend_idle env (by exact hgone) happend).from (m := m) rfl
      exact hidle.trans (finishError_idle env _ _ hidle.gone)
    · rename_i m' happend
      have hidle := (accumAppend_idle env (by exact hgone) happend).from (m := m) rfl
      refine hidle.trans ?_
      simp only [finishDetached, detach_gone hidle.gone]
      exact teardown_idle env hidle.gone

theorem keepPiece_idle (piece : Bytes) (logprob : Nat) (h : m.gr.conn = false) :
    Idle m (keepPiece env piece logprob m).2 := by
  rw [keepPiece]
  split
  · exact ⟨rfl, h⟩
  · split
    · rename_i happend
      exact accumAppend_idle env h happend
    · rename_i m' happend
      have hidle := accumAppend_idle env h happend
      split
      · exact hidle
      · split <;> exact ⟨hidle.conn, hidle.gone⟩

theorem onPiece_idle (piece : Bytes) (logprob : Nat) (h : m.gr.conn = false) :
    Idle m (onPiece env piece logprob m).2 := by
  rw [onPiece]
  split
  · have hemit : emitSseChunk env piece logprob m = m := by
      rw [emitSseChunk, if_pos (by simp [h])]
    have hsame : (if piece = [] then m else emitSseChunk env piece logprob m) = m := by
      rw [hemit, ite_self]
    dsimp only
    rw [hsame, checkBacklog, if_pos (by simp [h])]
    exact ⟨rfl, h⟩
  · have hkeep := keepPiece_idle env piece logprob h
    split
    · rename_i heq
      rw [heq] at hkeep
      have hcancel := streamCancel_idle hkeep.gone
      dsimp only
      exact (hkeep.trans hcancel).trans (finishError_idle env _ _ hcancel.gone)
    · rename_i heq
      rw [heq] at hkeep
      exact hkeep

theorem onToken_idle (id : Int) (logprob : Nat) (h : m.gr.conn = false) :
    Idle m (onToken tok env id logprob m).2 := by
  have htouch : Idle m (touch .detok (counted m)) :=
    (touch_idle (m := counted m) .detok h).from rfl
  refine htouch.trans ?_
  have hgone := htouch.gone
  simp only [onToken]
  split
  · have hcancel := (streamCancel_idle (m := (touch .detok (counted m)).tick) hgone).from
      (m := touch .detok (counted m)) rfl
    dsimp only
    exact hcancel.trans (finishError_idle env _ _ hcancel.gone)
  · refine Idle.from (onPiece_idle env _ _ ?_) rfl
    exact hgone

theorem drain_idle (chunks : List (Chunk Nat)) (h : m.gr.conn = false) :
    Idle m (drainLoop tok env chunks m) := by
  induction chunks generalizing m with
  | nil => exact touch_idle .stream h
  | cons c rest ih =>
    have htouch := touch_idle .stream h
    refine htouch.trans ?_
    cases c with
    | token id logprob =>
      have htoken := onToken_idle tok env id logprob htouch.gone
      rw [drainLoop_token]
      split
      · exact htoken.trans (ih htoken.gone)
      · exact htoken
    | error kind message => exact finishError_idle env _ _ htouch.gone
    | done reason => exact finishResponse_idle env _ htouch.gone

/-- No event but a close touches a connection that the request has left. -/
theorem handle_idle (e : Event) (h : m.gr.conn = false) (hclose : e ≠ .connClosed) :
    Idle m (handle tok env e m) := by
  cases e with
  | async chunks =>
    simp only [handle, genOnAsync]
    split
    · exact ⟨rfl, h⟩
    · exact drain_idle tok env chunks h
  | timer =>
    simp only [handle, onTimer]
    split
    · split
      · exact ⟨rfl, h⟩
      · split <;> exact ⟨rfl, h⟩
    · exact ⟨rfl, h⟩
  | connClosed => exact absurd rfl hclose
  | drain =>
    simp only [handle, genRequestDrain]
    split
    · split
      · exact ⟨rfl, h⟩
      · exact streamCancel_idle h
    · exact ⟨rfl, h⟩

/-! ## Writes of a detached request -/

theorem write_conn {wire : Wire} {closeAfter : Bool} (h : Detached m) :
    (httpConnWrite env wire closeAfter m).conn =
      if m.conn.closing then m.conn
      else if env.writes m.clock then
        { m.conn with written := m.conn.written ++ [(wire, closeAfter)] }
      else { m.conn with closing := true } := by
  rw [httpConnWrite, touch_open h.opened, queueWrite]
  split
  · rfl
  · rename_i halive
    split
    · rfl
    · rw [closeConn, tick_conn, if_neg halive]
      simp [h.observer]

theorem close_conn (h : Detached m) :
    (httpConnClose env m).conn = { m.conn with closing := true } := by
  have hobs := h.observer
  rw [httpConnClose, touch_open h.opened, closeConn]
  split
  · rename_i hclosing
    rw [← hclosing]
  · simp [hobs]

/-- The last write of a request, or the close it leads to, is its terminal action. -/
theorem lastWrite_ended {wire : Wire} (h : Detached m) (hplain : m.conn.Plain) :
    (httpConnWrite env wire true m).conn.Ended := by
  rw [write_conn env h]
  split
  · rename_i hclosing
    exact .inr ⟨hclosing, hplain⟩
  · rename_i halive
    split
    · exact .inl ⟨by simpa using halive, m.conn.written, wire, rfl, hplain⟩
    · exact .inr ⟨rfl, hplain⟩

theorem close_ended (h : Detached m) (hplain : m.conn.Plain) :
    (httpConnClose env m).conn.Ended := by
  rw [close_conn env h]
  exact .inr ⟨rfl, hplain⟩

theorem finishDone_ended (h : Detached m) (hplain : m.conn.Plain) :
    (finishDone env m).conn.Ended := by
  rw [finishDone]
  split
  · exact lastWrite_ended env h.tick hplain
  · exact close_ended env h.tick hplain

theorem respond_ended {status : Nat} {doc : Value} (h : Detached m) (hplain : m.conn.Plain) :
    (respond env status doc m).conn.Ended := by
  rw [respond, build]
  split
  · rename_i heq
    obtain ⟨-, rfl⟩ := Prod.mk.inj heq
    exact close_ended env h.tick hplain
  · rename_i heq
    obtain ⟨-, rfl⟩ := Prod.mk.inj heq
    split
    · exact lastWrite_ended env h.tick.tick hplain
    · exact close_ended env h.tick.tick hplain

theorem write_plain {wire : Wire} (h : Detached m) (hplain : m.conn.Plain) :
    (httpConnWrite env wire false m).conn.Plain := by
  rw [write_conn env h]
  split
  · exact hplain
  · split
    · intro w hw
      rcases List.mem_append.mp hw with hw | hw
      · exact hplain w hw
      · rw [List.mem_singleton.mp hw]
    · exact hplain

theorem writeSse_plain (doc : Value) (h : Detached m) (hplain : m.conn.Plain) :
    (writeSse env doc m).2.conn.Plain := by
  rw [writeSse, build]
  split
  · rename_i heq
    obtain ⟨-, rfl⟩ := Prod.mk.inj heq
    exact hplain
  · rename_i heq
    obtain ⟨-, rfl⟩ := Prod.mk.inj heq
    exact write_plain env h.tick hplain

theorem finishFlush_plain (flushOut : Bytes) (h : Detached m) (hplain : m.conn.Plain) :
    (finishFlush env flushOut m).conn.Plain := by
  rw [finishFlush]
  split
  · exact hplain
  · split
    · have hwrite := writeSse_plain env (genSseChunk m.gr.header
        { roleFirst := !m.gr.roleSent, deltaText := some flushOut }) h hplain
      dsimp only
      split
      · exact hwrite
      · exact hwrite
    · exact writeSse_plain env _ h hplain

theorem finishRole_plain (h : Detached m) (hplain : m.conn.Plain) :
    (finishRole env m).conn.Plain := by
  rw [finishRole]
  split
  · exact hplain
  · exact writeSse_plain env _ h hplain

theorem finishUsage_plain (h : Detached m) (hplain : m.conn.Plain) :
    (finishUsage env m).conn.Plain := by
  rw [finishUsage]
  split
  · exact writeSse_plain env _ h hplain
  · exact hplain

theorem finishSse_ended {flushOut : Bytes} {reason : FinishReason} (h : Detached m)
    (hplain : m.conn.Plain) : (finishSse env flushOut reason m).conn.Ended := by
  have hflush := finishFlush_detached env flushOut h
  have hflushed := finishFlush_plain env flushOut h hplain
  simp only [finishSse]
  split
  · have hrole := finishRole_detached env hflush
    have hfinal := (writeSse_kept env (genSseChunk (finishRole env
      (finishFlush env flushOut m)).gr.header { final := some reason }) hrole).detached
    have hfinaled := writeSse_plain env (genSseChunk (finishRole env
      (finishFlush env flushOut m)).gr.header { final := some reason }) hrole
      (finishRole_plain env hflush hflushed)
    exact finishDone_ended env (finishUsage_detached env hfinal)
      (finishUsage_plain env hfinal hfinaled)
  · exact finishDone_ended env (writeSse_kept env _ hflush).detached
      (writeSse_plain env _ hflush hflushed)

/-! ## With the connection attached -/

/-- The parameters a request keeps. -/
structure Follows (p : StartParams) (gr : GenRequest) : Prop where
  chat : gr.chat = p.chat
  sse : gr.sse = p.stream
  header : gr.header = p.header
  includeUsage : gr.includeUsage = p.includeUsage

/-- What a streamed chat has written before its end. -/
def Opening (h : Header) (roleSent : Bool) (written : List (Wire × Bool)) : Prop :=
  if roleSent then h.Utf8 ∧ ∃ (role : SseChunkParams) (deltas : List SseChunkParams),
    role.IsRole ∧ (∀ d ∈ deltas, d.IsDelta) ∧
      written = (.sseHead, false) :: sseOf h role :: deltas.map (sseOf h)
  else written = [(.sseHead, false)]

/-- The first chunk carries the role and the others text. -/
theorem Opening.push {h : Header} {roleSent : Bool} {written : List (Wire × Bool)}
    {d : SseChunkParams} (hopening : Opening h roleSent written) (hutf8 : h.Utf8)
    (hrole : d.roleFirst = !roleSent) (htext : roleSent = true → d.deltaText.isSome = true)
    (hfinal : d.final = none) (husage : d.usage = none) :
    Opening h true (written ++ [sseOf h d]) := by
  cases roleSent with
  | false =>
    obtain rfl : written = [(.sseHead, false)] := hopening
    exact ⟨hutf8, d, [], ⟨hrole, hfinal, husage⟩, by simp, rfl⟩
  | true =>
    obtain ⟨-, role, deltas, hisRole, hdeltas, rfl⟩ := hopening
    refine ⟨hutf8, role, deltas ++ [d], hisRole, fun d' hd' => ?_, by simp⟩
    rcases List.mem_append.mp hd' with hd' | hd'
    · exact hdeltas d' hd'
    · rw [List.mem_singleton.mp hd']
      exact ⟨hrole, htext rfl, hfinal, husage⟩

/-- An open request with its connection. -/
structure Attached (p : StartParams) (m : Loop) : Prop where
  sound : Sound m
  conn : m.gr.conn = true
  follows : Follows p m.gr
  plain : m.conn.Plain
  opening : p.chat = true → p.stream = true → Opening p.header m.gr.roleSent m.conn.written

/-- The request has left its connection: alive, it has had its terminal action. -/
structure Over (m : Loop) : Prop where
  conn : m.gr.conn = false
  observer : m.conn.observer = false
  ended : m.conn.closing = false → m.conn.Ended

theorem Attached.opened {p : StartParams} (h : Attached p m) : m.gr.closing = false :=
  (h.sound.attached h.conn).1

theorem Attached.alive {p : StartParams} (h : Attached p m) : m.conn.closing = false :=
  (h.sound.attached h.conn).2

theorem Over.idle {m' : Loop} (h : Over m) (hidle : Idle m m') : Over m' :=
  ⟨hidle.gone, by rw [hidle.conn]; exact h.observer, by rw [hidle.conn]; exact h.ended⟩

theorem Attached.detach {p : StartParams} (h : Attached p m) :
    (detachConn m).1 = true ∧ Detached (detachConn m).2 ∧ (detachConn m).2.conn.Plain ∧
      (detachConn m).2.gr = { m.gr with conn := false } ∧
      (detachConn m).2.conn.written = m.conn.written ∧ (detachConn m).2.clock = m.clock := by
  refine ⟨?_, detach_detached h.sound h.opened, ?_, ?_, ?_, ?_⟩ <;> rw [detachConn, if_pos h.conn]
  exact h.plain

theorem over_teardown (hdetached : Detached m) (hended : m.conn.Ended) :
    Over (tryTeardown env m) ∧ (tryTeardown env m).conn.Ended :=
  ⟨Over.idle ⟨hdetached.conn, hdetached.observer, fun _ => hended⟩
    (teardown_idle env hdetached.conn), by rw [(teardown_conn env m).1]; exact hended⟩

theorem Attached.congr {p : StartParams} {m' : Loop} (h : Attached p m) (hlate : m'.late = m.late)
    (hconn : m'.conn = m.conn) (hattached : m'.gr.conn = m.gr.conn)
    (hopen : m'.gr.closing = m.gr.closing) (htimer : m'.gr.timerInited = m.gr.timerInited)
    (hfollows : Follows p m.gr → Follows p m'.gr) (hrole : m'.gr.roleSent = m.gr.roleSent) :
    Attached p m' :=
  ⟨h.sound.congr hlate (by rw [hconn]) (by rw [hconn]) hattached hopen htimer,
    hattached.trans h.conn, hfollows h.follows, by rw [hconn]; exact h.plain, by
    rw [hrole, hconn]
    exact h.opening⟩

theorem closeConn_over (h : Sound m) (hconn : m.gr.conn = true) : Over (closeConn env m) := by
  rw [closeConn, if_neg (by simp [(h.attached hconn).2]), if_pos (h.observed.trans hconn),
    onConnGone]
  have hgone : ∀ m' : Loop, m'.gr.conn = false → m'.conn.observer = false →
      m'.conn.closing = true → Over (tryTeardown env (streamCancel m')) := by
    intro m' hconn hobs hclosing
    have hcancel := streamCancel_idle hconn
    have hover : Over m' := ⟨hconn, hobs, fun halive => by simp [hclosing] at halive⟩
    exact hover.idle (hcancel.trans (teardown_idle env hcancel.gone))
  exact hgone _ rfl rfl rfl

/-! ### The ends -/

theorem answered_over {p : StartParams} {answer : Loop → Loop}
    (hanswer : ∀ m, Detached m → m.conn.Plain → Detached (answer m) ∧ (answer m).conn.Ended)
    (h : Attached p m) : Over (answered env answer m) ∧ (answered env answer m).conn.Ended := by
  obtain ⟨hconn, hdetached, hplain, -⟩ := h.detach
  rw [answered, if_pos hconn]
  split
  · exact over_teardown env (close_kept env hdetached).detached (close_ended env hdetached hplain)
  · obtain ⟨hdetached', hended⟩ := hanswer _ hdetached hplain
    exact over_teardown env hdetached' hended

theorem finishError_over {p : StartParams} (message : String) (kind : GenErrKind)
    (h : Attached p m) : Over (finishError env message kind m) ∧
      (finishError env message kind m).conn.Ended := by
  rw [finishError_eq]
  refine answered_over env (fun m hdetached hplain => ⟨answerError_detached env _ _ hdetached, ?_⟩) h
  simp only [answerError]
  split
  · exact finishDone_ended env (writeSse_kept env _ hdetached).detached
      (writeSse_plain env _ hdetached hplain)
  · exact respond_ended env hdetached hplain

theorem finishDetached_over {p : StartParams} (flushOut : Bytes) (reason : FinishReason)
    (h : Attached p m) : Over (finishDetached env flushOut reason m) ∧
      (finishDetached env flushOut reason m).conn.Ended := by
  rw [finishDetached_eq]
  refine answered_over env
    (fun m hdetached hplain => ⟨answerResponse_detached env _ _ hdetached, ?_⟩) h
  rw [answerResponse]
  split
  · exact finishSse_ended env hdetached hplain
  · exact respond_ended env hdetached hplain

theorem accumAppend_attached {p : StartParams} {s : Bytes} {room : Bool} {m' : Loop}
    (h : Attached p m) (happend : accumAppend env s m = (room, m')) : Attached p m' := by
  rw [accumAppend] at happend
  split at happend
  · obtain ⟨-, rfl⟩ := Prod.mk.inj happend
    exact h
  · obtain ⟨-, rfl⟩ := Prod.mk.inj happend
    split
    · exact h.congr rfl rfl rfl rfl rfl (fun hf => ⟨hf.chat, hf.sse, hf.header, hf.includeUsage⟩)
        rfl
    · exact h.congr rfl rfl rfl rfl rfl (fun hf => hf) rfl

theorem finishResponse_over {p : StartParams} (reason : FinishReason) (h : Attached p m) :
    Over (finishResponse env reason m) ∧ (finishResponse env reason m).conn.Ended := by
  simp only [finishResponse, touch_open h.opened]
  split
  · exact finishError_over (m := m.tick) env _ _
      (h.congr rfl rfl rfl rfl rfl (fun hf => hf) rfl)
  · have hflushed : Attached p (m.tick.setGr { m.gr with detok := (detokFlush m.gr.detok).2 }) :=
      h.congr rfl rfl rfl rfl rfl (fun hf => ⟨hf.chat, hf.sse, hf.header, hf.includeUsage⟩) rfl
    split
    · rename_i happend
      exact finishError_over env _ _ (accumAppend_attached env hflushed happend)
    · rename_i happend
      exact finishDetached_over env _ _ (accumAppend_attached env hflushed happend)

/-! ### The drain loop -/

/-- The request after a chunk has gone out. -/
def pushed (wire : Wire) (m : Loop) : Loop :=
  { m with conn := { m.conn with written := m.conn.written ++ [(wire, false)] } }

theorem write_cases {p : StartParams} (wire : Wire) (h : Attached p m) :
    httpConnWrite env wire false m = pushed wire m.tick ∨ Over (httpConnWrite env wire false m) := by
  rw [httpConnWrite, touch_open h.opened, queueWrite, if_neg (by simp [h.alive])]
  split
  · exact .inl rfl
  · exact .inr (closeConn_over env (h.sound.congr rfl rfl rfl rfl rfl rfl) h.conn)

theorem writeSse_cases {p : StartParams} (doc : Value) (h : Attached p m) :
    writeSse env doc m = (false, m.tick) ∨
      (writable doc = true ∧ writeSse env doc m = (true, pushed (.sse doc) m.tick.tick)) ∨
      Over (writeSse env doc m).2 := by
  have htick : Attached p m.tick := h.congr rfl rfl rfl rfl rfl (fun hf => hf) rfl
  by_cases hbuilt : env.allocs m.clock = true ∧ writable doc = true
  · have hwrite : writeSse env doc m = (true, httpConnWrite env (.sse doc) false m.tick) := by
      simp [writeSse, build, yyjsonMutWrite, hbuilt]
    rw [hwrite]
    rcases write_cases env (.sse doc) htick with hpushed | hover
    · exact .inr (.inl ⟨hbuilt.2, by rw [hpushed]⟩)
    · exact .inr (.inr hover)
  · have hnone : (if env.allocs m.clock = true then yyjsonMutWrite doc else none) = none := by
      split
      · rename_i hallocs
        exact if_neg fun hdoc => hbuilt ⟨hallocs, hdoc⟩
      · rfl
    exact .inl (by simp only [writeSse, build, hnone])

/-- A chat's chunk for a piece carries the role exactly when none has gone out, and text
otherwise. -/
theorem emitDoc_chunk {gr : GenRequest} {piece : Bytes} {logprob : Nat} {doc : Value}
    (hdoc : emitDoc gr piece logprob = some doc) (hchat : gr.chat = true) :
    ∃ d : SseChunkParams, doc = genSseChunk gr.header d ∧ d.roleFirst = (!gr.roleSent) ∧
      (gr.roleSent = true → d.deltaText.isSome = true) ∧ d.final = none ∧ d.usage = none := by
  rw [emitDoc, if_pos hchat] at hdoc
  dsimp only at hdoc
  split at hdoc
  · rename_i hrole
    rw [Bool.not_eq_true'] at hrole
    obtain rfl := Option.some.inj hdoc
    exact ⟨_, rfl, by simp [hrole], fun hsent => by simp [hrole] at hsent, rfl, rfl⟩
  · rename_i hrole
    rw [Bool.not_eq_true', Bool.not_eq_false] at hrole
    split at hdoc
    · contradiction
    · obtain rfl := Option.some.inj hdoc
      exact ⟨_, rfl, by simp [hrole], fun _ => rfl, rfl, rfl⟩

theorem pushed_attached {p : StartParams} (wire : Wire) (roleSent : Bool) (h : Attached p m)
    (hopening : p.chat = true → p.stream = true →
      Opening p.header roleSent (m.conn.written ++ [(wire, false)])) :
    Attached p ((pushed wire m).setGr { m.gr with roleSent := roleSent }) := by
  refine ⟨h.sound.congr rfl rfl rfl rfl rfl rfl, h.conn,
    ⟨h.follows.chat, h.follows.sse, h.follows.header, h.follows.includeUsage⟩, ?_, hopening⟩
  intro w hw
  rcases List.mem_append.mp hw with hw | hw
  · exact h.plain w hw
  · rw [List.mem_singleton.mp hw]

theorem emit_attached {p : StartParams} (piece : Bytes) (logprob : Nat) (h : Attached p m) :
    Attached p (emitSseChunk env piece logprob m) ∨ Over (emitSseChunk env piece logprob m) := by
  have htick : Attached p m.tick := h.congr rfl rfl rfl rfl rfl (fun hf => hf) rfl
  have htick' : Attached p m.tick.tick := htick.congr rfl rfl rfl rfl rfl (fun hf => hf) rfl
  rw [emitSseChunk]
  split
  · exact .inl h
  · cases hdoc : emitDoc m.gr piece logprob with
    | none => exact .inl h
    | some doc =>
      dsimp only
      rcases writeSse_cases env doc h with hkept | ⟨hwritable, hpushed⟩ | hover
      · rw [hkept]
        exact .inl htick
      · rw [hpushed]
        refine .inl ?_
        dsimp only
        by_cases hchat : m.gr.chat = true
        · rw [if_pos (by exact hchat)]
          obtain ⟨d, rfl, hrole, htext, hfinal, husage⟩ := emitDoc_chunk hdoc hchat
          refine pushed_attached _ true htick' fun hchat' hstream => ?_
          rw [h.follows.header] at hwritable ⊢
          exact (h.opening hchat' hstream).push ((writable_genSseChunk _ _).mp hwritable).1 hrole
            htext hfinal husage
        · rw [if_neg (by exact hchat)]
          refine pushed_attached _ m.gr.roleSent htick' fun hchat' => ?_
          exact absurd (h.follows.chat.trans hchat') hchat
      · refine .inr ?_
        split
        · exact ⟨hover.conn, hover.observer, hover.ended⟩
        · exact hover

theorem checkBacklog_attached {p : StartParams} (h : Attached p m) :
    Attached p (checkBacklog env m) := by
  rw [checkBacklog]
  split
  · exact h
  · rw [touch_open h.opened]
    dsimp only
    split
    · rw [streamCancel, touch_open (by exact h.opened)]
      exact h.congr rfl rfl rfl rfl rfl (fun hf => ⟨hf.chat, hf.sse, hf.header, hf.includeUsage⟩)
        rfl
    · exact h.congr rfl rfl rfl rfl rfl (fun hf => hf) rfl

theorem keepPiece_attached {p : StartParams} (piece : Bytes) (logprob : Nat) (h : Attached p m) :
    Attached p (keepPiece env piece logprob m).2 := by
  rw [keepPiece]
  split
  · exact h
  · split
    · rename_i happend
      exact accumAppend_attached env h happend
    · rename_i happend
      have hkept := accumAppend_attached env h happend
      split
      · exact hkept
      · split
        · exact hkept.congr rfl rfl rfl rfl rfl
            (fun hf => ⟨hf.chat, hf.sse, hf.header, hf.includeUsage⟩) rfl
        · exact hkept.congr rfl rfl rfl rfl rfl (fun hf => hf) rfl

theorem cancel_attached {p : StartParams} (h : Attached p m) : Attached p (streamCancel m) := by
  rw [streamCancel, touch_open h.opened]
  exact h.congr rfl rfl rfl rfl rfl (fun hf => hf) rfl

/-- A piece leaves the request attached or over; when the loop stops, it is over. -/
theorem onPiece_attached {p : StartParams} (piece : Bytes) (logprob : Nat) (h : Attached p m) :
    (Attached p (onPiece env piece logprob m).2 ∧ (onPiece env piece logprob m).1 = true) ∨
      Over (onPiece env piece logprob m).2 := by
  rw [onPiece]
  split
  · dsimp only
    split
    · exact .inl ⟨checkBacklog_attached env h, rfl⟩
    · rcases emit_attached env piece logprob h with hattached | hover
      · exact .inl ⟨checkBacklog_attached env hattached, rfl⟩
      · refine .inr ?_
        rw [checkBacklog, if_pos (by simp [hover.conn])]
        exact hover
  · have hkeep := keepPiece_attached env piece logprob h
    split
    · rename_i heq
      rw [heq] at hkeep
      have hover := (finishError_over env "out of memory" .internal (cancel_attached hkeep)).1
      exact .inr hover
    · rename_i heq
      rw [heq] at hkeep
      exact .inl ⟨hkeep, rfl⟩

theorem onToken_attached {p : StartParams} (id : Int) (logprob : Nat) (h : Attached p m) :
    (Attached p (onToken tok env id logprob m).2 ∧ (onToken tok env id logprob m).1 = true) ∨
      Over (onToken tok env id logprob m).2 := by
  have hcounted : Attached p (counted m) :=
    h.congr rfl rfl rfl rfl rfl (fun hf => ⟨hf.chat, hf.sse, hf.header, hf.includeUsage⟩) rfl
  simp only [onToken, touch_counted h.opened]
  split
  · have htick : Attached p (counted m).tick :=
      hcounted.congr rfl rfl rfl rfl rfl (fun hf => hf) rfl
    have hover := (finishError_over env "detokenizer error" .internal (cancel_attached htick)).1
    exact .inr hover
  · exact onPiece_attached env _ _ (hcounted.congr rfl rfl rfl rfl rfl
      (fun hf => ⟨hf.chat, hf.sse, hf.header, hf.includeUsage⟩) rfl)

/-! ### Runs -/

/-- A request is attached to its connection or over. -/
def Phase (p : StartParams) (m : Loop) : Prop := Attached p m ∨ Over m

/-- What the chunk that ends a pass does. -/
def conclude (c : Chunk Nat) (m : Loop) : Loop :=
  match c with
  | .token _ _ => m
  | .error kind message => finishError env message kind m
  | .done reason => finishResponse env reason m

theorem drained_conclude {chunks : List (Chunk Nat)} {c : Chunk Nat} {m₁ : Loop}
    (hdrained : drained tok env chunks m = some (c, m₁)) :
    drainLoop tok env chunks m = conclude env c m₁ := by
  induction chunks generalizing m with
  | nil => simp [drained] at hdrained
  | cons c' rest ih =>
    cases c' with
    | token id logprob =>
      simp only [drained] at hdrained
      split at hdrained
      · rename_i hgo
        rw [← ih hdrained, drainLoop_token, if_pos hgo]
      · contradiction
    | error kind message =>
      simp only [drained, Option.some.injEq, Prod.mk.injEq] at hdrained
      obtain ⟨rfl, rfl⟩ := hdrained
      rfl
    | done reason =>
      simp only [drained, Option.some.injEq, Prod.mk.injEq] at hdrained
      obtain ⟨rfl, rfl⟩ := hdrained
      rfl

theorem drained_last {chunks : List (Chunk Nat)} {c : Chunk Nat} {m₁ : Loop}
    (hdrained : drained tok env chunks m = some (c, m₁)) :
    (∃ kind message, c = .error kind message) ∨ ∃ reason, c = .done reason := by
  induction chunks generalizing m with
  | nil => simp [drained] at hdrained
  | cons c' rest ih =>
    cases c' with
    | token id logprob =>
      simp only [drained] at hdrained
      split at hdrained
      · exact ih hdrained
      · contradiction
    | error kind message =>
      simp only [drained, Option.some.injEq, Prod.mk.injEq] at hdrained
      exact .inl ⟨kind, message, hdrained.1.symm⟩
    | done reason =>
      simp only [drained, Option.some.injEq, Prod.mk.injEq] at hdrained
      exact .inr ⟨reason, hdrained.1.symm⟩

theorem touch_phase {p : StartParams} (u : Use) (h : Phase p m) : Phase p (touch u m) := by
  rcases h with hattached | hover
  · rw [touch_open hattached.opened]
    exact .inl hattached
  · exact .inr (hover.idle (touch_idle u hover.conn))

theorem onToken_phase {p : StartParams} (id : Int) (logprob : Nat) (h : Phase p m) :
    Phase p (onToken tok env id logprob m).2 := by
  rcases h with hattached | hover
  · exact (onToken_attached tok env id logprob hattached).imp (·.1) fun hover => hover
  · exact .inr (hover.idle (onToken_idle tok env id logprob hover.conn))

theorem drained_phase {p : StartParams} {chunks : List (Chunk Nat)} {c : Chunk Nat} {m₁ : Loop}
    (h : Phase p m) (hdrained : drained tok env chunks m = some (c, m₁)) : Phase p m₁ := by
  induction chunks generalizing m with
  | nil => simp [drained] at hdrained
  | cons c' rest ih =>
    have htouch := touch_phase .stream h
    cases c' with
    | token id logprob =>
      simp only [drained] at hdrained
      split at hdrained
      · exact ih (onToken_phase tok env id logprob htouch) hdrained
      · contradiction
    | error kind message =>
      simp only [drained, Option.some.injEq, Prod.mk.injEq] at hdrained
      obtain ⟨-, rfl⟩ := hdrained
      exact htouch
    | done reason =>
      simp only [drained, Option.some.injEq, Prod.mk.injEq] at hdrained
      obtain ⟨-, rfl⟩ := hdrained
      exact htouch

theorem drain_phase {p : StartParams} (chunks : List (Chunk Nat)) (h : Phase p m) :
    Phase p (drainLoop tok env chunks m) := by
  induction chunks generalizing m with
  | nil => exact touch_phase .stream h
  | cons c rest ih =>
    have htouch := touch_phase .stream h
    cases c with
    | token id logprob =>
      have htoken := onToken_phase tok env id logprob htouch
      rw [drainLoop_token]
      split
      · exact ih htoken
      · exact htoken
    | error kind message =>
      rcases htouch with hattached | hover
      · exact .inr (finishError_over env _ _ hattached).1
      · exact .inr (hover.idle (finishError_idle env _ _ hover.conn))
    | done reason =>
      rcases htouch with hattached | hover
      · exact .inr (finishResponse_over env _ hattached).1
      · exact .inr (hover.idle (finishResponse_idle env _ hover.conn))

/-- A connection that the request has left keeps what was written, and only a close of its own
changes it. -/
theorem handle_over (e : Event) (h : Over m) : Over (handle tok env e m) ∧
    (handle tok env e m).conn.written = m.conn.written ∧
      (e ≠ .connClosed → (handle tok env e m).conn = m.conn) := by
  by_cases hclose : e = .connClosed
  · subst hclose
    simp only [handle, ne_eq, not_true_eq_false, false_implies, and_true]
    rw [closeConn]
    split
    · exact ⟨h, rfl⟩
    · rw [if_neg (by simp [h.observer])]
      exact ⟨⟨h.conn, rfl, fun halive => by simp at halive⟩, rfl⟩
  · have hidle := handle_idle tok env e h.conn hclose
    exact ⟨h.idle hidle, by rw [hidle.conn], fun _ => hidle.conn⟩

theorem handleAll_over (events : List Event) (h : Over m) : Over (handleAll tok env events m) ∧
    (handleAll tok env events m).conn.written = m.conn.written := by
  induction events generalizing m with
  | nil => exact ⟨h, rfl⟩
  | cons e events ih =>
    obtain ⟨hover, hwritten, -⟩ := handle_over tok env e h
    exact ⟨(ih hover).1, (ih hover).2.trans hwritten⟩

theorem handle_phase {p : StartParams} (e : Event) (h : Phase p m) :
    Phase p (handle tok env e m) := by
  rcases h with hattached | hover
  · cases e with
    | async chunks =>
      simp only [handle, genOnAsync]
      split
      · exact .inl hattached
      · exact drain_phase tok env chunks (.inl hattached)
    | timer =>
      have htimer : m.gr.timerInited = false := by
        by_contra htimer
        have := hattached.sound.timer (by simpa using htimer)
        rw [hattached.conn] at this
        contradiction
      simp only [handle, htimer]
      exact .inl hattached
    | connClosed => exact .inr (closeConn_over env hattached.sound hattached.conn)
    | drain =>
      simp only [handle, genRequestDrain]
      split
      · split
        · exact .inl hattached
        · exact .inl (cancel_attached hattached)
      · exact .inl hattached
  · exact .inr (handle_over tok env e hover).1

theorem handleAll_phase {p : StartParams} (events : List Event) (h : Phase p m) :
    Phase p (handleAll tok env events m) := by
  induction events generalizing m with
  | nil => exact h
  | cons e events ih => exact ih (handle_phase tok env e h)

/-- A started request has its connection, or the head of the stream could not be written. -/
theorem start_phase (p : StartParams) : Phase p (genRequestStart env p) := by
  have hsound := start_sound env p
  have hfollows : ∀ gr : GenRequest, gr.chat = p.chat → gr.sse = p.stream →
      gr.header = p.header → gr.includeUsage = p.includeUsage → Follows p gr :=
    fun _ hchat hsse hheader husage => ⟨hchat, hsse, hheader, husage⟩
  simp only [genRequestStart] at hsound ⊢
  split at hsound
  · rename_i hstream
    rw [if_pos hstream]
    by_cases hwrites : env.writes 0 = true
    · rw [queueWrite, if_neg (by simp), if_pos hwrites] at hsound ⊢
      refine .inl ⟨hsound, rfl, hfollows _ rfl rfl rfl rfl, ?_, fun _ _ => rfl⟩
      intro w hw
      rw [List.mem_singleton.mp hw]
    · rw [queueWrite, if_neg (by simp), if_neg hwrites]
      exact .inr (closeConn_over env ⟨rfl, rfl, fun _ => ⟨rfl, rfl⟩, fun h => by contradiction⟩ rfl)
  · rename_i hstream
    rw [if_neg hstream]
    exact .inl ⟨hsound, rfl, hfollows _ rfl rfl rfl rfl, fun w hw => by simp at hw,
      fun _ hstream' => absurd hstream' hstream⟩

/-! ## A chat streamed to its end -/

/-- If the connection is alive behind the writes, these documents have been written. -/
def Logged (docs : List Value) (m m' : Loop) : Prop :=
  m'.conn.closing = false → m.conn.closing = false ∧
    m'.conn.written = m.conn.written ++ docs.map fun doc => (Wire.sse doc, false)

theorem Logged.rfl : Logged [] m m := fun halive => ⟨halive, by simp⟩

theorem Logged.trans {docs docs' : List Value} {m₁ m₂ m₃ : Loop} (h : Logged docs m₁ m₂)
    (h' : Logged docs' m₂ m₃) : Logged (docs ++ docs') m₁ m₃ := by
  intro halive
  obtain ⟨halive', hwritten'⟩ := h' halive
  obtain ⟨halive, hwritten⟩ := h halive'
  exact ⟨halive, by rw [hwritten', hwritten, List.map_append, List.append_assoc]⟩

theorem finishRole_gr (h : Detached m) : (finishRole env m).gr = m.gr := by
  rw [finishRole]
  split
  · rfl
  · exact (writeSse_kept env _ h).gr

/-- A connection that is kept gets the answer. -/
theorem answered_conn {p : StartParams} {answer : Loop → Loop} (h : Attached p m)
    (hkept : m.gr.suppressWrites = false) :
    (answered env answer m).conn = (answer (detachConn m).2).conn := by
  obtain ⟨hconn, -, -, hgr, -⟩ := h.detach
  rw [answered, (teardown_conn env _).1, if_pos hconn, if_neg (by simp [hgr, hkept])]

theorem finishDetached_streamed {p : StartParams} {flushOut : Bytes} {reason : FinishReason}
    (h : Attached p m) (hsse : m.gr.sse = true) (hkept : m.gr.suppressWrites = false) :
    (finishDetached env flushOut reason m).conn =
      (finishSse env flushOut reason (detachConn m).2).conn := by
  obtain ⟨-, -, -, hgr, -⟩ := h.detach
  rw [finishDetached_eq, answered_conn env h hkept, answerResponse, if_pos (by simp [hgr, hsse])]

theorem genSseChunk_unwritten {h : Header} (hutf8 : ¬ h.Utf8) (d : SseChunkParams) :
    yyjsonMutWrite (genSseChunk h d) = none :=
  if_neg fun hwritable => hutf8 ((writable_genSseChunk _ _).mp hwritable).1

theorem genSseChunk_written {h : Header} (hutf8 : h.Utf8) {d : SseChunkParams}
    (htext : d.deltaText = none) (hlogprob : d.logprob = none) :
    yyjsonMutWrite (genSseChunk h d) = some (genSseChunk h d) :=
  if_pos ((writable_genSseChunk _ _).mpr ⟨hutf8, by simp [htext], by simp [hlogprob]⟩)

/-- The withheld text goes on with the opening. -/
theorem Opening.flushed {h : Header} {roleSent : Bool} {written : List (Wire × Bool)}
    {docs : List Value} {flushOut : Bytes} (hopening : Opening h roleSent written)
    (hutf8 : h.Utf8) (hdocs : ∀ doc ∈ docs, docs = [doc] ∧ writable doc = true ∧
      doc = genSseChunk h { roleFirst := !roleSent, deltaText := some flushOut }) :
    Opening h (roleSent || !docs.isEmpty)
      (written ++ docs.map fun doc => (Wire.sse doc, false)) := by
  cases docs with
  | nil => simpa using hopening
  | cons doc rest =>
    obtain ⟨hsingle, -, rfl⟩ := hdocs doc (by simp)
    rw [hsingle]
    simpa [sseOf] using hopening.push hutf8 (by rfl) (fun _ => rfl) rfl rfl

/-- The role is written at the latest behind the withheld text. -/
theorem Opening.roled {h : Header} {roleSent : Bool} {written : List (Wire × Bool)}
    (hopening : Opening h roleSent written) (hutf8 : h.Utf8) :
    Opening h true (written ++ (if roleSent = true then [] else
      (yyjsonMutWrite (genSseChunk h { roleFirst := true })).toList).map
        fun doc => (Wire.sse doc, false)) := by
  cases roleSent with
  | true => simpa using hopening
  | false =>
    rw [if_neg Bool.false_ne_true, genSseChunk_written hutf8 rfl rfl]
    exact hopening.push hutf8 (by rfl) (by simp) rfl rfl

section Allocs

variable (hallocs : ∀ n, env.allocs n = true)

include hallocs

theorem writeSse_logged (doc : Value) (h : Detached m) :
    Logged (yyjsonMutWrite doc).toList m (writeSse env doc m).2 ∧
      (writeSse env doc m).1 = (yyjsonMutWrite doc).isSome := by
  simp only [writeSse, build, hallocs, if_true]
  cases yyjsonMutWrite doc with
  | none => exact ⟨fun halive => ⟨halive, by simp⟩, rfl⟩
  | some doc =>
    refine ⟨?_, rfl⟩
    dsimp only
    intro halive
    rw [write_conn env h.tick] at halive ⊢
    split at halive
    · rename_i hclosing
      rw [hclosing] at halive
      contradiction
    · rename_i hopen
      rw [if_neg hopen]
      split at halive
      · rename_i hwrites
        rw [if_pos hwrites]
        exact ⟨halive, rfl⟩
      · contradiction

/-- What the detokenizer has withheld goes out as the role's chunk or one more delta. -/
theorem finishFlush_logged (flushOut : Bytes) (h : Detached m) (hchat : m.gr.chat = true) :
    ∃ docs, Logged docs m (finishFlush env flushOut m) ∧
      (finishFlush env flushOut m).gr =
        { m.gr with roleSent := m.gr.roleSent || !docs.isEmpty } ∧
      ∀ doc ∈ docs, docs = [doc] ∧ writable doc = true ∧
        doc = genSseChunk m.gr.header
          { roleFirst := !m.gr.roleSent, deltaText := some flushOut } := by
  rw [finishFlush, if_pos hchat]
  split
  · exact ⟨[], Logged.rfl, by simp, by simp⟩
  · have hkept := writeSse_kept env (genSseChunk m.gr.header
      { roleFirst := !m.gr.roleSent, deltaText := some flushOut }) h
    obtain ⟨hlogged, hsent⟩ := writeSse_logged env hallocs (genSseChunk m.gr.header
      { roleFirst := !m.gr.roleSent, deltaText := some flushOut }) h
    refine ⟨(yyjsonMutWrite (genSseChunk m.gr.header
      { roleFirst := !m.gr.roleSent, deltaText := some flushOut })).toList, ?_, ?_, ?_⟩
    · dsimp only
      split
      · exact hlogged
      · exact hlogged
    · dsimp only
      rw [hsent]
      by_cases hwritable : writable (genSseChunk m.gr.header
          { roleFirst := !m.gr.roleSent, deltaText := some flushOut }) = true
      · simp [yyjsonMutWrite, hwritable, hkept.gr]
      · simp [yyjsonMutWrite, hwritable, hkept.gr]
    · intro doc hdoc
      simp only [yyjsonMutWrite, Option.mem_toList] at hdoc ⊢
      split at hdoc
      · rename_i hwritable
        obtain rfl := Option.some.inj hdoc
        simp [hwritable]
      · contradiction

theorem finishRole_logged (h : Detached m) :
    Logged (if m.gr.roleSent then [] else
      (yyjsonMutWrite (genSseChunk m.gr.header { roleFirst := true })).toList) m
      (finishRole env m) := by
  rw [finishRole]
  split
  · exact Logged.rfl
  · exact (writeSse_logged env hallocs _ h).1

theorem finishUsage_logged (h : Detached m) :
    Logged (if m.gr.includeUsage then
      (yyjsonMutWrite (genSseChunk m.gr.header { usage := some (usageOf m.gr) })).toList else []) m
      (finishUsage env m) := by
  rw [finishUsage]
  split
  · exact (writeSse_logged env hallocs _ h).1
  · exact Logged.rfl

theorem finishDone_logged (h : Detached m) (halive : (finishDone env m).conn.closing = false) :
    m.conn.closing = false ∧
      (finishDone env m).conn.written = m.conn.written ++ [(.sseDone, true)] := by
  rw [finishDone, if_pos (hallocs _), write_conn env h.tick] at halive ⊢
  split at halive
  · rename_i hclosing
    rw [hclosing] at halive
    contradiction
  · rename_i hopen
    rw [if_neg hopen]
    split at halive
    · rename_i hwrites
      rw [if_pos hwrites]
      exact ⟨halive, rfl⟩
    · contradiction

/-- The chunks behind the last token, and the order of the whole. -/
theorem finishSse_order {flushOut : Bytes} {reason : FinishReason} (h : Detached m)
    (hchat : m.gr.chat = true)
    (hopening : Opening m.gr.header m.gr.roleSent m.conn.written)
    (halive : (finishSse env flushOut reason m).conn.closing = false) :
    SseOrder m.gr.header m.gr.includeUsage reason (finishSse env flushOut reason m).conn.written ↔
      m.gr.header.Utf8 := by
  obtain ⟨docs, hflush, hgr, hdocs⟩ := finishFlush_logged env hallocs flushOut h hchat
  have hflushed := finishFlush_detached env flushOut h
  simp only [finishSse] at halive ⊢
  generalize finishFlush env flushOut m = m₁ at halive hflush hgr hflushed ⊢
  rw [if_pos (by simp [hgr, hchat])] at halive ⊢
  have hrole := finishRole_logged env hallocs hflushed
  have hroled := finishRole_detached env hflushed
  have hrolegr := finishRole_gr env hflushed
  generalize finishRole env m₁ = m₂ at halive hrole hroled hrolegr ⊢
  have hfinal := (writeSse_logged env hallocs
    (genSseChunk m₂.gr.header { final := some reason }) hroled).1
  have hfinaled := writeSse_kept env
    (genSseChunk m₂.gr.header { final := some reason }) hroled
  generalize (writeSse env (genSseChunk m₂.gr.header { final := some reason }) m₂).2 = m₃
    at halive hfinal hfinaled ⊢
  have husage := finishUsage_logged env hallocs hfinaled.detached
  have husaged := finishUsage_detached env hfinaled.detached
  generalize finishUsage env m₃ = m₄ at halive husage husaged ⊢
  obtain ⟨halive₄, hwritten⟩ := finishDone_logged env hallocs husaged halive
  obtain ⟨-, hwritten₄⟩ := (hflush.trans (hrole.trans (hfinal.trans husage))) halive₄
  rw [hwritten, hwritten₄]
  have hgr₃ : m₃.gr = { m.gr with roleSent := m.gr.roleSent || !docs.isEmpty } := by
    rw [hfinaled.gr, hrolegr, hgr]
  rw [hrolegr, hgr₃, hgr]
  dsimp only
  constructor
  · rintro ⟨role, deltas, usage, -, -, -, hwhole⟩
    by_contra hutf8
    -- no document can be written, so the head has nothing behind it but the end
    have hempty : docs = [] := List.eq_nil_iff_forall_not_mem.mpr fun doc hdoc => by
      obtain ⟨-, hwritable, rfl⟩ := hdocs doc hdoc
      exact hutf8 ((writable_genSseChunk _ _).mp hwritable).1
    have hhead : m.conn.written = [(.sseHead, false)] := by
      cases hsent : m.gr.roleSent with
      | false =>
        rw [hsent] at hopening
        exact hopening
      | true =>
        rw [hsent] at hopening
        exact absurd hopening.1 hutf8
    have hlen := congrArg List.length hwhole
    simp [genSseChunk_unwritten hutf8, hempty, hhead] at hlen
  · intro hutf8
    obtain ⟨-, role, deltas, hrole, hdeltas, hbegun⟩ :=
      (hopening.flushed hutf8 hdocs).roled hutf8
    refine ⟨role, deltas, if m.gr.includeUsage then some (usageOf m.gr) else none, hrole, hdeltas,
      by cases m.gr.includeUsage <;> rfl, ?_⟩
    simp only [List.map_append, ← List.append_assoc]
    rw [hbegun, genSseChunk_written hutf8 rfl rfl, genSseChunk_written hutf8 rfl rfl]
    cases m.gr.includeUsage <;> simp [sseOf, usageOf]

/-- A chat that is still attached when it drains the end of its stream finishes in order. -/
theorem finishResponse_order {p : StartParams} {reason : FinishReason} (h : Attached p m)
    (hchat : p.chat = true) (hstream : p.stream = true) (hkept : m.gr.suppressWrites = false)
    (halive : (finishResponse env reason m).conn.closing = false) :
    SseOrder p.header p.includeUsage reason (finishResponse env reason m).conn.written ↔
      p.header.Utf8 := by
  have hsse : m.gr.sse = true := h.follows.sse.trans hstream
  have hattached : Attached p (m.tick.setGr { m.gr with detok := (detokFlush m.gr.detok).2 }) :=
    h.congr rfl rfl rfl rfl rfl (fun hf => ⟨hf.chat, hf.sse, hf.header, hf.includeUsage⟩) rfl
  have hfinish : (finishResponse env reason m).conn =
      (finishDetached env (detokFlush m.gr.detok).1 reason
        (m.tick.setGr { m.gr with detok := (detokFlush m.gr.detok).2 })).conn := by
    simp only [finishResponse, touch_open h.opened, hallocs, Bool.not_true, Bool.false_eq_true,
      if_false]
    rw [accumAppend, if_pos (by simp [Loop.setGr, hsse])]
  rw [hfinish] at halive ⊢
  rw [finishDetached_streamed env hattached hsse hkept] at halive ⊢
  obtain ⟨-, hdetached, -, hgr, hwritten, -⟩ := hattached.detach
  have horder := finishSse_order env hallocs hdetached (by rw [hgr]; exact h.follows.chat.trans hchat)
    (by rw [hgr, hwritten, setGr_gr, h.follows.header]; exact h.opening hchat hstream) halive
  rw [hgr] at horder
  rw [← h.follows.header, ← h.follows.includeUsage]
  exact horder

end Allocs

/-! ## The end of every run -/

theorem handleAll_snoc (events : List Event) (e : Event) (m : Loop) :
    handleAll tok env (events ++ [e]) m = handle tok env e (handleAll tok env events m) := by
  simp [handleAll]

/-- Attached or not, a request whose connection is alive at the end has its terminal action. -/
theorem conclude_over {p : StartParams} {c : Chunk Nat} (h : Phase p m)
    (hlast : (∃ kind message, c = .error kind message) ∨ ∃ reason, c = .done reason)
    (halive : m.conn.closing = false) :
    Over (conclude env c m) ∧ (conclude env c m).conn.Ended := by
  rcases h with hattached | hover
  · rcases hlast with ⟨kind, message, rfl⟩ | ⟨reason, rfl⟩
    · exact finishError_over env message kind hattached
    · exact finishResponse_over env reason hattached
  · have hidle : Idle m (conclude env c m) := by
      rcases hlast with ⟨kind, message, rfl⟩ | ⟨reason, rfl⟩
      · exact finishError_idle env message kind hover.conn
      · exact finishResponse_idle env reason hover.conn
    refine ⟨hover.idle hidle, ?_⟩
    rw [hidle.conn]
    exact hover.ended halive

/-- What holds behind the pass that drained the end of the stream: one terminal action, nothing
written after it, and only a close of its own changes the connection. -/
structure Concluded (m : Loop) : Prop where
  ended : m.conn.Ended
  written : ∀ events, (handleAll tok env events m).conn.written = m.conn.written
  quiet : ∀ events e, e ≠ .connClosed →
    (handle tok env e (handleAll tok env events m)).conn = (handleAll tok env events m).conn

/-- A streamed chat that reaches `done` attached and not suppressed, with a connection that takes
all writes. -/
structure StreamedToEnd (p : StartParams) (reason : FinishReason) (c : Chunk Nat)
    (m m' : Loop) : Prop where
  chunk : c = .done reason
  chat : p.chat = true
  stream : p.stream = true
  attached : m.gr.conn = true
  kept : m.gr.suppressWrites = false
  alive : m'.conn.closing = false

/-- Whatever the run, a request that drains the end of its stream with its connection alive takes
one terminal action and leaves the connection alone. A chat streamed to its end is written in
order exactly when the texts of its header are UTF-8. -/
theorem terminal_once (p : StartParams) (before : List Event) (chunks : List (Chunk Nat))
    (c : Chunk Nat) (m₁ : Loop)
    (hdrained : drainedAt tok env chunks (handleAll tok env before (genRequestStart env p)) =
      some (c, m₁))
    (halive : m₁.conn.closing = false) :
    Concluded tok env (handleAll tok env (before ++ [.async chunks]) (genRequestStart env p)) ∧
      ∀ reason, (∀ n, env.allocs n = true) →
        StreamedToEnd p reason c m₁
          (handleAll tok env (before ++ [.async chunks]) (genRequestStart env p)) →
        (SseOrder p.header p.includeUsage reason
          (handleAll tok env (before ++ [.async chunks]) (genRequestStart env p)).conn.written ↔
            p.header.Utf8) := by
  have hphase := handleAll_phase tok env before (start_phase env p)
  rw [handleAll_snoc]
  generalize handleAll tok env before (genRequestStart env p) = m at hdrained hphase ⊢
  rw [drainedAt] at hdrained
  split at hdrained
  · contradiction
  · rename_i hopen
    have hpass : handle tok env (.async chunks) m = conclude env c m₁ := by
      rw [handle, genOnAsync, if_neg hopen, drained_conclude tok env hdrained]
    rw [hpass]
    have hover := conclude_over env (drained_phase tok env hphase hdrained)
      (drained_last tok env hdrained) halive
    refine ⟨⟨hover.2, fun events => (handleAll_over tok env events hover.1).2, ?_⟩, ?_⟩
    · exact fun events e hclose =>
        (handle_over tok env e (handleAll_over tok env events hover.1).1).2.2 hclose
    · rintro reason hallocs ⟨rfl, hchat, hstream, hconn, hkept, halive₂⟩
      rcases drained_phase tok env hphase hdrained with hattached | hgone
      · exact finishResponse_order env hallocs hattached hchat hstream hkept halive₂
      · rw [hgone.conn] at hconn
        contradiction

end Terminal

/-- Every allocation and every write succeeds, and the engine is done. -/
def quietSocket : Env :=
  { allocs := fun _ => true, writes := fun _ => true, released := fun _ => true
    backlog := fun _ => false }

/-- A streamed chat with the usage. -/
def chatStart (model : Bytes) : StartParams :=
  ⟨true, true, true, false, ⟨ascii "chatcmpl-0", model, 0⟩, 1⟩

/-- Two tokens and the end. -/
def twoTokens : List (Chunk Nat) := [.token 0 0, .token 1 0, .done .stop]

/-- The first token's text goes out with the role and the second's after it. -/
theorem terminal_once_tokens :
    SseOrder (chatStart (ascii "m")).header true .stop
        (handleAll BpeMerge.doubleA quietSocket ([] ++ [.async twoTokens])
          (genRequestStart quietSocket (chatStart (ascii "m")))).conn.written ∧
      (handleAll BpeMerge.doubleA quietSocket ([] ++ [.async twoTokens])
        (genRequestStart quietSocket (chatStart (ascii "m")))).conn.written.length = 6 := by
  have hend : (drainedAt BpeMerge.doubleA quietSocket twoTokens
      (genRequestStart quietSocket (chatStart (ascii "m")))).any (fun r => r.1 = .done .stop ∧
        r.2.gr.conn = true ∧ r.2.gr.suppressWrites = false ∧ r.2.conn.closing = false) = true := by
    decide +kernel
  rw [Option.any_eq_true] at hend
  obtain ⟨⟨c, m₁⟩, hdrained, hend⟩ := hend
  obtain ⟨rfl, hconn, hkept, halive⟩ := of_decide_eq_true hend
  have h := (terminal_once BpeMerge.doubleA quietSocket (chatStart (ascii "m")) [] twoTokens _ m₁
    hdrained halive).2 .stop (fun _ => rfl) ⟨rfl, rfl, rfl, hconn, hkept, by decide +kernel⟩
  exact ⟨h.mpr ⟨by decide +kernel, by decide +kernel⟩, by decide +kernel⟩

/-- A model name that is not UTF-8 leaves the head and the end of the stream alone. -/
theorem terminal_unwritable : ¬ ∀ (tok : Tokenizer) (env : Env) (p : StartParams)
    (before : List Event) (chunks : List (Chunk Nat)) (c : Chunk Nat) (m₁ : Loop)
    (reason : FinishReason), (∀ n, env.allocs n = true) →
    drainedAt tok env chunks (handleAll tok env before (genRequestStart env p)) = some (c, m₁) →
    StreamedToEnd p reason c m₁
      (handleAll tok env (before ++ [.async chunks]) (genRequestStart env p)) →
    SseOrder p.header p.includeUsage reason
      (handleAll tok env (before ++ [.async chunks]) (genRequestStart env p)).conn.written := by
  intro h
  obtain ⟨role, deltas, usage, -, -, -, hwritten⟩ := h BpeMerge.doubleA quietSocket
    (chatStart [0xFF]) [] [.done .stop] (.done .stop)
    (genRequestStart quietSocket (chatStart [0xFF])) .stop (fun _ => rfl) rfl
    ⟨rfl, rfl, rfl, rfl, rfl, by decide +kernel⟩
  have hshort : (handleAll BpeMerge.doubleA quietSocket ([] ++ [.async [.done .stop]])
      (genRequestStart quietSocket (chatStart [0xFF]))).conn.written.length = 2 := by
    decide +kernel
  rw [hwritten] at hshort
  simp at hshort

end Mlxd.Http
