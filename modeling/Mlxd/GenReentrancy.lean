import Mlxd.GenRequest

/-!
# Re-entrancy of response generation

A request uses nothing after `begin_close` as long as no chunk's write fails inside the call
while the engine has released the stream. Where that happens the drain loop goes on with a
stream that is gone.
-/
namespace Mlxd.Http

open Mlxd.Unicode Mlxd.Json Mlxd.Engine Mlxd.TokLoad Mlxd.Detok

section Reentrancy

variable (tok : Tokenizer) (env : Env) {m : Loop}

@[simp] theorem tick_gr (m : Loop) : m.tick.gr = m.gr := rfl
@[simp] theorem tick_conn (m : Loop) : m.tick.conn = m.conn := rfl
@[simp] theorem tick_late (m : Loop) : m.tick.late = m.late := rfl
@[simp] theorem setGr_gr (m : Loop) (gr : GenRequest) : (m.setGr gr).gr = gr := rfl
@[simp] theorem setGr_conn (m : Loop) (gr : GenRequest) : (m.setGr gr).conn = m.conn := rfl
@[simp] theorem setGr_late (m : Loop) (gr : GenRequest) : (m.setGr gr).late = m.late := rfl

theorem touch_open {u : Use} (h : m.gr.closing = false) : touch u m = m := by
  rw [touch, if_neg (by simp [h])]

theorem touch_closed {u : Use} (h : m.gr.closing = true) : (touch u m).late = m.late ++ [u] := by
  rw [touch, if_pos h]

/-! ## Between two events -/

/-- An observed connection belongs to a request that is open, and nothing was used late. -/
structure Sound (m : Loop) : Prop where
  late : m.late = []
  observed : m.conn.observer = m.gr.conn
  attached : m.gr.conn = true → m.gr.closing = false ∧ m.conn.closing = false
  timer : m.gr.timerInited = true → m.gr.conn = false

/-- An open request without its connection. -/
structure Detached (m : Loop) : Prop where
  late : m.late = []
  observer : m.conn.observer = false
  conn : m.gr.conn = false
  opened : m.gr.closing = false

theorem Detached.sound (h : Detached m) : Sound m :=
  ⟨h.late, h.observer.trans h.conn.symm, fun hconn => by simp [h.conn] at hconn,
    fun _ => h.conn⟩

theorem teardown_sound (h : Detached m) : Sound (tryTeardown env m) := by
  rw [tryTeardown, if_neg (by simp [h.opened])]
  split
  · exact ⟨h.late, h.observer.trans h.conn.symm, fun hconn => by simp [beginClose, h.conn] at hconn,
      fun _ => h.conn⟩
  · exact ⟨h.late, h.observer.trans h.conn.symm, fun hconn => by simp [h.conn] at hconn,
      fun _ => h.conn⟩

theorem teardown_closing (h : m.gr.closing = false) :
    (tryTeardown env m).gr.closing = env.released m.clock := by
  rw [tryTeardown, if_neg (by simp [h])]
  split
  · rename_i hr
    rw [hr]
    rfl
  · rename_i hr
    simpa [h] using hr

/-! ### A connection that closes -/

/-- The observer of an attached connection detaches the request and tries to tear it down. -/
theorem closeConn_attached (h : Sound m) (hconn : m.gr.conn = true) :
    ∃ m', Detached m' ∧ m'.clock = m.clock ∧ m'.gr.sse = m.gr.sse ∧
      closeConn env m = tryTeardown env m' := by
  obtain ⟨hopen, hclosing⟩ := h.attached hconn
  refine ⟨_, ?_, ?_, ?_, by rw [closeConn, if_neg (by simp [hclosing]),
    if_pos (h.observed.trans hconn), onConnGone]⟩
  all_goals simp only [streamCancel]; rw [touch_open (by exact hopen)]
  · exact ⟨h.late, rfl, rfl, hopen⟩
  · rfl
  · rfl

theorem closeConn_detached (hobs : m.conn.observer = false) :
    (closeConn env m).gr = m.gr ∧ (closeConn env m).late = m.late ∧
      (closeConn env m).conn.observer = false := by
  rw [closeConn]
  split
  · exact ⟨rfl, rfl, hobs⟩
  · rw [if_neg (by simp [hobs])]
    exact ⟨rfl, rfl, rfl⟩

theorem closeConn_sound (h : Sound m) : Sound (closeConn env m) := by
  cases hconn : m.gr.conn with
  | true =>
    obtain ⟨m', hdetached, -, -, hclose⟩ := closeConn_attached env h hconn
    rw [hclose]
    exact teardown_sound env hdetached
  | false =>
    obtain ⟨hgr, hlate, hobs⟩ := closeConn_detached env (h.observed.trans hconn)
    refine ⟨hlate.trans h.late, by rw [hobs, hgr, hconn], fun hattached => ?_,
      fun _ => hgr ▸ hconn⟩
    rw [hgr, hconn] at hattached
    contradiction

/-! ### Writes without an observer -/

/-- What a write of a detached request leaves alone. -/
structure Kept (m m' : Loop) : Prop where
  gr : m'.gr = m.gr
  detached : Detached m'

theorem Detached.kept (h : Detached m) : Kept m m := ⟨rfl, h⟩

theorem Detached.tick (h : Detached m) : Detached m.tick := ⟨h.late, h.observer, h.conn, h.opened⟩

theorem Kept.trans {m₁ m₂ m₃ : Loop} (h : Kept m₁ m₂) (h' : Kept m₂ m₃) : Kept m₁ m₃ :=
  ⟨h'.gr.trans h.gr, h'.detached⟩

theorem close_kept (h : Detached m) : Kept m (httpConnClose env m) := by
  rw [httpConnClose, touch_open h.opened]
  obtain ⟨hgr, hlate, hobs⟩ := closeConn_detached env h.observer
  exact ⟨hgr, hlate.trans h.late, hobs, by rw [hgr]; exact h.conn, by rw [hgr]; exact h.opened⟩

theorem write_kept {wire : Wire} {closeAfter : Bool} (h : Detached m) :
    Kept m (httpConnWrite env wire closeAfter m) := by
  rw [httpConnWrite, touch_open h.opened, queueWrite]
  split
  · exact h.kept
  · split
    · exact ⟨rfl, h.late, h.observer, h.conn, h.opened⟩
    · obtain ⟨hgr, hlate, hobs⟩ := closeConn_detached env (m := m.tick) h.observer
      exact ⟨hgr, hlate.trans h.late, hobs, by rw [hgr]; exact h.conn, by rw [hgr]; exact h.opened⟩

theorem writeSse_kept (doc : Value) (h : Detached m) : Kept m (writeSse env doc m).2 := by
  rw [writeSse, build]
  split
  · rename_i heq
    rw [← (Prod.mk.inj heq).2]
    exact ⟨rfl, h.tick⟩
  · rename_i heq
    rw [← (Prod.mk.inj heq).2]
    exact (show Kept m m.tick from ⟨rfl, h.tick⟩).trans (write_kept env h.tick)

theorem finishDone_detached (h : Detached m) : Detached (finishDone env m) := by
  rw [finishDone]
  split
  · exact (write_kept env h.tick).detached
  · exact (close_kept env h.tick).detached

theorem respond_detached {status : Nat} {doc : Value} (h : Detached m) :
    Detached (respond env status doc m) := by
  rw [respond, build]
  split
  · rename_i heq
    rw [← (Prod.mk.inj heq).2]
    exact (close_kept env h.tick).detached
  · rename_i heq
    rw [← (Prod.mk.inj heq).2]
    split
    · exact (write_kept env h.tick.tick).detached
    · exact (close_kept env h.tick.tick).detached

/-- Marking the role as sent does not attach anything. -/
theorem Detached.role (h : Detached m) : Detached (m.setGr { m.gr with roleSent := true }) :=
  ⟨h.late, h.observer, h.conn, h.opened⟩

theorem finishFlush_detached (flushOut : Bytes) (h : Detached m) :
    Detached (finishFlush env flushOut m) := by
  rw [finishFlush]
  split
  · exact h
  · split
    · have hwrite := (writeSse_kept env (genSseChunk m.gr.header
        { roleFirst := !m.gr.roleSent, deltaText := some flushOut }) h).detached
      dsimp only
      split
      · exact hwrite.role
      · exact hwrite
    · exact (writeSse_kept env _ h).detached

theorem finishRole_detached (h : Detached m) : Detached (finishRole env m) := by
  rw [finishRole]
  split
  · exact h
  · exact (writeSse_kept env _ h).detached

theorem finishUsage_detached (h : Detached m) : Detached (finishUsage env m) := by
  rw [finishUsage]
  split
  · exact (writeSse_kept env _ h).detached
  · exact h

theorem finishSse_detached {flushOut : Bytes} {reason : FinishReason} (h : Detached m) :
    Detached (finishSse env flushOut reason m) := by
  have hflush := finishFlush_detached env flushOut h
  simp only [finishSse]
  split
  · exact finishDone_detached env (finishUsage_detached env
      (writeSse_kept env _ (finishRole_detached env hflush)).detached)
  · exact finishDone_detached env (writeSse_kept env _ hflush).detached

/-! ### Ends of a response -/

/-- Detaching leaves an open request without its connection. -/
theorem detach_detached (h : Sound m) (hopen : m.gr.closing = false) :
    Detached (detachConn m).2 := by
  rw [detachConn]
  split
  · exact ⟨h.late, rfl, rfl, hopen⟩
  · rename_i hconn
    rw [Bool.not_eq_true] at hconn
    exact ⟨h.late, h.observed.trans hconn, hconn, hopen⟩

/-- The end of a response: detach, close the connection or answer on it, and go. -/
def answered (answer : Loop → Loop) (m : Loop) : Loop :=
  tryTeardown env
    (if (detachConn m).1 = true then
      if (detachConn m).2.gr.suppressWrites then httpConnClose env (detachConn m).2
      else answer (detachConn m).2
    else (detachConn m).2)

def answerError (message : String) (kind : GenErrKind) (m : Loop) : Loop :=
  let doc := errorEnvelopeSerialize message (errorKindMap kind).2.1 (errorKindMap kind).2.2
  if m.gr.sse then finishDone env (writeSse env doc m).2
  else respond env (errorKindMap kind).1 doc m

def answerResponse (flushOut : Bytes) (reason : FinishReason) (m : Loop) : Loop :=
  if m.gr.sse then finishSse env flushOut reason m else finishWhole env reason m

theorem finishError_eq (message : String) (kind : GenErrKind) (m : Loop) :
    finishError env message kind m = answered env (answerError env message kind) m := by
  simp only [finishError, answered]
  obtain ⟨conn, m'⟩ := detachConn m
  cases conn with
  | true => rfl
  | false => rfl

theorem finishDetached_eq (flushOut : Bytes) (reason : FinishReason) (m : Loop) :
    finishDetached env flushOut reason m = answered env (answerResponse env flushOut reason) m := by
  simp only [finishDetached, answered]
  obtain ⟨conn, m'⟩ := detachConn m
  cases conn with
  | true => rfl
  | false => rfl

theorem answered_sound {answer : Loop → Loop} (hanswer : ∀ m, Detached m → Detached (answer m))
    (h : Sound m) (hopen : m.gr.closing = false) : Sound (answered env answer m) := by
  have hdetached := detach_detached h hopen
  apply teardown_sound env
  split
  · split
    · exact (close_kept env hdetached).detached
    · exact hanswer _ hdetached
  · exact hdetached

theorem answerError_detached (message : String) (kind : GenErrKind) (h : Detached m) :
    Detached (answerError env message kind m) := by
  simp only [answerError]
  split
  · exact finishDone_detached env (writeSse_kept env _ h).detached
  · exact respond_detached env h

theorem answerResponse_detached (flushOut : Bytes) (reason : FinishReason) (h : Detached m) :
    Detached (answerResponse env flushOut reason m) := by
  rw [answerResponse]
  split
  · exact finishSse_detached env h
  · exact respond_detached env h

theorem finishError_sound {message : String} {kind : GenErrKind} (h : Sound m)
    (hopen : m.gr.closing = false) : Sound (finishError env message kind m) := by
  rw [finishError_eq]
  exact answered_sound env (fun _ => answerError_detached env message kind) h hopen

theorem finishDetached_sound {flushOut : Bytes} {reason : FinishReason} (h : Sound m)
    (hopen : m.gr.closing = false) : Sound (finishDetached env flushOut reason m) := by
  rw [finishDetached_eq]
  exact answered_sound env (fun _ => answerResponse_detached env flushOut reason) h hopen

/-- Changes of the request's own fields. -/
theorem Sound.congr {m' : Loop} (h : Sound m) (hlate : m'.late = m.late)
    (hobs : m'.conn.observer = m.conn.observer) (hclosing : m'.conn.closing = m.conn.closing)
    (hconn : m'.gr.conn = m.gr.conn) (hopen : m'.gr.closing = m.gr.closing)
    (htimer : m'.gr.timerInited = m.gr.timerInited) : Sound m' := by
  refine ⟨hlate.trans h.late, by rw [hobs, hconn]; exact h.observed, ?_, ?_⟩
  · rw [hconn, hclosing, hopen]
    exact h.attached
  · rw [htimer, hconn]
    exact h.timer

theorem accumAppend_sound {s : Bytes} {room : Bool} {m' : Loop} (h : Sound m)
    (happend : accumAppend env s m = (room, m')) :
    Sound m' ∧ m'.gr.closing = m.gr.closing := by
  rw [accumAppend] at happend
  split at happend
  · rw [← (Prod.mk.inj happend).2]
    exact ⟨h, rfl⟩
  · rw [← (Prod.mk.inj happend).2]
    split
    · exact ⟨h.congr rfl rfl rfl rfl rfl rfl, rfl⟩
    · exact ⟨h.congr rfl rfl rfl rfl rfl rfl, rfl⟩

theorem finishResponse_sound {reason : FinishReason} (h : Sound m)
    (hopen : m.gr.closing = false) : Sound (finishResponse env reason m) := by
  simp only [finishResponse, touch_open hopen]
  split
  · exact finishError_sound env (h.congr rfl rfl rfl rfl rfl rfl) hopen
  · have hflushed : Sound (m.tick.setGr { m.gr with detok := (detokFlush m.gr.detok).2 }) :=
      h.congr rfl rfl rfl rfl rfl rfl
    split
    · rename_i heq
      obtain ⟨happend, hstill⟩ := accumAppend_sound env hflushed heq
      exact finishError_sound env happend (hstill.trans hopen)
    · rename_i heq
      obtain ⟨happend, hstill⟩ := accumAppend_sound env hflushed heq
      exact finishDetached_sound env happend (hstill.trans hopen)

/-! ## Tokens -/

/-- The chunk of a piece is written, the write fails, and the engine has released the stream. -/
def ChunkFails (gr : GenRequest) (clock : Nat) (piece : Bytes) (logprob : Nat) : Prop :=
  gr.connGone = false ∧ gr.conn = true ∧ gr.suppressWrites = false ∧
    (∃ doc, emitDoc gr piece logprob = some doc ∧ writable doc = true) ∧
    env.allocs clock = true ∧ env.writes (clock + 1) = false ∧ env.released (clock + 2) = true

theorem write_attached (wire : Wire) (h : Sound m) (hconn : m.gr.conn = true) :
    Sound (httpConnWrite env wire false m) ∧
      ((httpConnWrite env wire false m).gr.closing = true ↔
        env.writes m.clock = false ∧ env.released (m.clock + 1) = true) := by
  obtain ⟨hopen, hclosing⟩ := h.attached hconn
  rw [httpConnWrite, touch_open hopen, queueWrite, if_neg (by simp [hclosing])]
  split
  · rename_i hwrites
    refine ⟨h.congr rfl rfl rfl rfl rfl rfl, ?_⟩
    simp [hwrites, hopen]
  · rename_i hwrites
    have htick : Sound m.tick := h.congr rfl rfl rfl rfl rfl rfl
    obtain ⟨m', hdetached, hclock, -, hclose⟩ := closeConn_attached env htick hconn
    refine ⟨closeConn_sound env htick, ?_⟩
    rw [hclose, teardown_closing env hdetached.opened, hclock]
    simp only [Loop.tick, Bool.not_eq_true] at hwrites ⊢
    simp [hwrites]

theorem writeSse_attached (doc : Value) (h : Sound m) (hconn : m.gr.conn = true) :
    Sound (writeSse env doc m).2 ∧
      ((writeSse env doc m).2.gr.closing = true ↔ env.allocs m.clock = true ∧
        writable doc = true ∧ env.writes (m.clock + 1) = false ∧
        env.released (m.clock + 2) = true) := by
  have hopen := (h.attached hconn).1
  have htick : Sound m.tick := h.congr rfl rfl rfl rfl rfl rfl
  rw [writeSse, build, yyjsonMutWrite]
  by_cases hbuilt : env.allocs m.clock = true ∧ writable doc = true
  · obtain ⟨hsound, hiff⟩ := write_attached env (.sse doc) htick hconn
    simp only [hbuilt, if_true, true_and]
    exact ⟨hsound, hiff⟩
  · have hnone : (if env.allocs m.clock = true then
        if writable doc = true then some doc else none else none) = none := by
      split
      · rename_i hallocs
        exact if_neg fun hdoc => hbuilt ⟨hallocs, hdoc⟩
      · rfl
    simp only [hnone]
    refine ⟨htick, ?_⟩
    simp only [tick_gr, hopen, Bool.false_eq_true, false_iff]
    exact fun hall => hbuilt ⟨hall.1, hall.2.1⟩

theorem emit_sound (piece : Bytes) (logprob : Nat) (h : Sound m) (hopen : m.gr.closing = false) :
    Sound (emitSseChunk env piece logprob m) ∧
      ((emitSseChunk env piece logprob m).gr.closing = true ↔
        ChunkFails env m.gr m.clock piece logprob) := by
  rw [emitSseChunk]
  split
  · rename_i hguard
    refine ⟨h, ?_⟩
    simp only [Bool.or_eq_true, Bool.not_eq_true'] at hguard
    simp only [hopen, Bool.false_eq_true, false_iff]
    rintro ⟨hgone, hconn, hsuppress, -⟩
    simp [hgone, hconn, hsuppress] at hguard
  · rename_i hguard
    simp only [Bool.or_eq_true, Bool.not_eq_true', not_or, Bool.not_eq_true,
      Bool.not_eq_false] at hguard
    obtain ⟨⟨hgone, hconn⟩, hsuppress⟩ := hguard
    cases hdoc : emitDoc m.gr piece logprob with
    | none =>
      refine ⟨h, ?_⟩
      simp [hopen, ChunkFails, hdoc]
    | some doc =>
      obtain ⟨hsound, hiff⟩ := writeSse_attached env doc h hconn
      have hfails : ChunkFails env m.gr m.clock piece logprob ↔ env.allocs m.clock = true ∧
          writable doc = true ∧ env.writes (m.clock + 1) = false ∧
          env.released (m.clock + 2) = true := by
        simp only [ChunkFails, hgone, hconn, hsuppress, hdoc, Option.some.injEq, exists_eq_left',
          true_and]
        tauto
      rw [hfails, ← hiff]
      dsimp only
      split
      · exact ⟨hsound.congr rfl rfl rfl rfl rfl rfl, Iff.rfl⟩
      · exact ⟨hsound, Iff.rfl⟩

theorem streamCancel_sound (h : Sound m) (hopen : m.gr.closing = false) :
    Sound (streamCancel m) ∧ (streamCancel m).gr.closing = false := by
  rw [streamCancel, touch_open hopen]
  exact ⟨h.congr rfl rfl rfl rfl rfl rfl, hopen⟩

theorem checkBacklog_sound (h : Sound m) : Sound (checkBacklog env m) ∧
    (checkBacklog env m).gr.closing = m.gr.closing := by
  rw [checkBacklog]
  split
  · exact ⟨h, rfl⟩
  · rename_i hguard
    have hconn : m.gr.conn = true := by
      simp only [Bool.or_eq_true, Bool.not_eq_true', not_or, Bool.not_eq_false] at hguard
      exact hguard.2
    have hopen := (h.attached hconn).1
    rw [touch_open hopen]
    dsimp only
    split
    · obtain ⟨hsound, hstill⟩ := streamCancel_sound (m := m.tick.setGr
        { m.gr with suppressWrites := true }) (h.congr rfl rfl rfl rfl rfl rfl) hopen
      exact ⟨hsound, hstill.trans hopen.symm⟩
    · exact ⟨h.congr rfl rfl rfl rfl rfl rfl, rfl⟩

theorem keepPiece_sound (piece : Bytes) (logprob : Nat) (h : Sound m) :
    Sound (keepPiece env piece logprob m).2 ∧
      (keepPiece env piece logprob m).2.gr.closing = m.gr.closing := by
  rw [keepPiece]
  split
  · exact ⟨h, rfl⟩
  · split
    · rename_i heq
      exact accumAppend_sound env h heq
    · rename_i heq
      obtain ⟨happend, hstill⟩ := accumAppend_sound env h heq
      split
      · exact ⟨happend, hstill⟩
      · split
        · exact ⟨happend.congr rfl rfl rfl rfl rfl rfl, hstill⟩
        · exact ⟨happend.congr rfl rfl rfl rfl rfl rfl, hstill⟩

theorem onPiece_sound (piece : Bytes) (logprob : Nat) (h : Sound m)
    (hopen : m.gr.closing = false) : Sound (onPiece env piece logprob m).2 ∧
      ((onPiece env piece logprob m).1 = true →
        ((onPiece env piece logprob m).2.gr.closing = true ↔ m.gr.sse = true ∧ piece ≠ [] ∧
          ChunkFails env m.gr m.clock piece logprob)) ∧
      (m.gr.sse = true → (onPiece env piece logprob m).1 = true) := by
  rw [onPiece]
  split
  · rename_i hsse
    have hemit : Sound (if piece = [] then m else emitSseChunk env piece logprob m) ∧
        ((if piece = [] then m else emitSseChunk env piece logprob m).gr.closing = true ↔
          piece ≠ [] ∧ ChunkFails env m.gr m.clock piece logprob) := by
      split
      · rename_i hpiece
        exact ⟨h, by simp [hopen, hpiece]⟩
      · rename_i hpiece
        obtain ⟨hsound, hiff⟩ := emit_sound env piece logprob h hopen
        exact ⟨hsound, by simp [hiff, hpiece]⟩
    obtain ⟨hsound, hstill⟩ := checkBacklog_sound env hemit.1
    refine ⟨hsound, fun _ => ?_, fun _ => rfl⟩
    rw [hstill, hemit.2]
    simp [hsse]
  · rename_i hsse
    obtain ⟨hkeep, hstill⟩ := keepPiece_sound env piece logprob h
    split
    · rename_i heq
      rw [heq] at hkeep hstill
      obtain ⟨hcancel, hcancelOpen⟩ := streamCancel_sound hkeep (hstill.trans hopen)
      dsimp only
      exact ⟨finishError_sound env hcancel hcancelOpen, fun hgo => by simp at hgo,
        fun hyes => absurd hyes hsse⟩
    · rename_i heq
      rw [heq] at hkeep hstill
      dsimp only at hkeep hstill ⊢
      refine ⟨hkeep, fun _ => ?_, fun hyes => absurd hyes hsse⟩
      simp [hstill, hopen, hsse]

/-- What a token changes before its piece goes out has no part in it. -/
theorem chunkFails_fed (gr : GenRequest) (n : Int) (rest : Bytes) (clock : Nat) (piece : Bytes)
    (logprob : Nat) : ChunkFails env { gr with completionTokens := n, detok := rest } clock piece
      logprob ↔ ChunkFails env gr clock piece logprob := Iff.rfl

/-- The chunk a streamed token's piece goes out in fails, with the stream released. -/
def Hits (id : Int) (logprob : Nat) (m : Loop) : Prop :=
  m.gr.sse = true ∧ env.allocs m.clock = true ∧ ∃ piece rest,
    detokFeed tok m.gr.detok id = some (piece, rest) ∧ piece ≠ [] ∧
      ChunkFails env m.gr (m.clock + 1) piece logprob

/-- The token counted. -/
def counted (m : Loop) : Loop :=
  m.setGr { m.gr with completionTokens := m.gr.completionTokens + 1 }

theorem touch_counted (hopen : m.gr.closing = false) :
    touch .detok (m.setGr { m.gr with completionTokens := m.gr.completionTokens + 1 }) =
      counted m := touch_open hopen

theorem onToken_fed {id : Int} {logprob : Nat} {piece rest : Bytes}
    (hopen : m.gr.closing = false) (hallocs : env.allocs m.clock = true)
    (hfeed : detokFeed tok m.gr.detok id = some (piece, rest)) : onToken tok env id logprob m =
      onPiece env piece logprob
        ((counted m).tick.setGr { (counted m).gr with detok := rest }) := by
  simp only [onToken, touch_counted hopen]
  rw [if_pos (show env.allocs (counted m).clock = true from hallocs),
    show (counted m).gr.detok = m.gr.detok from rfl, hfeed]

theorem onToken_unfed {id : Int} {logprob : Nat} (hopen : m.gr.closing = false)
    (hunfed : ¬ (env.allocs m.clock = true ∧ (detokFeed tok m.gr.detok id).isSome)) :
    onToken tok env id logprob m =
      (false, finishError env "detokenizer error" .internal (streamCancel (counted m).tick)) := by
  have hnone : (if env.allocs (counted m).clock = true then detokFeed tok (counted m).gr.detok id
      else none) = none := by
    split
    · rename_i hallocs
      exact Option.not_isSome_iff_eq_none.mp fun hsome => hunfed ⟨hallocs, hsome⟩
    · rfl
  simp only [onToken, touch_counted hopen, hnone]

theorem onToken_sound (id : Int) (logprob : Nat) (h : Sound m) (hopen : m.gr.closing = false) :
    Sound (onToken tok env id logprob m).2 ∧ ((onToken tok env id logprob m).1 = true →
      ((onToken tok env id logprob m).2.gr.closing = true ↔ Hits tok env id logprob m)) ∧
      (Hits tok env id logprob m → (onToken tok env id logprob m).1 = true) := by
  have hcounted : Sound (counted m) := h.congr rfl rfl rfl rfl rfl rfl
  by_cases hfed : env.allocs m.clock = true ∧ (detokFeed tok m.gr.detok id).isSome
  · obtain ⟨⟨piece, rest⟩, hfeed⟩ := Option.isSome_iff_exists.mp hfed.2
    rw [onToken_fed tok env hopen hfed.1 hfeed, Hits]
    simp only [hfed.1, hfeed, Option.some.injEq, Prod.mk.injEq, true_and]
    obtain ⟨hsound, hclosing, hgo⟩ := onPiece_sound env piece logprob
      (m := (counted m).tick.setGr { (counted m).gr with detok := rest })
      (hcounted.congr rfl rfl rfl rfl rfl rfl) hopen
    have hfails := chunkFails_fed env m.gr (m.gr.completionTokens + 1) rest (m.clock + 1)
      piece logprob
    refine ⟨hsound, fun hon => (hclosing hon).trans ?_, fun hhits => hgo hhits.1⟩
    change m.gr.sse = true ∧ piece ≠ [] ∧ ChunkFails env
      { m.gr with completionTokens := m.gr.completionTokens + 1, detok := rest } (m.clock + 1)
      piece logprob ↔ _
    rw [hfails]
    constructor
    · rintro ⟨hsse, hpiece, hfails⟩
      exact ⟨hsse, piece, rest, ⟨rfl, rfl⟩, hpiece, hfails⟩
    · rintro ⟨hsse, _, _, ⟨rfl, rfl⟩, hpiece, hfails⟩
      exact ⟨hsse, hpiece, hfails⟩
  · rw [onToken_unfed tok env hopen hfed]
    obtain ⟨hcancel, hcancelOpen⟩ := streamCancel_sound (m := (counted m).tick)
      (hcounted.congr rfl rfl rfl rfl rfl rfl) hopen
    dsimp only
    refine ⟨finishError_sound env hcancel hcancelOpen, fun hon => by simp at hon, ?_⟩
    rintro ⟨-, hallocs, piece, rest, hfeed, -⟩
    exact absurd ⟨hallocs, by simp [hfeed]⟩ hfed

/-! ## The log only grows -/

/-- What was used late stays in the log. -/
def Grows (m m' : Loop) : Prop := m.late <+: m'.late

theorem Grows.rfl : Grows m m := List.prefix_rfl

theorem Grows.trans {m₁ m₂ m₃ : Loop} (h : Grows m₁ m₂) (h' : Grows m₂ m₃) : Grows m₁ m₃ :=
  List.IsPrefix.trans h h'

theorem touch_grows (u : Use) : Grows m (touch u m) := by
  rw [touch]
  split
  · exact List.prefix_append _ _
  · exact .rfl

theorem streamCancel_grows : Grows m (streamCancel m) := touch_grows .stream

theorem teardown_grows : Grows m (tryTeardown env m) := by
  rw [tryTeardown]
  split
  · exact .rfl
  · split <;> exact .rfl

theorem onConnGone_grows : Grows m (onConnGone env m) :=
  Grows.trans (streamCancel_grows (m := m.setGr { m.gr with connGone := true, conn := false }))
    (teardown_grows env)

theorem closeConn_grows : Grows m (closeConn env m) := by
  rw [closeConn]
  split
  · exact .rfl
  · dsimp only
    split
    · exact onConnGone_grows (m := { m with conn := ⟨true, false, m.conn.written⟩ }) env
    · exact .rfl

theorem close_grows : Grows m (httpConnClose env m) :=
  (touch_grows .conn).trans (closeConn_grows env)

theorem write_grows (wire : Wire) (closeAfter : Bool) :
    Grows m (httpConnWrite env wire closeAfter m) := by
  refine (touch_grows .conn).trans ?_
  rw [httpConnWrite, queueWrite]
  split
  · exact .rfl
  · split
    · exact .rfl
    · exact closeConn_grows (m := Loop.tick _) env

theorem writeSse_grows (doc : Value) : Grows m (writeSse env doc m).2 := by
  rw [writeSse, build]
  split
  · rename_i heq
    rw [← (Prod.mk.inj heq).2]
    exact .rfl
  · rename_i heq
    rw [← (Prod.mk.inj heq).2]
    exact write_grows (m := m.tick) env _ _

theorem finishDone_grows : Grows m (finishDone env m) := by
  rw [finishDone]
  split
  · exact write_grows (m := m.tick) env _ _
  · exact close_grows (m := m.tick) env

theorem respond_grows (status : Nat) (doc : Value) : Grows m (respond env status doc m) := by
  rw [respond, build]
  split
  · rename_i heq
    rw [← (Prod.mk.inj heq).2]
    exact close_grows (m := m.tick) env
  · rename_i heq
    rw [← (Prod.mk.inj heq).2]
    split
    · exact write_grows (m := m.tick.tick) env _ _
    · exact close_grows (m := m.tick.tick) env

theorem detach_grows : Grows m (detachConn m).2 := by
  rw [detachConn]
  split <;> exact .rfl

theorem answered_grows {answer : Loop → Loop} (hanswer : ∀ m, Grows m (answer m)) :
    Grows m (answered env answer m) := by
  refine (detach_grows (m := m)).trans (Grows.trans ?_ (teardown_grows env))
  split
  · split
    · exact close_grows env
    · exact hanswer _
  · exact .rfl

theorem finishError_grows (message : String) (kind : GenErrKind) :
    Grows m (finishError env message kind m) := by
  rw [finishError_eq]
  refine answered_grows env fun m => ?_
  simp only [answerError]
  split
  · exact (writeSse_grows env _).trans (finishDone_grows env)
  · exact respond_grows env _ _

theorem finishFlush_grows (flushOut : Bytes) : Grows m (finishFlush env flushOut m) := by
  rw [finishFlush]
  split
  · exact .rfl
  · split
    · dsimp only
      split
      · exact (writeSse_grows env _).trans .rfl
      · exact writeSse_grows env _
    · exact writeSse_grows env _

theorem finishSse_grows (flushOut : Bytes) (reason : FinishReason) :
    Grows m (finishSse env flushOut reason m) := by
  refine (finishFlush_grows env flushOut).trans ?_
  simp only [finishSse]
  generalize finishFlush env flushOut m = m₁
  split
  · have hrole : Grows m₁ (finishRole env m₁) := by
      rw [finishRole]
      split
      · exact .rfl
      · exact writeSse_grows env _
    have husage : ∀ m₂, Grows m₂ (finishUsage env m₂) := by
      intro m₂
      rw [finishUsage]
      split
      · exact writeSse_grows env _
      · exact .rfl
    exact ((hrole.trans (writeSse_grows env _)).trans (husage _)).trans (finishDone_grows env)
  · exact (writeSse_grows env _).trans (finishDone_grows env)

theorem accumAppend_grows {s : Bytes} {room : Bool} {m' : Loop}
    (happend : accumAppend env s m = (room, m')) : Grows m m' := by
  rw [accumAppend] at happend
  split at happend
  · rw [← (Prod.mk.inj happend).2]
    exact .rfl
  · rw [← (Prod.mk.inj happend).2]
    split <;> exact .rfl

theorem finishDetached_grows (flushOut : Bytes) (reason : FinishReason) :
    Grows m (finishDetached env flushOut reason m) := by
  rw [finishDetached_eq]
  refine answered_grows env fun m => ?_
  rw [answerResponse]
  split
  · exact finishSse_grows env _ _
  · exact respond_grows env _ _

theorem finishResponse_grows (reason : FinishReason) : Grows m (finishResponse env reason m) := by
  refine (touch_grows .detok).trans ?_
  simp only [finishResponse]
  generalize touch .detok m = m
  split
  · exact finishError_grows (m := m.tick) env _ _
  · split
    · rename_i heq
      have happend := accumAppend_grows env heq
      exact happend.trans (finishError_grows env _ _)
    · rename_i heq
      have happend := accumAppend_grows env heq
      exact happend.trans (finishDetached_grows env _ _)

theorem emit_grows (piece : Bytes) (logprob : Nat) :
    Grows m (emitSseChunk env piece logprob m) := by
  rw [emitSseChunk]
  split
  · exact .rfl
  · split
    · exact .rfl
    · dsimp only
      split <;> exact writeSse_grows env _

theorem checkBacklog_grows : Grows m (checkBacklog env m) := by
  rw [checkBacklog]
  split
  · exact .rfl
  · dsimp only
    split
    · refine (touch_grows .conn).trans ?_
      exact streamCancel_grows (m := (touch .conn m).tick.setGr
        { (touch .conn m).gr with suppressWrites := true })
    · exact touch_grows .conn

theorem keepPiece_grows (piece : Bytes) (logprob : Nat) :
    Grows m (keepPiece env piece logprob m).2 := by
  rw [keepPiece]
  split
  · exact .rfl
  · split
    · rename_i heq
      exact accumAppend_grows env heq
    · rename_i heq
      have happend := accumAppend_grows env heq
      split
      · exact happend
      · split <;> exact happend

theorem onPiece_grows (piece : Bytes) (logprob : Nat) :
    Grows m (onPiece env piece logprob m).2 := by
  rw [onPiece]
  split
  · dsimp only
    split
    · exact checkBacklog_grows env
    · exact (emit_grows env _ _).trans (checkBacklog_grows env)
  · have hkeep := keepPiece_grows (m := m) env piece logprob
    split
    · rename_i heq
      rw [heq] at hkeep
      dsimp only at hkeep ⊢
      exact (hkeep.trans streamCancel_grows).trans (finishError_grows env _ _)
    · rename_i heq
      rw [heq] at hkeep
      exact hkeep

theorem onToken_grows (id : Int) (logprob : Nat) : Grows m (onToken tok env id logprob m).2 := by
  refine Grows.trans (touch_grows (m := m.setGr
    { m.gr with completionTokens := m.gr.completionTokens + 1 }) .detok) ?_
  simp only [onToken]
  generalize touch .detok (m.setGr
    { m.gr with completionTokens := m.gr.completionTokens + 1 }) = counted
  split
  · dsimp only
    exact Grows.trans (streamCancel_grows (m := counted.tick)) (finishError_grows env _ _)
  · exact onPiece_grows (m := counted.tick.setGr _) env _ _

/-- The loop reads on exactly behind a token that can be answered. -/
theorem drainLoop_token (id : Int) (logprob : Nat) (rest : List (Chunk Nat)) :
    drainLoop tok env (.token id logprob :: rest) m =
      if (onToken tok env id logprob (touch .stream m)).1 = true then
        drainLoop tok env rest (onToken tok env id logprob (touch .stream m)).2
      else (onToken tok env id logprob (touch .stream m)).2 := by
  simp only [drainLoop]
  obtain ⟨go, m'⟩ := onToken tok env id logprob (touch .stream m)
  cases go with
  | true => rfl
  | false => rfl

theorem drain_grows (chunks : List (Chunk Nat)) : Grows m (drainLoop tok env chunks m) := by
  induction chunks generalizing m with
  | nil => exact touch_grows .stream
  | cons c rest ih =>
    refine (touch_grows .stream).trans ?_
    cases c with
    | token id logprob =>
      have htoken := onToken_grows (m := touch .stream m) tok env id logprob
      rw [drainLoop_token]
      split
      · exact htoken.trans ih
      · exact htoken
    | error kind message => exact finishError_grows env _ _
    | done reason => exact finishResponse_grows env _

/-! ## The drain loop -/

/-- No token of the loop hits, as far as the loop reads. -/
def Avoids : List (Chunk Nat) → Loop → Prop
  | .token id logprob :: rest, m => ¬ Hits tok env id logprob m ∧
      ((onToken tok env id logprob m).1 = true → Avoids rest (onToken tok env id logprob m).2)
  | _, _ => True

/-- With the request closed the next read is already too late. -/
theorem drain_closed (chunks : List (Chunk Nat)) (hclosed : m.gr.closing = true) :
    (drainLoop tok env chunks m).late ≠ [] := by
  have htouch : (touch .stream m).late ≠ [] := by
    rw [touch_closed hclosed]
    exact List.concat_ne_nil _ _
  cases chunks with
  | nil => exact htouch
  | cons c rest =>
    have hgrows : Grows (touch .stream m) (drainLoop tok env (c :: rest) m) := by
      cases c with
      | token id logprob =>
        have htoken := onToken_grows (m := touch .stream m) tok env id logprob
        rw [drainLoop_token]
        split
        · exact htoken.trans (drain_grows tok env _)
        · exact htoken
      | error kind message => exact finishError_grows env _ _
      | done reason => exact finishResponse_grows env _
    intro hnone
    have := List.IsPrefix.length_le hgrows
    rw [hnone] at this
    exact htouch (List.eq_nil_of_length_eq_zero (Nat.le_zero.mp this))

theorem drain_sound (chunks : List (Chunk Nat)) (h : Sound m) (hopen : m.gr.closing = false)
    (havoids : Avoids tok env chunks m) : Sound (drainLoop tok env chunks m) := by
  induction chunks generalizing m with
  | nil =>
    rw [drainLoop, touch_open hopen]
    exact h
  | cons c rest ih =>
    cases c with
    | token id logprob =>
      obtain ⟨hsound, hclosing, -⟩ := onToken_sound tok env id logprob h hopen
      obtain ⟨hnot, hrest⟩ := havoids
      rw [drainLoop_token, touch_open hopen]
      split
      · next hgo =>
        refine ih hsound ?_ (hrest hgo)
        rw [← Bool.not_eq_true, hclosing hgo]
        exact hnot
      · exact hsound
    | error kind message =>
      rw [drainLoop, touch_open hopen]
      exact finishError_sound env h hopen
    | done reason =>
      rw [drainLoop, touch_open hopen]
      exact finishResponse_sound env h hopen

theorem drain_late (chunks : List (Chunk Nat)) (h : Sound m) (hopen : m.gr.closing = false)
    (hhits : ¬ Avoids tok env chunks m) : (drainLoop tok env chunks m).late ≠ [] := by
  induction chunks generalizing m with
  | nil => exact absurd trivial hhits
  | cons c rest ih =>
    cases c with
    | token id logprob =>
      obtain ⟨hsound, hclosing, hgo⟩ := onToken_sound tok env id logprob h hopen
      rw [Avoids, not_and_or, not_not] at hhits
      rw [drainLoop_token, touch_open hopen]
      split
      · next hnext =>
        rcases hhits with hhit | hrest
        · exact drain_closed tok env rest ((hclosing hnext).mpr hhit)
        · by_cases hhit : Hits tok env id logprob m
          · exact drain_closed tok env rest ((hclosing hnext).mpr hhit)
          · refine ih hsound ?_ fun havoids => hrest fun _ => havoids
            rw [← Bool.not_eq_true, hclosing hnext]
            exact hhit
      · next hstop =>
        rcases hhits with hhit | hrest
        · exact absurd (hgo hhit) hstop
        · exact absurd (fun hnext => absurd hnext hstop) hrest
    | error kind message => exact absurd trivial hhits
    | done reason => exact absurd trivial hhits

/-! ## Runs of events -/

/-- An event during which no token hits. -/
def EventAvoids (e : Event) (m : Loop) : Prop :=
  match e with
  | .async chunks => m.gr.closing = false → Avoids tok env chunks m
  | .timer | .connClosed | .drain => True

/-- No event hits, as far as the run goes. -/
def RunAvoids : List Event → Loop → Prop
  | [], _ => True
  | e :: events, m => EventAvoids tok env e m ∧ RunAvoids events (handle tok env e m)

theorem onTimer_sound (h : Sound m) (htimer : m.gr.timerInited = true) :
    Sound (onTimer env m) := by
  have hgone := h.timer htimer
  rw [onTimer]
  split
  · exact h
  · split
    · exact ⟨h.late, h.observed, fun hconn => by simp [beginClose, hgone] at hconn, fun _ => hgone⟩
    · exact h.congr rfl rfl rfl rfl rfl rfl

theorem handle_sound (e : Event) (h : Sound m) (havoids : EventAvoids tok env e m) :
    Sound (handle tok env e m) := by
  cases e with
  | async chunks =>
    simp only [handle, genOnAsync]
    split
    · exact h
    · rename_i hopen
      rw [Bool.not_eq_true] at hopen
      exact drain_sound tok env chunks h hopen (havoids hopen)
  | timer =>
    simp only [handle]
    split
    · rename_i htimer
      exact onTimer_sound env h htimer
    · exact h
  | connClosed => exact closeConn_sound env h
  | drain =>
    simp only [handle]
    split
    · rename_i hobs
      rw [h.observed] at hobs
      rw [genRequestDrain, if_neg (by simp [(h.attached hobs).1])]
      exact (streamCancel_sound h (h.attached hobs).1).1
    · exact h

theorem handle_late (e : Event) (h : Sound m) (hhits : ¬ EventAvoids tok env e m) :
    (handle tok env e m).late ≠ [] := by
  cases e with
  | async chunks =>
    rw [EventAvoids, Classical.not_imp] at hhits
    simp only [handle, genOnAsync]
    rw [if_neg (by simp [hhits.1])]
    exact drain_late tok env chunks h hhits.1 hhits.2
  | timer | connClosed | drain => exact absurd trivial hhits

theorem handle_grows (e : Event) : Grows m (handle tok env e m) := by
  cases e with
  | async chunks =>
    simp only [handle, genOnAsync]
    split
    · exact .rfl
    · exact drain_grows tok env chunks
  | timer =>
    simp only [handle, onTimer]
    split
    · split
      · exact .rfl
      · split <;> exact .rfl
    · exact .rfl
  | connClosed => exact closeConn_grows env
  | drain =>
    simp only [handle, genRequestDrain]
    split
    · split
      · exact .rfl
      · exact streamCancel_grows
    · exact .rfl

theorem handleAll_grows (events : List Event) : Grows m (handleAll tok env events m) := by
  induction events generalizing m with
  | nil => exact .rfl
  | cons e events ih => exact (handle_grows tok env e).trans ih

/-- Over any events nothing is used late exactly when no token hits. -/
theorem handleAll_late (events : List Event) (h : Sound m) :
    (handleAll tok env events m).late = [] ↔ RunAvoids tok env events m := by
  induction events generalizing m with
  | nil => exact ⟨fun _ => trivial, fun _ => h.late⟩
  | cons e events ih =>
    by_cases havoids : EventAvoids tok env e m
    · have hsound := handle_sound tok env e h havoids
      exact (ih hsound).trans ⟨fun hrest => ⟨havoids, hrest⟩, fun hall => hall.2⟩
    · refine ⟨fun hnone => ?_, fun hall => absurd hall.1 havoids⟩
      have hgrows : Grows (handle tok env e m) (handleAll tok env (e :: events) m) :=
        handleAll_grows tok env events
      have hlen := List.IsPrefix.length_le hgrows
      rw [hnone] at hlen
      exact absurd (List.eq_nil_of_length_eq_zero (Nat.le_zero.mp hlen))
        (handle_late tok env e h havoids)

theorem start_sound (p : StartParams) : Sound (genRequestStart env p) := by
  have hfresh : ∀ m : Loop, m.late = [] → m.conn.observer = true → m.conn.closing = false →
      m.gr.conn = true → m.gr.closing = false → m.gr.timerInited = false → Sound m :=
    fun m hlate hobs hclosing hconn hopen htimer =>
      ⟨hlate, hobs.trans hconn.symm, fun _ => ⟨hopen, hclosing⟩, fun hinited => by
        rw [htimer] at hinited
        contradiction⟩
  simp only [genRequestStart]
  split
  · rw [queueWrite, if_neg (by simp)]
    split
    · exact hfresh _ rfl rfl rfl rfl rfl rfl
    · exact closeConn_sound env (hfresh _ rfl rfl rfl rfl rfl rfl)
  · exact hfresh _ rfl rfl rfl rfl rfl rfl

/-- A started request uses nothing after `begin_close`, over any events, exactly when no chunk's
write fails inside the call while the engine has released the stream. -/
theorem gen_reentrancy_iff (p : StartParams) (events : List Event) :
    (handleAll tok env events (genRequestStart env p)).late = [] ↔
      RunAvoids tok env events (genRequestStart env p) :=
  handleAll_late tok env events (start_sound env p)

end Reentrancy

/-- The engine is done, and only the head of the stream can be written. -/
def brokenPipe : Env :=
  { allocs := fun _ => true, writes := fun n => n == 0, released := fun _ => true
    backlog := fun _ => false }

/-- A streamed completion. -/
def streamedStart : StartParams :=
  ⟨false, true, false, false, ⟨ascii "cmpl-0", ascii "m", 0⟩, 1⟩

/-- The chunk of the token closes the connection, which tears the request down: the end of the
queue is read from a stream that is gone. -/
theorem gen_reentrancy_broken : ¬ ∀ (tok : Tokenizer) (env : Env) (p : StartParams)
    (events : List Event), (handleAll tok env events (genRequestStart env p)).late = [] := by
  intro h
  have hlate : (handleAll BpeMerge.doubleA brokenPipe [.async [.token 0 0, .done .length]]
      (genRequestStart brokenPipe streamedStart)).late ≠ [] := by
    decide +kernel
  exact hlate (h _ _ _ _)

end Mlxd.Http
