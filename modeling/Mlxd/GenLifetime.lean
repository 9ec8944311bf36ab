import Mlxd.Generate
import Mlxd.Lib.Threads

/-!
# The lifetime of a generation request

The engine's side of one stream and the callbacks of `gen_request.c` as threads that take atomic
steps: a section under the stream's mutex, an atomic load or store, or a call into libuv. Whether
an allocation, a write or the detokenizer succeeds and what a pass reads from the stream are
answers of the environment. libuv calls no callback of a handle once it is being closed, but its
close callback once. A misuse of the stream, of a handle or of the request is recorded as a fault.
-/
namespace Mlxd.Lifetime

open Mlxd.Lib Program
open Engine (Mlx Gen GenOp GenAns)

/-- The fields of the request and its connection that only the loop thread touches. -/
structure Gr where
  /-- The state is `GR_CLOSING`. -/
  closing : Bool
  connGone : Bool
  suppressWrites : Bool
  /-- The connection is attached. -/
  conn : Bool
  sse : Bool
  timerInited : Bool
  connClosing : Bool
  /-- The request observes the connection. -/
  observer : Bool
  deriving DecidableEq

inductive Fault where
  /-- The stream was used after its last reference was given back. -/
  | streamUsed
  /-- The notify callback ran on a request that is closing. -/
  | notifiedLate
  | closedTwice
  /-- A handle was closed that was not open. -/
  | badHandle
  /-- The request was freed before its handles were closed, or again. -/
  | badFree
  /-- A close callback ran on a freed request. -/
  | usedFreed
  deriving DecidableEq, Repr

inductive HandleId where
  | async | timer
  deriving DecidableEq, Repr

structure Life where
  refcount : Int
  /-- `on_push` is the callback of the request. -/
  onPush : Bool
  /-- `on_push` as the last push read it under the mutex. -/
  cbRead : Bool
  inflight : Bool
  /-- The command has been posted and not yet taken. -/
  posted : Bool
  /-- The command's reference has been given back. -/
  served : Bool
  gr : Gr
  /-- How often `begin_close` has run. -/
  begun : Nat
  asyncCloses : Nat
  asyncClosed : Nat
  timerInited : Bool
  timerCloses : Nat
  timerClosed : Nat
  pendingCloses : Int
  frees : Nat
  faults : List Fault

variable {M : Mlx}

inductive LifeOp (M : Mlx) where
  /-- A step of the engine on the stream. -/
  | gen (op : GenOp M)
  /-- The command leaves the mailbox, or `engine_post` keeps it to cancel it. -/
  | take
  | setInflight (on : Bool)
  /-- Give the command's reference back. -/
  | releaseCommand
  /-- The section of `engine_signal_shutdown`. -/
  | cancelInflight
  /-- Something outside decides. -/
  | ask
  /-- `stream_next` or `stream_cancel` on the loop thread. -/
  | useStream
  /-- `stream_sole_owner`, called from a pass over the stream or not. -/
  | soleOwner (inPass : Bool)
  | setClosing
  | clearNotify
  /-- Give the request's reference back. -/
  | releaseRequest
  | setPending (n : Int)
  | uvClose (h : HandleId)
  | timerInit
  /-- libuv has closed the handle: whether it was the last one. -/
  | closeCb (h : HandleId)
  | freeGr
  /-- The callback returns and leaves the fields like this. -/
  | save (gr : Gr)

@[reducible] def LifeAns : LifeOp M → Type
  | .gen op => GenAns op
  | .ask => Bool
  | .soleOwner _ => Bool
  | .closeCb _ => Bool
  | _ => Unit

abbrev Task (M : Mlx) (α : Type) : Type := Program (LifeOp M) LifeAns α

abbrev step (op : LifeOp M) : Task M (LifeAns op) := perform op

/-! ## The effect of each step -/

def Life.fault (s : Life) (f : Fault) : Life := { s with faults := s.faults ++ [f] }

def Life.use (s : Life) : Life := if s.refcount ≤ 0 then s.fault .streamUsed else s

/-- A push reads the callback with the chunk written; a refused one reads none. -/
def execGen : (op : GenOp M) → Life → GenAns op → Life → Prop
  | .push _, s, r, s' => s' = { s.use with cbRead := r && s.onPush }
  | .finishCancelled, s, _, s' => s' = { s.use with cbRead := s.onPush }
  | .loadCancelled, s, _, s' => s' = s.use
  | .notify, s, _, s' =>
    s' = if s.cbRead && (0 < s.begun || 0 < s.frees) then s.fault .notifiedLate else s
  | _, s, _, s' => s' = s

def execClose (s : Life) : HandleId → Life
  | .async =>
    { (if 0 < s.asyncCloses then s.fault .badHandle else s) with asyncCloses := s.asyncCloses + 1 }
  | .timer =>
    { (if !s.timerInited || 0 < s.timerCloses then s.fault .badHandle else s) with
      timerCloses := s.timerCloses + 1 }

/-- libuv runs the close callback once for each close. -/
def closing (s : Life) : HandleId → Prop
  | .async => s.asyncClosed < s.asyncCloses
  | .timer => s.timerClosed < s.timerCloses

def execClosed (s : Life) : HandleId → Life
  | .async =>
    { (if 0 < s.frees then s.fault .usedFreed else s) with
      asyncClosed := s.asyncClosed + 1, pendingCloses := s.pendingCloses - 1 }
  | .timer =>
    { (if 0 < s.frees then s.fault .usedFreed else s) with
      timerClosed := s.timerClosed + 1, pendingCloses := s.pendingCloses - 1 }

def exec : (op : LifeOp M) → Life → LifeAns op → Life → Prop
  | .gen op, s, r, s' => execGen op s r s'
  | .take, s, _, s' => s.posted = true ∧ s' = { s with posted := false }
  | .setInflight on, s, _, s' => s' = { s with inflight := on }
  | .releaseCommand, s, _, s' => s' = { s.use with refcount := s.refcount - 1, served := true }
  | .cancelInflight, s, _, s' => s' = if s.inflight then s.use else s
  | .ask, s, _, s' => s' = s
  | .useStream, s, _, s' => s' = s.use
  | .soleOwner _, s, r, s' => r = (s.refcount == 1) ∧ s' = s.use
  | .setClosing, s, _, s' =>
    s' = { (if 0 < s.begun then s.fault .closedTwice else s) with begun := s.begun + 1 }
  | .clearNotify, s, _, s' => s' = { s.use with onPush := false }
  | .releaseRequest, s, _, s' => s' = { s.use with refcount := s.refcount - 1 }
  | .setPending n, s, _, s' => s' = { s with pendingCloses := n }
  | .uvClose h, s, _, s' => s' = execClose s h
  | .timerInit, s, _, s' => s' = { s with timerInited := true }
  | .closeCb h, s, r, s' =>
    closing s h ∧ r = (s.pendingCloses - 1 == 0) ∧ s' = execClosed s h
  | .freeGr, s, _, s' =>
    s' = { (if 0 < s.frees || s.asyncClosed = 0 || s.timerInited && s.timerClosed = 0 then
      s.fault .badFree else s) with frees := s.frees + 1 }
  | .save gr, s, _, s' => s' = { s with gr := gr }

/-! ## Whoever has the command -/

def onStream {α : Type} (p : Gen M α) : Task M α := embed .gen (fun _ r => r) p

/-- `handle_generate`, with any generate path. -/
def handleGenerate (p : Gen M Unit) : Task M Unit := do
  let _ : Unit ← step .take
  let _ : Unit ← step (.setInflight true)
  onStream p
  let _ : Unit ← step (.setInflight false)
  step .releaseCommand

/-- `cmd_cancel`, with any way to finish the stream. -/
def cmdCancel (p : Gen M Unit) : Task M Unit := do
  let _ : Unit ← step .take
  onStream p
  step .releaseCommand

/-! ## Teardown -/

def streamCancel : Task M Unit := step .useStream

def beginClose (gr : Gr) : Task M Gr := do
  let _ : Unit ← step .setClosing
  let _ : Unit ← step .clearNotify
  let _ : Unit ← step .releaseRequest
  let _ : Unit ← step (.setPending (if gr.timerInited then 2 else 1))
  let _ : Unit ← step (.uvClose .async)
  if gr.timerInited then
    let _ : Unit ← step (.uvClose .timer)
    return { gr with closing := true }
  else return { gr with closing := true }

def tryTeardown (inPass : Bool) (gr : Gr) : Task M Gr :=
  if gr.closing then return gr
  else do
    let sole : Bool ← step (.soleOwner inPass)
    if sole then beginClose gr
    else if gr.timerInited then return gr
    else
      let _ : Unit ← step .timerInit
      return { gr with timerInited := true }

def onTimer (gr : Gr) : Task M Gr :=
  if gr.closing then return gr
  else do
    let sole : Bool ← step (.soleOwner false)
    if sole then beginClose gr else return gr

def onConnGone (inPass : Bool) (gr : Gr) : Task M Gr := do
  streamCancel
  tryTeardown inPass { gr with connGone := true, conn := false }

/-! ## The connection -/

def closeConn (inPass : Bool) (gr : Gr) : Task M Gr :=
  if gr.connClosing then return gr
  else if gr.observer then onConnGone inPass { gr with connClosing := true, observer := false }
  else return { gr with connClosing := true }

/-- A write that fails in the call closes the connection. -/
def queueWrite (inPass : Bool) (gr : Gr) : Task M Gr :=
  if gr.connClosing then return gr
  else do
    let queued : Bool ← step .ask
    if queued then return gr else closeConn inPass gr

/-- Write a document if it can be built. -/
def writeSse (inPass : Bool) (gr : Gr) : Task M Gr := do
  let built : Bool ← step .ask
  if built then queueWrite inPass gr else return gr

def emitSseChunk (gr : Gr) : Task M Gr :=
  if gr.connGone || !gr.conn || gr.suppressWrites then return gr else writeSse true gr

/-- Write the last document, or close the connection if it cannot be built. -/
def writeLast (gr : Gr) : Task M Gr := do
  let built : Bool ← step .ask
  if built then queueWrite false gr else closeConn false gr

/-- The flushed text, the role, the reason and the usage, as far as they are written. -/
def finishSse (gr : Gr) : Task M Gr := do
  let gr ← writeSse false gr
  let gr ← writeSse false gr
  let gr ← writeSse false gr
  let gr ← writeSse false gr
  writeLast gr

/-- Detach the connection and answer on it with `last`. -/
def finishWith (last : Gr → Task M Gr) (gr : Gr) : Task M Gr := do
  if gr.conn then
    let gr ← last { gr with conn := false, observer := false }
    tryTeardown false gr
  else tryTeardown false gr

def finishError (gr : Gr) : Task M Gr :=
  finishWith (fun gr =>
    if gr.suppressWrites then closeConn false gr
    else if gr.sse then do
      let gr ← writeSse false gr
      writeLast gr
    else writeLast gr) gr

def finishResponse (gr : Gr) : Task M Gr := do
  let flushed : Bool ← step .ask
  if flushed then
    finishWith (fun gr =>
      if gr.suppressWrites then closeConn false gr
      else if gr.sse then finishSse gr
      else writeLast gr) gr
  else finishError gr

/-! ## The drain loop -/

inductive Kind where
  | token | error | done
  deriving DecidableEq, Repr

/-- Above the high-water mark the engine is stopped. -/
def checkBacklog (gr : Gr) : Task M Gr :=
  if gr.connGone || gr.suppressWrites || !gr.conn then return gr
  else do
    let above : Bool ← step .ask
    if above then
      streamCancel
      return { gr with suppressWrites := true }
    else return gr

/-- Cancel and answer with an error. -/
def failToken (gr : Gr) : Task M Gr := do
  streamCancel
  finishError gr

/-- One token: whether the loop goes on. -/
def onToken (gr : Gr) : Task M (Bool × Gr) := do
  let fed : Bool ← step .ask
  if fed then
    let piece : Bool ← step .ask
    if gr.sse then
      let gr ← (if piece then emitSseChunk gr else return gr)
      let gr ← checkBacklog gr
      return (true, gr)
    else if piece then
      let kept : Bool ← step .ask
      if kept then return (true, gr)
      else
        let gr ← failToken gr
        return (false, gr)
    else return (true, gr)
  else
    let gr ← failToken gr
    return (false, gr)

/-- Read the stream until it is empty or the response ends. -/
def drainLoop : List Kind → Gr → Task M Gr
  | [], gr => do
    let _ : Unit ← step .useStream
    return gr
  | kind :: rest, gr => do
    let _ : Unit ← step .useStream
    match kind with
    | .token =>
      let next ← onToken gr
      if next.1 then drainLoop rest next.2 else return next.2
    | .error => finishError gr
    | .done => finishResponse gr

def genOnAsync (kinds : List Kind) (gr : Gr) : Task M Gr :=
  if gr.closing then return gr else drainLoop kinds gr

def genRequestDrain (gr : Gr) : Task M Gr :=
  if gr.closing then return gr
  else do
    streamCancel
    return gr

def onCloseCb (h : HandleId) : Task M Unit := do
  let last : Bool ← step (.closeCb h)
  if last then step .freeGr else return ()

/-! ## The threads -/

/-- A callback that leaves the fields of the request for the next one. -/
def callback (p : Task M Gr) : Task M Unit := do
  let gr ← p
  step (.save gr)

/-- What libuv may run next. -/
inductive LoopEvent (s : Life) : Task M Unit → Prop
  | async (kinds : List Kind) (hopen : s.asyncCloses = 0) :
      LoopEvent s (callback (genOnAsync kinds s.gr))
  | timer (hinited : s.timerInited = true) (hopen : s.timerCloses = 0) :
      LoopEvent s (callback (onTimer s.gr))
  /-- A read, a completed write or the end of the server closes the connection. -/
  | connClosed : LoopEvent s (callback (closeConn false s.gr))
  | drain (hobserver : s.gr.observer = true) : LoopEvent s (callback (genRequestDrain s.gr))
  | closed (h : HandleId) (hclosing : closing s h) : LoopEvent s (onCloseCb h)

/-- The event loop, whoever has the command, and callers of `engine_signal_shutdown`. -/
inductive Tid where
  | loop | server
  | other (n : Nat)
  deriving DecidableEq, Repr

def starts : Tid → Life → Task M Unit → Prop
  | .loop, s, p => LoopEvent s p
  | .server, _, p => ∃ q, p = handleGenerate q ∨ p = cmdCancel q
  | .other _, _, p => p = step .cancelInflight

/-- The request as `gen_request_start` has wired it up. -/
def Gr.start (stream : Bool) : Gr :=
  { closing := false, connGone := false, suppressWrites := false, conn := true, sse := stream
    timerInited := false, connClosing := false, observer := true }

/-- The command is posted; the head of a streamed response is still to write. -/
def initial (M : Mlx) (stream : Bool) : Config Life Tid (LifeOp M) LifeAns where
  shared :=
    { refcount := 2, onPush := true, cbRead := false, inflight := false, posted := true
      served := false, gr := Gr.start stream, begun := 0, asyncCloses := 0, asyncClosed := 0
      timerInited := false, timerCloses := 0, timerClosed := 0, pendingCloses := 0, frees := 0
      faults := [] }
  threads := fun t =>
    if t = .loop then
      callback (if stream then queueWrite false (Gr.start stream) else return Gr.start stream)
    else .done ()

end Mlxd.Lifetime
