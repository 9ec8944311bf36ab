import Mlxd.Response
import Mlxd.Detok

/-!
# A generation request on the loop thread

`gen_request.c` with the writes of `server.c` it calls. A write can fail inside the call, and
the connection is closed then and there: its observer runs before the write returns. The
engine's side, the allocator and the socket are an environment that answers by a clock. A use of
the stream, the detokenizer or the connection after `begin_close` is kept in a log.
-/
namespace Mlxd.Http

open Mlxd.Unicode Mlxd.Json Mlxd.Engine Mlxd.TokLoad Mlxd.Detok

/-- Answers to the question with that number. -/
structure Env where
  /-- An allocation succeeds. -/
  allocs : Nat → Bool
  /-- A write is queued. -/
  writes : Nat → Bool
  /-- The engine has released the stream. -/
  released : Nat → Bool
  /-- The write queue is above the high-water mark. -/
  backlog : Nat → Bool

structure Conn where
  closing : Bool
  /-- The request observes the connection. -/
  observer : Bool
  /-- What was queued, and whether the connection closes behind it. -/
  written : List (Wire × Bool)

structure GenRequest where
  /-- `begin_close` has run. -/
  closing : Bool
  connGone : Bool
  suppressWrites : Bool
  /-- The connection is attached. -/
  conn : Bool
  chat : Bool
  sse : Bool
  includeUsage : Bool
  logprobs : Bool
  roleSent : Bool
  timerInited : Bool
  header : Header
  promptTokens : Int
  completionTokens : Int
  accum : Bytes
  lpEntries : List TokenLogprob
  /-- The withheld bytes of the detokenizer. -/
  detok : Bytes

inductive Use where
  | stream | detok | conn
  deriving DecidableEq, Repr

structure Loop where
  gr : GenRequest
  conn : Conn
  streamCancelled : Bool
  clock : Nat
  /-- The uses after `begin_close`. -/
  late : List Use

def Loop.tick (m : Loop) : Loop := { m with clock := m.clock + 1 }

def Loop.setGr (m : Loop) (gr : GenRequest) : Loop := { m with gr := gr }

def touch (u : Use) (m : Loop) : Loop :=
  if m.gr.closing then { m with late := m.late ++ [u] } else m

def streamCancel (m : Loop) : Loop := { touch .stream m with streamCancelled := true }

section Request

variable (tok : Tokenizer) (env : Env)

/-! ## Teardown -/

def beginClose (m : Loop) : Loop :=
  m.setGr { m.gr with closing := true, detok := [], accum := [], lpEntries := [] }

def tryTeardown (m : Loop) : Loop :=
  if m.gr.closing then m
  else if env.released m.clock then beginClose m.tick
  else m.tick.setGr { m.gr with timerInited := true }

def onTimer (m : Loop) : Loop :=
  if m.gr.closing then m
  else if env.released m.clock then beginClose m.tick
  else m.tick

def onConnGone (m : Loop) : Loop :=
  tryTeardown env (streamCancel (m.setGr { m.gr with connGone := true, conn := false }))

/-! ## Writes -/

def closeConn (m : Loop) : Loop :=
  if m.conn.closing then m
  else
    let closed : Loop := { m with conn := { m.conn with closing := true, observer := false } }
    if m.conn.observer then onConnGone env closed else closed

def queueWrite (wire : Wire) (closeAfter : Bool) (m : Loop) : Loop :=
  if m.conn.closing then m
  else if env.writes m.clock then
    { m.tick with conn := { m.conn with written := m.conn.written ++ [(wire, closeAfter)] } }
  else closeConn env m.tick

def httpConnWrite (wire : Wire) (closeAfter : Bool) (m : Loop) : Loop :=
  queueWrite env wire closeAfter (touch .conn m)

def httpConnClose (m : Loop) : Loop := closeConn env (touch .conn m)

/-- The document's text, unless it cannot be written. -/
def build (doc : Value) (m : Loop) : Option Value × Loop :=
  (if env.allocs m.clock then yyjsonMutWrite doc else none, m.tick)

/-- Write a chunk, unless it cannot be built. -/
def writeSse (doc : Value) (m : Loop) : Bool × Loop :=
  match build env doc m with
  | (none, m) => (false, m)
  | (some doc, m) => (true, httpConnWrite env (.sse doc) false m)

/-! ## Chunks -/

/-- The chunk for a piece of text: the first one of a chat carries the role. -/
def emitDoc (gr : GenRequest) (piece : Bytes) (logprob : Nat) : Option Value :=
  if gr.chat then
    let lp : Option TokenLogprob := if gr.logprobs then some ⟨piece, logprob⟩ else none
    if !gr.roleSent then
      some (genSseChunk gr.header
        { roleFirst := true
          deltaText := if piece = [] then none else some piece
          logprob := lp })
    else if piece = [] then none
    else some (genSseChunk gr.header { deltaText := some piece, logprob := lp })
  else if piece = [] then none
  else some (genSseCompletionChunk gr.header (some piece) none)

def emitSseChunk (piece : Bytes) (logprob : Nat) (m : Loop) : Loop :=
  if m.gr.connGone || !m.gr.conn || m.gr.suppressWrites then m
  else
    match emitDoc m.gr piece logprob with
    | none => m
    | some doc =>
      let (sent, m) := writeSse env doc m
      if sent && m.gr.chat then m.setGr { m.gr with roleSent := true } else m

/-! ## Ends -/

def detachConn (m : Loop) : Bool × Loop :=
  if m.gr.conn then
    (true, { m with gr := { m.gr with conn := false }, conn := { m.conn with observer := false } })
  else (false, m)

def finishDone (m : Loop) : Loop :=
  if env.allocs m.clock then httpConnWrite env .sseDone true m.tick else httpConnClose env m.tick

/-- A whole response, or none and the connection is closed. -/
def respond (status : Nat) (doc : Value) (m : Loop) : Loop :=
  match build env doc m with
  | (none, m) => httpConnClose env m
  | (some doc, m) =>
    if env.allocs m.clock then httpConnWrite env (.response status doc) true m.tick
    else httpConnClose env m.tick

def finishError (message : String) (kind : GenErrKind) (m : Loop) : Loop :=
  let (status, type, code) := errorKindMap kind
  let doc := errorEnvelopeSerialize message type code
  match detachConn m with
  | (false, m) => tryTeardown env m
  | (true, m) =>
    tryTeardown env
      (if m.gr.suppressWrites then httpConnClose env m
      else if m.gr.sse then finishDone env (writeSse env doc m).2
      else respond env status doc m)

def usageOf (gr : GenRequest) : Usage :=
  ⟨gr.promptTokens, gr.completionTokens, gr.promptTokens + gr.completionTokens⟩

/-- The chunk with what the detokenizer has withheld. -/
def finishFlush (flushOut : Bytes) (m : Loop) : Loop :=
  if flushOut = [] then m
  else if m.gr.chat then
    let (sent, m) := writeSse env
      (genSseChunk m.gr.header { roleFirst := !m.gr.roleSent, deltaText := some flushOut }) m
    if sent then m.setGr { m.gr with roleSent := true } else m
  else (writeSse env (genSseCompletionChunk m.gr.header (some flushOut) none) m).2

/-- The role of a chat that has sent no text. -/
def finishRole (m : Loop) : Loop :=
  if m.gr.roleSent then m
  else (writeSse env (genSseChunk m.gr.header { roleFirst := true }) m).2

def finishUsage (m : Loop) : Loop :=
  if m.gr.includeUsage then
    (writeSse env (genSseChunk m.gr.header { usage := some (usageOf m.gr) }) m).2
  else m

def finishSse (flushOut : Bytes) (reason : FinishReason) (m : Loop) : Loop :=
  let m := finishFlush env flushOut m
  if m.gr.chat then
    let m := finishRole env m
    let m := (writeSse env (genSseChunk m.gr.header { final := some reason }) m).2
    finishDone env (finishUsage env m)
  else finishDone env (writeSse env (genSseCompletionChunk m.gr.header none (some reason)) m).2

def finishWhole (reason : FinishReason) (m : Loop) : Loop :=
  respond env 200
    (if m.gr.chat then
      genBuildChatResponse m.gr.header m.gr.accum reason (usageOf m.gr) m.gr.lpEntries
    else genBuildCompletionResponse m.gr.header m.gr.accum reason (usageOf m.gr)) m

/-- Append to the accumulated text; nothing to append needs no room. -/
def accumAppend (s : Bytes) (m : Loop) : Bool × Loop :=
  if s = [] then (true, m)
  else (env.allocs m.clock, if env.allocs m.clock then
    m.tick.setGr { m.gr with accum := m.gr.accum ++ s } else m.tick)

/-- Behind the flush: detach, answer and go. -/
def finishDetached (flushOut : Bytes) (reason : FinishReason) (m : Loop) : Loop :=
  match detachConn m with
  | (false, m) => tryTeardown env m
  | (true, m) =>
    tryTeardown env
      (if m.gr.suppressWrites then httpConnClose env m
      else if m.gr.sse then finishSse env flushOut reason m
      else finishWhole env reason m)

def finishResponse (reason : FinishReason) (m : Loop) : Loop :=
  let m := touch .detok m
  if !env.allocs m.clock then finishError env "detokenizer flush error" .internal m.tick
  else
    let (flushOut, rest) := detokFlush m.gr.detok
    let m := m.tick.setGr { m.gr with detok := rest }
    match accumAppend env (if m.gr.sse then [] else flushOut) m with
    | (false, m) => finishError env "out of memory" .internal m
    | (true, m) => finishDetached env flushOut reason m

/-! ## The drain loop -/

/-- Above the high-water mark nothing more is written and the engine is stopped. -/
def checkBacklog (m : Loop) : Loop :=
  if m.gr.connGone || m.gr.suppressWrites || !m.gr.conn then m
  else
    let m := touch .conn m
    if env.backlog m.clock then streamCancel (m.tick.setGr { m.gr with suppressWrites := true })
    else m.tick

/-- Keep a piece for the whole response; the entries grow with it. -/
def keepPiece (piece : Bytes) (logprob : Nat) (m : Loop) : Bool × Loop :=
  if piece = [] then (true, m)
  else
    match accumAppend env piece m with
    | (false, m) => (false, m)
    | (true, m) =>
      if !m.gr.logprobs then (true, m)
      else if env.allocs m.clock then
        (true, m.tick.setGr { m.gr with lpEntries := m.gr.lpEntries ++ [⟨piece, logprob⟩] })
      else (false, m.tick)

/-- A piece goes out at once or is kept. -/
def onPiece (piece : Bytes) (logprob : Nat) (m : Loop) : Bool × Loop :=
  if m.gr.sse then
    (true, checkBacklog env (if piece = [] then m else emitSseChunk env piece logprob m))
  else
    match keepPiece env piece logprob m with
    | (false, m) => (false, finishError env "out of memory" .internal (streamCancel m))
    | (true, m) => (true, m)

/-- One token: whether the loop goes on. -/
def onToken (id : Int) (logprob : Nat) (m : Loop) : Bool × Loop :=
  let m := touch .detok (m.setGr { m.gr with completionTokens := m.gr.completionTokens + 1 })
  match if env.allocs m.clock then detokFeed tok m.gr.detok id else none with
  | none => (false, finishError env "detokenizer error" .internal (streamCancel m.tick))
  | some (piece, rest) => onPiece env piece logprob (m.tick.setGr { m.gr with detok := rest })

/-- Read the stream until it is empty or the response ends. -/
def drainLoop : List (Chunk Nat) → Loop → Loop
  | [], m => touch .stream m
  | c :: rest, m =>
    let m := touch .stream m
    match c with
    | .token id logprob =>
      match onToken tok env id logprob m with
      | (true, m) => drainLoop rest m
      | (false, m) => m
    | .error kind message => finishError env message kind m
    | .done reason => finishResponse env reason m

/-- The chunks are those the stream holds by the time it is read. -/
def genOnAsync (chunks : List (Chunk Nat)) (m : Loop) : Loop :=
  if m.gr.closing then m else drainLoop tok env chunks m

def genRequestDrain (m : Loop) : Loop := if m.gr.closing then m else streamCancel m

/-! ## Events -/

/-- What the loop thread can run; the connection is closed by a read, a completed write or the
end of the server. -/
inductive Event where
  | async (chunks : List (Chunk Nat))
  | timer
  | connClosed
  | drain

def handle (e : Event) (m : Loop) : Loop :=
  match e with
  | .async chunks => genOnAsync tok env chunks m
  | .timer => if m.gr.timerInited then onTimer env m else m
  | .connClosed => closeConn env m
  | .drain => if m.conn.observer then genRequestDrain m else m

def handleAll (events : List Event) (m : Loop) : Loop :=
  events.foldl (fun m e => handle tok env e m) m

/-- The parameters of a request. -/
structure StartParams where
  chat : Bool
  stream : Bool
  includeUsage : Bool
  logprobs : Bool
  header : Header
  promptTokens : Int

/-- A started request; a streamed one has its head written. -/
def genRequestStart (p : StartParams) : Loop :=
  let m : Loop :=
    { gr :=
        { closing := false, connGone := false, suppressWrites := false, conn := true
          chat := p.chat, sse := p.stream, includeUsage := p.includeUsage
          logprobs := p.logprobs && p.chat, roleSent := false, timerInited := false
          header := p.header, promptTokens := p.promptTokens, completionTokens := 0
          accum := [], lpEntries := [], detok := [] }
      conn := ⟨false, true, []⟩
      streamCancelled := false
      clock := 0
      late := [] }
  if p.stream then queueWrite env .sseHead false m else m

end Request

end Mlxd.Http
