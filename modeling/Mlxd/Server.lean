import Mathlib.Logic.Relation

/-!
# The server's connections and its drain

The connections of the event loop and the callbacks that open, write, close and drain them. What
arrives, whether an allocation or a call into libuv succeeds and what a generation request does
with its connection are answers of the environment. A connection is known by its position in the
list of all that were opened. The drain timer remembers whether it was closed, and whether a call
was ever made on it before its initialisation or after its close.
-/
namespace Mlxd.Server

abbrev ConnId := Nat

structure Conn where
  closing : Bool
  /-- `uv_close` was called on the handle. -/
  handleClosing : Bool
  /-- `on_conn_close` has run. -/
  freed : Bool
  genOwned : Bool
  /-- `on_gone` is set. -/
  observed : Bool
  /-- `close_after` of the writes that are queued. -/
  writes : List Bool
  deriving DecidableEq, Repr

structure Timer where
  inited : Bool
  running : Bool
  closes : Nat
  misused : Bool
  deriving DecidableEq, Repr

structure HttpServer where
  conns : List Conn
  listenerClosing : Bool
  stopClosing : Bool
  drainTimer : Timer
  draining : Bool
  drainTimerActive : Bool
  drainOpenConns : Int
  deriving DecidableEq, Repr

/-! ## The drain timer -/

def Timer.touch (t : Timer) : Timer :=
  if t.inited && t.closes == 0 then t else { t with misused := true }

def uvTimerInit (t : Timer) : Timer := { t with inited := true, misused := t.misused || t.inited }

def uvTimerStart (t : Timer) : Timer := { t.touch with running := true }

def uvTimerStop (t : Timer) : Timer := { t.touch with running := false }

def uvTimerClose (t : Timer) : Timer :=
  { t.touch with running := false, closes := t.closes + 1 }

/-! ## Closing and writing -/

def HttpServer.setConn (s : HttpServer) (i : ConnId) (c : Conn) : HttpServer :=
  { s with conns := s.conns.set i c }

def drainCheck (s : HttpServer) : HttpServer :=
  if !s.draining || !s.drainTimerActive then s
  else if s.drainOpenConns - 1 = 0 then
    { s with
      drainOpenConns := s.drainOpenConns - 1, drainTimerActive := false
      drainTimer := uvTimerClose (uvTimerStop s.drainTimer) }
  else { s with drainOpenConns := s.drainOpenConns - 1 }

/-- The connection with `uv_close` called on its handle; its observer was told and is gone. -/
def Conn.closed (c : Conn) : Conn :=
  { c with closing := true, handleClosing := true, observed := false }

def closeConn (i : ConnId) (s : HttpServer) : HttpServer :=
  match s.conns[i]? with
  | some c => if c.closing then s else drainCheck (s.setConn i c.closed)
  | none => s

/-- `queued`: the request could be allocated and `uv_write` took it. -/
def queueWrite (i : ConnId) (closeAfter queued : Bool) (s : HttpServer) : HttpServer :=
  match s.conns[i]? with
  | some c =>
    if c.closing then s
    else if queued then s.setConn i { c with writes := c.writes ++ [closeAfter] }
    else closeConn i s
  | none => s

/-- Queue a response, or close the connection if the response could not be built. -/
def respond (i : ConnId) (keepAlive built queued : Bool) (s : HttpServer) : HttpServer :=
  if built then queueWrite i (!keepAlive) queued s else closeConn i s

def httpConnSetObserver (i : ConnId) (on : Bool) (s : HttpServer) : HttpServer :=
  match s.conns[i]? with
  | some c => s.setConn i { c with observed := on }
  | none => s

def onWrite (i : ConnId) (failed : Bool) (s : HttpServer) : HttpServer :=
  match s.conns[i]? with
  | some c =>
    match c.writes with
    | closeAfter :: rest =>
      let s := s.setConn i { c with writes := rest }
      if closeAfter || failed then closeConn i s else s
    | [] => s
  | none => s

def onConnClose (i : ConnId) (s : HttpServer) : HttpServer :=
  match s.conns[i]? with
  | some c => s.setConn i { c with freed := true }
  | none => s

/-- A connection that cannot be accepted or given a parser is closed before it is read from. -/
def onNewConnection (accepted : Bool) (s : HttpServer) : HttpServer :=
  { s with conns := s.conns ++ [⟨false, !accepted, false, false, false, []⟩] }

/-! ## Reading -/

inductive Dispatched where
  /-- An answer of a handler, a preflight or an error. -/
  | answer (built queued : Bool)
  /-- A generation request has started; the head of a streamed response is queued or not. -/
  | deferred (head : Option Bool)
  deriving DecidableEq, Repr

inductive Parsed where
  | incomplete
  /-- Malformed or too large. -/
  | refused (built queued : Bool)
  | complete (keepAlive : Bool) (outcome : Dispatched)
  deriving DecidableEq, Repr

def dispatch (i : ConnId) (keepAlive : Bool) : Dispatched → HttpServer → HttpServer
  | .answer built queued, s => respond i keepAlive built queued s
  | .deferred head, s =>
    let s := httpConnSetObserver i true s
    let s := match head with
      | some queued => queueWrite i false queued s
      | none => s
    match s.conns[i]? with
    | some c => s.setConn i { c with genOwned := true }
    | none => s

def HttpServer.closingConn (s : HttpServer) (i : ConnId) : Bool := (s.conns[i]?).any Conn.closing

def HttpServer.genOwnedConn (s : HttpServer) (i : ConnId) : Bool := (s.conns[i]?).any Conn.genOwned

def readLoop (i : ConnId) : List Parsed → HttpServer → HttpServer
  | [], s => s
  | parsed :: rest, s =>
    if s.closingConn i then s
    else
      match parsed with
      | .incomplete => s
      | .refused built queued => respond i false built queued s
      | .complete keepAlive outcome =>
        let s := dispatch i keepAlive outcome s
        if !keepAlive || s.closingConn i || s.genOwnedConn i then s else readLoop i rest s

/-- `failed`: the read ends with an error or the end of the stream. -/
def onRead (i : ConnId) (failed : Bool) (parsed : List Parsed) (s : HttpServer) : HttpServer :=
  if failed then closeConn i s
  else if s.genOwnedConn i then s
  else readLoop i parsed s

/-! ## A generation request and its connection -/

inductive GenCall where
  | write (closeAfter queued : Bool)
  | close
  /-- `http_conn_set_observer(conn, NULL, NULL)`. -/
  | detach
  deriving DecidableEq, Repr

def genCall (i : ConnId) (s : HttpServer) : GenCall → HttpServer
  | .write closeAfter queued => queueWrite i closeAfter queued s
  | .close => closeConn i s
  | .detach => httpConnSetObserver i false s

/-! ## Stop and drain -/

/-- The handle is in the loop and not closing. -/
def Conn.live (c : Conn) : Bool := !c.freed && !c.handleClosing

/-- The requests of the connections that are counted are only cancelled. -/
def walkDrainCb (acc : HttpServer × Int) (i : ConnId) : HttpServer × Int :=
  match acc.1.conns[i]? with
  | some c =>
    if !c.live then acc
    else if c.genOwned then (acc.1, acc.2 + 1)
    else (closeConn i acc.1, acc.2)
  | none => acc

def walkForceCloseTcpCb (s : HttpServer) (i : ConnId) : HttpServer :=
  match s.conns[i]? with
  | some c => if !c.live then s else closeConn i s
  | none => s

def handleIds (s : HttpServer) : List ConnId := List.range s.conns.length

/-- `inited`: whether `uv_timer_init` succeeds. -/
def onStopAsync (inited : Bool) (s : HttpServer) : HttpServer :=
  if s.draining then s
  else
    let s := { s with draining := true, listenerClosing := true, stopClosing := true }
    let (s, genCount) := (handleIds s).foldl walkDrainCb (s, 0)
    if 0 < genCount && inited then
      { s with
        drainTimer := uvTimerStart (uvTimerInit s.drainTimer), drainOpenConns := genCount
        drainTimerActive := true }
    else s

def onDrainTimeout (s : HttpServer) : HttpServer :=
  let s := { s with drainTimerActive := false }
  let s := (handleIds s).foldl walkForceCloseTcpCb s
  { s with drainTimer := uvTimerClose s.drainTimer }

/-! ## Runs -/

inductive Event where
  | connection (accepted : Bool)
  | read (i : ConnId) (failed : Bool) (parsed : List Parsed)
  | written (i : ConnId) (failed : Bool)
  /-- A callback of a generation request uses its connection. -/
  | gen (i : ConnId) (calls : List GenCall)
  | connClosed (i : ConnId)
  | stop (inited : Bool)
  | deadline
  deriving DecidableEq, Repr

def handle : Event → HttpServer → HttpServer
  | .connection accepted, s => onNewConnection accepted s
  | .read i failed parsed, s => onRead i failed parsed s
  | .written i failed, s => onWrite i failed s
  | .gen i calls, s => calls.foldl (genCall i) s
  | .connClosed i, s => onConnClose i s
  | .stop inited, s => onStopAsync inited s
  -- libuv has stopped the timer, which does not repeat.
  | .deadline, s => onDrainTimeout { s with drainTimer := { s.drainTimer with running := false } }

/-- What libuv may call: nothing of a handle that is being closed but its close callback and the
callbacks of its writes. -/
def Possible (s : HttpServer) : Event → Prop
  | .connection _ => s.listenerClosing = false
  | .read i _ _ => ∃ c, s.conns[i]? = some c ∧ c.live = true
  | .written i _ => ∃ c, s.conns[i]? = some c ∧ c.freed = false ∧ c.writes ≠ []
  | .gen i _ => ∃ c, s.conns[i]? = some c ∧ c.freed = false ∧ c.genOwned = true
  | .connClosed i => ∃ c, s.conns[i]? = some c ∧ c.freed = false ∧ c.handleClosing = true
  | .stop _ => s.stopClosing = false
  | .deadline => s.drainTimer.running = true

inductive Runs : HttpServer → List Event → HttpServer → Prop
  | nil (s : HttpServer) : Runs s [] s
  | cons {s s' : HttpServer} {e : Event} {rest : List Event} (hpossible : Possible s e)
      (hrest : Runs (handle e s) rest s') : Runs s (e :: rest) s'

/-- A server that serves these connections; one has none when it is created. -/
def serving (conns : List Conn) : HttpServer :=
  ⟨conns, false, false, ⟨false, false, 0, false⟩, false, false, 0⟩

/-- A connection is closed through `close_conn`, or before anything is done with it. -/
def Conn.Sane (c : Conn) : Prop :=
  (c.closing = true → c.handleClosing = true) ∧
    (c.handleClosing = true → c.closing = true ∨ c.genOwned = false ∧ c.writes = []) ∧
    (c.freed = true → c.handleClosing = true)

instance (c : Conn) : Decidable c.Sane := inferInstanceAs (Decidable (_ ∧ _ ∧ _))

end Mlxd.Server
