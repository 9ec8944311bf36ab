import Mlxd.DrainAccounting
import Mlxd.HttpParser
import Mlxd.Json

/-!
# Dispatch of a connection's requests

One connection of the server with its parser. Whatever else happens to the server, the dispatcher is
called with the messages of the bytes that were read, in whatever pieces they came. A request
without keep-alive leaves the parser as it is until the connection is closed behind the response, so
a byte that is read before that calls the dispatcher with an empty request.
-/
namespace Mlxd.Dispatch

open Mlxd.Unicode Mlxd.Server Mlxd.HttpParser Mlxd.Lib.Incremental

/-- A connection of the server, with its parser. -/
structure Peer (L : Llhttp) where
  server : HttpServer
  parser : HttpParserCtx L
  /-- The requests that the dispatcher was called with. -/
  dispatched : List HttpParsedRequest
  /-- The bytes that were read. -/
  received : Bytes

/-- A connection that is not accepted yet. -/
def Peer.start (L : Llhttp) (maxBodyBytes : Nat) : Peer L :=
  ⟨serving [], httpParserCreate L maxBodyBytes, [], []⟩

variable {L : Llhttp}

section Reading

-- what the dispatcher does with the request of that number
variable (i : ConnId) (answers : Nat → Dispatched)

def dispatchRequest (pr : HttpParsedRequest) (s : Peer L) : Peer L :=
  { s with
    dispatched := s.dispatched ++ [pr]
    server := dispatch i pr.keepAlive (answers s.dispatched.length) s.server }

/-- The fuel bounds the requests; `built` and `queued` answer for the response to an error. -/
def readLoop (built queued : Bool) : Nat → Bytes → Peer L → Peer L
  | 0, _, s => s
  | fuel + 1, data, s =>
    if data = [] ∨ s.server.closingConn i = true then s
    else
      match httpParserFeed s.parser data with
      | (.incomplete, _, c) => { s with parser := c }
      | (.error, _, c) => { s with parser := c, server := respond i false built queued s.server }
      | (.tooLarge, _, c) => { s with parser := c, server := respond i false built queued s.server }
      | (.complete, pr, c) =>
        let s := dispatchRequest i answers pr { s with parser := c }
        if !pr.keepAlive || s.server.closingConn i || s.server.genOwnedConn i then s
        else
          readLoop built queued fuel (data.drop c.consumed) { s with parser := httpParserReset c }

def onRead (data : Bytes) (built queued : Bool) (s : Peer L) : Peer L :=
  if s.server.genOwnedConn i then s else readLoop i answers built queued data.length data s

/-! ## Runs -/

inductive Step where
  | read (data : Bytes) (built queued : Bool)
  /-- Anything else that the server does. -/
  | other (e : Event)

def step (e : Step) (s : Peer L) : Peer L :=
  match e with
  | .read data built queued =>
    onRead i answers data built queued { s with received := s.received ++ data }
  | .other e => { s with server := handle e s.server }

/-- What libuv may call; the bytes of the connection are read by the parser alone. -/
def PossibleStep (s : Peer L) : Step → Prop
  | .read _ _ _ => Possible s.server (.read i false [])
  | .other e => Possible s.server e ∧ ∀ parsed, e ≠ .read i false parsed

/-- Every step of the run is one of these. -/
def Along (P : Peer L → Step → Prop) : List Step → Peer L → Prop
  | [], _ => True
  | e :: rest, s => P s e ∧ Along P rest (step i answers e s)

/-- Every state of the run is one of these. -/
def Throughout (P : Peer L → Prop) : List Step → Peer L → Prop
  | [], s => P s
  | e :: rest, s => P s ∧ Throughout P rest (step i answers e s)

/-! ## What is promised -/

/-- The conversation goes on behind a request that keeps the connection and is answered on it. -/
def goesOn (k : Nat) (r : Message) : Bool := r.keepAlive && answers k == .answer true true

def bodyLimit (maxBodyBytes : Nat) : Nat := if maxBodyBytes = 0 then 2 ^ 20 else maxBodyBytes

/-- The conversation of a byte stream. -/
def talk (L : Llhttp) (maxBodyBytes : Nat) (received : Bytes) : Talk (Partial L) Message :=
  (⟨[], some (Partial.start L)⟩ : Talk (Partial L) Message).hearAll
    (Partial.step (bodyLimit maxBodyBytes)) (Partial.start L) (goesOn answers) received

/-- The dispatcher was called with the messages of the bytes that were read, once each and in
order, and never without a method or a path. -/
structure Orderly (maxBodyBytes : Nat) (s : Peer L) : Prop where
  present : ∀ pr ∈ s.dispatched, pr.method ≠ none ∧ pr.path ≠ none
  inOrder : s.dispatched = (talk answers L maxBodyBytes s.received).said.map Message.request

/-- Nothing is read while the parser holds a request that was dispatched, unless a generation owns
the connection. -/
def Patient (s : Peer L) : Step → Prop
  | .read data _ _ =>
    data ≠ [] → s.parser.lastStatus = .complete → s.server.genOwnedConn i = true
  | .other _ => True

end Reading

/-! ## The server under the connection -/

section Server

variable {i j : ConnId} {s : HttpServer}

/-- The connection is there, open and not owned by a generation. -/
def Open (i : ConnId) (s : HttpServer) : Prop :=
  ∃ c, s.conns[i]? = some c ∧ c.closing = false ∧ c.genOwned = false

theorem Open.flags (h : Open i s) : s.closingConn i = false ∧ s.genOwnedConn i = false := by
  obtain ⟨c, hc, hclosing, howned⟩ := h
  simp [HttpServer.closingConn, HttpServer.genOwnedConn, hc, hclosing, howned]

theorem open_of_possible {parsed : List Parsed} (hinv : Inv s)
    (hpossible : Possible s (.read i false parsed)) (howned : s.genOwnedConn i = false) :
    Open i s := by
  obtain ⟨c, hc, hlive⟩ := hpossible
  rw [Conn.live, Bool.and_eq_true, Bool.not_eq_true', Bool.not_eq_true'] at hlive
  refine ⟨c, hc, ?_, ?_⟩
  · by_contra hclosing
    have hhandle := (conn_sane hinv hc).1 (by simpa using hclosing)
    rw [hlive.2] at hhandle
    contradiction
  · simpa [HttpServer.genOwnedConn, hc] using howned

theorem setConn_get {c d : Conn} (hc : s.conns[i]? = some c) : (s.setConn i d).conns[i]? = some d :=
  List.getElem?_set_self (List.getElem?_eq_some_iff.mp hc).1

theorem closeConn_get {c : Conn} (hc : s.conns[i]? = some c) (hclosing : c.closing = false) :
    (closeConn i s).conns[i]? = some c.closed := by
  simp only [closeConn, hc, hclosing, Bool.false_eq_true, if_false, drainCheck_conns]
  exact setConn_get hc

theorem queueWrite_get {c : Conn} (hc : s.conns[i]? = some c) (hclosing : c.closing = false)
    (closeAfter queued : Bool) : (queueWrite i closeAfter queued s).conns[i]? =
      some (if queued then { c with writes := c.writes ++ [closeAfter] } else c.closed) := by
  simp only [queueWrite, hc, hclosing, Bool.false_eq_true, if_false]
  cases queued with
  | false => exact closeConn_get hc hclosing
  | true => exact setConn_get hc

/-- An answered request leaves the connection open exactly when its response is queued. -/
theorem dispatch_open (h : Open i s) (keepAlive : Bool) (outcome : Dispatched) :
    (outcome = .answer true true ∧ Open i (dispatch i keepAlive outcome s)) ∨
      (outcome ≠ .answer true true ∧ ((dispatch i keepAlive outcome s).closingConn i = true ∨
        (dispatch i keepAlive outcome s).genOwnedConn i = true)) := by
  obtain ⟨c, hc, hclosing, howned⟩ := h
  cases outcome with
  | answer built queued =>
    have hclosed : (closeConn i s).closingConn i = true := by
      simp [HttpServer.closingConn, closeConn_get hc hclosing, Conn.closed]
    cases built with
    | false => exact .inr ⟨by simp, .inl hclosed⟩
    | true =>
      have hget := queueWrite_get hc hclosing (!keepAlive) queued
      cases queued with
      | false =>
        refine .inr ⟨by simp, .inl ?_⟩
        simp [dispatch, respond, HttpServer.closingConn, hget, Conn.closed]
      | true => exact .inl ⟨rfl, _, hget, hclosing, howned⟩
  | deferred head =>
    refine .inr ⟨by simp, .inr ?_⟩
    have howns : ∀ {s' : HttpServer} {d : Conn}, s'.conns[i]? = some d →
        (s'.setConn i { d with genOwned := true }).genOwnedConn i = true := by
      intro s' d hd
      simp [HttpServer.genOwnedConn, setConn_get hd]
    have hobserved : (httpConnSetObserver i true s).conns[i]? =
        some { c with observed := true } := by
      simp only [httpConnSetObserver, hc]
      exact setConn_get hc
    cases head with
    | none =>
      simp only [dispatch, hobserved]
      exact howns hobserved
    | some queued =>
      have hget := queueWrite_get hobserved hclosing false queued
      simp only [dispatch, hget]
      exact howns hget

/-! ## Who owns the connection -/

theorem setConn_owned {c d : Conn} (hc : s.conns[j]? = some c) (hd : d.genOwned = c.genOwned) :
    (s.setConn j d).genOwnedConn i = s.genOwnedConn i := by
  by_cases hij : j = i
  · subst hij
    simp [HttpServer.genOwnedConn, setConn_get hc, hc, hd]
  · simp [HttpServer.genOwnedConn, HttpServer.setConn, List.getElem?_set_ne hij]

theorem closeConn_owned : (closeConn j s).genOwnedConn i = s.genOwnedConn i := by
  unfold closeConn
  split
  · next c hc =>
    split
    · rfl
    · rw [HttpServer.genOwnedConn, drainCheck_conns]
      exact setConn_owned hc rfl
  · rfl

theorem queueWrite_owned (closeAfter queued : Bool) :
    (queueWrite j closeAfter queued s).genOwnedConn i = s.genOwnedConn i := by
  unfold queueWrite
  split
  · next c hc =>
    split
    · rfl
    · split
      · exact setConn_owned hc rfl
      · exact closeConn_owned
  · rfl

theorem respond_owned (keepAlive built queued : Bool) :
    (respond j keepAlive built queued s).genOwnedConn i = s.genOwnedConn i := by
  unfold respond
  split
  · exact queueWrite_owned _ _
  · exact closeConn_owned

theorem observer_owned (on : Bool) :
    (httpConnSetObserver j on s).genOwnedConn i = s.genOwnedConn i := by
  unfold httpConnSetObserver
  split
  · next c hc => exact setConn_owned hc rfl
  · rfl

theorem onWrite_owned (failed : Bool) : (onWrite j failed s).genOwnedConn i = s.genOwnedConn i := by
  unfold onWrite
  split
  · next c hc =>
    split
    · next closeAfter rest _ =>
      have hset : (s.setConn j { c with writes := rest }).genOwnedConn i = s.genOwnedConn i :=
        setConn_owned hc rfl
      dsimp only
      split
      · rw [closeConn_owned, hset]
      · exact hset
    · rfl
  · rfl

theorem genCalls_owned (calls : List GenCall) :
    (calls.foldl (genCall j) s).genOwnedConn i = s.genOwnedConn i := by
  induction calls generalizing s with
  | nil => rfl
  | cons call rest ih =>
    rw [List.foldl_cons, ih]
    cases call with
    | write closeAfter queued => exact queueWrite_owned _ _
    | close => exact closeConn_owned
    | detach => exact observer_owned _

theorem dispatch_owned (hij : j ≠ i) (keepAlive : Bool) (outcome : Dispatched) :
    (dispatch j keepAlive outcome s).genOwnedConn i = s.genOwnedConn i := by
  have howns : ∀ {s' : HttpServer} (d : Conn),
      (s'.setConn j d).genOwnedConn i = s'.genOwnedConn i := by
    intro s' d
    simp [HttpServer.genOwnedConn, HttpServer.setConn, List.getElem?_set_ne hij]
  cases outcome with
  | answer built queued => exact respond_owned _ _ _
  | deferred head =>
    cases head with
    | none =>
      unfold dispatch
      dsimp only
      split
      · rw [howns, observer_owned]
      · exact observer_owned _
    | some queued =>
      unfold dispatch
      dsimp only
      split
      · rw [howns, queueWrite_owned, observer_owned]
      · rw [queueWrite_owned, observer_owned]

theorem onRead_owned {failed : Bool} (hread : j ≠ i ∨ failed = true) (parsed : List Parsed) :
    (Server.onRead j failed parsed s).genOwnedConn i = s.genOwnedConn i := by
  unfold Server.onRead
  split
  · exact closeConn_owned
  · next hfailed =>
    have hij : j ≠ i := hread.resolve_right hfailed
    split
    · rfl
    · induction parsed generalizing s with
      | nil => rfl
      | cons first rest ih =>
        unfold Server.readLoop
        split
        · rfl
        · split
          · rfl
          · exact respond_owned _ _ _
          · next keepAlive outcome =>
            dsimp only
            split
            · exact dispatch_owned hij _ _
            · next hon =>
              rw [Bool.or_eq_true, not_or] at hon
              rw [ih hon.2, dispatch_owned hij]

theorem walkDrain_owned (ids : List ConnId) (n : Int) :
    (ids.foldl walkDrainCb (s, n)).1.genOwnedConn i = s.genOwnedConn i := by
  induction ids generalizing s n with
  | nil => rfl
  | cons k rest ih =>
    rw [List.foldl_cons, walkDrainCb]
    dsimp only
    split
    · split
      · exact ih n
      · split
        · exact ih _
        · rw [ih, closeConn_owned]
    · exact ih n

theorem walkForceClose_owned (ids : List ConnId) :
    (ids.foldl walkForceCloseTcpCb s).genOwnedConn i = s.genOwnedConn i := by
  induction ids generalizing s with
  | nil => rfl
  | cons k rest ih =>
    rw [List.foldl_cons, ih, walkForceCloseTcpCb]
    split
    · split
      · rfl
      · exact closeConn_owned
    · rfl

/-- Only a request of its own gives the connection to a generation. -/
theorem handle_owned {e : Event} (hread : ∀ parsed, e ≠ .read i false parsed)
    (howned : s.genOwnedConn i = false) : (handle e s).genOwnedConn i = false := by
  cases e with
  | connection accepted =>
    rw [handle, onNewConnection, HttpServer.genOwnedConn, List.getElem?_append]
    split
    · exact howned
    · rw [List.getElem?_singleton]
      split <;> rfl
  | read j failed parsed =>
    rw [handle, onRead_owned, howned]
    by_cases hij : j = i
    · subst hij
      cases failed with
      | false => exact absurd rfl (hread parsed)
      | true => exact .inr rfl
    · exact .inl hij
  | written j failed => rw [handle, onWrite_owned, howned]
  | gen j calls => rw [handle, genCalls_owned, howned]
  | connClosed j =>
    rw [handle, onConnClose]
    split
    · next c hc =>
      have hset : (s.setConn j { c with freed := true }).genOwnedConn i = s.genOwnedConn i :=
        setConn_owned hc rfl
      exact hset.trans howned
    · exact howned
  | stop inited =>
    rw [handle, onStopAsync]
    split
    · exact howned
    · dsimp only
      have hwalk := @walkDrain_owned i { s with
        draining := true, listenerClosing := true, stopClosing := true } (handleIds { s with
          draining := true, listenerClosing := true, stopClosing := true }) 0
      split
      · exact hwalk.trans howned
      · exact hwalk.trans howned
  | deadline =>
    rw [handle, onDrainTimeout]
    exact (walkForceClose_owned _).trans howned

end Server

/-! ## The reads of the parser are reads of the server -/

section Runs

variable {i : ConnId} {answers : Nat → Dispatched} {maxBodyBytes : Nat} {s : Peer L}

theorem readLoop_server (built queued : Bool) (fuel : Nat) (data : Bytes) (s : Peer L) :
    ∃ parsed, (readLoop i answers built queued fuel data s).server =
      Server.readLoop i parsed s.server := by
  induction fuel generalizing data s with
  | zero => exact ⟨[], rfl⟩
  | succ fuel ih =>
    rw [readLoop]
    split
    · exact ⟨[], rfl⟩
    · next hgo =>
      rw [not_or] at hgo
      split
      · refine ⟨[.incomplete], ?_⟩
        rw [Server.readLoop, if_neg hgo.2]
      · refine ⟨[.refused built queued], ?_⟩
        rw [Server.readLoop, if_neg hgo.2]
      · refine ⟨[.refused built queued], ?_⟩
        rw [Server.readLoop, if_neg hgo.2]
      · next pr c _ =>
        dsimp only
        split
        · next hstop =>
          refine ⟨[.complete pr.keepAlive (answers s.dispatched.length)], ?_⟩
          rw [Server.readLoop, if_neg hgo.2]
          exact (if_pos hstop).symm
        · next hon =>
          obtain ⟨parsed, hrest⟩ := ih (data.drop c.consumed)
            { dispatchRequest i answers pr { s with parser := c } with
              parser := httpParserReset c }
          refine ⟨.complete pr.keepAlive (answers s.dispatched.length) :: parsed, ?_⟩
          rw [hrest, Server.readLoop, if_neg hgo.2]
          exact (if_neg hon).symm

/-- A read of the connection is a read of the server, with what the parser finds. -/
theorem onRead_server (data : Bytes) (built queued : Bool) (s : Peer L) :
    ∃ parsed, (onRead i answers data built queued s).server =
      Server.onRead i false parsed s.server := by
  obtain ⟨parsed, hloop⟩ := @readLoop_server L i answers built queued data.length data s
  refine ⟨parsed, ?_⟩
  rw [onRead, Server.onRead, if_neg Bool.false_ne_true]
  split
  · rfl
  · exact hloop

theorem readLoop_received (built queued : Bool) (fuel : Nat) (data : Bytes) (s : Peer L) :
    (readLoop i answers built queued fuel data s).received = s.received := by
  induction fuel generalizing data s with
  | zero => rfl
  | succ fuel ih =>
    rw [readLoop]
    split
    · rfl
    · split
      · rfl
      · rfl
      · rfl
      · dsimp only
        split
        · rfl
        · rw [ih]
          rfl

theorem onRead_received (data : Bytes) (built queued : Bool) (s : Peer L) :
    (onRead i answers data built queued s).received = s.received := by
  rw [onRead]
  split
  · rfl
  · exact readLoop_received _ _ _ _ _

/-! ## One read -/

/-- The dispatcher was called with these messages, and the parser is where the conversation is. -/
structure Keeps (i : ConnId) (maxBodyBytes : Nat) (t : Talk (Partial L) Message) (s : Peer L) :
    Prop where
  said : s.dispatched = t.said.map Message.request
  reading : ∀ a, t.reader = some a →
    Reads (bodyLimit maxBodyBytes) none s.parser a ∧ s.server.genOwnedConn i = false
  ended : t.reader = none → s.parser.lastStatus ≠ .incomplete

theorem keeps_reading {said : List Message} {a : Partial L}
    (hsaid : s.dispatched = said.map Message.request)
    (hreads : Reads (bodyLimit maxBodyBytes) none s.parser a)
    (howned : s.server.genOwnedConn i = false) : Keeps i maxBodyBytes ⟨said, some a⟩ s :=
  ⟨hsaid, fun _ ha => ⟨Option.some.inj ha ▸ hreads, howned⟩, fun h => by contradiction⟩

theorem keeps_ended {said : List Message} (hsaid : s.dispatched = said.map Message.request)
    (hended : s.parser.lastStatus ≠ .incomplete) : Keeps i maxBodyBytes ⟨said, none⟩ s :=
  ⟨hsaid, fun _ ha => by contradiction, fun _ => hended⟩

/-- The loop goes on behind a request exactly when the conversation does. -/
theorem dispatchRequest_open (hopen : Open i s.server) (r : Message) :
    (goesOn answers s.dispatched.length r = true ∧ r.keepAlive = true ∧
      Open i (dispatchRequest i answers r.request s).server) ∨
    (goesOn answers s.dispatched.length r = false ∧
      (!r.request.keepAlive || (dispatchRequest i answers r.request s).server.closingConn i ||
        (dispatchRequest i answers r.request s).server.genOwnedConn i) = true) := by
  rw [Bool.or_eq_true, Bool.or_eq_true, or_assoc]
  rcases dispatch_open hopen r.keepAlive (answers s.dispatched.length) with
    ⟨hanswer, hopen'⟩ | ⟨hanswer, hended⟩
  · cases hkeep : r.keepAlive with
    | false => exact .inr ⟨by simp [goesOn, hkeep], .inl (by simp [hkeep])⟩
    | true => exact .inl ⟨by simp [goesOn, hkeep, hanswer], rfl, hopen'⟩
  · exact .inr ⟨by simp [goesOn, hanswer], .inr hended⟩

theorem readLoop_keeps (built queued : Bool) (fuel : Nat) (data : Bytes) {said : List Message}
    {a : Partial L} (hfuel : data.length ≤ fuel) (hopen : Open i s.server)
    (hsaid : s.dispatched = said.map Message.request)
    (hreads : Reads (bodyLimit maxBodyBytes) none s.parser a) :
    Keeps i maxBodyBytes ((⟨said, some a⟩ : Talk (Partial L) Message).hearAll
        (Partial.step (bodyLimit maxBodyBytes)) (Partial.start L) (goesOn answers) data)
      (readLoop i answers built queued fuel data s) := by
  obtain ⟨hclosing, howned⟩ := hopen.flags
  induction fuel generalizing data s said a with
  | zero =>
    obtain rfl : data = [] := List.length_eq_zero_iff.mp (by omega)
    exact keeps_reading hsaid hreads howned
  | succ fuel ih =>
    rw [readLoop]
    split
    · next hstop =>
      obtain rfl : data = [] := hstop.resolve_right (by simp [hclosing])
      exact keeps_reading hsaid hreads howned
    · have hfeed := hreads.feed data
      rw [hearAll_run]
      cases hrun : run (Partial.step (bodyLimit maxBodyBytes)) a data with
      | mk verdict rest =>
        rw [hrun] at hfeed
        generalize httpParserFeed s.parser data = out at hfeed ⊢
        obtain ⟨status, pr, c⟩ := out
        cases verdict with
        | going a' =>
          obtain ⟨hstatus, hreads'⟩ := hfeed
          dsimp only at hstatus hreads' ⊢
          subst hstatus
          exact keeps_reading hsaid hreads' howned
        | done r =>
          obtain ⟨hstatus, hpr, hlast, hlimit, hconsumed⟩ := hfeed
          dsimp only at hstatus hpr hlast hlimit hconsumed ⊢
          subst hstatus hpr
          dsimp only
          have hcount : s.dispatched.length = said.length := by rw [hsaid, List.length_map]
          have hsaid' : s.dispatched ++ [r.request] = (said ++ [r]).map Message.request := by
            rw [hsaid, List.map_append]
            rfl
          have hrest : data.drop c.consumed = rest := by
            obtain ⟨front, hfront⟩ := run_suffix (Partial.step (bodyLimit maxBodyBytes)) a data
            rw [hrun] at hfront
            have hlen := congrArg List.length hfront
            dsimp only at hfront hlen
            rw [List.length_append] at hlen
            rw [← hfront, List.drop_left' (by omega)]
          have hless := run_done_length _ hrun
          rw [← hcount]
          rcases @dispatchRequest_open L i answers { s with parser := c } hopen r with
            ⟨hon, hkeep, hopen'⟩ | ⟨hended, hstop⟩
          · obtain ⟨hclosing', howned'⟩ := hopen'.flags
            rw [if_pos hon, if_neg (by simp [hkeep, hclosing', howned']), hrest]
            exact ih rest (by omega) hopen' hsaid' (reset_reads hlimit) hclosing' howned'
          · rw [if_pos hstop, if_neg (by simp [hended]), hearAll_over]
            exact keeps_ended hsaid' (by simp [dispatchRequest, hlast])
        | dead =>
          obtain ⟨hstatus, hlast⟩ := hfeed
          dsimp only at hstatus hlast ⊢
          have hover : c.lastStatus ≠ .incomplete := by
            rw [hlast]
            rcases hstatus with hstatus | hstatus <;> rw [hstatus] <;> simp
          rcases hstatus with hstatus | hstatus
          · subst hstatus
            exact keeps_ended hsaid hover
          · subst hstatus
            exact keeps_ended hsaid hover

/-- A parser that has failed calls the dispatcher no more. -/
theorem readLoop_over (built queued : Bool) (fuel : Nat) {data : Bytes}
    (hover : s.parser.lastStatus ≠ .incomplete)
    (hfailed : data ≠ [] → s.parser.lastStatus ≠ .complete) :
    (readLoop i answers built queued fuel data s).dispatched = s.dispatched ∧
      (readLoop i answers built queued fuel data s).parser = s.parser := by
  cases fuel with
  | zero => exact ⟨rfl, rfl⟩
  | succ fuel =>
    rw [readLoop]
    split
    · exact ⟨rfl, rfl⟩
    · next hgo =>
      rw [not_or] at hgo
      have hstatus := hfailed hgo.1
      rw [feed_sticky hover]
      cases hlast : s.parser.lastStatus with
      | incomplete => exact absurd hlast hover
      | complete => exact absurd hlast hstatus
      | error => exact ⟨rfl, rfl⟩
      | tooLarge => exact ⟨rfl, rfl⟩

/-! ## Every run -/

/-- The connection and the conversation of the bytes that were read. -/
structure Sound (i : ConnId) (answers : Nat → Dispatched) (maxBodyBytes : Nat) (s : Peer L) :
    Prop where
  inv : Inv s.server
  keeps : Keeps i maxBodyBytes (talk answers L maxBodyBytes s.received) s

theorem start_sound (L : Llhttp) (i : ConnId) (answers : Nat → Dispatched) (maxBodyBytes : Nat) :
    Sound i answers maxBodyBytes (Peer.start L maxBodyBytes) where
  inv := serving_inv (by simp)
  keeps := keeps_reading rfl
    ⟨⟨rfl, rfl, rfl, rfl⟩, rfl, rfl, rfl, Nat.zero_le _, Nat.zero_le _⟩ rfl

theorem onRead_keeps {data : Bytes} {built queued : Bool} {t : Talk (Partial L) Message}
    (h : Keeps i maxBodyBytes t s) (hinv : Inv s.server)
    (hpossible : Possible s.server (.read i false []))
    (hpatient : Patient i s (.read data built queued)) :
    Keeps i maxBodyBytes
      (t.hearAll (Partial.step (bodyLimit maxBodyBytes)) (Partial.start L) (goesOn answers) data)
      (onRead i answers data built queued s) := by
  obtain ⟨said, reader⟩ := t
  rw [onRead]
  cases reader with
  | some a =>
    obtain ⟨hreads, howned⟩ := h.reading a rfl
    rw [if_neg (by simp [howned])]
    exact readLoop_keeps built queued _ data le_rfl (open_of_possible hinv hpossible howned)
      h.said hreads
  | none =>
    have hover := h.ended rfl
    rw [hearAll_over]
    split
    · exact keeps_ended h.said hover
    · next howned =>
      obtain ⟨hdispatched, hparser⟩ := @readLoop_over L i answers s built queued data.length data
        hover fun hdata hcomplete => howned (hpatient hdata hcomplete)
      exact keeps_ended (hdispatched.trans h.said) (hparser.symm ▸ hover)

/-- Every possible and patient step follows the conversation. -/
theorem step_sound {e : Step} (h : Sound i answers maxBodyBytes s)
    (hpossible : PossibleStep i s e) (hpatient : Patient i s e) :
    Sound i answers maxBodyBytes (step i answers e s) := by
  cases e with
  | read data built queued =>
    obtain ⟨parsed, hserver⟩ := @onRead_server L i answers data built queued
      { s with received := s.received ++ data }
    constructor
    · rw [step, hserver]
      exact @handle_inv _ (.read i false parsed) h.inv hpossible
    · have hreceived : (step i answers (.read data built queued) s).received =
          s.received ++ data := onRead_received data built queued _
      rw [hreceived, talk, hearAll_append]
      have hkeeps : Keeps i maxBodyBytes (talk answers L maxBodyBytes s.received)
          { s with received := s.received ++ data } := ⟨h.keeps.said, h.keeps.reading, h.keeps.ended⟩
      exact onRead_keeps hkeeps h.inv hpossible hpatient
  | other e =>
    obtain ⟨hpossible, hread⟩ := hpossible
    refine ⟨handle_inv h.inv hpossible, h.keeps.said, fun a ha => ?_, h.keeps.ended⟩
    obtain ⟨hreads, howned⟩ := h.keeps.reading a ha
    exact ⟨hreads, handle_owned hread howned⟩

theorem Sound.orderly (h : Sound i answers maxBodyBytes s) : Orderly answers maxBodyBytes s where
  present pr hpr := by
    rw [h.keeps.said, List.mem_map] at hpr
    obtain ⟨r, -, rfl⟩ := hpr
    exact ⟨by simp [Message.request], by simp [Message.request]⟩
  inOrder := h.keeps.said

/-- An impatient read calls the dispatcher without a method. -/
theorem impatient_step {e : Step} (hinv : Inv s.server) (hpossible : PossibleStep i s e)
    (himpatient : ¬ Patient i s e) : ¬ Orderly answers maxBodyBytes (step i answers e s) := by
  intro horderly
  cases e with
  | other e => exact himpatient trivial
  | read data built queued =>
    simp only [Patient, Classical.not_imp, Bool.not_eq_true] at himpatient
    obtain ⟨hdata, hcomplete, howned⟩ := himpatient
    obtain ⟨hclosing, -⟩ := (@open_of_possible _ _ [] hinv hpossible howned).flags
    refine (horderly.present {} ?_).1 rfl
    cases data with
    | nil => contradiction
    | cons b data =>
      have hfeed := @feed_sticky L s.parser (by simp [hcomplete]) (b :: data)
      rw [hcomplete] at hfeed
      simp [step, onRead, howned, readLoop, hclosing, hfeed, dispatchRequest]

theorem throughout_first {P : Peer L → Prop} {steps : List Step}
    (h : Throughout i answers P steps s) : P s := by
  cases steps with
  | nil => exact h
  | cons e rest => exact h.1

theorem orderly_iff_patient {steps : List Step} (h : Sound i answers maxBodyBytes s)
    (hpossible : Along i answers (PossibleStep i) steps s) :
    Throughout i answers (Orderly answers maxBodyBytes) steps s ↔
      Along i answers (Patient i) steps s := by
  induction steps generalizing s with
  | nil => exact ⟨fun _ => trivial, fun _ => h.orderly⟩
  | cons e rest ih =>
    obtain ⟨hstep, hrest⟩ := hpossible
    constructor
    · rintro ⟨-, horderly⟩
      have hpatient : Patient i s e := by
        by_contra himpatient
        exact impatient_step h.inv hstep himpatient (throughout_first horderly)
      exact ⟨hpatient, (ih (step_sound h hstep hpatient) hrest).mp horderly⟩
    · rintro ⟨hpatient, hpatients⟩
      exact ⟨h.orderly, (ih (step_sound h hstep hpatient) hrest).mpr hpatients⟩

/-- In every run of the server, whatever the reads, the delays and the answers: the dispatcher is
called with the messages of the bytes exactly as long as every read is patient. -/
theorem dispatch_orderly_iff (L : Llhttp) (i : ConnId) (answers : Nat → Dispatched)
    (maxBodyBytes : Nat) (steps : List Step)
    (hpossible : Along i answers (PossibleStep i) steps (Peer.start L maxBodyBytes)) :
    Throughout i answers (Orderly answers maxBodyBytes) steps (Peer.start L maxBodyBytes) ↔
      Along i answers (Patient i) steps (Peer.start L maxBodyBytes) :=
  orderly_iff_patient (start_sound L i answers maxBodyBytes) hpossible

end Runs

/-! ## A request without keep-alive -/

open Mlxd.Json (ascii)

/-- Requests without header fields; the state holds the bytes of the message. -/
def requestLines : Llhttp where
  State := Bytes
  init := []
  step message b :=
    (message ++ [b],
      if b = 32 then [.spanEnd]
      else if message.count 32 = 1 then [.span .url]
      else if [13, 10, 13, 10] <:+ message ++ [b] then [.headersComplete, .messageComplete]
      else [])
  contentLength _ := none
  shouldKeepAlive message := message.reverse[4]? == some 49
  methodName message := message.takeWhile (· ≠ 32)

/-- Every request is answered on its connection. -/
def answered (_ : Nat) : Dispatched := .answer true true

/-- Two requests in three reads, the second without keep-alive. -/
def patientSteps : List Step :=
  [.other (.connection true), .read (ascii "GET /a HTTP/1.1\r\n") true true,
    .read (ascii "\r\nGET /b?c HTTP/1.0\r\n\r") true true, .other (.written 0 false),
    .read (ascii "\n") true true, .other (.written 0 false), .other (.connClosed 0)]

theorem patient_possible :
    Along 0 answered (PossibleStep 0) patientSteps (Peer.start requestLines 0) := by
  refine ⟨⟨rfl, by simp⟩, ⟨_, rfl, rfl⟩, ⟨_, rfl, rfl⟩, ⟨⟨_, rfl, ?_⟩, by simp⟩, ⟨_, rfl, ?_⟩,
    ⟨⟨_, rfl, ?_⟩, by simp⟩, ⟨⟨_, rfl, ?_⟩, by simp⟩, trivial⟩
  all_goals decide +kernel

/-- Two requests come in three reads, and both are dispatched. -/
theorem patient_dispatched :
    Throughout 0 answered (Orderly answered 0) patientSteps (Peer.start requestLines 0) ↔
      Along 0 answered (Patient 0) patientSteps (Peer.start requestLines 0) :=
  dispatch_orderly_iff requestLines 0 answered 0 patientSteps patient_possible

/-- One byte comes in before the response is written. -/
def impatientSteps : List Step :=
  [.other (.connection true), .read (ascii "GET / HTTP/1.0\r\n\r\n") true true,
    .read (ascii "G") true true, .other (.written 0 false), .other (.connClosed 0)]

/-- The byte behind the request calls the dispatcher without a method. -/
theorem late_byte_dispatched :
    Along 0 answered (PossibleStep 0) impatientSteps (Peer.start requestLines 0) ∧
      ¬ Throughout 0 answered (fun s => ∀ pr ∈ s.dispatched, pr.method ≠ none ∧ pr.path ≠ none)
        impatientSteps (Peer.start requestLines 0) := by
  constructor
  · refine ⟨⟨rfl, by simp⟩, ⟨_, rfl, rfl⟩, ⟨_, rfl, rfl⟩, ⟨⟨_, rfl, ?_⟩, by simp⟩,
      ⟨⟨_, rfl, ?_⟩, by simp⟩, trivial⟩
    all_goals decide +kernel
  · rintro ⟨-, -, -, hafter, -⟩
    have hempty : ({} : HttpParsedRequest) ∈ (step 0 answered
        (.read (ascii "G") true true) (step 0 answered
          (.read (ascii "GET / HTTP/1.0\r\n\r\n") true true) (step 0 answered
            (.other (.connection true)) (Peer.start requestLines 0)))).dispatched := by
      decide +kernel
    exact (hafter _ hempty).1 rfl

end Mlxd.Dispatch
