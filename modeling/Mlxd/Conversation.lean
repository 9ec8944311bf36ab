import Mlxd.Dispatch
import Mlxd.HttpResponse
import Mlxd.Response

/-!
# The conversation of a connection

`router.c` and the reading side of `server.c`, with the bytes that go out. A client that reads
responses and goes on as long as they keep the connection hears one reply to every request, in
order, whatever the pieces in which the requests came. It takes a reply to be what was asked for, so
a `HEAD` request, whose reply would have no body, is not one of its requests.
-/
namespace Mlxd.Conversation

open Mlxd.Unicode Mlxd.Json Mlxd.Http Mlxd.HttpParser Mlxd.Lib Mlxd.Lib.Incremental
open Mlxd.Lib.HttpReader (Response)

/-! ## Router -/

structure Route (F : Type) where
  method : Bytes
  path : Bytes
  fn : F

variable {F : Type} {L : Llhttp}

def httpRouterAdd (r : List (Route F)) (method path : Bytes) (fn : F) : List (Route F) :=
  r ++ [⟨method, path, fn⟩]

def httpRouterMatch (r : List (Route F)) (method path : Bytes) : Option F :=
  (r.find? fun route => route.method = method && route.path = path).map Route.fn

def httpRouterPathExists (r : List (Route F)) (path : Bytes) : Bool :=
  r.any fun route => route.path = path

inductive Endpoint where
  | models | embeddings | chatCompletions | completions
  deriving DecidableEq, Repr

def handlerRegisterAll : List (Route Endpoint) :=
  let r := httpRouterAdd [] (ascii "GET") (ascii "/v1/models") .models
  let r := httpRouterAdd r (ascii "POST") (ascii "/v1/embeddings") .embeddings
  let r := httpRouterAdd r (ascii "POST") (ascii "/v1/chat/completions") .chatCompletions
  httpRouterAdd r (ascii "POST") (ascii "/v1/completions") .completions

/-! ## Handlers -/

structure HttpRequest where
  method : Bytes
  path : Bytes
  body : Option Bytes
  bodyLen : Nat

structure HttpResponse where
  status : Int
  contentType : Option Bytes
  body : Bytes

inductive Handled where
  | answer (resp : HttpResponse)
  /-- A generation answers on the connection; the head of a stream has been written or not. -/
  | deferred (streamed : Bool)

/-- What the connection meets: the handlers at each call of the dispatcher, whether the response to
it could be allocated and handed to libuv, and the writer of documents. -/
structure Env (F : Type) where
  routes : List (Route F)
  call : Nat → F → HttpRequest → Handled
  queued : Nat → Bool
  text : Value → Bytes

structure Connection (L : Llhttp) where
  parser : HttpParserCtx L
  closing : Bool
  genOwned : Bool
  /-- How often the dispatcher was called. -/
  calls : Nat
  received : Bytes
  /-- The bytes that were handed to libuv, and those of them that a generation wrote. -/
  sent : Bytes
  generated : Bytes

def Connection.start (L : Llhttp) (maxBodyBytes : Nat) : Connection L :=
  ⟨httpParserCreate L maxBodyBytes, false, false, 0, [], [], []⟩

/-! ## Writing -/

def closeConn (c : Connection L) : Connection L := { c with closing := true }

def queueWrite (queued : Bool) (wire : Bytes) (c : Connection L) : Connection L :=
  if c.closing then c else if queued then { c with sent := c.sent ++ wire } else closeConn c

/-- Queue a response, or close the connection if it could not be built. -/
def respond (queued : Bool) (wire : Option Bytes) (c : Connection L) : Connection L :=
  match wire with
  | none => closeConn c
  | some wire => queueWrite queued wire c

structure WireError where
  status : Nat
  type : String
  code : Option String
  msg : String

def malformedRequest : WireError :=
  ⟨400, "invalid_request_error", none, "Malformed HTTP request"⟩

def bodyTooLarge : WireError :=
  ⟨413, "payload_too_large", some "payload_too_large", "Request body too large"⟩

def methodNotAllowed : WireError :=
  ⟨405, "method_not_allowed", some "method_not_allowed", "Method not allowed"⟩

def notFound : WireError := ⟨404, "not_found_error", some "not_found", "Not found"⟩

def buildErrorWire (text : Value → Bytes) (e : WireError) (keepAlive : Bool) : Option Bytes :=
  httpBuildResponse e.status (some (ascii "application/json"))
    (text (errorEnvelopeSerialize e.msg e.type e.code)) keepAlive

def writeError (text : Value → Bytes) (queued : Bool) (e : WireError) (keepAlive : Bool)
    (c : Connection L) : Connection L :=
  respond queued (buildErrorWire text e keepAlive) c

/-! ## Reading -/

section Reading

variable (env : Env F)

/-- `none` is a null pointer that is compared as a string. -/
def dispatch (pr : HttpParsedRequest) (c : Connection L) : Option (Connection L) := do
  let method ← pr.method
  let queued := env.queued c.calls
  let called := { c with calls := c.calls + 1 }
  if method = ascii "OPTIONS" then return respond queued (httpBuildPreflight pr.keepAlive) called
  let path ← pr.path
  match httpRouterMatch env.routes method path with
  | some fn =>
    match env.call c.calls fn ⟨method, path, pr.body, pr.bodyLen⟩ with
    | .deferred streamed =>
      let written := if streamed then queueWrite queued httpBuildSseHead called else called
      return { written with genOwned := true, generated := written.sent.drop c.sent.length }
    | .answer resp =>
      return respond queued (httpBuildResponse resp.status resp.contentType resp.body pr.keepAlive) called
  | none =>
    if httpRouterPathExists env.routes path then
      return writeError env.text queued methodNotAllowed pr.keepAlive called
    else return writeError env.text queued notFound pr.keepAlive called

/-- The fuel bounds the requests. -/
def readLoop : Nat → Bytes → Connection L → Option (Connection L)
  | 0, _, c => some c
  | fuel + 1, data, c =>
    if data = [] ∨ c.closing = true then some c
    else
      match httpParserFeed c.parser data with
      | (.incomplete, _, parser) => some { c with parser }
      | (.error, _, parser) =>
        some (writeError env.text (env.queued c.calls) malformedRequest false { c with parser })
      | (.tooLarge, _, parser) =>
        some (writeError env.text (env.queued c.calls) bodyTooLarge false { c with parser })
      | (.complete, pr, parser) => do
        let c ← dispatch env pr { c with parser }
        if !pr.keepAlive || c.closing || c.genOwned then some c
        else readLoop fuel (data.drop parser.consumed) { c with parser := httpParserReset c.parser }

def onRead (data : Bytes) (c : Connection L) : Option (Connection L) :=
  if c.genOwned then some c else readLoop env data.length data c

inductive Step where
  | read (data : Bytes)
  /-- The generation that owns the connection writes. -/
  | generated (wire : Bytes) (queued : Bool)
  /-- A write with `close_after` is done or failed, the peer is gone or the server drains. -/
  | closed

def step (e : Step) (c : Connection L) : Option (Connection L) :=
  match e with
  | .read data => onRead env data { c with received := c.received ++ data }
  | .generated wire queued =>
    let written := queueWrite queued wire c
    some { written with generated := c.generated ++ written.sent.drop c.sent.length }
  | .closed => some (closeConn c)

def run : List Step → Connection L → Option (Connection L)
  | [], c => some c
  | e :: rest, c => do run rest (← step env e c)

/-- A connection that is closing is not read, only a generation that owns it writes, and nothing is
read while the parser holds a request that was dispatched. -/
def Allowed (c : Connection L) : Step → Prop
  | .read data => c.closing = false ∧
      (data ≠ [] → c.parser.lastStatus = .complete → c.genOwned = true)
  | .generated _ _ => c.genOwned = true
  | .closed => True

/-- Every step of the run is one of these. -/
def Along : List Step → Connection L → Prop
  | [], _ => True
  | e :: rest, c => Allowed c e ∧ ∀ c' ∈ step env e c, Along rest c'

instance (c : Connection L) (e : Step) : Decidable (Allowed c e) :=
  match e with
  | .read _ => inferInstanceAs (Decidable (_ ∧ _))
  | .generated _ _ => inferInstanceAs (Decidable (_ = _))
  | .closed => inferInstanceAs (Decidable True)

def decideAlong : (steps : List Step) → (c : Connection L) → Decidable (Along env steps c)
  | [], _ => isTrue trivial
  | e :: rest, c =>
    have := decideAlong rest
    inferInstanceAs (Decidable (Allowed c e ∧ ∀ c' ∈ step env e c, Along env rest c'))

instance (steps : List Step) (c : Connection L) : Decidable (Along env steps c) :=
  decideAlong env steps c

end Reading

/-! ## What a client hears -/

/-- A client goes on behind a response that keeps the connection. -/
def stays (_ : Nat) (r : Response) : Bool :=
  r.head.values (ascii "connection") = [ascii "keep-alive"]

abbrev Hearing := Talk HttpReader.State Response

def Hearing.on (t : Hearing) (bytes : Bytes) : Hearing :=
  t.hearAll HttpReader.step HttpReader.start stays bytes

/-- The responses so far, and the client unless it has stopped. -/
def heard (c : Connection L) : Hearing := Hearing.on ⟨[], some HttpReader.start⟩ c.sent

section Replies

variable (env : Env F)

inductive Served where
  | reply (r : Response)
  /-- The response could not be built. -/
  | nothing
  | handedOver

def built (wire : Option Bytes) (r : Response) : Served := if wire.isSome then .reply r else .nothing

def errorReply (e : WireError) (keepAlive : Bool) : Response :=
  response e.status (ascii "application/json") (env.text (errorEnvelopeSerialize e.msg e.type e.code))
    keepAlive

def errorServed (e : WireError) (keepAlive : Bool) : Served :=
  built (buildErrorWire env.text e keepAlive) (errorReply env e keepAlive)

/-- What becomes of the request with that number. -/
def served (n : Nat) (r : Message) : Served :=
  if r.method = ascii "OPTIONS" then .reply ⟨(preflightHead r.keepAlive).trimmed, []⟩
  else
    match httpRouterMatch env.routes r.method r.path with
    | some fn =>
      match env.call n fn ⟨r.method, r.path, r.request.body, r.body.length⟩ with
      | .deferred _ => .handedOver
      | .answer resp =>
        built (httpBuildResponse resp.status resp.contentType resp.body r.keepAlive)
          (response resp.status.toNat (resp.contentType.getD []) resp.body r.keepAlive)
    | none =>
      if httpRouterPathExists env.routes r.path then errorServed env methodNotAllowed r.keepAlive
      else errorServed env notFound r.keepAlive

/-- The reply, if it is sent. -/
def Served.sent (queued : Bool) : Served → Option Response
  | .reply r => if queued then some r else none
  | _ => none

def replyTo (n : Nat) (r : Message) : Option Response := (served env n r).sent (env.queued n)

def replies (said : List Message) : List Response :=
  said.zipIdx.filterMap fun (r, n) => replyTo env n r

/-- The reply to what could not be parsed. -/
def refusal (n : Nat) : ParseStatus → Option Response
  | .error => (errorServed env malformedRequest false).sent (env.queued n)
  | .tooLarge => (errorServed env bodyTooLarge false).sent (env.queued n)
  | _ => none

/-- The conversation goes on behind a request that keeps the connection and has its reply. -/
def goesOn (n : Nat) (r : Message) : Bool := r.keepAlive && (replyTo env n r).isSome

def bodyLimit (maxBodyBytes : Nat) : Nat := if maxBodyBytes = 0 then 2 ^ 20 else maxBodyBytes

/-- The requests of a byte stream. -/
def talk (L : Llhttp) (maxBodyBytes : Nat) (received : Bytes) : Talk (Partial L) Message :=
  (⟨[], some (Partial.start L)⟩ : Talk (Partial L) Message).hearAll
    (Partial.step (bodyLimit maxBodyBytes)) (Partial.start L) (goesOn env) received

/-- The client has the replies to the requests that were read, and the last of these alone may have
none; it is between two responses, or hears the generation that the last request was handed to. -/
structure Heard (maxBodyBytes : Nat) (c : Connection L) : Prop where
  calls : c.calls = (talk env L maxBodyBytes c.received).said.length
  all : (talk env L maxBodyBytes c.received).said.length ≤
    (replies env (talk env L maxBodyBytes c.received).said).length + 1
  answered : c.genOwned = false →
    (heard c).said = replies env (talk env L maxBodyBytes c.received).said ++
        (refusal env c.calls c.parser.lastStatus).toList ∧
      ((heard c).reader = some HttpReader.start ∨ (heard c).reader = none)
  handedOver : c.genOwned = true → heard c = Hearing.on
    ⟨replies env (talk env L maxBodyBytes c.received).said, some HttpReader.start⟩ c.generated
  streamed : c.genOwned = true → ∀ body, c.generated = httpBuildSseHead ++ body → heard c =
    ⟨replies env (talk env L maxBodyBytes c.received).said, some (.stream sseHead.trimmed body)⟩

/-- Every handler answers with a status that has a body. -/
def HandlersBodied : Prop :=
  ∀ n fn req resp, env.call n fn req = .answer resp → ∃ status : Nat, resp.status = status ∧ Bodied status

end Replies

/-! ## One response -/

section Hearing

variable {env : Env F} {c : Connection L}

theorem on_append (t : Hearing) (bytes more : Bytes) : t.on (bytes ++ more) = (t.on bytes).on more :=
  hearAll_append _ _ _ t bytes more

theorem on_over (said : List Response) (bytes : Bytes) :
    Hearing.on ⟨said, none⟩ bytes = ⟨said, none⟩ := hearAll_over _ _ _ said bytes

/-- Bytes that are read back as a response. -/
def ReadBack (wire : Bytes) (r : Response) : Prop :=
  ∀ rest, Incremental.run HttpReader.step HttpReader.start (wire ++ rest) = (.done r, rest)

theorem on_reply {wire : Bytes} {r : Response} (h : ReadBack wire r) (said : List Response) :
    Hearing.on ⟨said, some HttpReader.start⟩ wire =
      ⟨said ++ [r], if stays said.length r then some HttpReader.start else none⟩ := by
  have hread := h []
  rw [List.append_nil] at hread
  rw [Hearing.on, hearAll_run, hread]
  rfl

theorem on_stream (said : List Response) (body : Bytes) :
    Hearing.on ⟨said, some HttpReader.start⟩ (httpBuildSseHead ++ body) =
      ⟨said, some (.stream sseHead.trimmed body)⟩ := by
  rw [Hearing.on, hearAll_run, httpBuildSseHead_read]

theorem response_stays (n status : Nat) (contentType body : Bytes) (keepAlive : Bool) :
    stays n (response status contentType body keepAlive) = keepAlive := by
  have hvalues : (response status contentType body keepAlive).head.values (ascii "connection") =
      [HttpReader.trim (connection keepAlive)] := rfl
  rw [stays, hvalues]
  cases keepAlive <;> decide

theorem response_readBack {status : Nat} {contentType : Option Bytes} {body wire : Bytes}
    {keepAlive : Bool} (hstatus : Bodied status)
    (h : httpBuildResponse status contentType body keepAlive = some wire) :
    ReadBack wire (response status (contentType.getD []) body keepAlive) := by
  obtain ⟨value, rfl, hread⟩ := httpBuildResponse_read hstatus h
  rw [Option.getD_some]
  exact hread

theorem preflight_stays (n : Nat) (keepAlive : Bool) :
    stays n ⟨(preflightHead keepAlive).trimmed, []⟩ = keepAlive := by
  rw [stays]
  cases keepAlive <;> decide

/-! ## One request -/

/-- The connection waits for the next request, and the client has a reply to each. -/
structure Open (env : Env F) (said : List Message) (c : Connection L) : Prop where
  calls : c.calls = said.length
  genOwned : c.genOwned = false
  heard : heard c = ⟨replies env said, some HttpReader.start⟩
  all : (replies env said).length = said.length

/-- No request follows. -/
structure Over (env : Env F) (said : List Message) (c : Connection L) : Prop where
  calls : c.calls = said.length
  all : said.length ≤ (replies env said).length + 1
  status : c.parser.lastStatus ≠ .incomplete
  answered : c.genOwned = false →
    (heard c).said = replies env said ++ (refusal env c.calls c.parser.lastStatus).toList ∧
      ((heard c).reader = some HttpReader.start ∨ (heard c).reader = none)
  refused : c.genOwned = false → c.parser.lastStatus ≠ .complete → c.closing = false →
    (heard c).reader = none
  handedOver : c.genOwned = true → c.parser.lastStatus = .complete ∧
    heard c = Hearing.on ⟨replies env said, some HttpReader.start⟩ c.generated

variable {said : List Message} {r : Message}

theorem replies_append (said : List Message) (r : Message) :
    replies env (said ++ [r]) = replies env said ++ (replyTo env said.length r).toList := by
  rw [replies, List.zipIdx_append, List.filterMap_append, ← replies, List.zipIdx_singleton,
    Nat.zero_add]
  simp only [List.filterMap_cons, List.filterMap_nil]
  cases replyTo env said.length r <;> rfl

/-- What a call of the dispatcher does to the connection. -/
inductive Serves (queued keepAlive : Bool) (c : Connection L) : Connection L → Served → Prop
  | reply {wire : Bytes} {resp : Response} (hread : ReadBack wire resp)
      (hstays : ∀ n, stays n resp = keepAlive) :
      Serves queued keepAlive c (queueWrite queued wire c) (.reply resp)
  | nothing : Serves queued keepAlive c (closeConn c) .nothing
  | handedOver {written : Connection L}
      (hwritten : written = c ∨ written = queueWrite queued httpBuildSseHead c) :
      Serves queued keepAlive c
        { written with genOwned := true, generated := written.sent.drop c.sent.length } .handedOver

theorem built_serves {wire : Option Bytes} {resp : Response} {keepAlive : Bool}
    (hread : ∀ w, wire = some w → ReadBack w resp) (hstays : ∀ n, stays n resp = keepAlive)
    (queued : Bool) (c : Connection L) :
    Serves queued keepAlive c (respond queued wire c) (built wire resp) := by
  cases wire with
  | none => exact .nothing
  | some w => exact .reply (hread w rfl) hstays

theorem methodNotAllowed_bodied : Bodied methodNotAllowed.status := by decide

theorem notFound_bodied : Bodied notFound.status := by decide

theorem errorReply_readBack {e : WireError} (hbodied : Bodied e.status) (keepAlive : Bool)
    (w : Bytes) (hwire : buildErrorWire env.text e keepAlive = some w) :
    ReadBack w (errorReply env e keepAlive) := by
  rw [buildErrorWire] at hwire
  have hread := response_readBack hbodied hwire
  rw [Option.getD_some] at hread
  rw [errorReply]
  exact hread

theorem error_serves {e : WireError} (hbodied : Bodied e.status) (queued keepAlive : Bool)
    (c : Connection L) : Serves queued keepAlive c (writeError env.text queued e keepAlive c)
      (errorServed env e keepAlive) := by
  rw [writeError, errorServed]
  apply built_serves (errorReply_readBack hbodied keepAlive)
  intro n
  rw [errorReply, response_stays]

/-- The dispatcher does with a request what becomes of it. -/
theorem dispatch_serves (hbodied : HandlersBodied env) (r : Message) (c : Connection L) :
    ∃ c', dispatch env r.request c = some c' ∧
      Serves (env.queued c.calls) r.keepAlive { c with calls := c.calls + 1 } c'
        (served env c.calls r) := by
  simp only [dispatch, served, Message.request, Option.bind_eq_bind, Option.bind_some,
    Option.pure_def]
  by_cases hoptions : r.method = ascii "OPTIONS"
  · obtain ⟨wire, hwire, hread⟩ := httpBuildPreflight_read r.keepAlive
    rw [if_pos hoptions, if_pos hoptions, hwire]
    exact ⟨_, rfl, .reply hread fun n => preflight_stays n r.keepAlive⟩
  · rw [if_neg hoptions, if_neg hoptions]
    cases hmatch : httpRouterMatch env.routes r.method r.path with
    | some fn =>
      dsimp only
      cases hcall : env.call c.calls fn ⟨r.method, r.path, r.request.body, r.body.length⟩ with
      | deferred streamed =>
        rw [Message.request] at hcall
        simp only [hcall]
        cases streamed with
        | false => exact ⟨_, rfl, .handedOver (.inl rfl)⟩
        | true => exact ⟨_, rfl, .handedOver (.inr rfl)⟩
      | answer resp =>
        obtain ⟨status, hstatus, hbody⟩ := hbodied _ _ _ _ hcall
        rw [Message.request] at hcall
        simp only [hcall]
        refine ⟨_, rfl, ?_⟩
        apply built_serves
        · intro w hwire
          rw [hstatus] at hwire ⊢
          exact response_readBack hbody hwire
        · intro n
          rw [response_stays]
    | none =>
      dsimp only
      split
      · exact ⟨_, rfl, error_serves methodNotAllowed_bodied _ _ _⟩
      · exact ⟨_, rfl, error_serves notFound_bodied _ _ _⟩

theorem queueWrite_open (hclosing : c.closing = false) (queued : Bool) (wire : Bytes) :
    queueWrite queued wire c =
      if queued then { c with sent := c.sent ++ wire } else closeConn c := by
  rw [queueWrite, if_neg (by simp [hclosing])]

theorem Open.hears (hopen : Open env said c) {c' : Connection L} {wire : Bytes}
    (hsent : c'.sent = c.sent ++ wire) :
    Conversation.heard c' = Hearing.on ⟨replies env said, some HttpReader.start⟩ wire := by
  have hheard := hopen.heard
  rw [Conversation.heard] at hheard ⊢
  rw [hsent, on_append, hheard]

/-- A request without a reply is the last one. -/
theorem Open.unanswered (hopen : Open env said c) (hreply : replyTo env c.calls r = none)
    {c' : Connection L} (hcalls : c'.calls = c.calls + 1)
    (hstatus : c'.parser.lastStatus = .complete) {wire : Bytes} (hsent : c'.sent = c.sent ++ wire)
    (howned : c'.genOwned = false → wire = []) (hgenerated : c'.genOwned = true → c'.generated = wire) :
    Over env (said ++ [r]) c' := by
  have hreplies : replies env (said ++ [r]) = replies env said := by
    rw [replies_append, ← hopen.calls, hreply, Option.toList_none, List.append_nil]
  have hheard := hopen.hears hsent
  refine ⟨?_, ?_, ?_, fun h => ?_, fun h hno => absurd hstatus hno, fun h => ⟨hstatus, ?_⟩⟩
  · rw [hcalls, hopen.calls, List.length_append, List.length_singleton]
  · rw [hreplies, hopen.all, List.length_append, List.length_singleton]
  · rw [hstatus]
    decide
  · rw [howned h] at hheard
    rw [hheard, hreplies, hstatus]
    exact ⟨(List.append_nil _).symm, .inl rfl⟩
  · rw [hreplies, hgenerated h]
    exact hheard

/-- With its reply the request keeps the connection, or it is the last one. -/
theorem Open.reply (hopen : Open env said c) (hclosing : c.closing = false) {wire : Bytes}
    {resp : Response} (hread : ReadBack wire resp) (hstays : ∀ n, stays n resp = r.keepAlive)
    (hreply : replyTo env c.calls r = some resp) {c' : Connection L}
    (hc' : c' = { c with calls := c.calls + 1, sent := c.sent ++ wire }) :
    (goesOn env c.calls r = true ∧ r.keepAlive = true ∧ c'.closing = false ∧
        Open env (said ++ [r]) c') ∨
      (goesOn env c.calls r = false ∧ r.keepAlive = false ∧
        (c.parser.lastStatus = .complete → Over env (said ++ [r]) c')) := by
  have hreplies : replies env (said ++ [r]) = replies env said ++ [resp] := by
    rw [replies_append, ← hopen.calls, hreply]
    rfl
  have hall : (replies env (said ++ [r])).length = (said ++ [r]).length := by
    rw [hreplies, List.length_append, List.length_append, hopen.all]
    rfl
  have hcalls : c'.calls = (said ++ [r]).length := by
    rw [hc', List.length_append, ← hopen.calls]
    rfl
  have howned : c'.genOwned = false := hc' ▸ hopen.genOwned
  have hheard := @Open.hears F L env c said hopen c' wire (by rw [hc'])
  rw [on_reply hread, hstays, ← hreplies] at hheard
  have hgoes : goesOn env c.calls r = r.keepAlive := by
    rw [goesOn, hreply]
    exact Bool.and_true _
  cases hkeep : r.keepAlive with
  | true =>
    rw [hkeep] at hheard hgoes
    exact .inl ⟨hgoes, rfl, hc' ▸ hclosing, hcalls, howned, hheard, hall⟩
  | false =>
    rw [hkeep] at hheard hgoes
    refine .inr ⟨hgoes, rfl, fun hstatus => ?_⟩
    have hstatus' : c'.parser.lastStatus = .complete := hc' ▸ hstatus
    refine ⟨hcalls, by omega, by simp [hstatus'], fun _ => ?_, fun _ hno => absurd hstatus' hno, ?_⟩
    · rw [hheard, hstatus']
      exact ⟨(List.append_nil _).symm, .inr rfl⟩
    · intro h
      rw [howned] at h
      contradiction

/-- A call of the dispatcher gives the reply and leaves the connection open, or is the last one. -/
theorem serves_keeps {c' : Connection L} (hopen : Open env said c) (hclosing : c.closing = false)
    (hserves : Serves (env.queued c.calls) r.keepAlive { c with calls := c.calls + 1 } c'
      (served env c.calls r)) :
    c'.parser = c.parser ∧ c'.received = c.received ∧
      ((goesOn env c.calls r = true ∧ r.keepAlive = true ∧ c'.closing = false ∧
          Open env (said ++ [r]) c') ∨
        (goesOn env c.calls r = false ∧ (!r.keepAlive || c'.closing || c'.genOwned) = true ∧
          (c.parser.lastStatus = .complete → Over env (said ++ [r]) c'))) := by
  have hreply : replyTo env c.calls r = (served env c.calls r).sent (env.queued c.calls) := rfl
  have hwrite := @queueWrite_open L { c with calls := c.calls + 1 } hclosing
  generalize served env c.calls r = outcome at hserves hreply
  have hnone : replyTo env c.calls r = none → goesOn env c.calls r = false := by
    intro h
    rw [goesOn, h, Option.isSome_none, Bool.and_false]
  have hclosed : replyTo env c.calls r = none → c.parser.lastStatus = .complete →
      Over env (said ++ [r]) (closeConn { c with calls := c.calls + 1 }) := by
    intro hnothing hstatus
    refine hopen.unanswered hnothing rfl hstatus (List.append_nil _).symm (fun _ => rfl) fun h => ?_
    rw [closeConn, hopen.genOwned] at h
    contradiction
  cases hserves with
  | nothing => exact ⟨rfl, rfl, .inr ⟨hnone hreply, by simp [closeConn], hclosed hreply⟩⟩
  | @reply wire resp hread hstays =>
    rw [hwrite]
    cases hqueued : env.queued c.calls with
    | false =>
      rw [hqueued] at hreply
      exact ⟨rfl, rfl, .inr ⟨hnone hreply, by simp [closeConn], hclosed hreply⟩⟩
    | true =>
      rw [hqueued] at hreply
      rw [if_pos rfl]
      refine ⟨rfl, rfl, ?_⟩
      rcases hopen.reply hclosing hread hstays hreply rfl with hgoes | ⟨hends, hkeep, hover⟩
      · exact .inl hgoes
      · exact .inr ⟨hends, by simp [hkeep], hover⟩
  | @handedOver written hwritten =>
    have hsent : written.parser = c.parser ∧ written.received = c.received ∧
        written.calls = c.calls + 1 ∧ ∃ wire, written.sent = c.sent ++ wire := by
      rcases hwritten with rfl | rfl
      · exact ⟨rfl, rfl, rfl, [], (List.append_nil _).symm⟩
      · rw [hwrite]
        split
        · exact ⟨rfl, rfl, rfl, _, rfl⟩
        · exact ⟨rfl, rfl, rfl, [], (List.append_nil _).symm⟩
    obtain ⟨hparser, hreceived, hcalls, wire, hwire⟩ := hsent
    refine ⟨hparser, hreceived, .inr ⟨hnone hreply, by simp, fun hstatus => ?_⟩⟩
    refine hopen.unanswered hreply hcalls (hparser ▸ hstatus) hwire (fun h => by contradiction) fun _ => ?_
    rw [hwire, List.drop_left]

/-! ## What cannot be parsed -/

theorem malformedRequest_bodied : Bodied malformedRequest.status := by decide

theorem bodyTooLarge_bodied : Bodied bodyTooLarge.status := by decide

/-- An error is written, and a client stops behind it, or the connection is closing. -/
inductive Refuses (c : Connection L) : Connection L → Option Response → Prop
  | closed : Refuses c (closeConn c) none
  | written {wire : Bytes} {resp : Response} (hread : ReadBack wire resp)
      (hstays : ∀ n, stays n resp = false) :
      Refuses c { c with sent := c.sent ++ wire } (some resp)

theorem built_ne_handedOver (wire : Option Bytes) (resp : Response) :
    built wire resp ≠ .handedOver := by
  rw [built]
  split <;> simp

theorem writeError_refuses {e : WireError} (hbodied : Bodied e.status) (hclosing : c.closing = false)
    (queued : Bool) : Refuses c (writeError env.text queued e false c)
      ((errorServed env e false).sent queued) := by
  have hserves := @error_serves F L env e hbodied queued false c
  have hnot := built_ne_handedOver (buildErrorWire env.text e false) (errorReply env e false)
  rw [← errorServed] at hnot
  generalize writeError env.text queued e false c = c' at hserves ⊢
  generalize errorServed env e false = outcome at hserves hnot ⊢
  cases hserves with
  | nothing => exact .closed
  | @reply wire resp hread hstays =>
    rw [queueWrite_open hclosing]
    cases queued with
    | false => exact .closed
    | true => exact .written hread hstays
  | handedOver => exact absurd rfl hnot

theorem Open.refused {c' : Connection L} {outcome : Option Response} (hopen : Open env said c)
    (hstatus : c.parser.lastStatus ≠ .incomplete) (h : Refuses c c' outcome)
    (hrefusal : refusal env c.calls c.parser.lastStatus = outcome) : Over env said c' := by
  have hnot : ¬ c.genOwned = true := by simp [hopen.genOwned]
  have hall := hopen.all
  cases h with
  | closed =>
    have hheard : Conversation.heard (closeConn c) = ⟨replies env said, some HttpReader.start⟩ :=
      hopen.heard
    refine ⟨hopen.calls, by omega, hstatus, fun _ => ?_, fun _ _ h => by contradiction,
      fun h => absurd h hnot⟩
    rw [hheard]
    refine ⟨?_, .inl rfl⟩
    change _ = _ ++ (refusal env c.calls c.parser.lastStatus).toList
    rw [hrefusal, Option.toList_none, List.append_nil]
  | @written wire resp hread hstays =>
    have hheard := @Open.hears F L env c said hopen { c with sent := c.sent ++ wire } wire rfl
    rw [on_reply hread, hstays] at hheard
    refine ⟨hopen.calls, by omega, hstatus, fun _ => ?_, fun _ _ _ => ?_, fun h => absurd h hnot⟩
    · rw [hheard]
      refine ⟨?_, .inr rfl⟩
      change _ = _ ++ (refusal env c.calls c.parser.lastStatus).toList
      rw [hrefusal, Option.toList_some]
    · rw [hheard]
      rfl

/-- A client that has stopped hears nothing more. -/
theorem Over.refused_again {c' : Connection L} {outcome : Option Response} (hover : Over env said c)
    (hclosing : c.closing = false) (howned : c.genOwned = false)
    (hstatus : c.parser.lastStatus ≠ .complete) (h : Refuses c c' outcome) : Over env said c' := by
  have hnot : ¬ c.genOwned = true := by simp [howned]
  obtain ⟨hsaid, hreader⟩ := hover.answered howned
  cases h with
  | closed =>
    exact ⟨hover.calls, hover.all, hover.status, fun _ => ⟨hsaid, hreader⟩,
      fun _ _ h => by contradiction, fun h => absurd h hnot⟩
  | @written wire resp hread hstays =>
    have hsame : heard { c with sent := c.sent ++ wire } = heard c := by
      have hnone := hover.refused howned hstatus hclosing
      rw [heard, on_append, ← heard]
      generalize heard c = t at hnone ⊢
      obtain ⟨responses, reader⟩ := t
      obtain rfl : reader = none := hnone
      exact on_over responses wire
    refine ⟨hover.calls, hover.all, hover.status, fun _ => ?_, fun _ _ _ => ?_, fun h => absurd h hnot⟩
    · rw [hsame]
      exact ⟨hsaid, hreader⟩
    · rw [hsame]
      exact hover.refused howned hstatus hclosing

theorem Refuses.received {c' : Connection L} {outcome : Option Response}
    (h : Refuses c c' outcome) : c'.received = c.received := by
  cases h <;> rfl

/-! ## One read -/

/-- The connection and the client are where the requests are. -/
structure Keeps (env : Env F) (maxBodyBytes : Nat) (t : Talk (Partial L) Message)
    (c : Connection L) : Prop where
  reading : ∀ a, t.reader = some a →
    Reads (bodyLimit maxBodyBytes) none c.parser a ∧ Open env t.said c
  ended : t.reader = none → Over env t.said c

variable {maxBodyBytes : Nat}

theorem keeps_reading {a : Partial L} (hreads : Reads (bodyLimit maxBodyBytes) none c.parser a)
    (hopen : Open env said c) : Keeps env maxBodyBytes ⟨said, some a⟩ c :=
  ⟨fun _ ha => Option.some.inj ha ▸ ⟨hreads, hopen⟩, fun h => by contradiction⟩

theorem keeps_ended (hover : Over env said c) : Keeps env maxBodyBytes ⟨said, none⟩ c :=
  ⟨fun _ ha => by contradiction, fun _ => hover⟩

theorem Open.parsed (hopen : Open env said c) (parser : HttpParserCtx L) :
    Open env said { c with parser } := ⟨hopen.calls, hopen.genOwned, hopen.heard, hopen.all⟩

theorem readLoop_keeps (hbodied : HandlersBodied env) (fuel : Nat) (data : Bytes) {a : Partial L}
    (hfuel : data.length ≤ fuel) (hclosing : c.closing = false) (hopen : Open env said c)
    (hreads : Reads (bodyLimit maxBodyBytes) none c.parser a) :
    ∃ c', readLoop env fuel data c = some c' ∧ c'.received = c.received ∧
      Keeps env maxBodyBytes ((⟨said, some a⟩ : Talk (Partial L) Message).hearAll
        (Partial.step (bodyLimit maxBodyBytes)) (Partial.start L) (goesOn env) data) c' := by
  induction fuel generalizing data said a c with
  | zero =>
    obtain rfl : data = [] := List.length_eq_zero_iff.mp (by omega)
    exact ⟨c, rfl, rfl, keeps_reading hreads hopen⟩
  | succ fuel ih =>
    rw [readLoop]
    split
    · next hstop =>
      obtain rfl : data = [] := hstop.resolve_right (by simp [hclosing])
      exact ⟨c, rfl, rfl, keeps_reading hreads hopen⟩
    · have hfeed := hreads.feed data
      rw [hearAll_run]
      cases hrun : Incremental.run (Partial.step (bodyLimit maxBodyBytes)) a data with
      | mk verdict rest =>
        rw [hrun] at hfeed
        generalize httpParserFeed c.parser data = out at hfeed ⊢
        obtain ⟨status, pr, parser⟩ := out
        cases verdict with
        | going a' =>
          obtain ⟨hstatus, hreads'⟩ := hfeed
          dsimp only at hstatus hreads' ⊢
          subst hstatus
          exact ⟨_, rfl, rfl, keeps_reading hreads' (hopen.parsed parser)⟩
        | done r =>
          obtain ⟨hstatus, hpr, hlast, hlimit, hconsumed⟩ := hfeed
          dsimp only at hstatus hpr hlast hlimit hconsumed ⊢
          subst hstatus hpr
          dsimp only
          have hrest : data.drop parser.consumed = rest := by
            obtain ⟨front, hfront⟩ := run_suffix (Partial.step (bodyLimit maxBodyBytes)) a data
            rw [hrun] at hfront
            have hlen := congrArg List.length hfront
            dsimp only at hfront hlen
            rw [List.length_append] at hlen
            rw [← hfront, List.drop_left' (by omega)]
          have hless := run_done_length _ hrun
          obtain ⟨c', hdispatch, hserves⟩ := dispatch_serves hbodied r { c with parser }
          obtain ⟨hparser, hreceived, hcases⟩ :=
            serves_keeps (hopen.parsed parser) hclosing hserves
          dsimp only at hparser hreceived hcases
          rw [hdispatch, ← hopen.calls]
          simp only [Option.bind_eq_bind, Option.bind_some]
          rcases hcases with ⟨hon, hkeep, hclosing', hopen'⟩ | ⟨hends, hstop, hover⟩
          · have hnext : ¬ (!r.request.keepAlive || c'.closing || c'.genOwned) = true := by
              simp [hkeep, hclosing', hopen'.genOwned]
            rw [if_pos hon, if_neg hnext, hrest, hparser]
            obtain ⟨c'', hloop, hreceived', hkeeps⟩ :=
              @ih { c' with parser := httpParserReset parser } _ rest _ (by omega) hclosing'
                (hopen'.parsed _) (reset_reads hlimit)
            exact ⟨c'', hloop, hreceived'.trans hreceived, hkeeps⟩
          · have hlastOne : (!r.request.keepAlive || c'.closing || c'.genOwned) = true := hstop
            rw [if_pos hlastOne, if_neg (by simp [hends]), hearAll_over]
            exact ⟨c', rfl, hreceived, keeps_ended (hover hlast)⟩
        | dead =>
          obtain ⟨hstatus, hlast⟩ := hfeed
          dsimp only at hstatus hlast ⊢
          have hopen' := hopen.parsed parser
          rcases hstatus with rfl | rfl
          · have hrefuses := @writeError_refuses F L env { c with parser } _ malformedRequest_bodied
              hclosing (env.queued c.calls)
            have hover := hopen'.refused (by simp [hlast]) hrefuses (by rw [hlast]; rfl)
            exact ⟨_, rfl, hrefuses.received, keeps_ended hover⟩
          · have hrefuses := @writeError_refuses F L env { c with parser } _ bodyTooLarge_bodied
              hclosing (env.queued c.calls)
            have hover := hopen'.refused (by simp [hlast]) hrefuses (by rw [hlast]; rfl)
            exact ⟨_, rfl, hrefuses.received, keeps_ended hover⟩

/-! ## Every run -/

theorem read_over (hover : Over env said c) (hclosing : c.closing = false)
    (howned : c.genOwned = false) {data : Bytes}
    (hstatus : data ≠ [] → c.parser.lastStatus ≠ .complete) :
    ∃ c', readLoop env data.length data c = some c' ∧ c'.received = c.received ∧
      Over env said c' := by
  cases data with
  | nil => exact ⟨c, rfl, rfl, hover⟩
  | cons b data =>
    rw [List.length_cons, readLoop, if_neg (by simp [hclosing]), feed_sticky hover.status]
    have hnot := hstatus (by simp)
    cases hlast : c.parser.lastStatus with
    | incomplete => exact absurd hlast hover.status
    | complete => exact absurd hlast hnot
    | error =>
      have hrefuses := @writeError_refuses F L env c _ malformedRequest_bodied hclosing
        (env.queued c.calls)
      exact ⟨_, rfl, hrefuses.received, hover.refused_again hclosing howned hnot hrefuses⟩
    | tooLarge =>
      have hrefuses := @writeError_refuses F L env c _ bodyTooLarge_bodied hclosing
        (env.queued c.calls)
      exact ⟨_, rfl, hrefuses.received, hover.refused_again hclosing howned hnot hrefuses⟩

theorem queueWrite_sent (queued : Bool) (wire : Bytes) :
    ∃ sent, (queueWrite queued wire c).sent = c.sent ++ sent ∧
      (queueWrite queued wire c).genOwned = c.genOwned ∧
      (queueWrite queued wire c).calls = c.calls ∧
      (queueWrite queued wire c).parser = c.parser ∧
      (queueWrite queued wire c).received = c.received := by
  rw [queueWrite]
  split
  · exact ⟨[], (List.append_nil _).symm, rfl, rfl, rfl, rfl⟩
  · split
    · exact ⟨wire, rfl, rfl, rfl, rfl, rfl⟩
    · exact ⟨[], (List.append_nil _).symm, rfl, rfl, rfl, rfl⟩

/-- What a generation writes is heard behind the replies. -/
theorem Over.generates (hover : Over env said c) (howned : c.genOwned = true) (queued : Bool)
    (wire : Bytes) :
    Over env said { queueWrite queued wire c with
      generated := c.generated ++ (queueWrite queued wire c).sent.drop c.sent.length } := by
  obtain ⟨sent, hsent, hgen, hcalls, hparser, -⟩ := @queueWrite_sent L c queued wire
  obtain ⟨hcomplete, hheard⟩ := hover.handedOver howned
  have hnot : ¬ (queueWrite queued wire c).genOwned = false := by simp [hgen, howned]
  refine ⟨hcalls.trans hover.calls, hover.all, ?_, fun h => absurd h hnot, fun h => absurd h hnot,
    fun _ => ⟨?_, ?_⟩⟩
  · dsimp only
    rw [hparser]
    exact hover.status
  · dsimp only
    rw [hparser]
    exact hcomplete
  · rw [heard] at hheard ⊢
    dsimp only
    rw [hsent, List.drop_left, on_append, hheard, ← on_append]

theorem Over.closed (hover : Over env said c) : Over env said (closeConn c) :=
  ⟨hover.calls, hover.all, hover.status, hover.answered, fun _ _ h => by contradiction,
    hover.handedOver⟩

/-- Every allowed step follows the requests. -/
theorem step_keeps (hbodied : HandlersBodied env) {e : Step} (hallowed : Allowed c e)
    (h : Keeps env maxBodyBytes (talk env L maxBodyBytes c.received) c) :
    ∃ c', step env e c = some c' ∧ Keeps env maxBodyBytes (talk env L maxBodyBytes c'.received) c' := by
  generalize ht : talk env L maxBodyBytes c.received = t at h
  obtain ⟨said, reader⟩ := t
  cases e with
  | closed =>
    refine ⟨closeConn c, rfl, ?_⟩
    rw [closeConn, ht]
    cases reader with
    | some a =>
      obtain ⟨hreads, hopen⟩ := h.reading a rfl
      exact keeps_reading hreads ⟨hopen.calls, hopen.genOwned, hopen.heard, hopen.all⟩
    | none => exact keeps_ended (h.ended rfl).closed
  | generated wire queued =>
    cases reader with
    | some a =>
      obtain ⟨-, hopen⟩ := h.reading a rfl
      exact absurd hallowed (by simp [Allowed, hopen.genOwned])
    | none =>
      obtain ⟨sent, -, -, -, -, hreceived⟩ := @queueWrite_sent L c queued wire
      have hend := (h.ended rfl).generates hallowed queued wire
      have htalk : talk env L maxBodyBytes (queueWrite queued wire c).received = ⟨said, none⟩ := by
        rw [hreceived, ht]
      refine ⟨_, rfl, ?_⟩
      dsimp only
      rw [htalk]
      exact keeps_ended hend
  | read data =>
    obtain ⟨hclosing, hpatient⟩ := hallowed
    have htalk : talk env L maxBodyBytes (c.received ++ data) = _ :=
      hearAll_append _ _ _ _ c.received data
    rw [← talk, ht] at htalk
    rw [step, onRead]
    cases reader with
    | some a =>
      obtain ⟨hreads, hopen⟩ := h.reading a rfl
      rw [if_neg (by simp [hopen.genOwned])]
      obtain ⟨c', hloop, hreceived, hkeeps⟩ := @readLoop_keeps F L env
        { c with received := c.received ++ data } said maxBodyBytes hbodied data.length data a le_rfl
        hclosing ⟨hopen.calls, hopen.genOwned, hopen.heard, hopen.all⟩ hreads
      refine ⟨c', hloop, ?_⟩
      rw [hreceived]
      dsimp only
      rw [htalk]
      exact hkeeps
    | none =>
      have hover := h.ended rfl
      have hover' : Over env said { c with received := c.received ++ data } :=
        ⟨hover.calls, hover.all, hover.status, hover.answered, hover.refused, hover.handedOver⟩
      rw [hearAll_over] at htalk
      split
      · refine ⟨_, rfl, ?_⟩
        dsimp only
        rw [htalk]
        exact keeps_ended hover'
      · next howned =>
        obtain ⟨c', hloop, hreceived, hend⟩ := read_over hover' hclosing (by simpa using howned)
          fun hdata hcomplete => howned (hpatient hdata hcomplete)
        refine ⟨c', hloop, ?_⟩
        rw [hreceived]
        dsimp only
        rw [htalk]
        exact keeps_ended hend

theorem start_keeps (env : Env F) (L : Llhttp) (maxBodyBytes : Nat) :
    Keeps env maxBodyBytes (talk env L maxBodyBytes []) (Connection.start L maxBodyBytes) :=
  keeps_reading ⟨⟨rfl, rfl, rfl, rfl⟩, rfl, rfl, rfl, Nat.zero_le _, Nat.zero_le _⟩
    ⟨rfl, rfl, rfl, rfl⟩

theorem run_keeps (hbodied : HandlersBodied env) {steps : List Step} (hallowed : Along env steps c)
    (h : Keeps env maxBodyBytes (talk env L maxBodyBytes c.received) c) :
    ∃ c', run env steps c = some c' ∧
      Keeps env maxBodyBytes (talk env L maxBodyBytes c'.received) c' := by
  induction steps generalizing c with
  | nil => exact ⟨c, rfl, h⟩
  | cons e rest ih =>
    obtain ⟨c', hstep, hkeeps⟩ := step_keeps hbodied hallowed.1 h
    rw [run, hstep]
    exact ih (hallowed.2 c' hstep) hkeeps

theorem Keeps.heard (h : Keeps env maxBodyBytes (talk env L maxBodyBytes c.received) c) :
    Heard env maxBodyBytes c := by
  cases hreader : (talk env L maxBodyBytes c.received).reader with
  | some a =>
    obtain ⟨hreads, hopen⟩ := h.reading a hreader
    have hnot : ¬ c.genOwned = true := by simp [hopen.genOwned]
    refine ⟨hopen.calls, by have := hopen.all; omega, fun _ => ?_, fun h => absurd h hnot,
      fun h => absurd h hnot⟩
    rw [hopen.heard, hreads.fresh.lastStatus]
    exact ⟨(List.append_nil _).symm, .inl rfl⟩
  | none =>
    have hover := h.ended hreader
    refine ⟨hover.calls, hover.all, hover.answered, fun howned => (hover.handedOver howned).2,
      fun howned body hbody => ?_⟩
    rw [(hover.handedOver howned).2, hbody, on_stream]

/-- In every run, whatever the pieces in which the requests come and whatever the handlers answer, a
client hears the replies. -/
theorem conversation_heard (env : Env F) (L : Llhttp) (maxBodyBytes : Nat) (steps : List Step)
    (hbodied : HandlersBodied env) (hallowed : Along env steps (Connection.start L maxBodyBytes)) :
    ∃ c, run env steps (Connection.start L maxBodyBytes) = some c ∧ Heard env maxBodyBytes c := by
  obtain ⟨c, hrun, hkeeps⟩ := run_keeps hbodied hallowed (start_keeps env L maxBodyBytes)
  exact ⟨c, hrun, hkeeps.heard⟩

end Hearing

/-! ## Three requests in two reads -/

/-- The models are listed, and a chat completion is streamed. -/
def serving : Env Endpoint where
  routes := handlerRegisterAll
  call _ fn _ :=
    match fn with
    | .chatCompletions => .deferred true
    | _ => .answer ⟨200, some (ascii "application/json"), ascii "[]"⟩
  queued _ := true
  text _ := ascii "null"

theorem serving_bodied : HandlersBodied serving := by
  intro n fn req resp h
  cases fn with
  | chatCompletions => cases h
  | models => cases h; exact ⟨200, rfl, by decide⟩
  | embeddings => cases h; exact ⟨200, rfl, by decide⟩
  | completions => cases h; exact ⟨200, rfl, by decide⟩

def twoReads : List Step :=
  [.read (ascii "GET /v1/models HTTP/1.1\r\n\r\nGET /v1/comp"),
    .read (ascii "letions HTTP/1.1\r\n\r\nPOST /v1/chat/completions HTTP/1.1\r\n\r\n"),
    .generated (ascii "data: x\n\n") true]

theorem conversation_heard_streamed :
    ∃ c, run serving twoReads (Connection.start Dispatch.requestLines 0) = some c ∧
      Heard serving 0 c ∧ (heard c).said.map (fun r => (r.head.status, r.body)) =
        [(200, ascii "[]"), (405, ascii "null")] ∧
      (heard c).reader = some (.stream sseHead.trimmed (ascii "data: x\n\n")) := by
  obtain ⟨c, hrun, hheard⟩ := conversation_heard serving Dispatch.requestLines 0 twoReads
    serving_bodied (by decide +kernel)
  have hsaid : (run serving twoReads (Connection.start Dispatch.requestLines 0)).map
      (fun c => (c.genOwned, c.generated, (heard c).said.map fun r => (r.head.status, r.body))) =
        some (true, httpBuildSseHead ++ ascii "data: x\n\n",
          [(200, ascii "[]"), (405, ascii "null")]) := by
    decide +kernel
  rw [hrun, Option.map_some, Option.some.injEq, Prod.mk.injEq, Prod.mk.injEq] at hsaid
  obtain ⟨howned, hgenerated, hsaid⟩ := hsaid
  refine ⟨c, hrun, hheard, hsaid, ?_⟩
  rw [hheard.streamed howned _ hgenerated]

end Mlxd.Conversation
