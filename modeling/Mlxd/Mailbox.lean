import Mlxd.Engine
import Mlxd.Lib.Custody

/-!
# The mailbox

The functions of `engine.c` that hand commands over, with every command as an object of its own:
a command is named by its number and passed to a post once. What handling a command or cancelling
it does to the rest of the engine is a program of other steps. Beside the source's fields logs are
kept of the commands passed, enqueued, handled and cancelled, and of the posts that have returned.
-/
namespace Mlxd.Mailbox

open Mlxd.Lib Program

abbrev CmdId := Nat

/-- What the engine does with its commands, outside the mailbox; a step may read the shutdown
flag. -/
structure Work where
  State : Type
  Op : Type
  Ans : Op → Type
  exec : (op : Op) → Bool → State → Ans op → State → Prop
  /-- The command is `CMD_STOP`. -/
  stop : CmdId → Bool
  handle : CmdId → Program Op Ans Unit
  cancel : CmdId → Program Op Ans Unit
  /-- What `engine_post_load` writes of the load state. -/
  postLoad : Program Op Ans Unit

structure Mail (S : Type) where
  mailbox : List CmdId
  mailboxLocked : Bool
  shutdown : Bool
  /-- The engine thread has returned. -/
  exited : Bool
  rest : S
  passed : List CmdId
  enqueued : List CmdId
  handled : List CmdId
  cancelled : List CmdId
  returned : List CmdId
  /-- The engine thread has been joined. -/
  joined : Bool
  /-- `engine_destroy` has returned. -/
  destroyed : Bool

variable {W : Work}

/-- A step is one section under the mailbox's mutex, one atomic load or store, or an entry in a
log. -/
inductive MailOp (W : Work) where
  | work (op : W.Op)
  | pass (c : CmdId)
  | loadShutdown
  | storeShutdown
  /-- Cancel what is in flight and wake the engine. -/
  | signal
  | enqueue (c : CmdId)
  /-- Lock the mailbox for a load and check for shutdown. -/
  | lockForLoad (c : CmdId)
  /-- Append the load and unlock. -/
  | enqueueLoad (c : CmdId)
  | dequeue
  | drainAll
  | handled (c : CmdId)
  | cancelled (c : CmdId)
  | returned (c : CmdId)
  | exitThread
  | joinEngine
  | destroyed

@[reducible] def MailAns : MailOp W → Type
  | .work op => W.Ans op
  | .loadShutdown => Bool
  | .enqueue _ => Bool
  | .lockForLoad _ => Bool
  | .dequeue => Option CmdId
  | .drainAll => List CmdId
  | _ => Unit

abbrev Post (W : Work) (α : Type) : Type := Program (MailOp W) MailAns α

abbrev step (op : MailOp W) : Post W (MailAns op) := perform op

def work {α : Type} (p : Program W.Op W.Ans α) : Post W α := embed .work (fun _ r => r) p

/-! ## The effect of each step -/

/-- Waits until there is a command or the engine shuts down. -/
def dequeueResult {S : Type} (s : Mail S) : Option (Option CmdId × Mail S) :=
  match s.mailbox with
  | c :: rest => some (some c, { s with mailbox := rest })
  | [] => if s.shutdown then some (none, s) else none

def exec : (op : MailOp W) → Mail W.State → MailAns op → Mail W.State → Prop
  | .work op, s, r, s' => ∃ rest, W.exec op s.shutdown s.rest r rest ∧ s' = { s with rest := rest }
  | .pass c, s, _, s' => c ∉ s.passed ∧ s' = { s with passed := c :: s.passed }
  | .loadShutdown, s, r, s' => r = s.shutdown ∧ s' = s
  | .storeShutdown, s, _, s' => s' = { s with shutdown := true }
  | .signal, s, _, s' => s.mailboxLocked = false ∧ ∃ rest, s' = { s with rest := rest }
  | .enqueue c, s, r, s' =>
    s.mailboxLocked = false ∧
      if s.shutdown then r = false ∧ s' = s
      else r = true ∧ s' = { s with mailbox := s.mailbox ++ [c], enqueued := s.enqueued ++ [c] }
  | .lockForLoad _, s, r, s' =>
    s.mailboxLocked = false ∧
      if s.shutdown then r = false ∧ s' = s else r = true ∧ s' = { s with mailboxLocked := true }
  | .enqueueLoad c, s, _, s' =>
    s' = { s with mailbox := s.mailbox ++ [c], enqueued := s.enqueued ++ [c],
                  mailboxLocked := false }
  | .dequeue, s, r, s' => s.mailboxLocked = false ∧ dequeueResult s = some (r, s')
  | .drainAll, s, r, s' =>
    s.mailboxLocked = false ∧ r = s.mailbox ∧ s' = { s with mailbox := [] }
  | .handled c, s, _, s' => s' = { s with handled := s.handled ++ [c] }
  | .cancelled c, s, _, s' => s' = { s with cancelled := s.cancelled ++ [c] }
  | .returned c, s, _, s' => s' = { s with returned := c :: s.returned }
  | .exitThread, s, _, s' => s' = { s with exited := true }
  | .joinEngine, s, _, s' =>
    s.exited = true ∧ s.joined = false ∧ s' = { s with joined := true }
  | .destroyed, s, _, s' => s' = { s with destroyed := true }

/-! ## The engine thread -/

def cmdCancel (c : CmdId) : Post W Unit := do
  work (W.cancel c)
  step (.cancelled c)

def cancelAll : List CmdId → Post W Unit
  | [] => return ()
  | c :: rest => do
    cmdCancel c
    cancelAll rest

def mailboxDrainCancel : Post W Unit := do
  let cmds : List CmdId ← step .drainAll
  cancelAll cmds

/-- One turn of the loop of `engine_thread_main`, or its exit. -/
def engineTurn : Post W Unit := do
  let shutdown : Bool ← step .loadShutdown
  if shutdown then
    mailboxDrainCancel
    step .exitThread
  else
    let cmd : Option CmdId ← step .dequeue
    match cmd with
    | none => return ()
    | some c =>
      work (W.handle c)
      let _ : Unit ← step (.handled c)
      if W.stop c then
        mailboxDrainCancel
        step .exitThread
      else return ()

/-! ## The callers -/

def enginePost (c : CmdId) : Post W Unit := do
  let shutdown : Bool ← step .loadShutdown
  if shutdown then cmdCancel c
  else
    let accepted : Bool ← step (.enqueue c)
    if accepted then return () else cmdCancel c

def enginePostLoad (c : CmdId) : Post W Unit := do
  let shutdown : Bool ← step .loadShutdown
  if shutdown then cmdCancel c
  else
    let accepted : Bool ← step (.lockForLoad c)
    if accepted then
      work W.postLoad
      step (.enqueueLoad c)
    else cmdCancel c

/-- A caller passes a command of its own and the post returns. -/
def posting (c : CmdId) (post : Post W Unit) : Post W Unit := do
  let _ : Unit ← step (.pass c)
  post
  step (.returned c)

def engineSignalShutdown : Post W Unit := do
  let _ : Unit ← step .storeShutdown
  step .signal

/-- Up to the last drain; what follows leaves the mailbox alone. -/
def engineDestroy : Post W Unit := do
  engineSignalShutdown
  let _ : Unit ← step .joinEngine
  mailboxDrainCancel
  step .destroyed

/-- The calls a client thread makes. -/
inductive ClientCall : Post W Unit → Prop
  | post (c : CmdId) : ClientCall (posting c (enginePost c))
  | postLoad (c : CmdId) : ClientCall (posting c (enginePostLoad c))
  | signalShutdown : ClientCall engineSignalShutdown
  | destroy : ClientCall engineDestroy

open Engine (Tid)

/-- The engine thread takes its next turn until it has exited; a client makes a call. -/
def starts : Tid → Mail W.State → Post W Unit → Prop
  | .engine, s, p => s.exited = false ∧ p = engineTurn
  | .client _, _, p => ClientCall p

/-- The mailbox after `engine_init`. -/
def initial (W : Work) (rest : W.State) : Config (Mail W.State) Tid (MailOp W) MailAns where
  shared :=
    { mailbox := [], mailboxLocked := false, shutdown := false, exited := false, rest := rest
      passed := [], enqueued := [], handled := [], cancelled := [], returned := []
      joined := false, destroyed := false }
  threads := fun _ => .done ()

/-- The engine's own work, for commands with that content. -/
def engineWork (M : Engine.Mlx) (chunk : Nat) (content : CmdId → Engine.Cmd M.Real) : Work where
  State := Engine.Shared M.Real
  Op := Engine.EngOp M
  Ans := Engine.EngAns
  exec := fun op shutdown s r s' => Engine.exec op { s with shutdown := shutdown } r s'
  stop := fun c =>
    match content c with
    | .stop => true
    | _ => false
  handle := fun c =>
    match content c with
    | .generate i cmd => Engine.handleGenerate chunk i cmd
    | .load _ path => Engine.handleLoad path
    | .unload => Engine.handleUnload
    | .reclaim i => Engine.step (.release i .reclaimed)
    | .embed => return ()
    | .stop => return ()
  cancel := fun c => Engine.cmdCancel (content c)
  postLoad := do
    let _ : Unit ← Engine.step (.setLoadError "")
    Engine.step (.setLoadState .inProgress)

end Mlxd.Mailbox
