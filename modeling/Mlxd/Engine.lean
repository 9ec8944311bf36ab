import Mlxd.Generate
import Mlxd.Lib.Threads

/-!
# The engine

The engine thread, its mailbox and the functions other threads call, as programs over a
shared state. A step is one section under a mutex or one atomic load or store; the section of
`engine_post_load` is several steps with the mailbox locked, since what it writes of the load
state is not under that mutex. Some flags are kept beside the source's fields: which streams'
generate commands have been passed to `engine_post` and given back, whether a shutdown has
been signalled, where the engine stands with the load it is handling, and whether a load that
has been announced is still to be appended.
-/
namespace Mlxd.Engine

open Mlxd.Lib Program

abbrev StreamId := Nat

inductive LoadState where
  | idle | inProgress | ok | failed
  deriving DecidableEq, Repr

inductive Cmd (F : Type) where
  | generate (stream : StreamId) (cmd : GenerateCmd F)
  | embed
  /-- With `accepted` it came through `engine_post_load`. -/
  | load (accepted : Bool) (path : Option String)
  | unload
  | reclaim (stream : StreamId)
  | stop

def Cmd.accepted {F : Type} : Cmd F → Bool
  | .load accepted _ => accepted
  | _ => false

/-- The model shell; an empty one is zeroed. -/
structure Resident (F : Type) where
  stub : Bool
  cfg : ModelConfig F

def Resident.zero {F : Type} : Resident F := ⟨false, ⟨none, none, none, 0, 0, []⟩⟩

/-- Whose reference a release gives back. -/
inductive Owner where
  | command | reclaimed
  deriving DecidableEq, Repr

structure Shared (F : Type) where
  mailbox : List (Cmd F)
  /-- A poster is inside the section of `engine_post_load`. -/
  mailboxLocked : Bool
  shutdown : Bool
  loadState : LoadState
  loadError : String
  model : Resident F
  loadedModel : Option String
  inflight : Option StreamId
  streams : StreamId → Stream F
  /-- The engine thread has returned. -/
  exited : Bool
  posted : StreamId → Bool
  released : StreamId → Bool
  /-- `engine_signal_shutdown` has set the flag and cancelled what was in flight. -/
  signalled : Bool
  /-- The engine is handling an accepted load. -/
  loading : Bool
  /-- The engine has recorded a load error and not yet stored `LOAD_FAILED`. -/
  failing : Bool
  /-- A poster has stored `LOAD_IN_PROGRESS` and not yet appended its load. -/
  posting : Bool

variable {M : Mlx}

/-- The steps of the engine and of its callers. -/
inductive EngOp (M : Mlx) where
  | gen (stream : StreamId) (op : GenOp M)
  | release (stream : StreamId) (owner : Owner)
  | setInflight (stream : Option StreamId)
  | loadShutdown
  | storeShutdown
  | cancelInflight
  | loadLoadState
  | setLoadState (st : LoadState)
  | setLoadError (message : String)
  | readModel
  | setModel (model : Resident M.Real)
  | setLoadedModel (path : Option String)
  | engineModelLoad (path : String)
  | dequeue
  | drainAll
  | enqueue (cmd : Cmd M.Real)
  /-- Lock the mailbox and check for shutdown. -/
  | lockForLoad
  /-- A poster stores `LOAD_IN_PROGRESS`. -/
  | announceLoad
  /-- Append the load and unlock: up to the unlocking nobody else reads or writes the
  mailbox. -/
  | enqueueLoad (path : Option String)
  | exitThread
  | joinEngine
  /-- A caller hands a command over. -/
  | submit (cmd : Cmd M.Real)
  | streamNext (stream : StreamId) (forever : Bool)
  | streamCancel (stream : StreamId)

@[reducible] def EngAns : EngOp M → Type
  | .gen _ op => GenAns op
  | .release _ _ => Unit
  | .setInflight _ => Unit
  | .loadShutdown => Bool
  | .storeShutdown => Unit
  | .cancelInflight => Unit
  | .loadLoadState => LoadState
  | .setLoadState _ => Unit
  | .setLoadError _ => Unit
  | .readModel => Resident M.Real
  | .setModel _ => Unit
  | .setLoadedModel _ => Unit
  | .engineModelLoad _ => Except String (ModelConfig M.Real)
  | .dequeue => Option (Cmd M.Real)
  | .drainAll => List (Cmd M.Real)
  | .enqueue _ => Bool
  | .lockForLoad => Bool
  | .announceLoad => Unit
  | .enqueueLoad _ => Unit
  | .exitThread => Unit
  | .joinEngine => Unit
  | .submit _ => Unit
  | .streamNext _ _ => Option (Chunk M.Real)
  | .streamCancel _ => Unit

abbrev Eng (M : Mlx) (α : Type) : Type := Program (EngOp M) EngAns α

abbrev step (op : EngOp M) : Eng M (EngAns op) := perform op

/-- The generate path of one stream inside the engine. -/
def onStream {α : Type} (stream : StreamId) (p : Gen M α) : Eng M α :=
  embed (.gen stream) (fun _ r => r) p

/-! ## The effect of each step -/

section Exec

variable {F : Type}

def setStream (s : Shared F) (i : StreamId) (st : Stream F) : Shared F :=
  { s with streams := fun j => if j = i then st else s.streams j }

/-- A step of the generate path; what MLX answers is not known. -/
def execGen (i : StreamId) : (op : GenOp M) → Shared M.Real → GenAns op → Shared M.Real → Prop
  | .loadShutdown _, s, r, s' => r = s.shutdown ∧ s' = s
  | .loadCancelled, s, r, s' => r = (s.streams i).cancelled ∧ s' = s
  | .push c, s, r, s' => ∃ st, streamPush (s.streams i) c = some (st, r) ∧ s' = setStream s i st
  | .finishCancelled, s, _, s' => s' = setStream s i (streamFinishCancelled (s.streams i))
  | _, s, _, s' => s' = s

/-- Waits until there is a command or the engine shuts down. -/
def dequeueResult (s : Shared F) : Option (Option (Cmd F) × Shared F) :=
  match s.mailbox with
  | cmd :: rest => some (some cmd, { s with mailbox := rest, loading := cmd.accepted })
  | [] => if s.shutdown then some (none, s) else none

def cancelStreamOf (s : Shared F) : Option StreamId → Shared F
  | some i => setStream s i (streamCancel (s.streams i))
  | none => s

/-- A stream is handed over with one generate command. -/
def submitCmd (s : Shared F) : Cmd F → Option (Shared F)
  | .generate i _ =>
    if s.posted i then none else some { s with posted := fun j => if j = i then true else s.posted j }
  | _ => some s

def releaseBy (s : Shared F) (i : StreamId) (owner : Owner) : Shared F :=
  let s := setStream s i (streamRelease (s.streams i))
  match owner with
  | .command => { s with released := fun j => if j = i then true else s.released j }
  | .reclaimed => s

def storeLoadState (s : Shared F) (st : LoadState) : Shared F :=
  { s with
    loadState := st
    loading := s.loading && st == .inProgress
    failing := s.failing && st != .failed }

def exec : (op : EngOp M) → Shared M.Real → EngAns op → Shared M.Real → Prop
  | .gen i op, s, r, s' => execGen i op s r s'
  | .release i owner, s, _, s' => s' = releaseBy s i owner
  | .setInflight i, s, _, s' => s.mailboxLocked = false ∧ s' = { s with inflight := i }
  | .loadShutdown, s, r, s' => r = s.shutdown ∧ s' = s
  | .storeShutdown, s, _, s' => s' = { s with shutdown := true }
  | .cancelInflight, s, _, s' =>
    s.mailboxLocked = false ∧ s' = { cancelStreamOf s s.inflight with signalled := s.shutdown }
  | .loadLoadState, s, r, s' => r = s.loadState ∧ s' = s
  | .setLoadState st, s, _, s' => s' = storeLoadState s st
  | .setLoadError message, s, _, s' =>
    s' = { s with loadError := message, failing := s.failing || message != "" }
  | .readModel, s, r, s' => r = s.model ∧ s' = s
  | .setModel model, s, _, s' => s' = { s with model := model }
  | .setLoadedModel path, s, _, s' => s' = { s with loadedModel := path }
  | .engineModelLoad _, s, _, s' => s' = s
  | .dequeue, s, r, s' => s.mailboxLocked = false ∧ dequeueResult s = some (r, s')
  | .drainAll, s, r, s' =>
    s.mailboxLocked = false ∧ r = s.mailbox ∧ s' = { s with mailbox := [] }
  | .enqueue cmd, s, r, s' =>
    s.mailboxLocked = false ∧
      if s.shutdown then r = false ∧ s' = s
      else r = true ∧ s' = { s with mailbox := s.mailbox ++ [cmd] }
  | .lockForLoad, s, r, s' =>
    s.mailboxLocked = false ∧
      if s.shutdown then r = false ∧ s' = s else r = true ∧ s' = { s with mailboxLocked := true }
  | .announceLoad, s, _, s' => s' = { storeLoadState s .inProgress with posting := true }
  | .enqueueLoad path, s, _, s' =>
    s' = { s with mailbox := s.mailbox ++ [.load true path], mailboxLocked := false
                  posting := false }
  | .exitThread, s, _, s' => s' = { s with exited := true }
  | .joinEngine, s, _, s' => s.exited = true ∧ s' = s
  | .submit cmd, s, _, s' => submitCmd s cmd = some s'
  | .streamNext i forever, s, r, s' =>
    ∃ st, streamNext (s.streams i) forever = some (st, r) ∧ s' = setStream s i st
  | .streamCancel i, s, _, s' => s' = setStream s i (streamCancel (s.streams i))

end Exec

/-! ## The engine thread -/

def cmdCancel : Cmd M.Real → Eng M Unit
  | .generate i _ => do
    onStream i streamFinishCancelledP
    step (.release i .command)
  | .reclaim i => step (.release i .reclaimed)
  | _ => return ()

def cancelAll : List (Cmd M.Real) → Eng M Unit
  | [] => return ()
  | cmd :: rest => do
    cmdCancel cmd
    cancelAll rest

def mailboxDrainCancel : Eng M Unit := do
  let cmds : List (Cmd M.Real) ← step .drainAll
  cancelAll cmds

/-- Without a model the request fails the way `generate_fail` does. -/
def dispatchGenerate (chunk : Nat) (i : StreamId) (cmd : GenerateCmd M.Real) : Eng M Unit := do
  let st : LoadState ← step .loadLoadState
  if st ≠ .ok then onStream i (generateFail "model not loaded" .internal)
  else
    let model : Resident M.Real ← step .readModel
    if model.stub then onStream i (handleGenerateStub cmd)
    else onStream i (handleGenerateReal chunk model.cfg cmd)

def handleGenerate (chunk : Nat) (i : StreamId) (cmd : GenerateCmd M.Real) : Eng M Unit := do
  let _ : Unit ← step (.setInflight (some i))
  dispatchGenerate chunk i cmd
  let _ : Unit ← step (.setInflight none)
  step (.release i .command)

def stubModelPath : String := "stub"

def loadModel : Option String → Eng M (Except String (ModelConfig M.Real))
  | none => return .error ""
  | some path => step (.engineModelLoad path)

/-- A new load drops the resident model first. -/
def handleLoad (path : Option String) : Eng M Unit := do
  let _ : Unit ← step (.setLoadState .inProgress)
  let _ : Unit ← step (.setLoadError "")
  let _ : Unit ← step (.setModel .zero)
  if path = some stubModelPath then
    let _ : Unit ← step (.setLoadedModel path)
    let _ : Unit ← step (.setModel ⟨true, Resident.zero.cfg⟩)
    step (.setLoadState .ok)
  else
    match ← loadModel path with
    | .error message =>
      let _ : Unit ← step (.setLoadError
        (if message = "" then "failed to load model from " ++ path.getD "(null)" else message))
      let _ : Unit ← step (.setLoadedModel none)
      let _ : Unit ← step (.setModel .zero)
      step (.setLoadState .failed)
    | .ok cfg =>
      let _ : Unit ← step (.setModel ⟨false, cfg⟩)
      let _ : Unit ← step (.setLoadedModel path)
      step (.setLoadState .ok)

def handleUnload : Eng M Unit := do
  let _ : Unit ← step (.setModel .zero)
  let _ : Unit ← step (.setLoadedModel none)
  let _ : Unit ← step (.setLoadError "")
  step (.setLoadState .idle)

/-- One turn of the loop of `engine_thread_main`, or its exit. -/
def engineTurn (chunk : Nat) : Eng M Unit := do
  let shutdown : Bool ← step .loadShutdown
  if shutdown then
    mailboxDrainCancel
    step .exitThread
  else
    let cmd : Option (Cmd M.Real) ← step .dequeue
    match cmd with
    | none => return ()
    | some .stop =>
      mailboxDrainCancel
      step .exitThread
    | some (.load _ path) => handleLoad path
    | some .unload => handleUnload
    | some (.generate i cmd) => handleGenerate chunk i cmd
    | some (.reclaim i) => step (.release i .reclaimed)
    | some .embed => return ()

/-! ## The callers -/

def enginePost (cmd : Cmd M.Real) : Eng M Unit := do
  let shutdown : Bool ← step .loadShutdown
  if shutdown then cmdCancel cmd
  else
    let accepted : Bool ← step (.enqueue cmd)
    if accepted then return () else cmdCancel cmd

def enginePostLoad (path : Option String) : Eng M Int := do
  let shutdown : Bool ← step .loadShutdown
  if shutdown then
    cmdCancel (.load false path)
    return -1
  else
    let accepted : Bool ← step .lockForLoad
    if accepted then
      let _ : Unit ← step (.setLoadError "")
      let _ : Unit ← step .announceLoad
      let _ : Unit ← step (.enqueueLoad path)
      return 0
    else
      cmdCancel (.load false path)
      return -1

/-- What a load state read while waiting for a load means: the result, or to go on. -/
def waitResult : LoadState → Option Int
  | .ok => some 0
  | .failed => some (-1)
  | _ => none

/-- Poll the load state once a millisecond; the last read accepts `LOAD_OK` only. -/
def engineWaitLoadUntil (cancel : Nat → Bool) : Nat → Eng M Int
  | 0 => do
    let st : LoadState ← step .loadLoadState
    return if st = .ok then 0 else -1
  | timeout + 1 =>
    if cancel timeout then return -1
    else do
      let st : LoadState ← step .loadLoadState
      match waitResult st with
      | some result => return result
      | none => engineWaitLoadUntil cancel timeout

def engineSignalShutdown : Eng M Unit := do
  let _ : Unit ← step .storeShutdown
  step .cancelInflight

def engineDestroy : Eng M Unit := do
  engineSignalShutdown
  let _ : Unit ← step .joinEngine
  mailboxDrainCancel
  let _ : Unit ← step (.setModel .zero)
  let _ : Unit ← step (.setLoadedModel none)
  let _ : Unit ← step (.setLoadError "")
  step (.setLoadState .idle)

/-- The engine thread and the threads that call into it. -/
inductive Tid where
  | engine
  | client (n : Nat)
  deriving DecidableEq, Repr

/-- The calls a client thread makes. -/
inductive ClientCall : Eng M Unit → Prop
  | post (cmd : Cmd M.Real) (h : cmd.accepted = false) :
      ClientCall (step (.submit cmd) >>= fun _ => enginePost cmd)
  | postLoad (path : Option String) : ClientCall (enginePostLoad path >>= fun _ => pure ())
  | waitLoad (cancel : Nat → Bool) (timeout : Nat) :
      ClientCall (engineWaitLoadUntil cancel timeout >>= fun _ => pure ())
  | signalShutdown : ClientCall engineSignalShutdown
  | destroy : ClientCall engineDestroy
  | streamNext (i : StreamId) (forever : Bool) :
      ClientCall (step (.streamNext i forever) >>= fun _ => pure ())
  | streamCancel (i : StreamId) : ClientCall (step (.streamCancel i))

/-- The engine thread takes its next turn until it has exited; a client makes a call. -/
def starts (chunk : Nat) : Tid → Shared M.Real → Eng M Unit → Prop
  | .engine, s, p => s.exited = false ∧ p = engineTurn chunk
  | .client _, _, p => ClientCall p

/-- The engine after `engine_init`, with the streams its callers created. -/
def initial (M : Mlx) (capacity : StreamId → { n : Nat // 0 < n }) :
    Config (Shared M.Real) Tid (EngOp M) EngAns where
  shared :=
    { mailbox := [], mailboxLocked := false, shutdown := false, loadState := .idle, loadError := "", model := .zero,
      loadedModel := none, inflight := none,
      streams := fun i => streamCreate (capacity i).1 (capacity i).2 M.zero,
      exited := false, posted := fun _ => false, released := fun _ => false, signalled := false,
      loading := false, failing := false, posting := false }
  threads := fun _ => .done ()

end Mlxd.Engine
