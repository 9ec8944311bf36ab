import Mlxd.GenLifetime

/-!
# The protocol of a request's lifetime

Whoever has the command takes it, serves it and gives its reference back. The phase of the loop
thread says how far the teardown of the request has come; every callback leaves the request
running, with all its closes under way, or, when it began to close in the middle of a pass over
the stream, lost.
-/
namespace Mlxd.Lifetime

open Mlxd.Lib Program
open Engine (Mlx Gen GenOp GenAns)

variable {M : Mlx}

/-! ## The protocol -/

/-- Where a thread stands: `open` to `freeing` are phases of the loop thread, and `timer` says
whether the timer has been initialised. -/
inductive Phase where
  /-- The thread does not have the command. -/
  | idle
  /-- The thread has the command. -/
  | serving (inflight : Bool)
  /-- In a callback, the request is not closing. -/
  | open (timer : Bool)
  /-- The loop thread has found itself the sole owner of the stream. -/
  | sole (timer : Bool)
  | marked (timer : Bool)
  | silenced (timer : Bool)
  | released (timer : Bool)
  | counted (timer : Bool)
  /-- The async handle is closed, the timer not yet. -/
  | halfClosed
  /-- Still in the callback that has begun to close. -/
  | shut
  /-- Between two callbacks. -/
  | rest (closing : Bool)
  /-- The last handle is closed. -/
  | freeing
  /-- The request began to close in the middle of a pass. -/
  | lost
  deriving DecidableEq

/-- The connection is attached as long as it is observed, and neither is closing then; without a
connection the request is closing or its timer runs. -/
def Gr.Good (gr : Gr) : Prop :=
  gr.conn = gr.observer ∧
    (gr.conn = true → gr.closing = false ∧ gr.connClosing = false ∧ gr.timerInited = false) ∧
    (gr.conn = false → gr.closing = true ∨ gr.timerInited = true)

instance (gr : Gr) : Decidable gr.Good := inferInstanceAs (Decidable (_ ∧ _))

@[simp] def advance (t : Tid) (ph : Phase) : (op : LifeOp M) → LifeAns op → Option Phase
  | .gen _, _ =>
    match ph with
    | .serving b => some (.serving b)
    | _ => none
  | .take, _ => if ph = .idle ∧ t = .server then some (.serving false) else none
  | .setInflight on, _ =>
    match ph with
    | .serving _ => some (.serving on)
    | _ => none
  | .releaseCommand, _ => if ph = .serving false then some .idle else none
  | .cancelInflight, _ => if ph = .idle then some .idle else none
  | .ask, _ =>
    match ph with
    | .open timer => some (.open timer)
    | _ => none
  | .useStream, _ =>
    match ph with
    | .open timer => some (.open timer)
    | _ => none
  | .soleOwner inPass, sole =>
    match ph with
    | .open timer => some (if sole then if inPass then .lost else .sole timer else .open timer)
    | _ => none
  | .setClosing, _ =>
    match ph with
    | .sole timer => some (.marked timer)
    | _ => none
  | .clearNotify, _ =>
    match ph with
    | .marked timer => some (.silenced timer)
    | _ => none
  | .releaseRequest, _ =>
    match ph with
    | .silenced timer => some (.released timer)
    | _ => none
  | .setPending n, _ =>
    match ph with
    | .released timer => if n = (if timer then 2 else 1) then some (.counted timer) else none
    | _ => none
  | .uvClose .async, _ =>
    match ph with
    | .counted timer => some (if timer then .halfClosed else .shut)
    | _ => none
  | .uvClose .timer, _ => if ph = .halfClosed then some .shut else none
  | .timerInit, _ => if ph = .open false then some (.open true) else none
  | .closeCb _, last => if ph = .rest true then some (if last then .freeing else ph) else none
  | .freeGr, _ => if ph = .freeing then some (.rest true) else none
  | .save gr, _ =>
    if gr.Good ∧ gr.closing = false ∧ ph = .open gr.timerInited then some (.rest false)
    else if gr.Good ∧ gr.closing = true ∧ (ph = .shut ∨ ph = .rest true) then some (.rest true)
    else none

/-- Nothing is promised once the request is lost. -/
def move (t : Tid) (ph : Phase) (op : LifeOp M) (r : LifeAns op) : Option Phase :=
  if ph = .lost then some .lost else advance t ph op r

/-- Where a thread stands between two programs. -/
def Ended (ph : Phase) : Prop := ph = .idle ∨ (∃ closing, ph = .rest closing) ∨ ph = .lost

section Programs

variable {t : Tid}

theorem lost_obeys {α : Type} (p : Task M α) :
    Obeys (move t) p .lost fun _ ph => ph = .lost := by
  induction p with
  | done a => rfl
  | ask op next ih => exact fun r => ⟨.lost, if_pos rfl, ih r⟩

/-- One effect whose answers decide the phase after it. -/
theorem step_obeys {op : LifeOp M} {ph : Phase} (next : LifeAns op → Phase)
    (h : ∀ r, move t ph op r = some (next r)) :
    Obeys (move t) (step op) ph fun r ph' => ph' = next r := fun r => ⟨next r, h r, rfl⟩

/-- Steps that leave an open request open. -/
theorem ask_obeys {timer : Bool} : Obeys (move (M := M) t) (step .ask) (.open timer)
    fun _ ph => ph = .open timer := step_obeys _ fun _ => rfl

theorem streamCancel_obeys {timer : Bool} : Obeys (move (M := M) t) streamCancel (.open timer)
    fun _ ph => ph = .open timer := step_obeys _ fun _ => rfl

/-! ### Open, detached and closing requests -/

/-- A request that is not closing, in the phase that says so. -/
def Running (gr : Gr) (ph : Phase) : Prop :=
  gr.Good ∧ gr.closing = false ∧ ph = .open gr.timerInited

/-- It runs and has no connection any more. -/
def Detached (gr : Gr) (ph : Phase) : Prop :=
  gr.conn = false ∧ gr.observer = false ∧ gr.closing = false ∧ ph = .open gr.timerInited

/-- It has begun to close. -/
def Shut (gr : Gr) (ph : Phase) : Prop := gr.Good ∧ gr.closing = true ∧ ph = .shut

/-- How a pass over the stream goes on. -/
def Passing (gr : Gr) (ph : Phase) : Prop := Running gr ph ∨ ph = .lost

/-- How a callback ends. -/
def Settled (gr : Gr) (ph : Phase) : Prop := Running gr ph ∨ Shut gr ph ∨ ph = .lost

/-- Without a connection it is enough that the request closes or that its timer runs. -/
theorem good_of_detached {gr : Gr} (hconn : gr.conn = false) (hobserver : gr.observer = false)
    (hends : gr.closing = true ∨ gr.timerInited = true) : gr.Good := by
  refine ⟨hconn.trans hobserver.symm, fun h => ?_, fun _ => hends⟩
  rw [hconn] at h
  contradiction

theorem Detached.running {gr : Gr} {ph : Phase} (h : Detached gr ph)
    (htimer : gr.timerInited = true) : Running gr ph :=
  ⟨good_of_detached h.1 h.2.1 (.inr htimer), h.2.2⟩

/-- Once the timer runs there is no connection. -/
theorem Running.detached {gr : Gr} {timer : Bool} (h : Running gr (.open timer))
    (htimer : timer = true) : Detached gr (.open timer) := by
  obtain ⟨⟨hsame, hgood, -⟩, hclosing, hph⟩ := h
  have hconn : gr.conn = false := by
    by_contra h
    have := (hgood (by simpa using h)).2.2
    rw [← Phase.open.inj hph, htimer] at this
    contradiction
  exact ⟨hconn, hsame.symm.trans hconn, hclosing, hph⟩

theorem Passing.settled {gr : Gr} {ph : Phase} (h : Passing gr ph) : Settled gr ph :=
  h.elim .inl fun h => .inr (.inr h)

theorem beginClose_obeys {gr : Gr} (hconn : gr.conn = false) (hobserver : gr.observer = false) :
    Obeys (move (M := M) t) (beginClose gr) (.sole gr.timerInited) Shut := by
  have hgood : Shut { gr with closing := true } .shut :=
    ⟨good_of_detached hconn hobserver (.inl rfl), rfl, rfl⟩
  unfold beginClose
  refine obeys_bind (step_obeys (fun _ => .marked gr.timerInited) fun _ => rfl) fun _ ph hph => ?_
  subst hph
  refine obeys_bind (step_obeys (fun _ => .silenced gr.timerInited) fun _ => rfl) fun _ ph hph => ?_
  subst hph
  refine obeys_bind (step_obeys (fun _ => .released gr.timerInited) fun _ => rfl) fun _ ph hph => ?_
  subst hph
  refine obeys_bind (step_obeys (fun _ => .counted gr.timerInited) fun _ => if_pos rfl)
    fun _ ph hph => ?_
  subst hph
  refine obeys_bind (step_obeys (fun _ => if gr.timerInited then .halfClosed else .shut)
    fun _ => rfl) fun _ ph hph => ?_
  subst hph
  split
  · refine obeys_bind (step_obeys (fun _ => .shut) fun _ => by simp [move]) fun _ ph hph => ?_
    subst hph
    exact hgood
  · exact hgood

/-- In the middle of a pass a closing request is lost, elsewhere it is shut. -/
theorem tryTeardown_obeys {gr : Gr} {ph : Phase} (inPass : Bool) (h : Detached gr ph) :
    Obeys (move (M := M) t) (tryTeardown inPass gr) ph fun gr ph =>
      Running gr ph ∨ (inPass = false ∧ Shut gr ph) ∨ ph = .lost := by
  obtain ⟨hconn, hobserver, hclosing, rfl⟩ := h
  rw [tryTeardown, if_neg (by simp [hclosing])]
  refine obeys_bind (step_obeys
    (fun sole => if sole then if inPass then .lost else .sole gr.timerInited
      else .open gr.timerInited) fun _ => rfl) fun sole ph hph => ?_
  subst hph
  cases sole with
  | true =>
    cases inPass with
    | true => exact obeys_mono (lost_obeys _) fun _ _ h => .inr (.inr h)
    | false => exact obeys_mono (beginClose_obeys hconn hobserver) fun _ _ h => .inr (.inl ⟨rfl, h⟩)
  | false =>
    rw [if_neg Bool.false_ne_true, if_neg Bool.false_ne_true]
    cases htimer : gr.timerInited with
    | true => exact .inl (Detached.running ⟨hconn, hobserver, hclosing, by rw [htimer]⟩ htimer)
    | false =>
      refine obeys_bind (step_obeys (fun _ => .open true) fun _ => rfl) fun _ ph hph => ?_
      subst hph
      exact .inl (Detached.running ⟨hconn, hobserver, hclosing, rfl⟩ rfl)

theorem teardown_settled {gr : Gr} {ph : Phase} (h : Detached gr ph) :
    Obeys (move (M := M) t) (tryTeardown false gr) ph Settled := by
  refine obeys_mono (tryTeardown_obeys false h) fun gr ph h => ?_
  rcases h with h | ⟨-, h⟩ | h
  · exact .inl h
  · exact .inr (.inl h)
  · exact .inr (.inr h)

theorem onTimer_obeys {gr : Gr} {ph : Phase} (h : Detached gr ph)
    (htimer : gr.timerInited = true) : Obeys (move (M := M) t) (onTimer gr) ph Settled := by
  obtain ⟨hconn, hobserver, hclosing, rfl⟩ := h
  rw [onTimer, if_neg (by simp [hclosing])]
  refine obeys_bind (step_obeys (fun sole => if sole then .sole gr.timerInited
    else .open gr.timerInited) fun _ => rfl) fun sole ph hph => ?_
  subst hph
  cases sole with
  | true => exact obeys_mono (beginClose_obeys hconn hobserver) fun _ _ h => .inr (.inl h)
  | false => exact .inl (Detached.running ⟨hconn, hobserver, hclosing, rfl⟩ htimer)

/-! ### The connection -/

theorem onConnGone_obeys {gr : Gr} {ph : Phase} (inPass : Bool)
    (hobserver : gr.observer = false) (hclosing : gr.closing = false)
    (hph : ph = .open gr.timerInited) :
    Obeys (move (M := M) t) (onConnGone inPass gr) ph fun gr ph =>
      Running gr ph ∨ (inPass = false ∧ Shut gr ph) ∨ ph = .lost := by
  subst hph
  refine obeys_bind streamCancel_obeys fun _ ph hph => ?_
  subst hph
  exact tryTeardown_obeys inPass ⟨rfl, hobserver, hclosing, rfl⟩

/-- Closing the connection of a request that runs tells the request. -/
theorem closeConn_obeys {gr : Gr} {ph : Phase} (inPass : Bool) (h : Running gr ph) :
    Obeys (move (M := M) t) (closeConn inPass gr) ph fun gr ph =>
      Running gr ph ∨ (inPass = false ∧ Shut gr ph) ∨ ph = .lost := by
  obtain ⟨hgood, hclosing, rfl⟩ := h
  unfold closeConn
  split
  · exact .inl ⟨hgood, hclosing, rfl⟩
  · split
    · exact onConnGone_obeys inPass rfl hclosing rfl
    · rename_i hobserver
      have hobserver : gr.observer = false := by simpa using hobserver
      have hconn : gr.conn = false := hgood.1.trans hobserver
      exact .inl ⟨good_of_detached hconn hobserver (hgood.2.2 hconn), hclosing, rfl⟩

/-- A detached request does not hear of it. -/
theorem closeConn_detached {gr : Gr} {ph : Phase} (inPass : Bool) (h : Detached gr ph) :
    Obeys (move (M := M) t) (closeConn inPass gr) ph Detached := by
  unfold closeConn
  split
  · exact h
  · rw [if_neg (by simp [h.2.1])]
    exact h

theorem queueWrite_obeys {gr : Gr} {ph : Phase} (inPass : Bool) (h : Running gr ph) :
    Obeys (move (M := M) t) (queueWrite inPass gr) ph fun gr ph =>
      Running gr ph ∨ (inPass = false ∧ Shut gr ph) ∨ ph = .lost := by
  obtain ⟨hgood, hclosing, rfl⟩ := h
  unfold queueWrite
  split
  · exact .inl ⟨hgood, hclosing, rfl⟩
  · refine obeys_bind ask_obeys fun queued ph hph => ?_
    subst hph
    split
    · exact .inl ⟨hgood, hclosing, rfl⟩
    · exact closeConn_obeys inPass ⟨hgood, hclosing, rfl⟩

theorem queueWrite_detached {gr : Gr} {ph : Phase} (inPass : Bool) (h : Detached gr ph) :
    Obeys (move (M := M) t) (queueWrite inPass gr) ph Detached := by
  obtain ⟨hconn, hobserver, hclosing, rfl⟩ := h
  unfold queueWrite
  split
  · exact ⟨hconn, hobserver, hclosing, rfl⟩
  · refine obeys_bind ask_obeys fun queued ph hph => ?_
    subst hph
    split
    · exact ⟨hconn, hobserver, hclosing, rfl⟩
    · exact closeConn_detached inPass ⟨hconn, hobserver, hclosing, rfl⟩

theorem writeSse_detached {gr : Gr} {ph : Phase} (inPass : Bool) (h : Detached gr ph) :
    Obeys (move (M := M) t) (writeSse inPass gr) ph Detached := by
  obtain ⟨hconn, hobserver, hclosing, rfl⟩ := h
  refine obeys_bind ask_obeys fun built ph hph => ?_
  subst hph
  split
  · exact queueWrite_detached inPass ⟨hconn, hobserver, hclosing, rfl⟩
  · exact ⟨hconn, hobserver, hclosing, rfl⟩

theorem writeLast_detached {gr : Gr} {ph : Phase} (h : Detached gr ph) :
    Obeys (move (M := M) t) (writeLast gr) ph Detached := by
  obtain ⟨hconn, hobserver, hclosing, rfl⟩ := h
  refine obeys_bind ask_obeys fun built ph hph => ?_
  subst hph
  split
  · exact queueWrite_detached false ⟨hconn, hobserver, hclosing, rfl⟩
  · exact closeConn_detached false ⟨hconn, hobserver, hclosing, rfl⟩

theorem finishSse_detached {gr : Gr} {ph : Phase} (h : Detached gr ph) :
    Obeys (move (M := M) t) (finishSse gr) ph Detached := by
  refine obeys_bind (writeSse_detached false h) fun gr ph h => ?_
  refine obeys_bind (writeSse_detached false h) fun gr ph h => ?_
  refine obeys_bind (writeSse_detached false h) fun gr ph h => ?_
  refine obeys_bind (writeSse_detached false h) fun gr ph h => ?_
  exact writeLast_detached h

/-- However the response ends, it is written to a detached connection. -/
theorem finishWith_obeys {last : Gr → Task M Gr} {gr : Gr} {ph : Phase} (h : Running gr ph)
    (hlast : ∀ gr ph, Detached gr ph → Obeys (move t) (last gr) ph Detached) :
    Obeys (move (M := M) t) (finishWith last gr) ph Settled := by
  obtain ⟨⟨hsame, -⟩, hclosing, rfl⟩ := h
  unfold finishWith
  split
  · refine obeys_bind (hlast _ _ ⟨rfl, rfl, hclosing, rfl⟩) fun gr ph h => ?_
    exact teardown_settled h
  · rename_i hconn
    have hconn : gr.conn = false := by simpa using hconn
    exact teardown_settled ⟨hconn, hsame.symm.trans hconn, hclosing, rfl⟩

theorem finishError_obeys {gr : Gr} {ph : Phase} (h : Running gr ph) :
    Obeys (move (M := M) t) (finishError gr) ph Settled := by
  refine finishWith_obeys h fun gr ph h => ?_
  split
  · exact closeConn_detached false h
  · split
    · refine obeys_bind (writeSse_detached false h) fun gr ph h => ?_
      exact writeLast_detached h
    · exact writeLast_detached h

theorem finishResponse_obeys {gr : Gr} {ph : Phase} (h : Running gr ph) :
    Obeys (move (M := M) t) (finishResponse gr) ph Settled := by
  obtain ⟨hgood, hclosing, rfl⟩ := h
  refine obeys_bind ask_obeys fun flushed ph hph => ?_
  subst hph
  split
  · refine finishWith_obeys ⟨hgood, hclosing, rfl⟩ fun gr ph h => ?_
    split
    · exact closeConn_detached false h
    · split
      · exact finishSse_detached h
      · exact writeLast_detached h
  · exact finishError_obeys ⟨hgood, hclosing, rfl⟩

/-! ### The pass over the stream -/

theorem emitSseChunk_obeys {gr : Gr} {ph : Phase} (h : Running gr ph) :
    Obeys (move (M := M) t) (emitSseChunk gr) ph Passing := by
  obtain ⟨hgood, hclosing, rfl⟩ := h
  unfold emitSseChunk
  split
  · exact .inl ⟨hgood, hclosing, rfl⟩
  · refine obeys_bind ask_obeys fun built ph hph => ?_
    subst hph
    split
    · refine obeys_mono (queueWrite_obeys true ⟨hgood, hclosing, rfl⟩) fun gr ph h => ?_
      rcases h with h | ⟨h, -⟩ | h
      · exact .inl h
      · contradiction
      · exact .inr h
    · exact .inl ⟨hgood, hclosing, rfl⟩

theorem checkBacklog_obeys {gr : Gr} {ph : Phase} (h : Running gr ph) :
    Obeys (move (M := M) t) (checkBacklog gr) ph Running := by
  obtain ⟨hgood, hclosing, rfl⟩ := h
  unfold checkBacklog
  split
  · exact ⟨hgood, hclosing, rfl⟩
  · refine obeys_bind ask_obeys fun above ph hph => ?_
    subst hph
    split
    · refine obeys_bind streamCancel_obeys fun _ ph hph => ?_
      subst hph
      exact ⟨hgood, hclosing, rfl⟩
    · exact ⟨hgood, hclosing, rfl⟩

/-- How the loop goes on after one token. -/
def Fed (next : Bool × Gr) (ph : Phase) : Prop :=
  if next.1 then Passing next.2 ph else Settled next.2 ph

theorem fed_lost (next : Bool × Gr) {ph : Phase} (h : ph = .lost) : Fed next ph := by
  unfold Fed
  split
  · exact .inr h
  · exact .inr (.inr h)

theorem failToken_obeys {gr : Gr} {ph : Phase} (h : Running gr ph) :
    Obeys (move (M := M) t) (failToken gr >>= fun gr => return (false, gr)) ph Fed := by
  obtain ⟨hgood, hclosing, rfl⟩ := h
  have hfail : Obeys (move (M := M) t) (failToken gr) (.open gr.timerInited) Settled := by
    refine obeys_bind streamCancel_obeys fun _ ph hph => ?_
    subst hph
    exact finishError_obeys ⟨hgood, hclosing, rfl⟩
  exact obeys_bind hfail fun gr ph h => h

theorem onToken_obeys {gr : Gr} {ph : Phase} (h : Running gr ph) :
    Obeys (move (M := M) t) (onToken gr) ph Fed := by
  obtain ⟨hgood, hclosing, rfl⟩ := h
  refine obeys_bind ask_obeys fun fed ph hph => ?_
  subst hph
  split
  · refine obeys_bind ask_obeys fun piece ph hph => ?_
    subst hph
    split
    · have hemit : Obeys (move (M := M) t) (if piece then emitSseChunk gr else return gr)
          (.open gr.timerInited) Passing := by
        split
        · exact emitSseChunk_obeys ⟨hgood, hclosing, rfl⟩
        · exact .inl ⟨hgood, hclosing, rfl⟩
      refine obeys_bind hemit fun gr ph h => ?_
      rcases h with h | rfl
      · refine obeys_bind (checkBacklog_obeys h) fun gr ph h => ?_
        exact .inl h
      · exact obeys_mono (lost_obeys _) fun next ph h => fed_lost next h
    · split
      · refine obeys_bind ask_obeys fun kept ph hph => ?_
        subst hph
        split
        · exact .inl ⟨hgood, hclosing, rfl⟩
        · exact failToken_obeys ⟨hgood, hclosing, rfl⟩
      · exact .inl ⟨hgood, hclosing, rfl⟩
  · exact failToken_obeys ⟨hgood, hclosing, rfl⟩

/-- The loop ends with a request that runs, is shut or is lost. -/
theorem drainLoop_obeys {kinds : List Kind} {gr : Gr} {ph : Phase} (h : Running gr ph) :
    Obeys (move (M := M) t) (drainLoop kinds gr) ph Settled := by
  induction kinds generalizing gr ph with
  | nil =>
    obtain ⟨hgood, hclosing, rfl⟩ := h
    refine obeys_bind streamCancel_obeys fun _ ph hph => ?_
    subst hph
    exact .inl ⟨hgood, hclosing, rfl⟩
  | cons kind rest ih =>
    obtain ⟨hgood, hclosing, rfl⟩ := h
    refine obeys_bind streamCancel_obeys fun _ ph hph => ?_
    subst hph
    cases kind with
    | token =>
      refine obeys_bind (onToken_obeys ⟨hgood, hclosing, rfl⟩) fun next ph h => ?_
      unfold Fed at h
      split at h
      · rename_i hnext
        rw [if_pos hnext]
        rcases h with h | rfl
        · exact ih h
        · exact obeys_mono (lost_obeys _) fun _ _ h => .inr (.inr h)
      · rename_i hnext
        rw [if_neg hnext]
        exact h
    | error => exact finishError_obeys ⟨hgood, hclosing, rfl⟩
    | done => exact finishResponse_obeys ⟨hgood, hclosing, rfl⟩

theorem genOnAsync_obeys {kinds : List Kind} {gr : Gr} {ph : Phase} (h : Running gr ph) :
    Obeys (move (M := M) t) (genOnAsync kinds gr) ph Settled := by
  rw [genOnAsync, if_neg (by simp [h.2.1])]
  exact drainLoop_obeys h

theorem genRequestDrain_obeys {gr : Gr} {ph : Phase} (h : Running gr ph) :
    Obeys (move (M := M) t) (genRequestDrain gr) ph Settled := by
  obtain ⟨hgood, hclosing, rfl⟩ := h
  rw [genRequestDrain, if_neg (by simp [hclosing])]
  refine obeys_bind streamCancel_obeys fun _ ph hph => ?_
  subst hph
  exact .inl ⟨hgood, hclosing, rfl⟩

/-! ### Whole callbacks -/

theorem settled_of_open {gr : Gr} {ph : Phase}
    (h : Running gr ph ∨ (false = false ∧ Shut gr ph) ∨ ph = .lost) : Settled gr ph :=
  h.imp_right (Or.imp_left And.right)

theorem callback_obeys {p : Task M Gr} {ph : Phase} (h : Obeys (move t) p ph Settled) :
    Obeys (move (M := M) t) (callback p) ph fun _ ph => Ended ph := by
  refine obeys_bind h fun gr ph h => ?_
  rcases h with ⟨hgood, hclosing, rfl⟩ | ⟨hgood, hclosing, rfl⟩ | rfl
  · exact fun _ => ⟨.rest false, by simp [move, hgood, hclosing], .inr (.inl ⟨false, rfl⟩)⟩
  · exact fun _ => ⟨.rest true, by simp [move, hgood, hclosing], .inr (.inl ⟨true, rfl⟩)⟩
  · exact fun _ => ⟨.lost, rfl, .inr (.inr rfl)⟩

/-- Closing the connection of a request that is closing leaves the request alone. -/
theorem closeConn_shut {gr : Gr} (hgood : gr.Good) (hclosing : gr.closing = true) :
    Obeys (move (M := M) t) (callback (closeConn false gr)) (.rest true) fun _ ph => Ended ph := by
  have hconn : gr.conn = false := by
    by_contra h
    have := (hgood.2.1 (by simpa using h)).1
    rw [hclosing] at this
    contradiction
  have hobserver : gr.observer = false := hgood.1.symm.trans hconn
  have hsave : ∀ gr' : Gr, gr'.Good → gr'.closing = true →
      Obeys (move (M := M) t) (callback (return gr')) (.rest true) fun _ ph => Ended ph := by
    intro gr' hgood hclosing
    exact fun _ => ⟨.rest true, by simp [move, hgood, hclosing], .inr (.inl ⟨true, rfl⟩)⟩
  unfold closeConn
  split
  · exact hsave gr hgood hclosing
  · rw [if_neg (by simp [hobserver])]
    exact hsave _ (good_of_detached hconn hobserver (.inl hclosing)) hclosing

theorem onCloseCb_obeys (h : HandleId) :
    Obeys (move (M := M) t) (onCloseCb h) (.rest true) fun _ ph => Ended ph := by
  refine obeys_bind (step_obeys (fun last => if last then .freeing else .rest true)
    fun _ => by simp [move]) fun last ph hph => ?_
  subst hph
  split
  · exact fun _ => ⟨.rest true, rfl, .inr (.inl ⟨true, rfl⟩)⟩
  · exact .inr (.inl ⟨true, rfl⟩)

/-! ### Whoever has the command -/

theorem onStream_obeys {α : Type} (p : Gen M α) (b : Bool) :
    Obeys (move t) (onStream p) (.serving b) fun _ ph => ph = .serving b := by
  induction p with
  | done a => rfl
  | ask op next ih => exact fun r => ⟨.serving b, rfl, ih r⟩

theorem handleGenerate_obeys (p : Gen M Unit) :
    Obeys (move .server) (handleGenerate p) .idle fun _ ph => Ended ph := by
  refine obeys_bind (step_obeys (fun _ => .serving false) fun _ => rfl) fun _ ph hph => ?_
  subst hph
  refine obeys_bind (step_obeys (fun _ => .serving true) fun _ => rfl) fun _ ph hph => ?_
  subst hph
  refine obeys_bind (onStream_obeys p true) fun _ ph hph => ?_
  subst hph
  refine obeys_bind (step_obeys (fun _ => .serving false) fun _ => rfl) fun _ ph hph => ?_
  subst hph
  exact fun _ => ⟨.idle, rfl, .inl rfl⟩

theorem cmdCancel_obeys (p : Gen M Unit) :
    Obeys (move .server) (cmdCancel p) .idle fun _ ph => Ended ph := by
  refine obeys_bind (step_obeys (fun _ => .serving false) fun _ => rfl) fun _ ph hph => ?_
  subst hph
  refine obeys_bind (onStream_obeys p false) fun _ ph hph => ?_
  subst hph
  exact fun _ => ⟨.idle, rfl, .inl rfl⟩

end Programs

end Mlxd.Lifetime
