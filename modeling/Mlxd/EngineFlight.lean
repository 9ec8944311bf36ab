import Mlxd.EngineProtocol

/-!
# When a generate command pushes

A request that has not checked the shutdown flag pushes at most the two chunks of a failure
or one terminal chunk; every other push comes after a check that found the flag unset, made
while the stream was recorded in flight.
-/
namespace Mlxd.Engine

open Mlxd.Lib Program

variable {M : Mlx}

/-- Where a thread stands with the generate command of one stream. -/
inductive FlightPhase where
  | idle
  /-- It has the command; nothing has been written to the stream. -/
  | held
  /-- The stream is in flight; the shutdown flag has not been checked and nothing written. -/
  | start
  /-- The error of a failing request was written before any check. -/
  | errored
  /-- The shutdown flag was found unset with the stream in flight. -/
  | checked
  /-- Nothing more will be pushed. -/
  | spent
  | lost
  deriving DecidableEq, Repr

def genFlight : FlightPhase → (op : GenOp M) → GenAns op → Option FlightPhase
  | .idle, _, _ => none
  | .held, .finishCancelled, _ => some .spent
  | .held, _, _ => none
  | .start, .push (.error _ _), ok => some (if ok then .errored else .spent)
  | .start, .push (.done _), _ => some .spent
  | .start, .push (.token _ _), _ => none
  | .start, .loadShutdown _, shutdown => some (if shutdown then .spent else .checked)
  | .start, .finishCancelled, _ => some .spent
  | .start, _, _ => some .start
  | .errored, .push (.done _), _ => some .spent
  | .errored, .push _, _ => none
  | .errored, _, _ => some .errored
  | .checked, _, _ => some .checked
  | .spent, .push _, _ => none
  | .spent, _, _ => some .spent
  | .lost, _, _ => some .lost

/-- The stream is recorded in flight, or done with. -/
def InFlight (ph : FlightPhase) : Prop :=
  ph = .start ∨ ph = .errored ∨ ph = .checked ∨ ph = .spent

/-! ## The generate path -/

section Generate

/-- Once checked, anything goes. -/
theorem checked_flies {α : Type} (p : Gen M α) :
    Obeys genFlight p .checked fun _ ph => ph = .checked := by
  induction p with
  | done a => rfl
  | ask op next ih => exact fun r => ⟨.checked, rfl, ih r⟩

theorem checked_inFlight {α : Type} (p : Gen M α) :
    Obeys genFlight p .checked fun _ ph => InFlight ph :=
  obeys_mono (checked_flies p) fun _ _ h => .inr (.inr (.inl h))

theorem call_start {op : GenOp M} (h : ∀ r, genFlight .start op r = some .start) :
    Obeys genFlight (call op) .start fun _ ph => ph = .start := obeys_quiet h

theorem finishCancelled_spent :
    Obeys genFlight (streamFinishCancelledP (M := M)) .spent fun _ ph => ph = .spent :=
  fun _ => ⟨.spent, rfl, fun _ => ⟨.spent, rfl, rfl⟩⟩

theorem finishWith_start (reason : FinishReason) :
    Obeys genFlight (finishWith (M := M) reason) .start fun _ ph => ph = .spent := by
  have hpush : Obeys genFlight (streamPushP (M := M) (.done reason)) .start
      fun _ ph => ph = .spent := by
    intro ok
    refine ⟨.spent, rfl, ?_⟩
    cases ok with
    | true => exact fun _ => ⟨.spent, rfl, rfl⟩
    | false => rfl
  refine obeys_bind hpush fun ok ph hph => ?_
  subst hph
  cases ok with
  | true => rfl
  | false => exact finishCancelled_spent

/-- The two chunks of a failure. -/
theorem generateFail_start (message : String) (kind : GenErrKind) :
    Obeys genFlight (generateFail (M := M) message kind) .start fun _ ph => InFlight ph := by
  have hpush : Obeys genFlight (streamPushP (M := M) (.error kind message)) .start
      fun ok ph => ph = if ok then .errored else .spent := by
    intro ok
    refine ⟨_, rfl, ?_⟩
    cases ok with
    | true => exact fun _ => ⟨.errored, rfl, rfl⟩
    | false => rfl
  refine obeys_bind hpush fun pushed ph hph => ?_
  have hdone : Obeys genFlight (if pushed = true then streamPushP (M := M) (.done .stop)
      else pure false) ph fun _ ph => ph = .spent := by
    subst hph
    cases pushed with
    | false => rfl
    | true =>
      intro ok
      refine ⟨.spent, rfl, ?_⟩
      cases ok with
      | true => exact fun _ => ⟨.spent, rfl, rfl⟩
      | false => rfl
  refine obeys_bind hdone fun ok ph hph => ?_
  subst hph
  cases ok with
  | true => exact .inr (.inr (.inr rfl))
  | false =>
    intro shutdown
    refine ⟨.spent, rfl, ?_⟩
    cases shutdown with
    | true => exact obeys_mono finishCancelled_spent fun _ _ h => .inr (.inr (.inr h))
    | false => exact .inr (.inr (.inr rfl))

theorem check_start : Obeys genFlight (call (M := M) (.loadShutdown false)) .start
    fun shutdown ph => ph = if shutdown = true then .spent else .checked :=
  fun _ => ⟨_, rfl, rfl⟩

/-- After its first poll a request has to stop, or the flag was unset. -/
def Polled (stop : Bool) (ph : FlightPhase) : Prop := ph = .checked ∨ (stop = true ∧ ph = .spent)

theorem pollStop_start :
    Obeys genFlight (pollStop (M := M)) .start fun stop ph => Polled stop ph := by
  intro shutdown
  cases shutdown with
  | true => exact ⟨.spent, rfl, .inr ⟨rfl, rfl⟩⟩
  | false => exact ⟨.checked, rfl, fun _ => ⟨.checked, rfl, .inl rfl⟩⟩

theorem pollHookPoll_start (hook : Gen M Unit) :
    Obeys genFlight (pollHookPoll hook) .start fun stop ph => Polled stop ph := by
  refine obeys_bind pollStop_start fun stop ph hph => ?_
  rcases hph with rfl | ⟨rfl, rfl⟩
  · exact obeys_mono (checked_flies _) fun _ _ h => .inl h
  · exact .inr ⟨rfl, rfl⟩

/-- A request that has to stop writes its terminal chunk. -/
theorem polled_stop {ph : FlightPhase} (h : Polled true ph) :
    Obeys genFlight (streamFinishCancelledP (M := M)) ph fun _ ph => InFlight ph := by
  rcases h with rfl | ⟨-, rfl⟩
  · exact checked_inFlight _
  · exact obeys_mono finishCancelled_spent fun _ _ h => .inr (.inr (.inr h))

/-- A stage of a request that starts unchecked: it goes on so, or checked, or ends. -/
def Goes (goOn : Bool) (ph : FlightPhase) : Prop :=
  InFlight ph ∧ (goOn = true → ph = .start ∨ ph = .checked)

theorem stubLoop_start (wantLp : Bool) (i : Nat) (ids : List Int) :
    Obeys genFlight (stubLoop (M := M) wantLp i ids) .start fun goOn ph => Goes goOn ph := by
  cases ids with
  | nil => exact ⟨.inl rfl, fun _ => .inl rfl⟩
  | cons id rest =>
    refine obeys_bind check_start fun shutdown ph hph => ?_
    subst hph
    cases shutdown with
    | true =>
      refine obeys_bind finishCancelled_spent fun _ ph hph => ?_
      subst hph
      exact ⟨.inr (.inr (.inr rfl)), fun h => by contradiction⟩
    | false =>
      refine obeys_mono (checked_flies _) fun _ ph hph => ?_
      subst hph
      exact ⟨.inr (.inr (.inl rfl)), fun _ => .inr rfl⟩

theorem handleGenerateStub_start (cmd : GenerateCmd M.Real) :
    Obeys genFlight (handleGenerateStub cmd) .start fun _ ph => InFlight ph := by
  refine obeys_bind (stubLoop_start _ 0 _) fun goOn ph hph => ?_
  cases goOn with
  | false => exact hph.1
  | true =>
    rcases hph.2 rfl with rfl | rfl
    · exact obeys_mono (finishWith_start _) fun _ _ h => .inr (.inr (.inr h))
    · exact checked_inFlight _

theorem prefillLoop_start (chunk : Nat) (ids : List Int) (stop fuel pos : Nat) :
    Obeys genFlight (prefillLoop (M := M) chunk ids stop fuel pos) .start
      fun goOn ph => Goes goOn ph := by
  cases fuel with
  | zero => exact ⟨.inl rfl, fun _ => .inl rfl⟩
  | succ fuel =>
    rw [prefillLoop]
    split
    · refine obeys_bind (pollHookPoll_start _) fun stopped ph hph => ?_
      cases stopped with
      | true =>
        refine obeys_bind (polled_stop hph) fun _ ph hph => ?_
        exact ⟨hph, fun h => by contradiction⟩
      | false =>
        obtain rfl : ph = .checked := hph.resolve_right fun h => by simp at h
        refine obeys_mono (checked_flies _) fun _ ph hph => ?_
        subst hph
        exact ⟨.inr (.inr (.inl rfl)), fun _ => .inr rfl⟩
    · exact ⟨.inl rfl, fun _ => .inl rfl⟩

theorem seedLogits_start (ids : List Int) :
    Obeys genFlight (seedLogits (M := M) ids) .start
      fun seed ph => InFlight ph ∧ (seed.isSome → ph = .checked) := by
  refine obeys_bind (pollHookPoll_start _) fun stopped ph hph => ?_
  cases stopped with
  | true =>
    refine obeys_bind (polled_stop hph) fun _ ph hph => ?_
    exact ⟨hph, fun h => by contradiction⟩
  | false =>
    obtain rfl : ph = .checked := hph.resolve_right fun h => by simp at h
    exact obeys_mono (checked_flies _) fun _ ph hph => ⟨.inr (.inr (.inl hph)), fun _ => hph⟩

theorem generateBody_start (chunk : Nat) (cfg : ModelConfig M.Real) (cmd : GenerateCmd M.Real) :
    Obeys genFlight (generateBody chunk cfg cmd) .start fun _ ph => InFlight ph := by
  refine obeys_bind (call_start fun _ => rfl) fun keyed ph hph => ?_
  subst hph
  split
  · exact generateFail_start _ _
  split
  · exact generateFail_start _ _
  split
  · exact obeys_mono (finishWith_start _) fun _ _ h => .inr (.inr (.inr h))
  refine obeys_bind (call_start fun _ => rfl) fun cached ph hph => ?_
  subst hph
  split
  · exact generateFail_start _ _
  refine obeys_bind (prefillLoop_start chunk _ _ _ _) fun goOn ph hph => ?_
  cases goOn with
  | false => exact hph.1
  | true =>
    rcases hph.2 rfl with rfl | rfl
    · refine obeys_bind (seedLogits_start _) fun seed ph hph => ?_
      cases seed with
      | none => exact hph.1
      | some pending =>
        obtain rfl := hph.2 rfl
        exact checked_inFlight _
    · exact checked_inFlight _

theorem inFlight_clearCache {ph : FlightPhase} (h : InFlight ph) :
    Obeys genFlight (call (M := M) .clearCache) ph fun _ ph => InFlight ph := by
  refine fun _ => ⟨ph, ?_, h⟩
  rcases h with rfl | rfl | rfl | rfl <;> rfl

theorem handleGenerateReal_start (chunk : Nat) (cfg : ModelConfig M.Real)
    (cmd : GenerateCmd M.Real) :
    Obeys genFlight (handleGenerateReal chunk cfg cmd) .start fun _ ph => InFlight ph :=
  obeys_bind (generateBody_start chunk cfg cmd) fun _ _ hph => inFlight_clearCache hph

end Generate

/-! ## The programs -/

/-- How a step moves a thread with respect to the command of stream `i`. -/
@[simp] def flightMove (i : StreamId) (t : Tid) (ph : FlightPhase) :
    (op : EngOp M) → EngAns op → Option FlightPhase
  | .gen j op, r => if j = i then genFlight ph op r else some ph
  | .release j .command, _ =>
    if j = i then if ph = .idle then none else if ph = .lost then some .lost else some .idle
    else some ph
  | .submit cmd, _ =>
    if isGenerate i cmd then if ph = .idle then some .held else none else some ph
  | .enqueue cmd, ok =>
    if isGenerate i cmd then if ph = .held then some (if ok then .idle else .held) else none
    else some ph
  | .dequeue, cmd =>
    if cmd.any (isGenerate i) then if ph = .idle then some .held else none else some ph
  | .drainAll, cmds =>
    match cmds.countP (isGenerate i) with
    | 0 => some ph
    | 1 => if ph = .idle then some .held else none
    | _ => some .lost
  | .setInflight j, _ =>
    match t, ph with
    | .client _, _ => none
    | .engine, .idle => some .idle
    | .engine, .lost => some .lost
    | .engine, .held => if j = some i then some .start else none
    | .engine, _ => if j = none then some .spent else none
  | _, _ => some ph

section Programs

variable {i : StreamId} {t : Tid}

theorem step_flies {op : EngOp M} {ph : FlightPhase} (h : ∀ r, flightMove i t ph op r = some ph) :
    Obeys (flightMove i t) (step op) ph fun _ ph' => ph' = ph := obeys_quiet h

theorem onStream_flies {α : Type} {p : Gen M α} {ph : FlightPhase} {post : α → FlightPhase → Prop}
    (h : Obeys genFlight p ph post) : Obeys (flightMove i t) (onStream i p) ph post :=
  obeys_embed (fun ph op r => by simp [flightMove]) h

/-- The generate path of another stream. -/
theorem onStream_aside {α : Type} {j : StreamId} (hj : j ≠ i) (p : Gen M α) (ph : FlightPhase) :
    Obeys (flightMove i t) (onStream j p) ph fun _ ph' => ph' = ph := by
  induction p with
  | done a => rfl
  | ask op next ih => exact fun r => ⟨ph, by simp [flightMove, hj], ih r⟩

/-- The end of a program: the thread does not have the command, or cannot be reached. -/
def Landed (ph : FlightPhase) : Prop := ph = .idle ∨ ph = .lost

theorem cmdCancel_held {cmd : Cmd M.Real} (h : isGenerate i cmd = true) :
    Obeys (flightMove i t) (cmdCancel cmd) .held fun _ ph => ph = .idle := by
  cases cmd with
  | generate j cmd =>
    obtain rfl : j = i := by simpa [isGenerate] using h
    have hfinish : Obeys genFlight (streamFinishCancelledP (M := M)) .held
        fun _ ph => ph = .spent := fun _ => ⟨.spent, rfl, fun _ => ⟨.spent, rfl, rfl⟩⟩
    refine obeys_bind (onStream_flies hfinish) fun _ ph hph => ?_
    subst hph
    exact fun _ => ⟨.idle, by simp [flightMove], rfl⟩
  | _ => simp [isGenerate] at h

theorem cmdCancel_aside {cmd : Cmd M.Real} (h : isGenerate i cmd = false) (ph : FlightPhase) :
    Obeys (flightMove i t) (cmdCancel cmd) ph fun _ ph' => ph' = ph := by
  cases cmd with
  | generate j cmd =>
    have hj : j ≠ i := by simpa [isGenerate] using h
    refine obeys_bind (onStream_aside hj _ ph) fun _ ph' hph => ?_
    subst hph
    exact step_flies fun _ => by simp [flightMove, hj]
  | reclaim j => exact step_flies fun _ => rfl
  | _ => rfl

theorem cancelAll_flies (cmds : List (Cmd M.Real)) :
    (cmds.countP (isGenerate i) = 0 → ∀ ph,
      Obeys (flightMove i t) (cancelAll cmds) ph fun _ ph' => ph' = ph) ∧
    (cmds.countP (isGenerate i) = 1 →
      Obeys (flightMove i t) (cancelAll cmds) .held fun _ ph => ph = .idle) := by
  induction cmds with
  | nil => exact ⟨fun _ _ => rfl, fun h => by simp at h⟩
  | cons cmd rest ih =>
    rw [List.countP_cons]
    by_cases hcmd : isGenerate i cmd = true
    · rw [if_pos hcmd]
      refine ⟨fun h => by omega, fun h => ?_⟩
      refine obeys_bind (cmdCancel_held hcmd) fun _ ph hph => ?_
      subst hph
      exact ih.1 (by omega) .idle
    · rw [if_neg hcmd]
      rw [Bool.not_eq_true] at hcmd
      refine ⟨fun h ph => ?_, fun h => ?_⟩
      · refine obeys_bind (cmdCancel_aside hcmd ph) fun _ ph' hph => ?_
        subst hph
        exact ih.1 h ph'
      · refine obeys_bind (cmdCancel_aside hcmd .held) fun _ ph hph => ?_
        subst hph
        exact ih.2 h

/-- From lost every program stays lost, on the threads that may set what is in flight. -/
theorem cancelAll_lost (cmds : List (Cmd M.Real)) :
    Obeys (flightMove i t) (cancelAll cmds) .lost fun _ ph => ph = .lost := by
  induction cmds with
  | nil => rfl
  | cons cmd rest ih =>
    have hcmd : Obeys (flightMove i t) (cmdCancel cmd) .lost fun _ ph => ph = .lost := by
      cases cmd with
      | generate j cmd =>
        by_cases hj : j = i
        · subst hj
          exact fun _ => ⟨.lost, by simp [flightMove, genFlight], fun _ =>
            ⟨.lost, by simp [flightMove, genFlight], fun _ => ⟨.lost, by simp [flightMove], rfl⟩⟩⟩
        · refine obeys_bind (onStream_aside hj _ .lost) fun _ ph hph => ?_
          subst hph
          exact step_flies fun _ => by simp [flightMove, hj]
      | reclaim j => exact step_flies fun _ => rfl
      | _ => rfl
    refine obeys_bind hcmd fun _ ph hph => ?_
    subst hph
    exact ih

theorem drain_lands :
    Obeys (flightMove i t) (mailboxDrainCancel (M := M)) .idle fun _ ph => Landed ph := by
  intro cmds
  match hcount : cmds.countP (isGenerate i) with
  | 0 => exact ⟨.idle, by simp [flightMove, hcount],
      obeys_mono ((cancelAll_flies cmds).1 hcount .idle) fun _ _ h => .inl h⟩
  | 1 => exact ⟨.held, by simp [flightMove, hcount],
      obeys_mono ((cancelAll_flies cmds).2 hcount) fun _ _ h => .inl h⟩
  | n + 2 => exact ⟨.lost, by simp [flightMove, hcount],
      obeys_mono (cancelAll_lost cmds) fun _ _ h => .inr h⟩

/-- A step that leaves the phase as it is, in both end phases. -/
theorem landed_step {op : EngOp M} {ph : FlightPhase} (hph : Landed ph)
    (h : ∀ r ph, flightMove i t ph op r = some ph) :
    Obeys (flightMove i t) (step op) ph fun _ ph => Landed ph :=
  fun r => ⟨ph, h r ph, hph⟩

theorem drain_exit_lands : Obeys (flightMove i t)
    (mailboxDrainCancel >>= fun _ => step (M := M) .exitThread) .idle fun _ ph => Landed ph :=
  obeys_bind drain_lands fun _ _ hph => landed_step hph fun _ _ => rfl

theorem dispatchGenerate_start (chunk : Nat) (cmd : GenerateCmd M.Real) :
    Obeys (flightMove i t) (dispatchGenerate chunk i cmd) .start fun _ ph => InFlight ph := by
  refine obeys_bind (step_flies fun _ => rfl) fun st ph hph => ?_
  subst hph
  split
  · exact onStream_flies (generateFail_start _ _)
  · refine obeys_bind (step_flies fun _ => rfl) fun model ph hph => ?_
    subst hph
    split
    · exact onStream_flies (handleGenerateStub_start cmd)
    · exact onStream_flies (handleGenerateReal_start chunk _ cmd)

theorem handleGenerate_flies (chunk : Nat) (cmd : GenerateCmd M.Real) :
    Obeys (flightMove i .engine) (handleGenerate chunk i cmd) .held fun _ ph => ph = .idle := by
  have hset : Obeys (flightMove i .engine) (step (M := M) (.setInflight (some i))) .held
      fun _ ph => ph = .start := fun _ => ⟨.start, by simp [flightMove], rfl⟩
  refine obeys_bind hset fun _ ph hph => ?_
  subst hph
  refine obeys_bind (dispatchGenerate_start chunk cmd) fun _ ph hph => ?_
  have hclear : Obeys (flightMove i .engine) (step (M := M) (.setInflight none)) ph
      fun _ ph => ph = .spent := by
    refine fun _ => ⟨.spent, ?_, rfl⟩
    rcases hph with rfl | rfl | rfl | rfl <;> rfl
  refine obeys_bind hclear fun _ ph hph => ?_
  subst hph
  exact fun _ => ⟨.idle, by simp [flightMove], rfl⟩

theorem handleGenerate_aside {j : StreamId} (hj : j ≠ i) (chunk : Nat)
    (cmd : GenerateCmd M.Real) :
    Obeys (flightMove i .engine) (handleGenerate chunk j cmd) .idle fun _ ph => ph = .idle := by
  refine obeys_bind (step_flies fun _ => rfl) fun _ ph hph => ?_
  subst hph
  have hdispatch : Obeys (flightMove i .engine) (dispatchGenerate chunk j cmd) .idle
      fun _ ph => ph = .idle := by
    refine obeys_bind (step_flies fun _ => rfl) fun st ph hph => ?_
    subst hph
    split
    · exact onStream_aside hj _ _
    · refine obeys_bind (step_flies fun _ => rfl) fun model ph hph => ?_
      subst hph
      split <;> exact onStream_aside hj _ _
  refine obeys_bind hdispatch fun _ ph hph => ?_
  subst hph
  refine obeys_bind (step_flies fun _ => rfl) fun _ ph hph => ?_
  subst hph
  exact step_flies fun _ => by simp [flightMove, hj]

theorem plain_flies {α : Type} {p : Eng M α} (h : Uses Plain p) (ph : FlightPhase) :
    Obeys (flightMove i t) p ph fun _ ph' => ph' = ph := by
  refine obeys_uses h fun op hop r => ?_
  cases hop <;> rfl

theorem engineTurn_lands (chunk : Nat) :
    Obeys (flightMove i .engine) (engineTurn (M := M) chunk) .idle fun _ ph => Landed ph := by
  refine obeys_bind (step_flies fun _ => rfl) fun shutdown ph hph => ?_
  subst hph
  cases shutdown with
  | true => exact drain_exit_lands
  | false =>
    intro cmd
    cases cmd with
    | none => exact ⟨.idle, rfl, .inl rfl⟩
    | some cmd =>
      cases cmd with
      | generate j cmd =>
        by_cases hj : j = i
        · subst hj
          exact ⟨.held, by simp [flightMove, isGenerate],
            obeys_mono (handleGenerate_flies chunk cmd) fun _ _ h => .inl h⟩
        · exact ⟨.idle, by simp [flightMove, isGenerate, hj],
            obeys_mono (handleGenerate_aside hj chunk cmd) fun _ _ h => .inl h⟩
      | embed => exact ⟨.idle, rfl, .inl rfl⟩
      | load accepted path =>
        exact ⟨.idle, rfl, obeys_mono (plain_flies (handleLoad_plain path) .idle)
          fun _ _ h => .inl h⟩
      | unload =>
        exact ⟨.idle, rfl, obeys_mono (plain_flies handleUnload_plain .idle) fun _ _ h => .inl h⟩
      | reclaim j =>
        exact ⟨.idle, rfl, obeys_mono (step_flies fun _ => rfl) fun _ _ h => .inl h⟩
      | stop => exact ⟨.idle, rfl, drain_exit_lands⟩

theorem post_flies (cmd : Cmd M.Real) : Obeys (flightMove i t)
    (step (.submit cmd) >>= fun _ => enginePost cmd) .idle fun _ ph => ph = .idle := by
  by_cases hcmd : isGenerate i cmd = true
  · have hsubmit : Obeys (flightMove i t) (step (.submit cmd)) .idle fun _ ph => ph = .held :=
      fun _ => ⟨.held, by simp [flightMove, hcmd], rfl⟩
    refine obeys_bind hsubmit fun _ ph hph => ?_
    subst hph
    refine obeys_bind (step_flies fun _ => rfl) fun shutdown ph hph => ?_
    subst hph
    cases shutdown with
    | true => exact cmdCancel_held hcmd
    | false =>
      intro accepted
      cases accepted with
      | true => exact ⟨.idle, by simp [flightMove, hcmd], rfl⟩
      | false => exact ⟨.held, by simp [flightMove, hcmd], cmdCancel_held hcmd⟩
  · rw [Bool.not_eq_true] at hcmd
    refine obeys_bind (step_flies fun _ => by simp [flightMove, hcmd]) fun _ ph hph => ?_
    subst hph
    refine obeys_bind (step_flies fun _ => rfl) fun shutdown ph hph => ?_
    subst hph
    cases shutdown with
    | true => exact cmdCancel_aside hcmd .idle
    | false =>
      refine obeys_bind (step_flies fun _ => by simp [flightMove, hcmd]) fun accepted ph hph => ?_
      subst hph
      cases accepted with
      | true => rfl
      | false => exact cmdCancel_aside hcmd .idle

theorem clientCall_lands {p : Eng M Unit} (h : ClientCall p) :
    Obeys (flightMove i t) p .idle fun _ ph => Landed ph := by
  cases h with
  | post cmd _ => exact obeys_mono (post_flies cmd) fun _ _ h => .inl h
  | postLoad path => exact obeys_bind (plain_flies (postLoad_plain path) .idle) fun _ _ h => .inl h
  | waitLoad cancel timeout =>
    exact obeys_bind (plain_flies (waitLoad_plain cancel timeout) .idle) fun _ _ h => .inl h
  | signalShutdown => exact obeys_mono (plain_flies signalShutdown_plain .idle) fun _ _ h => .inl h
  | destroy =>
    refine obeys_bind (plain_flies signalShutdown_plain .idle) fun _ ph hph => ?_
    subst hph
    refine obeys_bind (step_flies fun _ => rfl) fun _ ph hph => ?_
    subst hph
    refine obeys_bind drain_lands fun _ ph hph => ?_
    exact obeys_mono (plain_flies handleUnload_plain ph) fun _ _ h => h ▸ hph
  | streamNext j forever => exact fun _ => ⟨.idle, rfl, .inl rfl⟩
  | streamCancel j => exact fun _ => ⟨.idle, rfl, .inl rfl⟩

end Programs

end Mlxd.Engine
