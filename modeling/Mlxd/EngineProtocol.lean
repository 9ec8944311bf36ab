import Mlxd.Engine
import Mlxd.GenerateSettles

/-!
# Who has a generate command

Every generate command is in one place at a time: with its poster, in the mailbox, with the
thread that handles or cancels it, or given back. Whoever has it owes its stream one terminal
chunk and gives it back only after writing that.
-/
namespace Mlxd.Engine

open Mlxd.Lib Program

variable {M : Mlx} (i : StreamId)

/-- The generate command of stream `i`. -/
def isGenerate {F : Type} : Cmd F → Bool
  | .generate j _ => j == i
  | _ => false

/-- How a step moves a thread that has not lost the command of stream `i`. -/
@[simp] def liveMove (ph : Phase) : (op : EngOp M) → EngAns op → Option Phase
  | .gen j op, r => if j = i then genMove ph op r else some ph
  | .release j .command, _ => if j = i then if ph = .paid then some .idle else none else some ph
  | .submit cmd, _ =>
    if isGenerate i cmd then if ph = .idle then some .owed else none else some ph
  | .enqueue cmd, ok =>
    if isGenerate i cmd then if ph = .owed then some (if ok then .idle else .owed) else none
    else some ph
  | .dequeue, cmd =>
    if cmd.any (isGenerate i) then if ph = .idle then some .owed else none else some ph
  | .drainAll, cmds =>
    match cmds.countP (isGenerate i) with
    | 0 => some ph
    | 1 => if ph = .idle then some .owed else none
    | _ => some .lost
  | _, _ => some ph

@[simp] def move (ph : Phase) (op : EngOp M) (r : EngAns op) : Option Phase :=
  if ph = .lost then some .lost else liveMove i ph op r

/-- A thread that has ended does not have the command. -/
def Ended (ph : Phase) : Prop := ph = .idle ∨ ph = .lost

/-! ## Programs that concern no command -/

/-- Effects on the load state, the model and the flags, and what consumers do. -/
inductive Plain : EngOp M → Prop
  | loadShutdown : Plain .loadShutdown
  | storeShutdown : Plain .storeShutdown
  | cancelInflight : Plain .cancelInflight
  | loadLoadState : Plain .loadLoadState
  | setLoadState (st : LoadState) : Plain (.setLoadState st)
  | setLoadError (message : String) : Plain (.setLoadError message)
  | readModel : Plain .readModel
  | setModel (model : Resident M.Real) : Plain (.setModel model)
  | setLoadedModel (path : Option String) : Plain (.setLoadedModel path)
  | engineModelLoad (path : String) : Plain (.engineModelLoad path)
  | lockForLoad : Plain .lockForLoad
  | announceLoad : Plain .announceLoad
  | enqueueLoad (path : Option String) : Plain (.enqueueLoad path)
  | exitThread : Plain .exitThread
  | joinEngine : Plain .joinEngine
  | streamNext (j : StreamId) (forever : Bool) : Plain (.streamNext j forever)
  | streamCancel (j : StreamId) : Plain (.streamCancel j)

theorem handleLoad_plain (path : Option String) : Uses Plain (handleLoad (M := M) path) := by
  refine ⟨.setLoadState _, fun _ => ⟨.setLoadError _, fun _ => ⟨.setModel _, fun _ => ?_⟩⟩⟩
  refine uses_bind (p := .done _) trivial fun _ => ?_
  have hload : Uses Plain (loadModel (M := M) path) := by
    cases path with
    | none => trivial
    | some path => exact uses_perform (.engineModelLoad path)
  split
  · exact ⟨.setLoadedModel _, fun _ => ⟨.setModel _, fun _ => uses_perform (.setLoadState _)⟩⟩
  · refine uses_bind hload fun loaded => ?_
    cases loaded with
    | error message =>
      exact ⟨.setLoadError _, fun _ => ⟨.setLoadedModel _, fun _ => ⟨.setModel _, fun _ =>
        uses_perform (.setLoadState _)⟩⟩⟩
    | ok cfg =>
      exact ⟨.setModel _, fun _ => ⟨.setLoadedModel _, fun _ => uses_perform (.setLoadState _)⟩⟩

theorem handleUnload_plain : Uses Plain (handleUnload (M := M)) :=
  ⟨.setModel _, fun _ => ⟨.setLoadedModel _, fun _ => ⟨.setLoadError _, fun _ =>
    uses_perform (.setLoadState _)⟩⟩⟩

theorem postLoad_plain (path : Option String) : Uses Plain (enginePostLoad (M := M) path) := by
  refine ⟨.loadShutdown, fun shutdown => ?_⟩
  cases shutdown with
  | true => trivial
  | false =>
    refine ⟨.lockForLoad, fun accepted => ?_⟩
    cases accepted with
    | true =>
      exact ⟨.setLoadError _, fun _ => ⟨.announceLoad, fun _ => ⟨.enqueueLoad _, fun _ => trivial⟩⟩⟩
    | false => trivial

theorem waitLoad_plain (cancel : Nat → Bool) (timeout : Nat) :
    Uses Plain (engineWaitLoadUntil (M := M) cancel timeout) := by
  induction timeout with
  | zero => exact ⟨.loadLoadState, fun _ => trivial⟩
  | succ timeout ih =>
    rw [engineWaitLoadUntil]
    split
    · trivial
    · refine uses_bind (uses_perform .loadLoadState) fun st => ?_
      cases waitResult st with
      | none => exact ih
      | some result => trivial

theorem signalShutdown_plain : Uses Plain (engineSignalShutdown (M := M)) :=
  ⟨.storeShutdown, fun _ => uses_perform .cancelInflight⟩

/-! ## The programs -/

section Programs

variable {i}

theorem plain_obeys {α : Type} {p : Eng M α} (h : Uses Plain p) (ph : Phase) :
    Obeys (move i) p ph fun _ ph' => ph' = ph := by
  refine obeys_uses h fun op hop r => ?_
  cases hop <;> cases ph <;> rfl

theorem onStream_obeys {α : Type} {p : Gen M α} {ph : Phase} {post : α → Phase → Prop}
    (h : Obeys genMove p ph post) : Obeys (move i) (onStream i p) ph post := by
  refine obeys_embed (fun ph op r => ?_) h
  cases ph <;> simp [move, liveMove, genMove]

theorem lost_move {α : Type} (p : Eng M α) : Obeys (move i) p .lost fun _ ph => ph = .lost := by
  induction p with
  | done a => rfl
  | ask op next ih => exact fun r => ⟨.lost, rfl, ih r⟩

/-- The generate path of another stream. -/
theorem onStream_other {α : Type} {j : StreamId} (hj : j ≠ i) (p : Gen M α) (ph : Phase) :
    Obeys (move i) (onStream j p) ph fun _ ph' => ph' = ph := by
  induction p with
  | done a => rfl
  | ask op next ih => exact fun r => ⟨ph, by cases ph <;> simp [move, liveMove, hj], ih r⟩

theorem step_obeys {op : EngOp M} {ph : Phase} (h : ∀ r, move i ph op r = some ph) :
    Obeys (move i) (step op) ph fun _ ph' => ph' = ph := obeys_quiet h

theorem cmdCancel_self {cmd : Cmd M.Real} (h : isGenerate i cmd = true) :
    Obeys (move i) (cmdCancel cmd) .owed fun _ ph => ph = .idle := by
  cases cmd with
  | generate j cmd =>
    obtain rfl : j = i := by simpa [isGenerate] using h
    refine obeys_bind (onStream_obeys finishCancelled_owed) fun _ ph hph => ?_
    subst hph
    exact fun _ => ⟨.idle, by simp [move, liveMove], rfl⟩
  | _ => simp [isGenerate] at h

theorem cmdCancel_other {cmd : Cmd M.Real} (h : isGenerate i cmd = false) (ph : Phase) :
    Obeys (move i) (cmdCancel cmd) ph fun _ ph' => ph' = ph := by
  cases cmd with
  | generate j cmd =>
    have hj : j ≠ i := by simpa [isGenerate] using h
    refine obeys_bind (onStream_other hj _ ph) fun _ ph' hph => ?_
    subst hph
    exact step_obeys fun _ => by cases ph' <;> simp [move, liveMove, hj]
  | reclaim j => exact step_obeys fun _ => by cases ph <;> rfl
  | _ => rfl

theorem cancelAll_other (cmds : List (Cmd M.Real)) (h : cmds.countP (isGenerate i) = 0)
    (ph : Phase) : Obeys (move i) (cancelAll cmds) ph fun _ ph' => ph' = ph := by
  induction cmds with
  | nil => rfl
  | cons cmd rest ih =>
    rw [List.countP_cons] at h
    have hcmd : isGenerate i cmd = false := by
      by_contra hc
      simp [hc] at h
    refine obeys_bind (cmdCancel_other hcmd ph) fun _ ph' hph => ?_
    subst hph
    exact ih (by omega)

theorem cancelAll_self (cmds : List (Cmd M.Real)) (h : cmds.countP (isGenerate i) = 1) :
    Obeys (move i) (cancelAll cmds) .owed fun _ ph => ph = .idle := by
  induction cmds with
  | nil => simp at h
  | cons cmd rest ih =>
    rw [List.countP_cons] at h
    by_cases hcmd : isGenerate i cmd = true
    · refine obeys_bind (cmdCancel_self hcmd) fun _ ph hph => ?_
      subst hph
      exact cancelAll_other rest (by simpa [hcmd] using h) .idle
    · rw [Bool.not_eq_true] at hcmd
      refine obeys_bind (cmdCancel_other hcmd .owed) fun _ ph hph => ?_
      subst hph
      exact ih (by simpa [hcmd] using h)

theorem drain_ends : Obeys (move i) (mailboxDrainCancel (M := M)) .idle fun _ ph => Ended ph := by
  intro cmds
  match hcount : cmds.countP (isGenerate i) with
  | 0 => exact ⟨.idle, by simp [move, liveMove, hcount],
      obeys_mono (cancelAll_other cmds hcount .idle) fun _ _ h => .inl h⟩
  | 1 => exact ⟨.owed, by simp [move, liveMove, hcount],
      obeys_mono (cancelAll_self cmds hcount) fun _ _ h => .inl h⟩
  | n + 2 => exact ⟨.lost, by simp [move, liveMove, hcount], obeys_mono (lost_move _) fun _ _ h => .inr h⟩

/-- After the drain the engine thread only marks its exit. -/
theorem quiet_ends {op : EngOp M} {ph : Phase} (hph : Ended ph)
    (h : ∀ r, move i .idle op r = some .idle) :
    Obeys (move i) (step op) ph fun _ ph => Ended ph := by
  rcases hph with rfl | rfl
  · exact obeys_mono (step_obeys h) fun _ _ h => .inl h
  · exact obeys_mono (lost_move _) fun _ _ h => .inr h

theorem drain_exit_ends : Obeys (move i)
    (mailboxDrainCancel >>= fun _ => step (M := M) .exitThread) .idle fun _ ph => Ended ph :=
  obeys_bind drain_ends fun _ _ hph => quiet_ends hph fun _ => rfl

theorem dispatchGenerate_settles (chunk : Nat) (cmd : GenerateCmd M.Real) :
    Obeys (move i) (dispatchGenerate chunk i cmd) .owed fun _ ph => Settled ph := by
  refine obeys_bind (step_obeys fun _ => rfl) fun st ph hph => ?_
  subst hph
  split
  · exact onStream_obeys (generateFail_settles _ _)
  · refine obeys_bind (step_obeys fun _ => rfl) fun model ph hph => ?_
    subst hph
    split
    · exact onStream_obeys (handleGenerateStub_settles cmd)
    · exact onStream_obeys (handleGenerateReal_settles chunk _ cmd)

theorem handleGenerate_self (chunk : Nat) (cmd : GenerateCmd M.Real) :
    Obeys (move i) (handleGenerate chunk i cmd) .owed fun _ ph => Ended ph := by
  refine obeys_bind (step_obeys fun _ => rfl) fun _ ph hph => ?_
  subst hph
  refine obeys_bind (dispatchGenerate_settles chunk cmd) fun _ ph hph => ?_
  rcases hph with rfl | rfl
  · refine obeys_bind (step_obeys fun _ => rfl) fun _ ph hph => ?_
    subst hph
    exact fun _ => ⟨.idle, by simp [move, liveMove], .inl rfl⟩
  · exact obeys_mono (lost_move _) fun _ _ h => .inr h

theorem handleGenerate_other {j : StreamId} (hj : j ≠ i) (chunk : Nat) (cmd : GenerateCmd M.Real) :
    Obeys (move i) (handleGenerate chunk j cmd) .idle fun _ ph => Ended ph := by
  refine obeys_bind (step_obeys fun _ => rfl) fun _ ph hph => ?_
  subst hph
  have hdispatch : Obeys (move i) (dispatchGenerate chunk j cmd) .idle fun _ ph => ph = .idle := by
    refine obeys_bind (step_obeys fun _ => rfl) fun st ph hph => ?_
    subst hph
    split
    · exact onStream_other hj _ _
    · refine obeys_bind (step_obeys fun _ => rfl) fun model ph hph => ?_
      subst hph
      split <;> exact onStream_other hj _ _
  refine obeys_bind hdispatch fun _ ph hph => ?_
  subst hph
  refine obeys_bind (step_obeys fun _ => rfl) fun _ ph hph => ?_
  subst hph
  exact obeys_mono (step_obeys fun _ => by simp [move, liveMove, hj]) fun _ _ h => .inl h

/-- One turn of the engine thread takes a command and gives it back settled. -/
theorem engineTurn_ends (chunk : Nat) :
    Obeys (move i) (engineTurn (M := M) chunk) .idle fun _ ph => Ended ph := by
  refine obeys_bind (step_obeys fun _ => rfl) fun shutdown ph hph => ?_
  subst hph
  cases shutdown with
  | true => exact drain_exit_ends
  | false =>
    intro cmd
    cases cmd with
    | none => exact ⟨.idle, rfl, .inl rfl⟩
    | some cmd =>
      cases cmd with
      | generate j cmd =>
        by_cases hj : j = i
        · subst hj
          exact ⟨.owed, by simp [move, liveMove, isGenerate], handleGenerate_self chunk cmd⟩
        · exact ⟨.idle, by simp [move, liveMove, isGenerate, hj], handleGenerate_other hj chunk cmd⟩
      | embed => exact ⟨.idle, rfl, .inl rfl⟩
      | load accepted path =>
        exact ⟨.idle, rfl, obeys_mono (plain_obeys (handleLoad_plain path) .idle) fun _ _ h => .inl h⟩
      | unload => exact ⟨.idle, rfl, obeys_mono (plain_obeys handleUnload_plain .idle) fun _ _ h => .inl h⟩
      | reclaim j =>
        exact ⟨.idle, rfl, obeys_mono (step_obeys fun _ => rfl) fun _ _ h => .inl h⟩
      | stop => exact ⟨.idle, rfl, drain_exit_ends⟩

/-- A post of the command hands it to the mailbox or cancels it. -/
theorem post_ends (cmd : Cmd M.Real) : Obeys (move i)
    (step (.submit cmd) >>= fun _ => enginePost cmd) .idle fun _ ph => ph = .idle := by
  by_cases hcmd : isGenerate i cmd = true
  · have hsubmit : Obeys (move i) (step (.submit cmd)) .idle fun _ ph => ph = .owed :=
      fun _ => ⟨.owed, by simp [move, liveMove, hcmd], rfl⟩
    refine obeys_bind hsubmit fun _ ph hph => ?_
    subst hph
    refine obeys_bind (step_obeys fun _ => rfl) fun shutdown ph hph => ?_
    subst hph
    cases shutdown with
    | true => exact cmdCancel_self hcmd
    | false =>
      intro accepted
      cases accepted with
      | true => exact ⟨.idle, by simp [move, liveMove, hcmd], rfl⟩
      | false => exact ⟨.owed, by simp [move, liveMove, hcmd], cmdCancel_self hcmd⟩
  · rw [Bool.not_eq_true] at hcmd
    refine obeys_bind (step_obeys fun _ => by simp [move, liveMove, hcmd]) fun _ ph hph => ?_
    subst hph
    refine obeys_bind (step_obeys fun _ => rfl) fun shutdown ph hph => ?_
    subst hph
    cases shutdown with
    | true => exact cmdCancel_other hcmd .idle
    | false =>
      refine obeys_bind (step_obeys fun _ => by simp [move, liveMove, hcmd]) fun accepted ph hph => ?_
      subst hph
      cases accepted with
      | true => rfl
      | false => exact cmdCancel_other hcmd .idle

theorem clientCall_ends {p : Eng M Unit} (h : ClientCall p) :
    Obeys (move i) p .idle fun _ ph => Ended ph := by
  cases h with
  | post cmd => exact obeys_mono (post_ends cmd) fun _ _ h => .inl h
  | postLoad path => exact obeys_bind (plain_obeys (postLoad_plain path) .idle) fun _ _ h => .inl h
  | waitLoad cancel timeout =>
    exact obeys_bind (plain_obeys (waitLoad_plain cancel timeout) .idle) fun _ _ h => .inl h
  | signalShutdown => exact obeys_mono (plain_obeys signalShutdown_plain .idle) fun _ _ h => .inl h
  | destroy =>
    refine obeys_bind (plain_obeys signalShutdown_plain .idle) fun _ ph hph => ?_
    subst hph
    refine obeys_bind (step_obeys fun _ => rfl) fun _ ph hph => ?_
    subst hph
    refine obeys_bind drain_ends fun _ ph hph => ?_
    iterate 3
      refine obeys_bind (quiet_ends hph fun _ => rfl) fun _ ph hph => ?_
    exact quiet_ends hph fun _ => rfl
  | streamNext j forever => exact fun _ => ⟨.idle, rfl, .inl rfl⟩
  | streamCancel j => exact fun _ => ⟨.idle, rfl, .inl rfl⟩

end Programs

end Mlxd.Engine
