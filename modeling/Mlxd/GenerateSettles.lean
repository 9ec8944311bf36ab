import Mlxd.Generate

/-!
# The generate path settles its stream

Whatever the stream, the flags and MLX answer, the generate path writes one terminal chunk
and no chunk after it. The one way out is a failing request whose chunks the stream refuses
while the engine is not shutting down.
-/
namespace Mlxd.Engine

open Mlxd.Lib Program

variable {M : Mlx}

/-- Where a thread stands with the generate command of one stream. -/
inductive Phase where
  /-- The thread does not have the command. -/
  | idle
  /-- It has it, and no terminal chunk has been written. -/
  | owed
  /-- It has it, and the terminal chunk has been written. -/
  | paid
  /-- A failing request has ended without one. -/
  | lost
  deriving DecidableEq, Repr

/-- The moves of the thread that has the command, on the command's stream. -/
def genMove : Phase → (op : GenOp M) → GenAns op → Option Phase
  | .lost, _, _ => some .lost
  | .idle, _, _ => none
  | .owed, .push c, ok => some (if c.isDone && ok then .paid else .owed)
  | .owed, .finishCancelled, _ => some .paid
  | .owed, .loadShutdown true, shutdown => some (if shutdown then .owed else .lost)
  | .owed, _, _ => some .owed
  | .paid, .push _, _ => none
  | .paid, .finishCancelled, _ => none
  | .paid, _, _ => some .paid

/-- The terminal chunk is written, or the request is lost. -/
def Settled (ph : Phase) : Prop := ph = .paid ∨ ph = .lost

/-- A result obtained with the terminal chunk still owed. -/
abbrev Owes {α : Type} (p : Gen M α) : Prop := Obeys genMove p .owed fun _ ph => ph = .owed

/-- A program that settles the request. -/
abbrev Settles {α : Type} (p : Gen M α) : Prop := Obeys genMove p .owed fun _ ph => Settled ph

theorem lost_obeys {α : Type} (p : Gen M α) : Obeys genMove p .lost fun _ ph => ph = .lost := by
  induction p with
  | done a => rfl
  | ask op next ih => exact fun r => ⟨.lost, rfl, ih r⟩

theorem streamPush_owed (c : Chunk M.Real) : Obeys genMove (streamPushP c) .owed
    fun ok ph => ph = if c.isDone && ok then .paid else .owed := by
  have hpush : Obeys genMove (call (.push c)) .owed
      fun ok ph => ph = if c.isDone && ok then .paid else .owed := fun ok => ⟨_, rfl, rfl⟩
  refine obeys_bind hpush fun ok ph hph => ?_
  cases ok with
  | false => exact hph
  | true =>
    have hnotify : genMove (M := M) ph .notify () = some ph := by
      subst hph
      cases c.isDone <;> rfl
    exact fun _ => ⟨ph, hnotify, hph⟩

theorem finishCancelled_owed :
    Obeys genMove (streamFinishCancelledP (M := M)) .owed fun _ ph => ph = .paid :=
  fun _ => ⟨.paid, rfl, fun _ => ⟨.paid, rfl, rfl⟩⟩

/-- A push of a chunk other than the terminal one leaves the debt as it is. -/
theorem streamPush_owes {c : Chunk M.Real} (hc : c.isDone = false) : Owes (streamPushP c) :=
  obeys_mono (streamPush_owed c) fun ok ph hph => by rw [hph, hc]; rfl

theorem finishWith_settles (reason : FinishReason) : Settles (finishWith (M := M) reason) := by
  refine obeys_bind (streamPush_owed (.done reason)) fun ok ph hph => ?_
  cases ok with
  | true => exact .inl hph
  | false =>
    obtain rfl : ph = .owed := hph
    exact obeys_mono finishCancelled_owed fun _ _ h => .inl h

theorem generateFail_settles (message : String) (kind : GenErrKind) :
    Settles (generateFail (M := M) message kind) := by
  refine obeys_bind (streamPush_owes rfl) fun pushed ph hph => ?_
  subst hph
  have hdone : Obeys genMove (if pushed = true then streamPushP (M := M) (.done .stop)
      else pure false) .owed fun ok ph => ph = if ok then .paid else .owed := by
    cases pushed with
    | false => rfl
    | true => exact streamPush_owed (.done .stop)
  refine obeys_bind hdone fun ok ph hph => ?_
  cases ok with
  | true => exact .inl hph
  | false =>
    obtain rfl : ph = .owed := hph
    intro shutdown
    cases shutdown with
    | true => exact ⟨.owed, rfl, obeys_mono finishCancelled_owed fun _ _ h => .inl h⟩
    | false => exact ⟨.lost, rfl, .inr rfl⟩

theorem finishCancelled_settles : Settles (streamFinishCancelledP (M := M)) :=
  obeys_mono finishCancelled_owed fun _ _ h => .inl h

/-- An effect that is neither a push, a terminal chunk nor a failing check. -/
theorem call_owes {op : GenOp M} (h : ∀ r, genMove .owed op r = some .owed) : Owes (call op) :=
  obeys_quiet h

theorem pollStop_owes : Owes (pollStop (M := M)) := by
  refine obeys_bind (call_owes fun _ => rfl) fun shutdown ph hph => ?_
  subst hph
  cases shutdown with
  | true => rfl
  | false => exact call_owes fun _ => rfl

theorem pollHookPoll_owes {hook : Gen M Unit} (h : Owes hook) : Owes (pollHookPoll hook) := by
  refine obeys_bind pollStop_owes fun stop ph hph => ?_
  subst hph
  cases stop with
  | true => rfl
  | false =>
    refine obeys_bind h fun _ ph hph => ?_
    subst hph
    exact pollStop_owes

/-! ## The echo path -/

/-- A step that either goes on with the debt or has settled it. -/
abbrev Continues (p : Gen M Bool) : Prop :=
  Obeys genMove p .owed fun goOn ph => if goOn then ph = .owed else Settled ph

theorem settle_false {p : Gen M Unit} (h : Settles p) :
    Continues (p >>= fun _ => pure false) :=
  obeys_bind h fun _ _ hph => hph

theorem stubLoop_continues (wantLp : Bool) (i : Nat) (ids : List Int) :
    Continues (stubLoop (M := M) wantLp i ids) := by
  induction ids generalizing i with
  | nil => rfl
  | cons id rest ih =>
    refine obeys_bind (call_owes fun _ => rfl) fun shutdown ph hph => ?_
    subst hph
    cases shutdown with
    | true => exact settle_false finishCancelled_settles
    | false =>
      refine obeys_bind (streamPush_owes rfl) fun ok ph hph => ?_
      subst hph
      cases ok with
      | true => exact ih (i + 1)
      | false => exact settle_false finishCancelled_settles

theorem handleGenerateStub_settles (cmd : GenerateCmd M.Real) :
    Settles (handleGenerateStub cmd) := by
  refine obeys_bind (stubLoop_continues _ 0 _) fun goOn ph hph => ?_
  cases goOn with
  | false => exact hph
  | true =>
    obtain rfl : ph = .owed := hph
    exact finishWith_settles _

/-! ## The real path -/

theorem prefillLoop_continues (chunk : Nat) (ids : List Int) (stop fuel pos : Nat) :
    Continues (prefillLoop (M := M) chunk ids stop fuel pos) := by
  induction fuel generalizing pos with
  | zero => rfl
  | succ fuel ih =>
    rw [prefillLoop]
    split
    · refine obeys_bind (pollHookPoll_owes (call_owes fun _ => rfl)) fun stopped ph hph => ?_
      subst hph
      cases stopped with
      | true => exact settle_false finishCancelled_settles
      | false =>
        refine obeys_bind (call_owes fun _ => rfl) fun fed ph hph => ?_
        subst hph
        cases fed with
        | true =>
          refine obeys_bind (call_owes fun _ => rfl) fun _ ph hph => ?_
          subst hph
          exact ih _
        | false => exact settle_false (generateFail_settles _ _)
    · rfl

theorem seedLogits_continues (ids : List Int) : Obeys genMove (seedLogits (M := M) ids) .owed
    fun seed ph => if seed.isSome then ph = .owed else Settled ph := by
  refine obeys_bind (pollHookPoll_owes (call_owes fun _ => rfl)) fun stopped ph hph => ?_
  subst hph
  cases stopped with
  | true => exact obeys_bind finishCancelled_settles fun _ _ hph => hph
  | false =>
    refine obeys_bind (call_owes fun _ => rfl) fun seed ph hph => ?_
    subst hph
    cases seed with
    | none => exact obeys_bind (generateFail_settles _ _) fun _ _ hph => hph
    | some logits => rfl

theorem sampleCurrent_owes (sp : SamplingParams M.Real) (wantLp : Bool) (pending : M.Logits) :
    Owes (sampleCurrent sp wantLp pending) := by
  refine obeys_bind (call_owes fun _ => rfl) fun subkey ph hph => ?_
  subst hph
  cases subkey with
  | none => rfl
  | some subkey =>
    refine obeys_bind (call_owes fun _ => rfl) fun sampled ph hph => ?_
    subst hph
    cases sampled <;> rfl

/-- Next logits are launched exactly when more tokens are wanted. -/
theorem launchNext_owes (wantLp more : Bool) (token : M.Token) (lp : M.Logprob) :
    Obeys genMove (launchNext wantLp more token lp) .owed
      fun r ph => ph = .owed ∧ ∀ next, r = .ok next → next.isSome = more := by
  cases more with
  | true =>
    refine obeys_bind (call_owes fun _ => rfl) fun ids ph hph => ?_
    subst hph
    cases ids with
    | none => exact ⟨rfl, by simp⟩
    | some ids =>
      refine obeys_bind (call_owes fun _ => rfl) fun next ph hph => ?_
      subst hph
      cases next with
      | none => exact ⟨rfl, by simp⟩
      | some next =>
        refine obeys_bind (call_owes fun _ => rfl) fun launched ph hph => ?_
        subst hph
        cases launched with
        | true => exact ⟨rfl, by rintro _ ⟨⟩; rfl⟩
        | false => exact ⟨rfl, by simp⟩
  | false =>
    refine obeys_bind (call_owes fun _ => rfl) fun launched ph hph => ?_
    subst hph
    cases launched with
    | true => exact ⟨rfl, by rintro _ ⟨⟩; rfl⟩
    | false => exact ⟨rfl, by simp⟩

theorem materialize_owes (wantLp : Bool) (token : M.Token) (lp : M.Logprob) :
    Owes (materialize wantLp token lp) := by
  refine obeys_bind (call_owes fun _ => rfl) fun id ph hph => ?_
  subst hph
  cases id with
  | none => rfl
  | some id =>
    cases wantLp with
    | false => rfl
    | true =>
      refine obeys_bind (call_owes fun _ => rfl) fun value ph hph => ?_
      subst hph
      cases value <;> rfl

theorem decodeToken_owes (sp : SamplingParams M.Real) (wantLp more : Bool) (pending : M.Logits) :
    Obeys genMove (decodeToken sp wantLp more pending) .owed
      fun r ph => ph = .owed ∧ ∀ id value next, r = .ok (id, value, next) → next.isSome = more := by
  refine obeys_bind (sampleCurrent_owes sp wantLp pending) fun sampled ph hph => ?_
  subst hph
  cases sampled with
  | error message => exact ⟨rfl, by simp⟩
  | ok sampled =>
    refine obeys_bind (launchNext_owes wantLp more _ _) fun next ph hph => ?_
    obtain ⟨rfl, hnext⟩ := hph
    cases next with
    | error message => exact ⟨rfl, by simp⟩
    | ok next =>
      refine obeys_bind (materialize_owes wantLp _ _) fun token ph hph => ?_
      subst hph
      cases token with
      | error message => exact ⟨rfl, by simp⟩
      | ok token => exact ⟨rfl, by rintro _ _ _ ⟨⟩; exact hnext next rfl⟩

theorem emitToken_settles (cfg : ModelConfig M.Real) {maxNew : Int} {emitted : Nat} (id : Int)
    (value : M.Real) {next : Option M.Logits} {goOn : M.Logits → Gen M Unit}
    (hnext : (emitted + 1 : Int) ≠ maxNew → next.isSome)
    (hgoOn : (emitted + 1 : Int) ≠ maxNew → ∀ logits, Settles (goOn logits)) :
    Settles (emitToken cfg maxNew emitted id value next goOn) := by
  rw [emitToken.eq_def]
  split
  · exact finishWith_settles _
  · refine obeys_bind (streamPush_owes rfl) fun ok ph hph => ?_
    subst hph
    cases ok with
    | false => exact finishCancelled_settles
    | true =>
      rw [if_pos rfl]
      split
      · exact finishWith_settles _
      · rename_i hne
        obtain ⟨logits, rfl⟩ := Option.isSome_iff_exists.mp (hnext hne)
        have hclear : Owes (if (emitted + 1) % 256 = 0 then call .clearCache else pure () : Gen M Unit) := by
          split
          · exact call_owes fun _ => rfl
          · rfl
        refine obeys_bind hclear fun _ ph hph => ?_
        subst hph
        exact hgoOn hne logits

theorem decodeLoop_settles (cfg : ModelConfig M.Real) (sp : SamplingParams M.Real) (wantLp : Bool)
    {maxNew : Int} (fuel emitted : Nat) (pending : M.Logits) (hlt : (emitted : Int) < maxNew)
    (hfuel : maxNew ≤ emitted + fuel) :
    Settles (decodeLoop cfg sp wantLp maxNew fuel emitted pending) := by
  induction fuel generalizing emitted pending with
  | zero => omega
  | succ fuel ih =>
    rw [decodeLoop, if_pos hlt]
    refine obeys_bind (pollHookPoll_owes (call_owes fun _ => rfl)) fun stopped ph hph => ?_
    subst hph
    cases stopped with
    | true => exact finishCancelled_settles
    | false =>
      refine obeys_bind (decodeToken_owes sp wantLp _ pending) fun token ph hph => ?_
      obtain ⟨rfl, hnext⟩ := hph
      cases token with
      | error message => exact generateFail_settles _ _
      | ok token =>
        obtain ⟨id, value, next⟩ := token
        refine emitToken_settles cfg id value (fun hne => ?_) fun hne logits => ?_
        · rw [hnext id value next rfl, decide_eq_true_iff]
          omega
        · exact ih (emitted + 1) logits (by push_cast; omega) (by push_cast; omega)

theorem generateBody_settles (chunk : Nat) (cfg : ModelConfig M.Real)
    (cmd : GenerateCmd M.Real) : Settles (generateBody chunk cfg cmd) := by
  refine obeys_bind (call_owes fun _ => rfl) fun keyed ph hph => ?_
  subst hph
  cases keyed with
  | false => exact generateFail_settles _ _
  | true =>
    rw [if_neg (by decide)]
    split
    · exact generateFail_settles _ _
    · split
      · exact finishWith_settles _
      · rename_i hrun
        refine obeys_bind (call_owes fun _ => rfl) fun cached ph hph => ?_
        subst hph
        cases cached with
        | false => exact generateFail_settles _ _
        | true =>
          rw [if_neg (by decide)]
          refine obeys_bind (prefillLoop_continues _ _ _ _ _) fun goOn ph hph => ?_
          cases goOn with
          | false => exact hph
          | true =>
            obtain rfl : ph = .owed := hph
            refine obeys_bind (seedLogits_continues _) fun seed ph hph => ?_
            cases seed with
            | none => exact hph
            | some pending =>
              obtain rfl : ph = .owed := hph
              exact decodeLoop_settles cfg _ _ _ 0 pending (by omega) (by omega)

/-- Every path through the request settles it. -/
theorem handleGenerateReal_settles (chunk : Nat) (cfg : ModelConfig M.Real)
    (cmd : GenerateCmd M.Real) : Settles (handleGenerateReal chunk cfg cmd) := by
  refine obeys_bind (generateBody_settles chunk cfg cmd) fun _ ph hph => ?_
  rcases hph with rfl | rfl
  · exact obeys_mono (obeys_quiet fun _ => rfl) fun _ _ h => .inl h
  · exact obeys_mono (lost_obeys _) fun _ _ h => .inr h

end Mlxd.Engine
