import Mlxd.EngineTerminal

/-!
# The load state

A load that `engine_post_load` has accepted is outstanding until the engine has stored its
outcome or has cancelled it; before it is appended it has been announced with
`LOAD_IN_PROGRESS`. While the outcome of one load is stored only with no other load outstanding
or announced, and the load error is cleared only away from a failure, an outstanding load is
reported as in progress and a failure has its error recorded.
-/
namespace Mlxd.Engine

open Mlxd.Lib Program

variable {M : Mlx}

/-- An accepted load waits in the mailbox or is being handled. -/
def Outstanding {F : Type} (s : Shared F) : Prop :=
  (∃ cmd ∈ s.mailbox, cmd.accepted = true) ∨ s.loading = true

structure Fresh {F : Type} (s : Shared F) : Prop where
  inProgress : Outstanding s ∨ s.posting = true → s.loadState = .inProgress
  recorded : s.loadState = .failed → s.loadError ≠ ""

/-- No accepted load is queued, and none is announced and still to be appended. -/
def NoneQueued {F : Type} (s : Shared F) : Prop :=
  (∀ cmd ∈ s.mailbox, cmd.accepted = false) ∧ s.posting = false

/-- A state other than `LOAD_IN_PROGRESS` is stored with no other accepted load outstanding or
announced; the load error is cleared away from a failure. -/
def FreshStep : EngOp M → Shared M.Real → Prop
  | .setLoadState .idle, s => NoneQueued s ∧ s.loading = false
  | .setLoadState .ok, s => NoneQueued s
  | .setLoadState .failed, s => NoneQueued s
  | .setLoadError message, s => message = "" → s.loadState ≠ .failed ∧ s.failing = false
  | _, _ => True

/-- Where a thread stands with a load. -/
inductive LoadPhase where
  | idle
  /-- The engine has taken a load. -/
  | handling
  /-- It has recorded the error of a load that failed. -/
  | recorded
  /-- A poster is in the section of `engine_post_load`. -/
  | locked
  /-- It has stored `LOAD_IN_PROGRESS` there. -/
  | announced
  deriving DecidableEq, Repr

def LoadPhase.inSection : LoadPhase → Bool
  | .locked | .announced => true
  | _ => false

def isLoad {F : Type} : Cmd F → Bool
  | .load _ _ => true
  | _ => false

def stateMove : LoadPhase → LoadState → Option LoadPhase
  | .idle, .idle => some .idle
  | .handling, .inProgress => some .handling
  | .handling, .ok => some .idle
  | .recorded, .failed => some .idle
  | _, _ => none

def errorMove (message : String) : LoadPhase → Option LoadPhase
  | .handling => some (if message = "" then .handling else .recorded)
  | .recorded => none
  | .announced => none
  | ph => if message = "" then some ph else none

@[simp] def loadMove (t : Tid) (ph : LoadPhase) : (op : EngOp M) → EngAns op → Option LoadPhase
  | .dequeue, cmd =>
    if ph = .idle ∧ t = .engine then some (if cmd.any isLoad then .handling else .idle) else none
  | .setLoadState st, _ => stateMove ph st
  | .setLoadError message, _ => errorMove message ph
  | .lockForLoad, accepted =>
    if ph = .idle then some (if accepted then .locked else .idle) else none
  | .announceLoad, _ => if ph = .locked then some .announced else none
  | .enqueueLoad _, _ => if ph = .announced then some .idle else none
  | .enqueue cmd, _ => if cmd.accepted then none else some ph
  | _, _ => some ph

/-- The load state fits the phases: only the engine handles a load, and one poster at a time is
in the section of `engine_post_load`. -/
structure Loads (s : Shared M.Real) (phase : Tid → LoadPhase) : Prop where
  fresh : Fresh s
  handling : ∀ t, phase t = .handling → t = .engine
  recorded : ∀ t, phase t = .recorded → t = .engine ∧ s.failing = true ∧ s.loadError ≠ ""
  announced : ∀ t, phase t = .announced → s.posting = true
  locked : ∀ t, (phase t).inSection = true → s.mailboxLocked = true
  locker : ∀ t u, (phase t).inSection = true → (phase u).inSection = true → t = u

/-! ## Steps -/

section Steps

variable {s s' : Shared M.Real} {t : Tid} {ph ph' : LoadPhase} {phase : Tid → LoadPhase}

/-- Nothing that concerns loads has changed, apart from accepted loads that are cancelled. -/
structure SameLoad (s s' : Shared M.Real) : Prop where
  state : s'.loadState = s.loadState
  error : s'.loadError = s.loadError
  loading : s'.loading = s.loading
  failing : s'.failing = s.failing
  posting : s'.posting = s.posting
  locked : s'.mailboxLocked = s.mailboxLocked
  mailbox : ∀ cmd ∈ s'.mailbox, cmd.accepted = true → cmd ∈ s.mailbox

theorem SameLoad.fresh (h : SameLoad s s') (hs : Fresh s) : Fresh s' := by
  constructor
  · intro hout
    rw [h.state]
    apply hs.inProgress
    rcases hout with (⟨cmd, hcmd, hacc⟩ | hloading) | hposting
    · exact .inl (.inl ⟨cmd, h.mailbox cmd hcmd hacc, hacc⟩)
    · exact .inl (.inr (h.loading ▸ hloading))
    · exact .inr (h.posting ▸ hposting)
  · rw [h.state, h.error]
    exact hs.recorded

theorem SameLoad.setStream {i : StreamId} {st : Stream M.Real} :
    SameLoad s (setStream s i st) := ⟨rfl, rfl, rfl, rfl, rfl, rfl, fun _ h _ => h⟩

theorem SameLoad.refl (s : Shared M.Real) : SameLoad s s :=
  ⟨rfl, rfl, rfl, rfl, rfl, rfl, fun _ h _ => h⟩

theorem execGen_sameLoad {i : StreamId} {op : GenOp M} {r : GenAns op} (h : execGen i op s r s') :
    SameLoad s s' := by
  cases op with
  | push c =>
    obtain ⟨st, -, rfl⟩ := h
    exact .setStream
  | finishCancelled => exact h ▸ .setStream
  | loadShutdown failing => exact h.2 ▸ .refl _
  | loadCancelled => exact h.2 ▸ .refl _
  | _ => exact h ▸ .refl _

/-- What a step does to the load state, and where its thread stands then. -/
inductive LoadMoves (t : Tid) (s : Shared M.Real) :
    LoadPhase → Shared M.Real → LoadPhase → Prop
  | same (ph : LoadPhase) {s' : Shared M.Real} (h : SameLoad s s') : LoadMoves t s ph s' ph
  | take (cmd : Cmd M.Real) (rest : List (Cmd M.Real)) (ht : t = .engine)
      (hmail : s.mailbox = cmd :: rest) :
      LoadMoves t s .idle { s with mailbox := rest, loading := cmd.accepted }
        (if isLoad cmd then .handling else .idle)
  | unload (hnone : NoneQueued s) (hloading : s.loading = false) :
      LoadMoves t s .idle (storeLoadState s .idle) .idle
  | begin : LoadMoves t s .handling (storeLoadState s .inProgress) .handling
  | loaded (hnone : NoneQueued s) : LoadMoves t s .handling (storeLoadState s .ok) .idle
  | failed (hnone : NoneQueued s) : LoadMoves t s .recorded (storeLoadState s .failed) .idle
  | clear (ph : LoadPhase) (hstate : s.loadState ≠ .failed) (hfailing : s.failing = false) :
      LoadMoves t s ph { s with loadError := "" } ph
  | record (message : String) (hmessage : message ≠ "") :
      LoadMoves t s .handling { s with loadError := message, failing := true } .recorded
  | lock (hfree : s.mailboxLocked = false) :
      LoadMoves t s .idle { s with mailboxLocked := true } .locked
  | announce :
      LoadMoves t s .locked { storeLoadState s .inProgress with posting := true } .announced
  | append (path : Option String) : LoadMoves t s .announced
      { s with mailbox := s.mailbox ++ [.load true path], mailboxLocked := false
               posting := false } .idle

theorem setLoadState_moves {st : LoadState} (hok : FreshStep (M := M) (.setLoadState st) s)
    (hmove : stateMove ph st = some ph') : LoadMoves t s ph (storeLoadState s st) ph' := by
  cases ph <;> cases st <;> simp only [stateMove, reduceCtorEq, Option.some.injEq] at hmove <;>
    subst hmove
  · exact .unload hok.1 hok.2
  · exact .begin
  · exact .loaded hok
  · exact .failed hok

theorem setLoadError_moves {message : String}
    (hok : FreshStep (M := M) (.setLoadError message) s)
    (hmove : errorMove message ph = some ph') :
    LoadMoves t s ph
      { s with loadError := message, failing := s.failing || message != "" } ph' := by
  by_cases hmessage : message = ""
  · subst hmessage
    obtain ⟨hstate, hfailing⟩ := hok rfl
    obtain rfl : ph' = ph := by
      cases ph <;> simp_all [errorMove]
    simpa using LoadMoves.clear (t := t) ph' hstate hfailing
  · cases ph <;> simp only [errorMove, hmessage, ↓reduceIte, reduceCtorEq, Option.some.injEq] at hmove
    subst hmove
    have hfailing : (s.failing || message != "") = true := by simp [hmessage]
    rw [hfailing]
    exact .record message hmessage

theorem exec_loadMoves {op : EngOp M} {r : EngAns op} (hok : FreshStep op s) (h : exec op s r s')
    (hmove : loadMove t ph op r = some ph') : LoadMoves t s ph s' ph' := by
  have same : loadMove t ph op r = some ph → SameLoad s s' → LoadMoves t s ph s' ph' := by
    intro hquiet hsame
    rw [hquiet, Option.some.injEq] at hmove
    exact hmove ▸ .same ph hsame
  cases op with
  | dequeue =>
    simp only [loadMove, Option.ite_none_right_eq_some, Option.some.injEq] at hmove
    obtain ⟨⟨rfl, ht⟩, rfl⟩ := hmove
    rcases dequeue_cases h.2 with ⟨rfl, rfl⟩ | ⟨cmd, rest, rfl, hmail, rfl⟩
    · exact .same .idle (.refl _)
    · exact .take cmd rest ht hmail
  | setLoadState st =>
    obtain rfl := h
    exact setLoadState_moves hok hmove
  | setLoadError message =>
    obtain rfl := h
    exact setLoadError_moves hok hmove
  | lockForLoad =>
    simp only [loadMove, Option.ite_none_right_eq_some, Option.some.injEq] at hmove
    obtain ⟨rfl, rfl⟩ := hmove
    obtain ⟨hfree, h⟩ := h
    split at h
    · obtain ⟨rfl, rfl⟩ := h
      exact .same .idle (.refl _)
    · obtain ⟨rfl, rfl⟩ := h
      exact .lock hfree
  | announceLoad =>
    simp only [loadMove, Option.ite_none_right_eq_some, Option.some.injEq] at hmove
    obtain ⟨rfl, rfl⟩ := hmove
    obtain rfl := h
    exact .announce
  | enqueueLoad path =>
    simp only [loadMove, Option.ite_none_right_eq_some, Option.some.injEq] at hmove
    obtain ⟨rfl, rfl⟩ := hmove
    obtain rfl := h
    exact .append path
  | gen i gop => exact same rfl (execGen_sameLoad h)
  | release i owner =>
    obtain rfl := h
    refine same rfl ?_
    cases owner <;> exact ⟨rfl, rfl, rfl, rfl, rfl, rfl, fun _ h _ => h⟩
  | setInflight j =>
    obtain ⟨-, rfl⟩ := h
    exact same rfl ⟨rfl, rfl, rfl, rfl, rfl, rfl, fun _ h _ => h⟩
  | cancelInflight =>
    obtain ⟨-, rfl⟩ := h
    refine same rfl ?_
    cases hin : s.inflight <;> exact ⟨rfl, rfl, rfl, rfl, rfl, rfl, fun _ h _ => h⟩
  | drainAll =>
    obtain ⟨-, -, rfl⟩ := h
    exact same rfl ⟨rfl, rfl, rfl, rfl, rfl, rfl, fun cmd h _ => absurd h (List.not_mem_nil)⟩
  | enqueue cmd =>
    obtain ⟨-, h⟩ := h
    have hcmd : cmd.accepted = false := by
      by_contra hacc
      rw [Bool.not_eq_false] at hacc
      simp [loadMove, hacc] at hmove
    refine same (by simp [loadMove, hcmd]) ?_
    split at h
    · exact h.2 ▸ .refl _
    · obtain ⟨-, rfl⟩ := h
      refine ⟨rfl, rfl, rfl, rfl, rfl, rfl, fun c hc hacc => ?_⟩
      rcases List.mem_append.mp hc with hc | hc
      · exact hc
      · rw [List.mem_singleton.mp hc, hcmd] at hacc
        contradiction
  | submit cmd =>
    refine same rfl ?_
    cases cmd with
    | generate j cmd =>
      simp only [exec, submitCmd] at h
      split at h
      · contradiction
      · exact Option.some.inj h ▸ ⟨rfl, rfl, rfl, rfl, rfl, rfl, fun _ h _ => h⟩
    | _ => exact Option.some.inj h ▸ .refl _
  | streamNext i forever =>
    obtain ⟨st, -, rfl⟩ := h
    exact same rfl .setStream
  | streamCancel i => exact same rfl (h ▸ .setStream)
  | loadShutdown => exact same rfl (h.2 ▸ .refl _)
  | loadLoadState => exact same rfl (h.2 ▸ .refl _)
  | readModel => exact same rfl (h.2 ▸ .refl _)
  | joinEngine => exact same rfl (h.2 ▸ .refl _)
  | _ =>
    obtain rfl := h
    exact same rfl ⟨rfl, rfl, rfl, rfl, rfl, rfl, fun _ h _ => h⟩

/-- Storing an outcome, or that there is no load, with no accepted load left. -/
theorem fresh_store {st : LoadState} (hst : st ≠ .inProgress) (hnone : NoneQueued s)
    (herr : st = .failed → s.loadError ≠ "") : Fresh (storeLoadState s st) := by
  refine ⟨fun hout => ?_, herr⟩
  rcases hout with (⟨cmd, hcmd, hacc⟩ | hloading) | hposting
  · have hacc' := hnone.1 cmd hcmd
    rw [hacc] at hacc'
    contradiction
  · simp [storeLoadState, hst] at hloading
  · rw [show (storeLoadState s st).posting = s.posting from rfl, hnone.2] at hposting
    contradiction

/-- A load is appended while it is announced, and nothing has been stored since. -/
theorem fresh_step (h : Loads s phase) (hmoves : LoadMoves t s (phase t) s' ph') : Fresh s' := by
  generalize hcur : phase t = cur at hmoves
  cases hmoves with
  | same ph hsame => exact hsame.fresh h.fresh
  | take cmd rest ht hmail =>
    refine ⟨fun hout => h.fresh.inProgress ?_, h.fresh.recorded⟩
    rcases hout with (⟨c, hc, hacc⟩ | hacc) | hposting
    · exact .inl (.inl ⟨c, by rw [hmail]; exact List.mem_cons_of_mem _ hc, hacc⟩)
    · exact .inl (.inl ⟨cmd, by rw [hmail]; exact List.mem_cons_self, hacc⟩)
    · exact .inr hposting
  | unload hnone hloading => exact fresh_store (by decide) hnone (by simp)
  | loaded hnone => exact fresh_store (by decide) hnone (by simp)
  | failed hnone => exact fresh_store (by decide) hnone fun _ => (h.recorded t hcur).2.2
  | begin => exact ⟨fun _ => rfl, fun h => by contradiction⟩
  | announce => exact ⟨fun _ => rfl, fun h => by contradiction⟩
  | clear ph hstate hfailing => exact ⟨h.fresh.inProgress, fun hfailed => absurd hfailed hstate⟩
  | record message hmessage => exact ⟨h.fresh.inProgress, fun _ => hmessage⟩
  | lock hfree => exact ⟨h.fresh.inProgress, h.fresh.recorded⟩
  | append path =>
    exact ⟨fun _ => h.fresh.inProgress (.inr (h.announced t hcur)), h.fresh.recorded⟩

section Fields

variable (h : Loads s phase) (hmoves : LoadMoves t s (phase t) s' ph')

include h hmoves

theorem loadHandling_step (u : Tid) (hu : Function.update phase t ph' u = .handling) :
    u = .engine := by
  have hhandling := h.handling
  generalize hcur : phase t = cur at hmoves
  cases hmoves <;> grind [Function.update_apply]

theorem recorded_step (u : Tid) (hu : Function.update phase t ph' u = .recorded) :
    u = .engine ∧ s'.failing = true ∧ s'.loadError ≠ "" := by
  have hhandling := h.handling
  have hrecorded := h.recorded
  generalize hcur : phase t = cur at hmoves
  cases hmoves with
  | same ph hsame => grind [Function.update_apply, hsame.failing, hsame.error]
  | _ => grind [Function.update_apply, storeLoadState]

theorem announced_step (u : Tid) (hu : Function.update phase t ph' u = .announced) :
    s'.posting = true := by
  have hannounced := h.announced
  have hlocker := h.locker
  generalize hcur : phase t = cur at hmoves
  cases hmoves with
  | same ph hsame => grind [Function.update_apply, hsame.posting]
  | _ => grind [Function.update_apply, storeLoadState, LoadPhase.inSection]

theorem section_step (u : Tid) (hu : (Function.update phase t ph' u).inSection = true) :
    s'.mailboxLocked = true := by
  by_cases hut : u = t
  · rw [hut, Function.update_self] at hu
    have hlocked := h.locked t
    generalize phase t = cur at hmoves hlocked
    cases hmoves with
    | same ph hsame => exact hsame.locked.trans (hlocked hu)
    | announce => exact hlocked rfl
    | clear ph _ _ => exact hlocked hu
    | lock _ => rfl
    | take cmd _ _ _ => cases hload : isLoad cmd <;> simp [hload, LoadPhase.inSection] at hu
    | _ => simp [LoadPhase.inSection] at hu
  · rw [Function.update_of_ne hut] at hu
    have hlocked := h.locked u hu
    have halone := h.locker u t hu
    generalize phase t = cur at hmoves halone
    cases hmoves with
    | same ph hsame => exact hsame.locked.trans hlocked
    | append path => exact absurd (halone rfl) hut
    | lock _ => rfl
    | _ => exact hlocked

omit h in
/-- Who is in the section has been, or has just locked the free mailbox. -/
theorem section_cases {u : Tid} (hu : (Function.update phase t ph' u).inSection = true) :
    (phase u).inSection = true ∨ u = t ∧ s.mailboxLocked = false := by
  by_cases hut : u = t
  · rw [hut, Function.update_self] at hu
    rw [hut]
    generalize phase t = cur at hmoves ⊢
    cases hmoves with
    | same ph _ => exact .inl hu
    | announce => exact .inl rfl
    | clear ph _ _ => exact .inl hu
    | lock hfree => exact .inr ⟨rfl, hfree⟩
    | take cmd _ _ _ => cases hload : isLoad cmd <;> simp [hload, LoadPhase.inSection] at hu
    | _ => simp [LoadPhase.inSection] at hu
  · rw [Function.update_of_ne hut] at hu
    exact .inl hu

theorem sectionAlone_step (u v : Tid) (hu : (Function.update phase t ph' u).inSection = true)
    (hv : (Function.update phase t ph' v).inSection = true) : u = v := by
  have hheld : ∀ w, s.mailboxLocked = false → (phase w).inSection ≠ true :=
    fun w hfree hw => absurd ((h.locked w hw).symm.trans hfree) (by decide)
  rcases section_cases hmoves hu with hu | ⟨hut, hfree⟩ <;>
    rcases section_cases hmoves hv with hv | ⟨hvt, hfree'⟩
  · exact h.locker u v hu hv
  · exact absurd hu (hheld u hfree')
  · exact absurd hv (hheld v hfree)
  · exact hut.trans hvt.symm

end Fields

theorem loads_step (h : Loads s phase) (hmoves : LoadMoves t s (phase t) s' ph') :
    Loads s' (Function.update phase t ph') where
  fresh := fresh_step h hmoves
  handling := loadHandling_step h hmoves
  recorded := recorded_step h hmoves
  announced := announced_step h hmoves
  locked := section_step h hmoves
  locker := sectionAlone_step h hmoves

end Steps

/-! ## The programs -/

section Programs

variable {t : Tid}

theorem step_loads {op : EngOp M} {ph : LoadPhase} (h : ∀ r, loadMove t ph op r = some ph) :
    Obeys (loadMove t) (step op) ph fun _ ph' => ph' = ph := obeys_quiet h

theorem onStream_loads {α : Type} (i : StreamId) (p : Gen M α) (ph : LoadPhase) :
    Obeys (loadMove t) (onStream i p) ph fun _ ph' => ph' = ph := by
  induction p with
  | done a => rfl
  | ask op next ih => exact fun r => ⟨ph, rfl, ih r⟩

theorem cmdCancel_loads (cmd : Cmd M.Real) :
    Obeys (loadMove t) (cmdCancel cmd) .idle fun _ ph => ph = .idle := by
  cases cmd with
  | generate i cmd =>
    refine obeys_bind (onStream_loads i _ _) fun _ ph hph => ?_
    subst hph
    exact step_loads fun _ => rfl
  | reclaim i => exact step_loads fun _ => rfl
  | _ => rfl

theorem drain_loads :
    Obeys (loadMove t) (mailboxDrainCancel (M := M)) .idle fun _ ph => ph = .idle := by
  have hcancel : ∀ cmds : List (Cmd M.Real),
      Obeys (loadMove t) (cancelAll cmds) .idle fun _ ph => ph = .idle := by
    intro cmds
    induction cmds with
    | nil => rfl
    | cons cmd rest ih =>
      refine obeys_bind (cmdCancel_loads cmd) fun _ ph hph => ?_
      subst hph
      exact ih
  exact fun cmds => ⟨.idle, rfl, hcancel cmds⟩

theorem drain_exit_loads : Obeys (loadMove t)
    (mailboxDrainCancel >>= fun _ => step (M := M) .exitThread) .idle fun _ ph => ph = .idle := by
  refine obeys_bind drain_loads fun _ ph hph => ?_
  subst hph
  exact step_loads fun _ => rfl

theorem handleGenerate_loads (chunk : Nat) (i : StreamId) (cmd : GenerateCmd M.Real) :
    Obeys (loadMove t) (handleGenerate chunk i cmd) .idle fun _ ph => ph = .idle := by
  refine obeys_bind (step_loads fun _ => rfl) fun _ ph hph => ?_
  subst hph
  have hdispatch : Obeys (loadMove t) (dispatchGenerate chunk i cmd) .idle
      fun _ ph => ph = .idle := by
    refine obeys_bind (step_loads fun _ => rfl) fun st ph hph => ?_
    subst hph
    split
    · exact onStream_loads i _ _
    · refine obeys_bind (step_loads fun _ => rfl) fun model ph hph => ?_
      subst hph
      split <;> exact onStream_loads i _ _
  refine obeys_bind hdispatch fun _ ph hph => ?_
  subst hph
  exact fun _ => ⟨.idle, rfl, step_loads fun _ => rfl⟩

/-- The engine stores the outcome of the load it has taken, and records the error first. -/
theorem handleLoad_loads (path : Option String) :
    Obeys (loadMove t) (handleLoad (M := M) path) .handling fun _ ph => ph = .idle := by
  iterate 3
    refine obeys_bind (step_loads fun _ => rfl) fun _ ph hph => ?_
    subst hph
  have hload : Obeys (loadMove t) (loadModel (M := M) path) .handling
      fun _ ph => ph = .handling := by
    cases path with
    | none => rfl
    | some path => exact step_loads fun _ => rfl
  split
  · exact fun _ => ⟨.handling, rfl, fun _ => ⟨.handling, rfl, fun _ => ⟨.idle, rfl, rfl⟩⟩⟩
  · refine obeys_bind hload fun loaded ph hph => ?_
    subst hph
    cases loaded with
    | error message =>
      have hmessage : (if message = "" then "failed to load model from " ++ path.getD "(null)"
          else message) ≠ "" := by
        split
        · intro h
          have := congrArg String.length h
          simp [String.length_append] at this
        · assumption
      exact fun _ => ⟨.recorded, by simp only [loadMove, errorMove, if_neg hmessage], fun _ =>
        ⟨.recorded, rfl, fun _ => ⟨.recorded, rfl, fun _ => ⟨.idle, rfl, rfl⟩⟩⟩⟩
    | ok cfg =>
      exact fun _ => ⟨.handling, rfl, fun _ => ⟨.handling, rfl, fun _ => ⟨.idle, rfl, rfl⟩⟩⟩

theorem handleUnload_loads :
    Obeys (loadMove t) (handleUnload (M := M)) .idle fun _ ph => ph = .idle :=
  fun _ => ⟨.idle, rfl, fun _ => ⟨.idle, rfl, fun _ => ⟨.idle, rfl, fun _ => ⟨.idle, rfl, rfl⟩⟩⟩⟩

theorem engineTurn_loads (chunk : Nat) :
    Obeys (loadMove .engine) (engineTurn (M := M) chunk) .idle fun _ ph => ph = .idle := by
  refine obeys_bind (step_loads fun _ => rfl) fun shutdown ph hph => ?_
  subst hph
  cases shutdown with
  | true => exact drain_exit_loads
  | false =>
    intro cmd
    cases cmd with
    | none => exact ⟨.idle, rfl, rfl⟩
    | some cmd =>
      cases cmd with
      | generate i cmd => exact ⟨.idle, rfl, handleGenerate_loads chunk i cmd⟩
      | embed => exact ⟨.idle, rfl, rfl⟩
      | load accepted path => exact ⟨.handling, rfl, handleLoad_loads path⟩
      | unload => exact ⟨.idle, rfl, handleUnload_loads⟩
      | reclaim i => exact ⟨.idle, rfl, step_loads fun _ => rfl⟩
      | stop => exact ⟨.idle, rfl, drain_exit_loads⟩

theorem post_loads {cmd : Cmd M.Real} (h : cmd.accepted = false) : Obeys (loadMove t)
    (step (.submit cmd) >>= fun _ => enginePost cmd) .idle fun _ ph => ph = .idle := by
  refine fun _ => ⟨.idle, rfl, fun shutdown => ⟨.idle, rfl, ?_⟩⟩
  cases shutdown with
  | true => exact cmdCancel_loads cmd
  | false =>
    refine fun accepted => ⟨.idle, by simp [loadMove, h], ?_⟩
    cases accepted with
    | true => rfl
    | false => exact cmdCancel_loads cmd

theorem postLoad_loads (path : Option String) :
    Obeys (loadMove t) (enginePostLoad (M := M) path) .idle fun _ ph => ph = .idle := by
  refine fun shutdown => ⟨.idle, rfl, ?_⟩
  cases shutdown with
  | true => rfl
  | false =>
    refine fun accepted => ⟨if accepted then .locked else .idle, rfl, ?_⟩
    cases accepted with
    | true => exact fun _ => ⟨.locked, rfl, fun _ => ⟨.announced, rfl, fun _ => ⟨.idle, rfl, rfl⟩⟩⟩
    | false => rfl

theorem waitLoad_loads (cancel : Nat → Bool) (timeout : Nat) :
    Obeys (loadMove t) (engineWaitLoadUntil (M := M) cancel timeout) .idle
      fun _ ph => ph = .idle := by
  induction timeout with
  | zero => exact fun _ => ⟨.idle, rfl, rfl⟩
  | succ timeout ih =>
    rw [engineWaitLoadUntil]
    split
    · rfl
    · refine obeys_bind (step_loads fun _ => rfl) fun st ph hph => ?_
      subst hph
      cases waitResult st with
      | none => exact ih
      | some result => rfl

theorem signalShutdown_loads :
    Obeys (loadMove t) (engineSignalShutdown (M := M)) .idle fun _ ph => ph = .idle :=
  fun _ => ⟨.idle, rfl, fun _ => ⟨.idle, rfl, rfl⟩⟩

theorem clientCall_loads {p : Eng M Unit} (h : ClientCall p) :
    Obeys (loadMove t) p .idle fun _ ph => ph = .idle := by
  cases h with
  | post cmd hcmd => exact post_loads hcmd
  | postLoad path => exact obeys_bind (postLoad_loads path) fun _ _ h => h
  | waitLoad cancel timeout => exact obeys_bind (waitLoad_loads cancel timeout) fun _ _ h => h
  | signalShutdown => exact signalShutdown_loads
  | destroy =>
    refine obeys_bind signalShutdown_loads fun _ ph hph => ?_
    subst hph
    refine obeys_bind (step_loads fun _ => rfl) fun _ ph hph => ?_
    subst hph
    refine obeys_bind drain_loads fun _ ph hph => ?_
    subst hph
    exact handleUnload_loads
  | streamNext i forever => exact fun _ => ⟨.idle, rfl, rfl⟩
  | streamCancel i => exact step_loads fun _ => rfl

end Programs

/-! ## Runs -/

theorem loadRule (chunk : Nat) : PhaseRule (loadMove (M := M)) (· = .idle) Loads exec
    (starts chunk) FreshStep where
  starts := by
    intro t s p phase hholds hended hstart
    refine ⟨.idle, ?_, ?_⟩
    · rwa [← hended, Function.update_eq_self]
    · cases t with
      | engine =>
        obtain ⟨-, rfl⟩ := hstart
        exact engineTurn_loads chunk
      | client n => exact clientCall_loads hstart
  effect := fun _ _ _ _ _ _ _ hok h hexec hmove => loads_step h (exec_loadMoves hok hexec hmove)

/-- In every such run an outstanding load is reported as in progress, so that nobody waiting
for a load gets a result meanwhile, and a reported failure has its error recorded. -/
theorem load_state_fresh {chunk : Nat} {capacity : StreamId → { n : Nat // 0 < n }}
    {c : EngConfig M}
    (hrun : RunsTo exec (starts chunk) (NextMeets FreshStep) (initial M capacity) c) :
    (Outstanding c.shared → c.shared.loadState = .inProgress) ∧
      (∀ st s, exec .loadLoadState c.shared st s → Outstanding c.shared → waitResult st = none) ∧
      (c.shared.loadState = .failed → c.shared.loadError ≠ "") := by
  have hinit : Phased (loadMove (M := M)) (· = .idle) Loads (initial M capacity) := by
    refine ⟨fun _ => .idle, ⟨⟨fun hout => ?_, fun h => by contradiction⟩, ?_, ?_, ?_, ?_, ?_⟩,
      fun _ => rfl⟩
    · simp [Outstanding, initial] at hout
    all_goals simp [LoadPhase.inSection]
  obtain ⟨phase, ⟨hfresh, -⟩, -⟩ := phased_runsTo (loadRule chunk) hinit hrun
  have hinProgress : Outstanding c.shared → c.shared.loadState = .inProgress := fun hout =>
    hfresh.inProgress (.inl hout)
  refine ⟨hinProgress, fun st s hread hout => ?_, hfresh.recorded⟩
  rw [hread.1, hinProgress hout]
  rfl

/-- A first load has been accepted. -/
theorem load_state_fresh_posted : ∃ c : EngConfig countWorld.mlx,
    Outstanding c.shared ∧ c.shared.loadState = .inProgress := by
  let s₁ : Shared Nat := { countInitial.shared with
    loadState := .inProgress, mailbox := [.load true (some stubModelPath)] }
  have hpost : Alone exec FreshStep countInitial.shared
      (enginePostLoad (M := countWorld.mlx) (some stubModelPath) >>= fun _ => pure ()) s₁ (.done ()) :=
    .step false trivial ⟨rfl, rfl⟩ (.step true trivial ⟨rfl, rfl, rfl⟩
      (.step () (fun _ => ⟨by decide, rfl⟩) rfl (.step () trivial rfl
        (.step () trivial rfl (.refl _ _)))))
  have hrun : RunsTo exec (starts 1) (NextMeets FreshStep) countInitial
      (countInitial.resume (.client 0) s₁ (.done ())) :=
    runsTo_start (fun _ _ h => h) rfl (.postLoad _) hpost
  have hout : Outstanding s₁ := .inl ⟨_, List.mem_cons_self, rfl⟩
  exact ⟨_, hout, (load_state_fresh hrun).1 hout⟩

/-- The outcome of the first of two loads is reported while the second one waits. -/
theorem load_state_stale : ∃ c : EngConfig countWorld.mlx,
    RunsTo exec (starts 1) (fun _ _ => True) countInitial c ∧
      Outstanding c.shared ∧ c.shared.loadState = .ok ∧ waitResult c.shared.loadState = some 0 := by
  let always : EngOp countWorld.mlx → Shared Nat → Prop := fun _ _ => True
  let runs : EngConfig countWorld.mlx → EngConfig countWorld.mlx → Prop :=
    RunsTo exec (starts 1) fun _ _ => True
  have hok : ∀ (c : EngConfig countWorld.mlx) (t : Tid),
      (∀ e next, c.threads t = .ask e next → always e c.shared) → True := fun _ _ _ => trivial
  let load : Cmd Nat := .load true (some stubModelPath)
  let s₀ : Shared Nat := countInitial.shared
  let s₁ : Shared Nat := { s₀ with loadState := .inProgress, mailbox := [load] }
  let s₂ : Shared Nat := { s₁ with mailbox := [load, load] }
  let s₃ : Shared Nat := { s₂ with
    mailbox := [load], loadState := .ok, model := ⟨true, Resident.zero.cfg⟩
    loadedModel := some stubModelPath }
  let post : Eng countWorld.mlx Unit := enginePostLoad (some stubModelPath) >>= fun _ => pure ()
  have hpost₁ : Alone exec always s₀ post s₁ (.done ()) :=
    .step false trivial ⟨rfl, rfl⟩ (.step true trivial ⟨rfl, rfl, rfl⟩
      (.step () trivial rfl (.step () trivial rfl (.step () trivial rfl (.refl _ _)))))
  have hpost₂ : Alone exec always s₁ post s₂ (.done ()) :=
    .step false trivial ⟨rfl, rfl⟩ (.step true trivial ⟨rfl, rfl, rfl⟩
      (.step () trivial rfl (.step () trivial rfl (.step () trivial rfl (.refl _ _)))))
  have hturn : Alone exec always s₂ (engineTurn 1) s₃ (.done ()) :=
    .step false trivial ⟨rfl, rfl⟩ (.step (some load) trivial ⟨rfl, rfl⟩
      (.step () trivial rfl (.step () trivial rfl (.step () trivial rfl
        (.step () trivial rfl (.step () trivial rfl (.step () trivial rfl (.refl _ _))))))))
  let c₁ := countInitial.resume (.client 0) s₁ (.done ())
  let c₂ := c₁.resume (.client 1) s₂ (.done ())
  have h₁ : runs countInitial c₁ := runsTo_start hok rfl (.postLoad _) hpost₁
  have h₂ : runs c₁ c₂ := runsTo_start hok rfl (.postLoad _) hpost₂
  have h₃ : runs c₂ (c₂.resume .engine s₃ (.done ())) := runsTo_start hok rfl ⟨rfl, rfl⟩ hturn
  exact ⟨_, (h₁.trans h₂).trans h₃, .inl ⟨load, List.mem_cons_self, rfl⟩, rfl, rfl⟩

end Mlxd.Engine
