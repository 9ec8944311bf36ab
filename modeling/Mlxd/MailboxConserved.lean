import Mlxd.GenerateRefine
import Mlxd.Mailbox

/-!
# No command is lost or handled twice

Every command that was passed to a post is handled or cancelled, or in the mailbox, or in the
hand of one thread. The hand of a thread is the phase of its protocol. The engine handles the
commands in the order in which they were enqueued, and once the engine has been joined and the
mailbox drained nothing comes into it any more.
-/
namespace Mlxd.Mailbox

open Mlxd.Lib Program
open Engine (Tid)

variable {W : Work}

/-! ## The protocol -/

/-- What a thread has in hand, and how far a shutdown of its own has come. -/
inductive Hand where
  | free
  /-- The engine thread has returned. -/
  | gone
  /-- The thread has set the shutdown flag. -/
  | flagged
  /-- The thread has joined the engine thread. -/
  | joined
  /-- A post has a command to hand over. -/
  | offering (c : CmdId)
  /-- A post of a load is inside its section. -/
  | locked (c : CmdId)
  /-- A post has handed its command over or cancelled it. -/
  | posted (c : CmdId)
  | handling (c : CmdId)
  /-- Commands taken by a drain and still to cancel. -/
  | cancelling (cs : List CmdId)
  deriving DecidableEq

@[simp] def Hand.commands : Hand → List CmdId
  | .offering c => [c]
  | .locked c => [c]
  | .handling c => [c]
  | .cancelling cs => cs
  | _ => []

/-- How a thread goes on when it has cancelled a command. -/
def Hand.cancel : Hand → CmdId → Option Hand
  | .offering c', c => if c = c' then some (.posted c) else none
  | .cancelling (c' :: cs), c => if c = c' then some (.cancelling cs) else none
  | _, _ => none

@[simp] def move (t : Tid) (ph : Hand) : (op : MailOp W) → MailAns op → Option Hand
  | .work _, _ => some ph
  | .loadShutdown, _ => some ph
  | .pass c, _ => if ph = .free ∧ t ≠ .engine then some (.offering c) else none
  | .storeShutdown, _ => if ph = .free ∧ t ≠ .engine then some .flagged else none
  | .signal, _ => if ph = .flagged then some .flagged else none
  | .enqueue c, ok => if ph = .offering c then some (if ok then .posted c else ph) else none
  | .lockForLoad c, ok => if ph = .offering c then some (if ok then .locked c else ph) else none
  | .enqueueLoad c, _ => if ph = .locked c then some (.posted c) else none
  | .dequeue, r => if ph = .free ∧ t = .engine then some (r.elim .free .handling) else none
  | .drainAll, cs =>
    if ph = .free ∧ t = .engine ∨ ph = .joined ∧ t ≠ .engine then some (.cancelling cs) else none
  | .handled c, _ => if ph = .handling c ∧ t = .engine then some .free else none
  | .cancelled c, _ => ph.cancel c
  | .returned c, _ => if ph = .posted c ∧ t ≠ .engine then some .free else none
  | .exitThread, _ => if ph = .cancelling [] ∧ t = .engine then some .gone else none
  | .joinEngine, _ => if ph = .flagged ∧ t ≠ .engine then some .joined else none
  | .destroyed, _ => if ph = .cancelling [] ∧ t ≠ .engine then some .free else none

/-- The hand of a thread between two programs. -/
def Ended (ph : Hand) : Prop := ph = .free ∨ ph = .gone ∨ ph = .flagged

section Programs

variable {t : Tid}

theorem work_obeys {α : Type} (p : Program W.Op W.Ans α) (ph : Hand) :
    Obeys (move (W := W) t) (work p) ph fun _ ph' => ph' = ph := by
  induction p with
  | done a => rfl
  | ask op next ih => exact fun r => ⟨ph, rfl, ih r⟩

/-- One effect whose answers decide the hand after it. -/
theorem step_obeys {op : MailOp W} {ph : Hand} (next : MailAns op → Hand)
    (h : ∀ r, move t ph op r = some (next r)) :
    Obeys (move (W := W) t) (step op) ph fun r ph' => ph' = next r := fun r => ⟨next r, h r, rfl⟩

theorem loadShutdown_obeys (ph : Hand) :
    Obeys (move (W := W) t) (step .loadShutdown) ph fun _ ph' => ph' = ph := obeys_quiet fun _ => rfl

theorem cmdCancel_offered (c : CmdId) :
    Obeys (move (W := W) t) (cmdCancel c) (.offering c) fun _ ph => ph = .posted c := by
  refine obeys_bind (work_obeys _ _) fun _ ph hph => ?_
  subst hph
  exact fun _ => ⟨.posted c, by simp [Hand.cancel], rfl⟩

theorem cmdCancel_drained (c : CmdId) (cs : List CmdId) :
    Obeys (move (W := W) t) (cmdCancel c) (.cancelling (c :: cs)) fun _ ph =>
      ph = .cancelling cs := by
  refine obeys_bind (work_obeys _ _) fun _ ph hph => ?_
  subst hph
  exact fun _ => ⟨.cancelling cs, by simp [Hand.cancel], rfl⟩

theorem cancelAll_obeys (cs : List CmdId) :
    Obeys (move (W := W) t) (cancelAll cs) (.cancelling cs) fun _ ph => ph = .cancelling [] := by
  induction cs with
  | nil => rfl
  | cons c rest ih =>
    refine obeys_bind (cmdCancel_drained c rest) fun _ ph hph => ?_
    subst hph
    exact ih

theorem drain_obeys {ph : Hand} (h : ph = .free ∧ t = .engine ∨ ph = .joined ∧ t ≠ .engine) :
    Obeys (move (W := W) t) mailboxDrainCancel ph fun _ ph => ph = .cancelling [] :=
  fun cs => ⟨.cancelling cs, if_pos h, cancelAll_obeys cs⟩

theorem drain_exit_obeys : Obeys (move (W := W) .engine)
    (mailboxDrainCancel >>= fun _ => step .exitThread) .free fun _ ph => Ended ph := by
  refine obeys_bind (drain_obeys (.inl ⟨rfl, rfl⟩)) fun _ ph hph => ?_
  subst hph
  exact fun _ => ⟨.gone, rfl, .inr (.inl rfl)⟩

/-- A turn of the engine thread handles one command, or takes the rest and cancels it. -/
theorem engineTurn_obeys :
    Obeys (move (W := W) .engine) engineTurn .free fun _ ph => Ended ph := by
  refine obeys_bind (loadShutdown_obeys _) fun shutdown ph hph => ?_
  subst hph
  cases shutdown with
  | true => exact drain_exit_obeys
  | false =>
    refine obeys_bind (@step_obeys W .engine .dequeue .free (fun cmd => cmd.elim .free .handling)
      fun _ => rfl) fun cmd ph hph => ?_
    subst hph
    cases cmd with
    | none => exact .inl rfl
    | some c =>
      refine obeys_bind (work_obeys _ _) fun _ ph hph => ?_
      subst hph
      refine obeys_bind (step_obeys (fun _ => .free) fun _ => by simp) fun _ ph hph => ?_
      subst hph
      split
      · exact drain_exit_obeys
      · exact .inl rfl

theorem enginePost_obeys (c : CmdId) :
    Obeys (move (W := W) t) (enginePost c) (.offering c) fun _ ph => ph = .posted c := by
  refine obeys_bind (loadShutdown_obeys _) fun shutdown ph hph => ?_
  subst hph
  cases shutdown with
  | true => exact cmdCancel_offered c
  | false =>
    refine obeys_bind (step_obeys (fun ok => if ok then .posted c else .offering c)
      fun _ => by simp) fun accepted ph hph => ?_
    subst hph
    cases accepted with
    | true => rfl
    | false => exact cmdCancel_offered c

theorem enginePostLoad_obeys (c : CmdId) :
    Obeys (move (W := W) t) (enginePostLoad c) (.offering c) fun _ ph => ph = .posted c := by
  refine obeys_bind (loadShutdown_obeys _) fun shutdown ph hph => ?_
  subst hph
  cases shutdown with
  | true => exact cmdCancel_offered c
  | false =>
    refine obeys_bind (step_obeys (fun ok => if ok then .locked c else .offering c)
      fun _ => by simp) fun accepted ph hph => ?_
    subst hph
    cases accepted with
    | true =>
      refine obeys_bind (work_obeys _ _) fun _ ph hph => ?_
      subst hph
      exact step_obeys (fun _ => .posted c) fun _ => by simp
    | false => exact cmdCancel_offered c

theorem posting_obeys {c : CmdId} {post : Post W Unit} (ht : t ≠ .engine)
    (h : Obeys (move (W := W) t) post (.offering c) fun _ ph => ph = .posted c) :
    Obeys (move (W := W) t) (posting c post) .free fun _ ph => Ended ph := by
  refine obeys_bind (step_obeys (fun _ => .offering c) fun _ => if_pos ⟨rfl, ht⟩)
    fun _ ph hph => ?_
  subst hph
  refine obeys_bind h fun _ ph hph => ?_
  subst hph
  exact fun _ => ⟨.free, if_pos ⟨rfl, ht⟩, .inl rfl⟩

theorem signalShutdown_obeys (ht : t ≠ .engine) :
    Obeys (move (W := W) t) engineSignalShutdown .free fun _ ph => ph = .flagged :=
  fun _ => ⟨.flagged, if_pos ⟨rfl, ht⟩, fun _ => ⟨.flagged, rfl, rfl⟩⟩

theorem clientCall_obeys {p : Post W Unit} (ht : t ≠ .engine) (h : ClientCall p) :
    Obeys (move (W := W) t) p .free fun _ ph => Ended ph := by
  cases h with
  | post c => exact posting_obeys ht (enginePost_obeys c)
  | postLoad c => exact posting_obeys ht (enginePostLoad_obeys c)
  | signalShutdown => exact obeys_mono (signalShutdown_obeys ht) fun _ _ h => .inr (.inr h)
  | destroy =>
    refine obeys_bind (signalShutdown_obeys ht) fun _ ph hph => ?_
    subst hph
    refine obeys_bind (step_obeys (fun _ => .joined) fun _ => if_pos ⟨rfl, ht⟩) fun _ ph hph => ?_
    subst hph
    refine obeys_bind (drain_obeys (.inr ⟨rfl, ht⟩)) fun _ ph hph => ?_
    subst hph
    exact fun _ => ⟨.free, if_pos ⟨rfl, ht⟩, .inl rfl⟩

end Programs

/-! ## What a step can do -/

/-- A step of a thread, with the hand before and after it. -/
inductive Moves {S : Type} (t : Tid) (s : Mail S) : Hand → Mail S → Hand → Prop
  | quiet (ph : Hand) (rest : S) : Moves t s ph { s with rest := rest } ph
  | pass (c : CmdId) (hnew : c ∉ s.passed) (ht : t ≠ .engine) :
      Moves t s .free { s with passed := c :: s.passed } (.offering c)
  | flag (ht : t ≠ .engine) : Moves t s .free { s with shutdown := true } .flagged
  | enqueue (c : CmdId) (hunlocked : s.mailboxLocked = false) (hopen : s.shutdown = false) :
      Moves t s (.offering c)
        { s with mailbox := s.mailbox ++ [c], enqueued := s.enqueued ++ [c] } (.posted c)
  | lock (c : CmdId) (hunlocked : s.mailboxLocked = false) (hopen : s.shutdown = false) :
      Moves t s (.offering c) { s with mailboxLocked := true } (.locked c)
  | enqueueLoad (c : CmdId) : Moves t s (.locked c)
      { s with mailbox := s.mailbox ++ [c], enqueued := s.enqueued ++ [c], mailboxLocked := false }
      (.posted c)
  | dequeue (c : CmdId) (rest : List CmdId) (hmail : s.mailbox = c :: rest) (ht : t = .engine) :
      Moves t s .free { s with mailbox := rest } (.handling c)
  | drain (ph : Hand) (hunlocked : s.mailboxLocked = false)
      (hph : ph = .free ∧ t = .engine ∨ ph = .joined ∧ t ≠ .engine) :
      Moves t s ph { s with mailbox := [] } (.cancelling s.mailbox)
  | handled (c : CmdId) (ht : t = .engine) :
      Moves t s (.handling c) { s with handled := s.handled ++ [c] } .free
  | refuse (c : CmdId) :
      Moves t s (.offering c) { s with cancelled := s.cancelled ++ [c] } (.posted c)
  | cancel (c : CmdId) (cs : List CmdId) :
      Moves t s (.cancelling (c :: cs)) { s with cancelled := s.cancelled ++ [c] } (.cancelling cs)
  | returned (c : CmdId) (ht : t ≠ .engine) :
      Moves t s (.posted c) { s with returned := c :: s.returned } .free
  | exit (ht : t = .engine) : Moves t s (.cancelling []) { s with exited := true } .gone
  | join (ht : t ≠ .engine) (hexited : s.exited = true) (hjoined : s.joined = false) :
      Moves t s .flagged { s with joined := true } .joined
  | destroy (ht : t ≠ .engine) : Moves t s (.cancelling []) { s with destroyed := true } .free

theorem exec_moves {t : Tid} {s s' : Mail W.State} {op : MailOp W} {r : MailAns op} {ph ph' : Hand}
    (hexec : exec op s r s') (hmove : move t ph op r = some ph') : Moves t s ph s' ph' := by
  cases op with
  | work op =>
    obtain ⟨rest, -, rfl⟩ := hexec
    obtain rfl := Option.some.inj hmove
    exact .quiet _ rest
  | loadShutdown =>
    obtain ⟨-, rfl⟩ := hexec
    obtain rfl := Option.some.inj hmove
    exact .quiet _ s'.rest
  | signal =>
    obtain ⟨-, rest, rfl⟩ := hexec
    simp only [move, Option.ite_none_right_eq_some, Option.some.injEq] at hmove
    obtain ⟨rfl, rfl⟩ := hmove
    exact .quiet _ rest
  | pass c =>
    obtain ⟨hnew, rfl⟩ := hexec
    simp only [move, Option.ite_none_right_eq_some, Option.some.injEq] at hmove
    obtain ⟨⟨rfl, ht⟩, rfl⟩ := hmove
    exact .pass c hnew ht
  | storeShutdown =>
    obtain rfl := hexec
    simp only [move, Option.ite_none_right_eq_some, Option.some.injEq] at hmove
    obtain ⟨⟨rfl, ht⟩, rfl⟩ := hmove
    exact .flag ht
  | enqueue c =>
    obtain ⟨hunlocked, hexec⟩ := hexec
    simp only [move, Option.ite_none_right_eq_some, Option.some.injEq] at hmove
    obtain ⟨rfl, rfl⟩ := hmove
    split at hexec
    · obtain ⟨rfl, rfl⟩ := hexec
      exact .quiet _ s'.rest
    · rename_i hopen
      obtain ⟨rfl, rfl⟩ := hexec
      exact .enqueue c hunlocked (by simpa using hopen)
  | lockForLoad c =>
    obtain ⟨hunlocked, hexec⟩ := hexec
    simp only [move, Option.ite_none_right_eq_some, Option.some.injEq] at hmove
    obtain ⟨rfl, rfl⟩ := hmove
    split at hexec
    · obtain ⟨rfl, rfl⟩ := hexec
      exact .quiet _ s'.rest
    · rename_i hopen
      obtain ⟨rfl, rfl⟩ := hexec
      exact .lock c hunlocked (by simpa using hopen)
  | enqueueLoad c =>
    obtain rfl := hexec
    simp only [move, Option.ite_none_right_eq_some, Option.some.injEq] at hmove
    obtain ⟨rfl, rfl⟩ := hmove
    exact .enqueueLoad c
  | dequeue =>
    obtain ⟨-, hexec⟩ := hexec
    simp only [move, Option.ite_none_right_eq_some, Option.some.injEq] at hmove
    obtain ⟨⟨rfl, ht⟩, rfl⟩ := hmove
    rw [dequeueResult] at hexec
    split at hexec
    · rename_i c rest hmail
      obtain ⟨rfl, rfl⟩ := Prod.mk.inj (Option.some.inj hexec)
      exact .dequeue c rest hmail ht
    · split at hexec
      · obtain ⟨rfl, rfl⟩ := Prod.mk.inj (Option.some.inj hexec)
        exact .quiet _ s.rest
      · contradiction
  | drainAll =>
    obtain ⟨hunlocked, rfl, rfl⟩ := hexec
    simp only [move, Option.ite_none_right_eq_some, Option.some.injEq] at hmove
    obtain ⟨hph, rfl⟩ := hmove
    exact .drain ph hunlocked hph
  | handled c =>
    obtain rfl := hexec
    simp only [move, Option.ite_none_right_eq_some, Option.some.injEq] at hmove
    obtain ⟨⟨rfl, ht⟩, rfl⟩ := hmove
    exact .handled c ht
  | cancelled c =>
    obtain rfl := hexec
    simp only [move] at hmove
    unfold Hand.cancel at hmove
    split at hmove
    · simp only [Option.ite_none_right_eq_some, Option.some.injEq] at hmove
      obtain ⟨rfl, rfl⟩ := hmove
      exact .refuse c
    · simp only [Option.ite_none_right_eq_some, Option.some.injEq] at hmove
      obtain ⟨rfl, rfl⟩ := hmove
      exact .cancel c _
    · contradiction
  | returned c =>
    obtain rfl := hexec
    simp only [move, Option.ite_none_right_eq_some, Option.some.injEq] at hmove
    obtain ⟨⟨rfl, ht⟩, rfl⟩ := hmove
    exact .returned c ht
  | exitThread =>
    obtain rfl := hexec
    simp only [move, Option.ite_none_right_eq_some, Option.some.injEq] at hmove
    obtain ⟨⟨rfl, ht⟩, rfl⟩ := hmove
    exact .exit ht
  | joinEngine =>
    obtain ⟨hexited, hjoined, rfl⟩ := hexec
    simp only [move, Option.ite_none_right_eq_some, Option.some.injEq] at hmove
    obtain ⟨⟨rfl, ht⟩, rfl⟩ := hmove
    exact .join ht hexited hjoined
  | destroyed =>
    obtain rfl := hexec
    simp only [move, Option.ite_none_right_eq_some, Option.some.injEq] at hmove
    obtain ⟨⟨rfl, ht⟩, rfl⟩ := hmove
    exact .destroy ht

/-! ## The account -/

section Account

variable {S : Type} {s s' : Mail S} {phase : Tid → Hand} {t : Tid} {ph' : Hand}

/-- The commands that are in nobody's hand. -/
def Mail.placed (s : Mail S) : List CmdId := s.handled ++ s.cancelled ++ s.mailbox

/-- Each command passed is handled, cancelled, in the mailbox or in one hand. -/
def Counted (s : Mail S) (phase : Tid → Hand) : Prop :=
  Custody s.passed s.placed fun t => (phase t).commands

theorem commands_update (phase : Tid → Hand) (t : Tid) (ph : Hand) :
    (fun u => (Function.update phase t ph u).commands) =
      Function.update (fun u => (phase u).commands) t ph.commands := by
  funext u
  exact Function.apply_update (fun _ => Hand.commands) phase t ph u

theorem perm_of_count {xs ys : List CmdId} (h : ∀ x, xs.count x = ys.count x) : xs.Perm ys :=
  List.perm_iff_count.mpr h

theorem counted_step (h : Counted s phase) (hmoves : Moves t s (phase t) s' ph') :
    Counted s' (Function.update phase t ph') := by
  have hhand : ∀ ph, phase t = ph → (fun u => (phase u).commands) t = ph.commands :=
    fun ph hph => by dsimp only; rw [hph]
  generalize hcur : phase t = cur at hmoves
  rw [Counted, commands_update]
  have ht := hhand cur hcur
  cases hmoves with
  | quiet _ rest => exact Custody.same h ht
  | pass c hnew _ => exact Custody.pass h hnew ht
  | flag _ => exact Custody.same h ht
  | enqueue c _ _ =>
    refine Custody.place h ht (perm_of_count fun x => ?_)
    simp only [Mail.placed, List.count_append, List.count_cons, List.count_nil]
    omega
  | lock c _ _ => exact Custody.same h ht
  | enqueueLoad c =>
    refine Custody.place h ht (perm_of_count fun x => ?_)
    simp only [Mail.placed, List.count_append, List.count_cons, List.count_nil]
    omega
  | dequeue c rest hmail _ =>
    refine Custody.take h ht (perm_of_count fun x => ?_)
    simp only [Mail.placed, Hand.commands, hmail, List.count_append, List.count_cons,
      List.count_nil]
    omega
  | drain _ _ hph =>
    have hempty : (fun u => (phase u).commands) t = [] := by
      rw [ht]
      rcases hph with ⟨rfl, -⟩ | ⟨rfl, -⟩ <;> rfl
    refine Custody.take h hempty (perm_of_count fun x => ?_)
    simp only [Mail.placed, Hand.commands, List.count_append, List.count_nil]
    omega
  | handled c _ =>
    refine Custody.place h ht (perm_of_count fun x => ?_)
    simp only [Mail.placed, List.count_append, List.count_cons, List.count_nil]
    omega
  | refuse c =>
    refine Custody.place h ht (perm_of_count fun x => ?_)
    simp only [Mail.placed, List.count_append, List.count_cons, List.count_nil]
    omega
  | cancel c cs =>
    refine Custody.place h ht (perm_of_count fun x => ?_)
    simp only [Mail.placed, List.count_append, List.count_cons, List.count_nil]
    omega
  | returned c _ => exact Custody.same h ht
  | exit _ => exact Custody.same h ht
  | join _ _ _ => exact Custody.same h ht
  | destroy _ => exact Custody.same h ht

/-! ## The logs -/

/-- The command a post has still to hand over. -/
@[simp] def Hand.offered : Hand → Option CmdId
  | .offering c => some c
  | .locked c => some c
  | _ => none

/-- What is enqueued or returned was passed, and is offered by nobody. -/
structure Logged (s : Mail S) (phase : Tid → Hand) : Prop where
  enqueued : ∀ x ∈ s.enqueued, x ∈ s.passed
  returned : ∀ x ∈ s.returned, x ∈ s.passed
  posted : ∀ t c, phase t = .posted c → c ∈ s.passed
  offered : ∀ t c, (phase t).offered = some c →
    c ∉ s.enqueued ∧ c ∉ s.returned ∧ ∀ u, phase u ≠ .posted c

section LoggedFields

variable (hcount : Counted s phase) (h : Logged s phase)

theorem offered_commands {u : Tid} {c : CmdId} (hc : (phase u).offered = some c) :
    c ∈ (phase u).commands := by
  cases hu : phase u with
  | offering d => simpa [hu] using hc.symm
  | locked d => simpa [hu] using hc.symm
  | _ => simp [hu] at hc

include hcount

theorem offered_passed (u : Tid) (c : CmdId) (hc : (phase u).offered = some c) : c ∈ s.passed :=
  (hcount.held u c (offered_commands hc)).1

theorem offered_sole (u v : Tid) (c : CmdId) (hu : (phase u).offered = some c)
    (hv : (phase v).offered = some c) : u = v :=
  hcount.apart u v c (offered_commands hu) (offered_commands hv)

include h

variable (hmoves : Moves t s (phase t) s' ph')

include hmoves

theorem enqueued_step (x : CmdId) (hx : x ∈ s'.enqueued) : x ∈ s'.passed := by
  have hheld := offered_passed hcount
  have henqueued := h.enqueued
  generalize hcur : phase t = cur at hmoves
  cases hmoves <;> grind [Hand.offered]

omit hcount in
theorem returned_step (x : CmdId) (hx : x ∈ s'.returned) : x ∈ s'.passed := by
  have hreturned := h.returned
  have hposted := h.posted
  generalize hcur : phase t = cur at hmoves
  cases hmoves <;> grind

theorem posted_step (u : Tid) (c : CmdId) (hu : Function.update phase t ph' u = .posted c) :
    c ∈ s'.passed := by
  have hheld := offered_passed hcount
  have hposted := h.posted
  generalize hcur : phase t = cur at hmoves
  cases hmoves <;> grind [Function.update_apply, Hand.offered]

theorem offered_step (u : Tid) (c : CmdId)
    (hu : (Function.update phase t ph' u).offered = some c) :
    c ∉ s'.enqueued ∧ c ∉ s'.returned ∧ ∀ v, Function.update phase t ph' v ≠ .posted c := by
  have hheld := offered_passed hcount
  have hsole := offered_sole hcount
  obtain ⟨henqueued, hreturned, hposted, hoff⟩ := h
  generalize hcur : phase t = cur at hmoves
  cases hmoves <;> grind [Function.update_apply, Hand.offered]

end LoggedFields

theorem logged_step (hcount : Counted s phase) (h : Logged s phase)
    (hmoves : Moves t s (phase t) s' ph') : Logged s' (Function.update phase t ph') where
  enqueued := enqueued_step hcount h hmoves
  returned := returned_step h hmoves
  posted := posted_step hcount h hmoves
  offered := offered_step hcount h hmoves

/-- The command of the engine's turn, while it takes turns. -/
@[simp] def Hand.turn : Hand → Option (List CmdId)
  | .free => some []
  | .handling c => some [c]
  | _ => none

/-- The engine handles from the front of what was enqueued. -/
structure InOrder (s : Mail S) (engine : Hand) : Prop where
  handled : s.handled <+: s.enqueued
  turn : ∀ cs, engine.turn = some cs → s.enqueued = s.handled ++ cs ++ s.mailbox

/-! ## The end of the engine -/

/-- Between the join and the end of `engine_destroy`. -/
@[simp] def Hand.closing : Hand → Bool
  | .joined => true
  | .cancelling _ => true
  | _ => false

/-- One caller destroys the engine, after its thread has returned; once it has drained the
mailbox nothing is enqueued. -/
structure Closing (s : Mail S) (phase : Tid → Hand) : Prop where
  exited : s.exited = true ↔ phase .engine = .gone
  handling : ∀ t c, phase t = .handling c → t = .engine
  flagged : ∀ t, phase t = .flagged → t ≠ .engine ∧ s.shutdown = true
  joined : ∀ n, (phase (.client n)).closing = true →
    s.joined = true ∧ s.exited = true ∧ s.shutdown = true
  sole : ∀ m n, (phase (.client m)).closing = true → (phase (.client n)).closing = true → m = n
  drained : ∀ n cs, phase (.client n) = .cancelling cs →
    s.mailbox = [] ∧ s.mailboxLocked = false
  destroyed : s.destroyed = true → s.joined = true ∧ s.exited = true ∧ s.shutdown = true ∧
    s.mailbox = [] ∧ s.mailboxLocked = false ∧ ∀ n, (phase (.client n)).closing = false
  locked : ∀ t c, phase t = .locked c → s.mailboxLocked = true
  locker : ∀ t u c d, phase t = .locked c → phase u = .locked d → t = u

theorem client_of_ne (ht : t ≠ .engine) : ∃ n, t = .client n := by
  cases t with
  | engine => exact absurd rfl ht
  | client n => exact ⟨n, rfl⟩

/-- Joining, returning and shutting down are for good. -/
theorem Moves.grows {ph : Hand} (hmoves : Moves t s ph s' ph') : (s.joined = true → s'.joined = true) ∧
    (s.exited = true → s'.exited = true) ∧ (s.shutdown = true → s'.shutdown = true) := by
  cases hmoves <;> simp +contextual

/-- Who is closing has been, or has just joined the engine's thread. -/
theorem Moves.closing_cases (hmoves : Moves t s (phase t) s' ph') {n : Nat}
    (hn : (Function.update phase t ph' (.client n)).closing = true) :
    (phase (.client n)).closing = true ∨
      t = .client n ∧ phase t = .flagged ∧ s.exited = true ∧ s.joined = false ∧
        s' = { s with joined := true } := by
  by_cases ht : .client n = t
  · subst ht
    rw [Function.update_self] at hn
    generalize phase (.client n) = cur at hmoves ⊢
    cases hmoves with
    | quiet _ rest => exact .inl hn
    | drain _ _ hph =>
      rcases hph with ⟨-, hengine⟩ | ⟨rfl, -⟩
      · contradiction
      · exact .inl rfl
    | cancel c cs => exact .inl rfl
    | join _ hexited hjoined => exact .inr ⟨rfl, rfl, hexited, hjoined, rfl⟩
    | _ => simp at hn
  · rw [Function.update_of_ne ht] at hn
    exact .inl hn

/-- The engine is destroyed already, or this step is the end of `engine_destroy`. -/
theorem Moves.destroyed_cases {ph : Hand} (hmoves : Moves t s ph s' ph')
    (hdone : s'.destroyed = true) :
    s.destroyed = true ∨ t ≠ .engine ∧ ph = .cancelling [] ∧ ph' = .free ∧
      s' = { s with destroyed := true } := by
  cases hmoves with
  | destroy ht => exact .inr ⟨ht, rfl, rfl, rfl⟩
  | _ => exact .inl hdone

section ClosingFields

variable (h : Closing s phase) (hmoves : Moves t s (phase t) s' ph')

include h hmoves

theorem exited_step : s'.exited = true ↔ Function.update phase t ph' .engine = .gone := by
  have hexited := h.exited
  generalize hcur : phase t = cur at hmoves
  cases hmoves <;> grind [Function.update_apply]

theorem handling_step (u : Tid) (c : CmdId) (hu : Function.update phase t ph' u = .handling c) :
    u = .engine := by
  have hhandling := h.handling
  generalize hcur : phase t = cur at hmoves
  cases hmoves <;> grind [Function.update_apply]

theorem flagged_step (u : Tid) (hu : Function.update phase t ph' u = .flagged) :
    u ≠ .engine ∧ s'.shutdown = true := by
  have hflagged := h.flagged
  generalize hcur : phase t = cur at hmoves
  cases hmoves <;> grind [Function.update_apply]

theorem joined_step (n : Nat) (hn : (Function.update phase t ph' (.client n)).closing = true) :
    s'.joined = true ∧ s'.exited = true ∧ s'.shutdown = true := by
  rcases hmoves.closing_cases hn with hclosing | ⟨-, hflag, hexited, -, rfl⟩
  · obtain ⟨hjoined, hexited, hshut⟩ := h.joined n hclosing
    obtain ⟨hjoined', hexited', hshut'⟩ := hmoves.grows
    exact ⟨hjoined' hjoined, hexited' hexited, hshut' hshut⟩
  · exact ⟨rfl, hexited, (h.flagged t hflag).2⟩

theorem sole_step (m n : Nat) (hm : (Function.update phase t ph' (.client m)).closing = true)
    (hn : (Function.update phase t ph' (.client n)).closing = true) : m = n := by
  have hfirst : ∀ k, s.joined = false → (phase (.client k)).closing ≠ true :=
    fun k hjoined hk => absurd ((h.joined k hk).1.symm.trans hjoined) (by decide)
  rcases hmoves.closing_cases hm with hm | ⟨htm, -, -, hjoined, -⟩ <;>
    rcases hmoves.closing_cases hn with hn | ⟨htn, -, -, hjoined', -⟩
  · exact h.sole m n hm hn
  · exact absurd hm (hfirst m hjoined')
  · exact absurd hn (hfirst n hjoined)
  · exact Tid.client.inj (htm.symm.trans htn)

theorem locked_step (u : Tid) (c : CmdId) (hu : Function.update phase t ph' u = .locked c) :
    s'.mailboxLocked = true := by
  have hlocked := h.locked
  have hlocker := h.locker
  generalize hcur : phase t = cur at hmoves
  cases hmoves <;> grind [Function.update_apply]

theorem locker_step (u v : Tid) (c d : CmdId) (hu : Function.update phase t ph' u = .locked c)
    (hv : Function.update phase t ph' v = .locked d) : u = v := by
  have hlocked := h.locked
  have hlocker := h.locker
  generalize hcur : phase t = cur at hmoves
  cases hmoves <;> grind [Function.update_apply]

/-- After the shutdown nothing is put into an empty mailbox. -/
theorem empty_step (hshut : s.shutdown = true) (hmail : s.mailbox = [])
    (hunlocked : s.mailboxLocked = false) : s'.mailbox = [] ∧ s'.mailboxLocked = false := by
  have hlocked := h.locked t
  generalize phase t = cur at hmoves hlocked
  cases hmoves with
  | enqueue c _ hopen => exact absurd (hshut.symm.trans hopen) (by decide)
  | lock c _ hopen => exact absurd (hshut.symm.trans hopen) (by decide)
  | enqueueLoad c => exact absurd ((hlocked c rfl).symm.trans hunlocked) (by decide)
  | dequeue c rest hfull => exact absurd (hmail.symm.trans hfull) (List.cons_ne_nil _ _).symm
  | drain _ hunlocked => exact ⟨rfl, hunlocked⟩
  | _ => exact ⟨hmail, hunlocked⟩

theorem drained_step (n : Nat) (cs : List CmdId)
    (hn : Function.update phase t ph' (.client n) = .cancelling cs) :
    s'.mailbox = [] ∧ s'.mailboxLocked = false := by
  have hstays : ∀ ds, phase (.client n) = .cancelling ds →
      s'.mailbox = [] ∧ s'.mailboxLocked = false := fun ds hds => by
    obtain ⟨hmail, hunlocked⟩ := h.drained n ds hds
    exact empty_step h hmoves (h.joined n (by rw [hds]; rfl)).2.2 hmail hunlocked
  by_cases ht : .client n = t
  · subst ht
    rw [Function.update_self] at hn
    generalize phase (.client n) = cur at hmoves hstays
    cases hmoves with
    | quiet _ rest => exact hstays cs hn
    | drain _ hunlocked => exact ⟨rfl, hunlocked⟩
    | cancel c rest => exact hstays _ rfl
    | _ => contradiction
  · exact hstays cs (by rwa [Function.update_of_ne ht] at hn)

theorem destroyed_step (hdone : s'.destroyed = true) :
    s'.joined = true ∧ s'.exited = true ∧ s'.shutdown = true ∧ s'.mailbox = [] ∧
      s'.mailboxLocked = false ∧ ∀ n, (Function.update phase t ph' (.client n)).closing = false := by
  rcases hmoves.destroyed_cases hdone with hbefore | ⟨ht, hcur, rfl, rfl⟩
  · obtain ⟨hjoined, hexited, hshut, hmail, hunlocked, hnone⟩ := h.destroyed hbefore
    obtain ⟨hjoined', hexited', hshut'⟩ := hmoves.grows
    obtain ⟨hmail', hunlocked'⟩ := empty_step h hmoves hshut hmail hunlocked
    refine ⟨hjoined' hjoined, hexited' hexited, hshut' hshut, hmail', hunlocked', fun n => ?_⟩
    by_contra hn
    rcases hmoves.closing_cases (Bool.eq_true_of_not_eq_false hn) with hclosing | ⟨-, -, -, hfirst, -⟩
    · exact absurd (hclosing.symm.trans (hnone n)) (by decide)
    · exact absurd (hjoined.symm.trans hfirst) (by decide)
  · -- the destroyer is in the middle of its call, so it has joined and drained
    obtain ⟨n, rfl⟩ := client_of_ne ht
    have hclosing : (phase (.client n)).closing = true := by rw [hcur]; rfl
    obtain ⟨hjoined, hexited, hshut⟩ := h.joined n hclosing
    obtain ⟨hmail, hunlocked⟩ := h.drained n [] hcur
    refine ⟨hjoined, hexited, hshut, hmail, hunlocked, fun m => ?_⟩
    by_cases hm : m = n
    · rw [hm, Function.update_self]
      rfl
    · rw [Function.update_of_ne fun he => hm (Tid.client.inj he)]
      exact Bool.eq_false_of_not_eq_true fun hother => hm (h.sole m n hother hclosing)

end ClosingFields

theorem closing_step (h : Closing s phase) (hmoves : Moves t s (phase t) s' ph') :
    Closing s' (Function.update phase t ph') where
  exited := exited_step h hmoves
  handling := handling_step h hmoves
  flagged := flagged_step h hmoves
  joined := joined_step h hmoves
  sole := sole_step h hmoves
  drained := drained_step h hmoves
  destroyed := destroyed_step h hmoves
  locked := locked_step h hmoves
  locker := locker_step h hmoves

theorem order_step (hclosing : Closing s phase) (h : InOrder s (phase .engine))
    (hmoves : Moves t s (phase t) s' ph') :
    InOrder s' (Function.update phase t ph' .engine) := by
  obtain ⟨hhandled, hturn⟩ := h
  have hexited := hclosing.exited
  generalize hcur : phase t = cur at hmoves
  cases hmoves with
  | drain _ _ hph =>
    rcases hph with ⟨-, rfl⟩ | ⟨rfl, ht⟩
    · exact ⟨hhandled, by simp⟩
    · -- a destroyer drains behind an engine thread that has returned
      obtain ⟨n, rfl⟩ := client_of_ne ht
      have hgone := hexited.mp (hclosing.joined n (by rw [hcur]; rfl)).2.1
      exact ⟨hhandled, fun cs hcs => by simp [hgone] at hcs⟩
  | _ => constructor <;> grind [Function.update_apply, Hand.turn]

end Account

/-! ## Runs -/

/-- What the mailbox and its logs look like while the threads have these hands. -/
structure Conserved (s : Mail W.State) (phase : Tid → Hand) : Prop where
  counted : Counted s phase
  logged : Logged s phase
  order : InOrder s (phase .engine)
  closing : Closing s phase

/-- What a free hand does not have, a thread had before some hand was freed. -/
theorem of_freed {X : Type} {phase : Tid → Hand} {t u : Tid} {x : X} (f : Hand → X)
    (hu : f (Function.update phase t .free u) = x) (hfree : f .free ≠ x) : f (phase u) = x := by
  by_cases hut : u = t
  · rw [hut, Function.update_self] at hu
    exact absurd hu hfree
  · rwa [Function.update_of_ne hut] at hu

theorem logged_start {S : Type} {s : Mail S} {phase : Tid → Hand} (t : Tid) (h : Logged s phase) :
    Logged s (Function.update phase t .free) where
  enqueued := h.enqueued
  returned := h.returned
  posted := fun u c hu => h.posted u c (of_freed id hu nofun)
  offered := fun u c hu => by
    obtain ⟨henqueued, hreturned, hposted⟩ := h.offered u c (of_freed Hand.offered hu nofun)
    exact ⟨henqueued, hreturned, fun v hv => hposted v (of_freed id hv nofun)⟩

theorem closing_start {S : Type} {s : Mail S} {phase : Tid → Hand} {t : Tid} (h : Closing s phase)
    (hengine : t = .engine → s.exited = false) : Closing s (Function.update phase t .free) where
  exited := by
    by_cases ht : t = .engine
    · rw [ht, Function.update_self, hengine ht]
      exact ⟨nofun, nofun⟩
    · rw [Function.update_of_ne (Ne.symm ht)]
      exact h.exited
  handling := fun u c hu => h.handling u c (of_freed id hu nofun)
  flagged := fun u hu => h.flagged u (of_freed id hu nofun)
  joined := fun n hn => h.joined n (of_freed Hand.closing hn nofun)
  sole := fun m n hm hn =>
    h.sole m n (of_freed Hand.closing hm nofun) (of_freed Hand.closing hn nofun)
  drained := fun n cs hn => h.drained n cs (of_freed id hn nofun)
  destroyed := fun hdone => by
    obtain ⟨hjoined, hexited, hshut, hmail, hunlocked, hnone⟩ := h.destroyed hdone
    refine ⟨hjoined, hexited, hshut, hmail, hunlocked, fun n => ?_⟩
    by_contra hn
    have hclosing := of_freed Hand.closing (Bool.eq_true_of_not_eq_false hn) nofun
    exact absurd (hclosing.symm.trans (hnone n)) (by decide)
  locked := fun u c hu => h.locked u c (of_freed id hu nofun)
  locker := fun u v c d hu hv => h.locker u v c d (of_freed id hu nofun) (of_freed id hv nofun)

/-- A thread that starts a new program has a free hand. -/
theorem conserved_start {s : Mail W.State} {phase : Tid → Hand} {t : Tid} (h : Conserved s phase)
    (hended : Ended (phase t)) (hengine : t = .engine → s.exited = false) :
    Conserved s (Function.update phase t .free) := by
  have hcommands : (phase t).commands = [] := by
    rcases hended with hph | hph | hph <;> rw [hph] <;> rfl
  have hgone : t = .engine → phase t = .free := by
    rintro rfl
    rcases hended with hph | hph | hph
    · exact hph
    · have := h.closing.exited.mpr hph
      rw [hengine rfl] at this
      contradiction
    · exact absurd rfl (h.closing.flagged _ hph).1
  refine ⟨?_, logged_start t h.logged, ?_, closing_start h.closing hengine⟩
  · rw [Counted, commands_update]
    exact Custody.same h.counted hcommands
  · by_cases ht : t = .engine
    · subst ht
      rw [Function.update_self, ← hgone rfl]
      exact h.order
    · rw [Function.update_of_ne (Ne.symm ht)]
      exact h.order

theorem mailboxRule : PhaseRule (fun t => move (W := W) t) Ended Conserved exec starts
    (fun _ _ => True) where
  starts := by
    intro t s p phase h hended hstart
    cases t with
    | engine =>
      obtain ⟨hlive, rfl⟩ := hstart
      exact ⟨.free, conserved_start h hended fun _ => hlive, engineTurn_obeys⟩
    | client n =>
      exact ⟨.free, conserved_start h hended (by simp), clientCall_obeys (by simp) hstart⟩
  effect := fun _ _ _ _ _ _ _ _ h hexec hmove =>
    ⟨counted_step h.counted (exec_moves hexec hmove),
      logged_step h.counted h.logged (exec_moves hexec hmove),
      order_step h.closing h.order (exec_moves hexec hmove),
      closing_step h.closing (exec_moves hexec hmove)⟩

/-- In every run no command is handled or cancelled twice, the engine handles commands in the
order in which they were enqueued, and once `engine_destroy` has returned, every command that was
enqueued or whose post has returned has been handled or cancelled once and the mailbox is empty. -/
theorem mailbox_conserved {rest : W.State} {c : Config (Mail W.State) Tid (MailOp W) MailAns}
    (hrun : RunsTo exec starts (fun _ _ => True) (initial W rest) c) :
    (c.shared.handled ++ c.shared.cancelled).Nodup ∧
      (∀ x ∈ c.shared.handled ++ c.shared.cancelled, x ∈ c.shared.passed) ∧
      c.shared.handled <+: c.shared.enqueued ∧
      (c.shared.destroyed = true → c.shared.mailbox = [] ∧
        ∀ x, x ∈ c.shared.enqueued ∨ x ∈ c.shared.returned →
          (c.shared.handled ++ c.shared.cancelled).count x = 1) := by
  have hinit : Phased (fun t => move (W := W) t) Ended Conserved (initial W rest) := by
    refine ⟨fun _ => .free, ⟨Custody.empty, ?_, ⟨List.prefix_rfl, ?_⟩, ?_⟩, fun _ => .inl rfl⟩
    · exact ⟨by simp [initial], by simp [initial], by simp, by simp⟩
    · intro cs hcs
      obtain rfl := Option.some.inj hcs
      rfl
    · exact ⟨by simp [initial], by simp, by simp, by simp, by simp, by simp, by simp [initial],
        by simp, by simp⟩
  obtain ⟨phase, ⟨hcounted, hlogged, horder, hclosing⟩, -⟩ := phased_runsTo mailboxRule hinit
    (hrun.mono fun _ _ _ _ _ _ => trivial)
  refine ⟨(List.nodup_append.mp hcounted.once).1, fun x hx => hcounted.known x ?_, horder.handled,
    fun hdestroyed => ?_⟩
  · exact List.mem_append_left _ hx
  · obtain ⟨-, hexited, -, hmail, -, hclosed⟩ := hclosing.destroyed hdestroyed
    refine ⟨hmail, fun x hx => ?_⟩
    have hpassed : x ∈ c.shared.passed := hx.elim (hlogged.enqueued x) (hlogged.returned x)
    have hoffered : ∀ t d, (phase t).offered = some d → x ≠ d := by
      rintro t d hd rfl
      obtain ⟨henqueued, hreturned, -⟩ := hlogged.offered t x hd
      exact hx.elim henqueued hreturned
    have hfree : ∀ t, x ∉ (phase t).commands := by
      intro t ht
      -- the engine thread has returned, the destroyer too, and so has the post
      cases t with
      | engine => simp [hclosing.exited.mp hexited] at ht
      | client n =>
        have hopen := hclosed n
        cases hph : phase (.client n) with
        | offering d => exact hoffered (.client n) d (by simp [hph]) (by simpa [hph] using ht)
        | locked d => exact hoffered (.client n) d (by simp [hph]) (by simpa [hph] using ht)
        | handling d => exact absurd (hclosing.handling _ d hph) (by simp)
        | cancelling cs => simp [hph] at hopen
        | _ => simp [hph] at ht
    have hcount := hcounted.count_eq_one hpassed hfree
    simpa [Mail.placed, hmail] using hcount

/-! ## A command handled and a load cancelled by the shutdown -/

/-- An unload, and a load behind it. -/
def twoCommands : CmdId → Engine.Cmd Nat
  | 0 => .unload
  | _ => .load true (some Engine.stubModelPath)

abbrev loadWork : Work := engineWork Engine.countWorld.mlx 1 twoCommands

abbrev LoadMail : Type := Mail loadWork.State

def engineInitial : Engine.Shared Nat :=
  (Engine.initial Engine.countWorld.mlx fun _ => ⟨1, Nat.one_pos⟩).shared

theorem destroy_runs : ∃ c : Config LoadMail Tid (MailOp loadWork) MailAns,
    RunsTo exec starts (fun _ _ => True) (initial loadWork engineInitial) c ∧
      c.shared.handled = [0] ∧ c.shared.enqueued = [0, 1] ∧ c.shared.destroyed = true := by
  let always : MailOp loadWork → LoadMail → Prop := fun _ _ => True
  let runs : Config LoadMail Tid (MailOp loadWork) MailAns → _ → Prop :=
    RunsTo exec starts fun _ _ => True
  have hok : ∀ (c : Config LoadMail Tid (MailOp loadWork) MailAns) (t : Tid),
      (∀ e next, c.threads t = .ask e next → always e c.shared) → True := fun _ _ _ => trivial
  let s₀ : LoadMail := (initial loadWork engineInitial).shared
  let s₁ : LoadMail := { s₀ with passed := [0], mailbox := [0], enqueued := [0], returned := [0] }
  let s₂ : LoadMail := { s₁ with mailbox := [], handled := [0] }
  let announced : Engine.Shared Nat := { engineInitial with loadState := .inProgress }
  let s₃ : LoadMail :=
    { s₂ with
      passed := [1, 0], mailbox := [1], enqueued := [0, 1], returned := [1, 0], rest := announced }
  let s₄ : LoadMail := { s₃ with shutdown := true }
  let s₅ : LoadMail := { s₄ with mailbox := [], cancelled := [1], exited := true }
  let s₆ : LoadMail := { s₅ with joined := true, destroyed := true }
  let joining : Post loadWork Unit := do
    let _ : Unit ← step .joinEngine
    mailboxDrainCancel
    step .destroyed
  have hpost : Alone exec always s₀ (posting 0 (enginePost 0)) s₁ (.done ()) :=
    .step () trivial ⟨by simp [s₀, initial], rfl⟩ (.step false trivial ⟨rfl, rfl⟩
      (.step true trivial ⟨rfl, rfl, rfl⟩ (.step () trivial rfl (.refl _ _))))
  have hturn : Alone exec always s₁ engineTurn s₂ (.done ()) :=
    .step false trivial ⟨rfl, rfl⟩ (.step (some 0) trivial ⟨rfl, rfl⟩
      -- the four steps of the unload leave an engine without a model as it is
      (.step () trivial ⟨engineInitial, rfl, rfl⟩ (.step () trivial ⟨engineInitial, rfl, rfl⟩
        (.step () trivial ⟨engineInitial, rfl, rfl⟩ (.step () trivial ⟨engineInitial, rfl, rfl⟩
          (.step () trivial rfl (.refl _ _)))))))
  have hload : Alone exec always s₂ (posting 1 (enginePostLoad 1)) s₃ (.done ()) :=
    .step () trivial ⟨by simp [s₂, s₁], rfl⟩ (.step false trivial ⟨rfl, rfl⟩
      (.step true trivial ⟨rfl, rfl, rfl⟩ (.step () trivial ⟨engineInitial, rfl, rfl⟩
        (.step () trivial ⟨announced, rfl, rfl⟩ (.step () trivial rfl
          (.step () trivial rfl (.refl _ _)))))))
  have hflag : Alone exec always s₃ engineDestroy s₄ joining :=
    .step () trivial rfl (.step () trivial ⟨rfl, announced, rfl⟩ (.refl _ _))
  have hexit : Alone exec always s₄ engineTurn s₅ (.done ()) :=
    .step true trivial ⟨rfl, rfl⟩ (.step [1] trivial ⟨rfl, rfl, rfl⟩
      (.step () trivial rfl (.step () trivial rfl (.refl _ _))))
  have hjoin : Alone exec always s₅ joining s₆ (.done ()) :=
    .step () trivial ⟨rfl, rfl, rfl⟩ (.step [] trivial ⟨rfl, rfl, rfl⟩
      (.step () trivial rfl (.refl _ _)))
  let c₁ := (initial loadWork engineInitial).resume (.client 0) s₁ (.done ())
  let c₂ := c₁.resume .engine s₂ (.done ())
  let c₃ := c₂.resume (.client 0) s₃ (.done ())
  let c₄ := c₃.resume (.client 1) s₄ joining
  let c₅ := c₄.resume .engine s₅ (.done ())
  have h₁ : runs (initial loadWork engineInitial) c₁ := runsTo_start hok rfl (.post 0) hpost
  have h₂ : runs c₁ c₂ := runsTo_start hok rfl ⟨rfl, rfl⟩ hturn
  have h₃ : runs c₂ c₃ := runsTo_start hok rfl (.postLoad 1) hload
  have h₄ : runs c₃ c₄ := runsTo_start hok rfl .destroy hflag
  have h₅ : runs c₄ c₅ := runsTo_start hok rfl ⟨rfl, rfl⟩ hexit
  have h₆ : runs c₅ (c₅.resume (.client 1) s₆ (.done ())) := runsTo_alone hok hjoin rfl rfl
  exact ⟨_, ((((h₁.trans h₂).trans h₃).trans h₄).trans h₅).trans h₆, rfl, rfl, rfl⟩

/-- The load that was enqueued when the engine shut down has been cancelled once. -/
theorem mailbox_conserved_destroyed :
    ∃ c : Config LoadMail Tid (MailOp loadWork) MailAns, c.shared.mailbox = [] ∧
      (c.shared.handled ++ c.shared.cancelled).count 0 = 1 ∧
        (c.shared.handled ++ c.shared.cancelled).count 1 = 1 := by
  obtain ⟨c, hrun, -, henqueued, hdestroyed⟩ := destroy_runs
  obtain ⟨hmail, hcount⟩ := (mailbox_conserved hrun).2.2.2 hdestroyed
  exact ⟨c, hmail, hcount 0 (.inl (by simp [henqueued])), hcount 1 (.inl (by simp [henqueued]))⟩

end Mlxd.Mailbox
