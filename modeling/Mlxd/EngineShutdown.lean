import Mlxd.EngineFlight
import Mlxd.EngineTerminal

/-!
# Shutdown and a full stream

A shutdown cancels the stream in flight at that moment. A request recorded in flight later
finds the shutdown flag at its first check, and before that check it pushes at most the two
chunks of a failure. While these fit the ring, no push waits once shutdown is signalled.
-/
namespace Mlxd.Engine

open Mlxd.Lib Program

variable {M : Mlx}

/-! ## Steps -/

/-- The stream is cancelled, or its ring has room for one more chunk. -/
def Roomy (s : Shared M.Real) (i : StreamId) : Prop :=
  (s.streams i).cancelled = true ∨ (s.streams i).ring.len < (s.streams i).ring.cap

/-- Where the command is, and what its phase says about its stream. -/
def FlightHolds (i : StreamId) (s : Shared M.Real) (t : Tid) (ph : FlightPhase) : Prop :=
  (s.signalled = true → s.shutdown = true) ∧
  match ph with
  | .idle =>
    (s.posted i = false ∧ queued i s = 0 ∧ (s.streams i).ring.len = 0) ∨
    (s.posted i = true ∧ queued i s = 1 ∧ (s.streams i).ring.len = 0) ∨
    (s.posted i = true ∧ queued i s = 0)
  | .held => s.posted i = true ∧ queued i s = 0 ∧ (s.streams i).ring.len = 0
  | .start => s.posted i = true ∧ queued i s = 0 ∧ (s.streams i).ring.len = 0 ∧
    t = .engine ∧ s.inflight = some i
  | .errored => s.posted i = true ∧ queued i s = 0 ∧ t = .engine ∧ s.inflight = some i ∧
    (s.signalled = true → Roomy s i)
  | .checked => s.posted i = true ∧ queued i s = 0 ∧ t = .engine ∧ s.inflight = some i ∧
    (s.signalled = true → (s.streams i).cancelled = true)
  | .spent => s.posted i = true ∧ queued i s = 0
  | .lost => False

section Steps

variable {i : StreamId} {s s' : Shared M.Real} {t : Tid} {ph ph' : FlightPhase}

/-- Reads, cancellations and everything about other streams. -/
structure Calm (i : StreamId) (s s' : Shared M.Real) : Prop where
  post : s'.posted i = s.posted i
  inMailbox : queued i s' = queued i s
  inflight : s'.inflight = s.inflight
  signalled : s'.signalled = s.signalled
  shutdown : s.shutdown = true → s'.shutdown = true
  cancelled : (s.streams i).cancelled = true → (s'.streams i).cancelled = true
  len : (s'.streams i).ring.len ≤ (s.streams i).ring.len
  cap : (s'.streams i).ring.cap = (s.streams i).ring.cap

theorem Calm.roomy (h : Calm i s s') (hs : Roomy s i) : Roomy s' i := by
  rcases hs with hs | hs
  · exact .inl (h.cancelled hs)
  · refine .inr ?_
    rw [h.cap]
    exact lt_of_le_of_lt h.len hs

theorem Calm.empty (h : Calm i s s') (hs : (s.streams i).ring.len = 0) :
    (s'.streams i).ring.len = 0 := Nat.le_zero.mp (hs ▸ h.len)

theorem Calm.holds (h : Calm i s s') (hs : FlightHolds i s t ph) : FlightHolds i s' t ph := by
  refine ⟨fun hsig => h.shutdown (hs.1 (h.signalled ▸ hsig)), ?_⟩
  obtain ⟨-, hs⟩ := hs
  cases ph with
  | idle =>
    simp only [h.post, h.inMailbox] at hs ⊢
    exact hs.imp (fun ⟨a, b, c⟩ => ⟨a, b, h.empty c⟩)
      (Or.imp_left fun ⟨a, b, c⟩ => ⟨a, b, h.empty c⟩)
  | held =>
    simp only [h.post, h.inMailbox] at hs ⊢
    exact ⟨hs.1, hs.2.1, h.empty hs.2.2⟩
  | start =>
    simp only [h.post, h.inMailbox, h.inflight] at hs ⊢
    exact ⟨hs.1, hs.2.1, h.empty hs.2.2.1, hs.2.2.2⟩
  | errored =>
    simp only [h.post, h.inMailbox, h.inflight, h.signalled] at hs ⊢
    exact ⟨hs.1, hs.2.1, hs.2.2.1, hs.2.2.2.1, fun hsig => h.roomy (hs.2.2.2.2 hsig)⟩
  | checked =>
    simp only [h.post, h.inMailbox, h.inflight, h.signalled] at hs ⊢
    exact ⟨hs.1, hs.2.1, hs.2.2.1, hs.2.2.2.1, fun hsig => h.cancelled (hs.2.2.2.2 hsig)⟩
  | spent =>
    simp only [h.post, h.inMailbox] at hs ⊢
    exact hs
  | lost => exact hs

theorem Calm.refl (s : Shared M.Real) : Calm i s s :=
  ⟨rfl, rfl, rfl, rfl, id, id, le_refl _, rfl⟩

theorem calm_setStream {j : StreamId} {st : Stream M.Real}
    (h : j = i → ((s.streams i).cancelled = true → st.cancelled = true) ∧
      st.ring.len ≤ (s.streams i).ring.len ∧ st.ring.cap = (s.streams i).ring.cap) :
    Calm i s (setStream s j st) := by
  by_cases hj : j = i
  · subst hj
    obtain ⟨hc, hl, hcap⟩ := h rfl
    exact ⟨rfl, rfl, rfl, rfl, id, by rwa [setStream_self], by rwa [setStream_self],
      by rwa [setStream_self]⟩
  · have hsame := setStream_other (i := i) s st hj
    exact ⟨rfl, rfl, rfl, rfl, id, by rw [hsame]; exact id, by rw [hsame], by rw [hsame]⟩

theorem execGen_aside {j : StreamId} (hj : j ≠ i) {op : GenOp M} {r : GenAns op}
    (h : execGen j op s r s') : Calm i s s' := by
  cases op with
  | push c =>
    obtain ⟨st, -, rfl⟩ := h
    exact calm_setStream fun he => absurd he hj
  | finishCancelled =>
    obtain rfl := h
    exact calm_setStream fun he => absurd he hj
  | loadShutdown failing => exact h.2 ▸ Calm.refl _
  | loadCancelled => exact h.2 ▸ Calm.refl _
  | _ => exact h ▸ Calm.refl _

theorem calm_streamNext {j : StreamId} {forever : Bool} {st : Stream M.Real}
    {o : Option (Chunk M.Real)} (h : streamNext (s.streams j) forever = some (st, o)) :
    Calm i s (setStream s j st) := by
  refine calm_setStream fun hj => ?_
  subst hj
  simp only [streamNext] at h
  split at h
  · split at h
    · contradiction
    · obtain ⟨rfl, -⟩ := Prod.mk.inj (Option.some.inj h)
      exact ⟨id, le_refl _, rfl⟩
  · obtain ⟨rfl, -⟩ := Prod.mk.inj (Option.some.inj h)
    exact ⟨id, Nat.sub_le _ _, rfl⟩

/-- The error of a failing request meets a cancelled stream or one that has room for its
terminal chunk too, once shutdown is signalled. -/
def ErrorHasRoom (i : StreamId) : EngOp M → Shared M.Real → Prop
  | .gen j (.push (.error _ _)), s => j = i → s.signalled = true →
    (s.streams i).cancelled = true ∨ 2 ≤ (s.streams i).ring.cap
  | _, _ => True

/-- An accepted error leaves a fresh stream with that one chunk. -/
theorem error_roomy {c : Chunk M.Real} {st : Stream M.Real}
    (h : streamPush (s.streams i) c = some (st, true)) (hempty : (s.streams i).ring.len = 0)
    (hok : (s.streams i).cancelled = true ∨ 2 ≤ (s.streams i).ring.cap) :
    Roomy (setStream s i st) i := by
  simp only [streamPush] at h
  split at h
  · simp at h
  · rename_i hc
    split at h
    · obtain ⟨rfl, -⟩ := Prod.mk.inj (Option.some.inj h)
      refine .inr ?_
      rw [setStream_self]
      have hcap := hok.resolve_left hc
      simp only [RingBuffer.push]
      omega
    · contradiction

theorem cancelled_of_push {st st' : Stream M.Real} {c : Chunk M.Real} {ok : Bool}
    (h : streamPush st c = some (st', ok)) (hc : st.cancelled = true) : st'.cancelled = true := by
  simp only [streamPush, hc, ↓reduceIte, Option.some.injEq, Prod.mk.injEq] at h
  rw [← h.1]
  exact hc

/-- A step of the generate path by the engine. -/
theorem execGen_flies {op : GenOp M} {r : GenAns op} (hok : ErrorHasRoom i (.gen i op) s)
    (h : execGen i op s r s') (hph : FlightHolds i s t ph)
    (hmove : genFlight ph op r = some ph') : FlightHolds i s' t ph' := by
  obtain ⟨hsig, hph⟩ := hph
  cases ph with
  | idle => contradiction
  | lost => exact hph.elim
  | held =>
    cases op with
    | finishCancelled =>
      obtain rfl := h
      obtain rfl := Option.some.inj hmove
      exact ⟨hsig, hph.1, hph.2.1⟩
    | _ => contradiction
  | start =>
    obtain ⟨hp, hq, hempty, ht, hin⟩ := hph
    cases op with
    | push c =>
      obtain ⟨st, hpush, rfl⟩ := h
      cases c with
      | token id logprob => contradiction
      | done reason =>
        obtain rfl := Option.some.inj hmove
        exact ⟨hsig, hp, hq⟩
      | error kind message =>
        obtain rfl := Option.some.inj hmove
        cases r with
        | false => exact ⟨hsig, hp, hq⟩
        | true =>
          exact ⟨hsig, hp, hq, ht, hin, fun hs => error_roomy hpush hempty (hok rfl hs)⟩
    | finishCancelled =>
      obtain rfl := h
      obtain rfl := Option.some.inj hmove
      exact ⟨hsig, hp, hq⟩
    | loadShutdown failing =>
      obtain ⟨rfl, rfl⟩ := h
      obtain rfl := Option.some.inj hmove
      cases hshut : s'.shutdown with
      | true => exact ⟨hsig, hp, hq⟩
      | false =>
        refine ⟨hsig, hp, hq, ht, hin, fun hs => ?_⟩
        rw [hsig hs] at hshut
        contradiction
    | loadCancelled =>
      obtain rfl := Option.some.inj hmove
      exact h.2 ▸ ⟨hsig, hp, hq, hempty, ht, hin⟩
    | _ =>
      obtain rfl := Option.some.inj hmove
      exact h ▸ ⟨hsig, hp, hq, hempty, ht, hin⟩
  | errored =>
    obtain ⟨hp, hq, ht, hin, hroom⟩ := hph
    cases op with
    | push c =>
      obtain ⟨st, hpush, rfl⟩ := h
      cases c with
      | done reason =>
        obtain rfl := Option.some.inj hmove
        exact ⟨hsig, hp, hq⟩
      | _ => contradiction
    | finishCancelled =>
      obtain rfl := h
      obtain rfl := Option.some.inj hmove
      exact ⟨hsig, hp, hq, ht, hin, fun _ => .inl (by rw [setStream_self]; rfl)⟩
    | loadShutdown failing =>
      obtain rfl := Option.some.inj hmove
      exact h.2 ▸ ⟨hsig, hp, hq, ht, hin, hroom⟩
    | loadCancelled =>
      obtain rfl := Option.some.inj hmove
      exact h.2 ▸ ⟨hsig, hp, hq, ht, hin, hroom⟩
    | _ =>
      obtain rfl := Option.some.inj hmove
      exact h ▸ ⟨hsig, hp, hq, ht, hin, hroom⟩
  | checked =>
    obtain rfl := Option.some.inj hmove
    obtain ⟨hp, hq, ht, hin, hcancel⟩ := hph
    cases op with
    | push c =>
      obtain ⟨st, hpush, rfl⟩ := h
      refine ⟨hsig, hp, hq, ht, hin, fun hs => ?_⟩
      rw [setStream_self]
      exact cancelled_of_push hpush (hcancel hs)
    | finishCancelled =>
      obtain rfl := h
      exact ⟨hsig, hp, hq, ht, hin, fun _ => by rw [setStream_self]; rfl⟩
    | loadShutdown failing => exact h.2 ▸ ⟨hsig, hp, hq, ht, hin, hcancel⟩
    | loadCancelled => exact h.2 ▸ ⟨hsig, hp, hq, ht, hin, hcancel⟩
    | _ => exact h ▸ ⟨hsig, hp, hq, ht, hin, hcancel⟩
  | spent =>
    cases op with
    | push c => contradiction
    | finishCancelled =>
      obtain rfl := h
      obtain rfl := Option.some.inj hmove
      exact ⟨hsig, hph⟩
    | loadShutdown failing =>
      obtain rfl := Option.some.inj hmove
      exact h.2 ▸ ⟨hsig, hph⟩
    | loadCancelled =>
      obtain rfl := Option.some.inj hmove
      exact h.2 ▸ ⟨hsig, hph⟩
    | _ =>
      obtain rfl := Option.some.inj hmove
      exact h ▸ ⟨hsig, hph⟩

/-- The steps on the command of stream `i`, its place and what is in flight. -/
inductive TouchesFlight (i : StreamId) : EngOp M → Prop
  | gen (op : GenOp M) : TouchesFlight i (.gen i op)
  | release : TouchesFlight i (.release i .command)
  | submit {cmd : Cmd M.Real} (h : isGenerate i cmd = true) : TouchesFlight i (.submit cmd)
  | enqueue {cmd : Cmd M.Real} (h : isGenerate i cmd = true) : TouchesFlight i (.enqueue cmd)
  | dequeue : TouchesFlight i .dequeue
  | drainAll : TouchesFlight i .drainAll
  | setInflight (j : Option StreamId) : TouchesFlight i (.setInflight j)
  | cancelInflight : TouchesFlight i .cancelInflight

/-- All other steps are calm, whoever takes them. -/
theorem exec_calm {op : EngOp M} {r : EngAns op} (h : exec op s r s')
    (hmove : flightMove i t ph op r = some ph') : (Calm i s s' ∧ ph' = ph) ∨ TouchesFlight i op := by
  cases op with
  | gen j gop =>
    by_cases hj : j = i
    · subst hj
      exact .inr (.gen gop)
    · simp only [flightMove, hj, ↓reduceIte, Option.some.injEq] at hmove
      exact .inl ⟨execGen_aside hj h, hmove.symm⟩
  | release j owner =>
    obtain rfl := h
    cases owner with
    | reclaimed =>
      refine .inl ⟨?_, (Option.some.inj hmove).symm⟩
      exact calm_setStream fun hj => by rw [hj]; exact ⟨id, le_refl _, rfl⟩
    | command =>
      by_cases hj : j = i
      · subst hj
        exact .inr .release
      · simp only [flightMove, hj, ↓reduceIte, Option.some.injEq] at hmove
        have hcalm : Calm i s (setStream s j (streamRelease (s.streams j))) :=
          calm_setStream fun he => absurd he hj
        exact .inl ⟨⟨hcalm.post, hcalm.inMailbox, hcalm.inflight, hcalm.signalled, hcalm.shutdown,
          hcalm.cancelled, hcalm.len, hcalm.cap⟩, hmove.symm⟩
  | submit cmd =>
    by_cases hcmd : isGenerate i cmd = true
    · exact .inr (.submit hcmd)
    · simp only [flightMove, hcmd, Bool.false_eq_true, ↓reduceIte, Option.some.injEq] at hmove
      refine .inl ⟨?_, hmove.symm⟩
      cases cmd with
      | generate j cmd =>
        have hj : ¬ i = j := by
          rintro rfl
          simp [isGenerate] at hcmd
        simp only [exec, submitCmd] at h
        split at h
        · contradiction
        · obtain rfl := Option.some.inj h
          exact ⟨by simp [hj], rfl, rfl, rfl, id, id, le_refl _, rfl⟩
      | _ => exact Option.some.inj h ▸ Calm.refl _
  | enqueue cmd =>
    by_cases hcmd : isGenerate i cmd = true
    · exact .inr (.enqueue hcmd)
    · simp only [flightMove, hcmd, Bool.false_eq_true, ↓reduceIte, Option.some.injEq] at hmove
      obtain ⟨-, h⟩ := h
      split at h
      · exact .inl ⟨h.2 ▸ Calm.refl _, hmove.symm⟩
      · obtain ⟨-, rfl⟩ := h
        refine .inl ⟨⟨rfl, ?_, rfl, rfl, id, id, le_refl _, rfl⟩, hmove.symm⟩
        simp [queued_append rfl, hcmd]
  | lockForLoad =>
    obtain ⟨-, h⟩ := h
    split at h
    · exact .inl ⟨h.2 ▸ Calm.refl _, (Option.some.inj hmove).symm⟩
    · obtain ⟨-, rfl⟩ := h
      exact .inl ⟨⟨rfl, rfl, rfl, rfl, id, id, le_refl _, rfl⟩, (Option.some.inj hmove).symm⟩
  | enqueueLoad path =>
    obtain rfl := h
    refine .inl ⟨⟨rfl, ?_, rfl, rfl, id, id, le_refl _, rfl⟩, (Option.some.inj hmove).symm⟩
    simp [queued, isGenerate]
  | dequeue => exact .inr .dequeue
  | drainAll => exact .inr .drainAll
  | setInflight j => exact .inr (.setInflight j)
  | cancelInflight => exact .inr .cancelInflight
  | storeShutdown =>
    obtain rfl := h
    exact .inl ⟨⟨rfl, rfl, rfl, rfl, fun _ => rfl, id, le_refl _, rfl⟩,
      (Option.some.inj hmove).symm⟩
  | streamCancel j =>
    obtain rfl := h
    refine .inl ⟨calm_setStream fun hj => ?_, (Option.some.inj hmove).symm⟩
    rw [hj]
    exact ⟨fun _ => rfl, le_refl _, rfl⟩
  | streamNext j forever =>
    obtain ⟨st, hst, rfl⟩ := h
    exact .inl ⟨calm_streamNext hst, (Option.some.inj hmove).symm⟩
  | loadShutdown => exact .inl ⟨h.2 ▸ Calm.refl _, (Option.some.inj hmove).symm⟩
  | loadLoadState => exact .inl ⟨h.2 ▸ Calm.refl _, (Option.some.inj hmove).symm⟩
  | readModel => exact .inl ⟨h.2 ▸ Calm.refl _, (Option.some.inj hmove).symm⟩
  | joinEngine => exact .inl ⟨h.2 ▸ Calm.refl _, (Option.some.inj hmove).symm⟩
  | engineModelLoad path => exact .inl ⟨h ▸ Calm.refl _, (Option.some.inj hmove).symm⟩
  | _ =>
    obtain rfl := h
    exact .inl ⟨⟨rfl, rfl, rfl, rfl, id, id, le_refl _, rfl⟩, (Option.some.inj hmove).symm⟩

/-- Signalling a shutdown cancels what is in flight. -/
theorem cancelInflight_holds (hph : FlightHolds i s t ph) :
    FlightHolds i { cancelStreamOf s s.inflight with signalled := s.shutdown } t ph := by
  obtain ⟨-, hph⟩ := hph
  have hcalm : Calm i s (cancelStreamOf s s.inflight) := by
    cases hin : s.inflight with
    | none => exact Calm.refl _
    | some j => exact calm_setStream fun hj => by rw [hj]; exact ⟨fun _ => rfl, le_refl _, rfl⟩
  have hshut : (cancelStreamOf s s.inflight).shutdown = s.shutdown := by
    cases s.inflight <;> rfl
  have hcancel : s.inflight = some i →
      ((cancelStreamOf s s.inflight).streams i).cancelled = true := by
    intro hin
    rw [hin]
    simp only [cancelStreamOf, setStream_self]
    rfl
  have hpost := hcalm.post
  have hmail := hcalm.inMailbox
  have hflight := hcalm.inflight
  refine ⟨fun hs => hshut.trans hs, ?_⟩
  cases ph with
  | idle =>
    exact hph.imp (fun ⟨a, b, c⟩ => ⟨hpost.trans a, hmail.trans b, hcalm.empty c⟩)
      (Or.imp (fun ⟨a, b, c⟩ => ⟨hpost.trans a, hmail.trans b, hcalm.empty c⟩)
        fun ⟨a, b⟩ => ⟨hpost.trans a, hmail.trans b⟩)
  | held => exact ⟨hpost.trans hph.1, hmail.trans hph.2.1, hcalm.empty hph.2.2⟩
  | start =>
    obtain ⟨a, b, c, ht, hin⟩ := hph
    exact ⟨hpost.trans a, hmail.trans b, hcalm.empty c, ht, hflight.trans hin⟩
  | errored =>
    obtain ⟨a, b, ht, hin, -⟩ := hph
    exact ⟨hpost.trans a, hmail.trans b, ht, hflight.trans hin, fun _ => .inl (hcancel hin)⟩
  | checked =>
    obtain ⟨a, b, ht, hin, -⟩ := hph
    exact ⟨hpost.trans a, hmail.trans b, ht, hflight.trans hin, fun _ => hcancel hin⟩
  | spent => exact ⟨hpost.trans hph.1, hmail.trans hph.2⟩
  | lost => exact hph

/-- The command in the mailbox is with nobody. -/
theorem flight_queued (h : FlightHolds i s t ph) (hq : 0 < queued i s) :
    ph = .idle ∧ queued i s = 1 ∧ s.posted i = true ∧ (s.streams i).ring.len = 0 := by
  obtain ⟨-, h⟩ := h
  cases ph with
  | idle =>
    rcases h with ⟨-, h0, -⟩ | ⟨hp, h1, hempty⟩ | ⟨-, h0⟩
    · omega
    · exact ⟨rfl, h1, hp, hempty⟩
    · omega
  | held => exact absurd h.2.1 (by omega)
  | start => exact absurd h.2.1 (by omega)
  | errored => exact absurd h.2.1 (by omega)
  | checked => exact absurd h.2.1 (by omega)
  | spent => exact absurd h.2 (by omega)
  | lost => exact h.elim

/-- The command that is with somebody is posted and not in the mailbox. -/
theorem flight_away (h : FlightHolds i s t ph) (haway : ph ≠ .idle) :
    s.posted i = true ∧ queued i s = 0 := by
  obtain ⟨-, h⟩ := h
  cases ph with
  | idle => exact absurd rfl haway
  | spent => exact h
  | lost => exact h.elim
  | _ => exact ⟨h.1, h.2.1⟩

theorem queued_dequeue {cmd : Cmd M.Real} {rest : List (Cmd M.Real)}
    (hmail : s.mailbox = cmd :: rest) :
    queued i s = queued i { s with mailbox := rest, loading := cmd.accepted } +
      if isGenerate i cmd = true then 1 else 0 := by
  simp only [queued, hmail, List.countP_cons]

/-- Another command leaves the mailbox. -/
theorem calm_dequeue {cmd : Cmd M.Real} {rest : List (Cmd M.Real)} (hmail : s.mailbox = cmd :: rest)
    (hcmd : ¬ isGenerate i cmd = true) :
    Calm i s { s with mailbox := rest, loading := cmd.accepted } := by
  have hcount := queued_dequeue (i := i) hmail
  rw [if_neg hcmd] at hcount
  exact ⟨rfl, hcount.symm, rfl, rfl, id, id, le_refl _, rfl⟩

theorem calm_drain (hq : queued i s = 0) : Calm i s { s with mailbox := [] } :=
  ⟨rfl, hq.symm, rfl, rfl, id, id, le_refl _, rfl⟩

/-- The engine takes a command, maybe that of stream `i`. -/
theorem dequeue_flies {o : Option (Cmd M.Real)} (h : exec .dequeue s o s')
    (hph : FlightHolds i s t ph) (hmove : flightMove i t ph (.dequeue : EngOp M) o = some ph') :
    FlightHolds i s' t ph' := by
  rcases dequeue_cases h.2 with ⟨rfl, rfl⟩ | ⟨cmd, rest, rfl, hmail, rfl⟩
  · obtain rfl := Option.some.inj hmove
    exact hph
  · by_cases hcmd : isGenerate i cmd = true
    · have hcount := queued_dequeue (i := i) hmail
      rw [if_pos hcmd] at hcount
      obtain ⟨rfl, hone, hp, hempty⟩ := flight_queued hph (by omega)
      simp only [flightMove, Option.any_some, hcmd, ↓reduceIte, Option.some.injEq] at hmove
      obtain rfl := hmove
      exact ⟨hph.1, hp, by omega, hempty⟩
    · simp only [flightMove, Option.any_some, hcmd, Bool.false_eq_true, ↓reduceIte,
        Option.some.injEq] at hmove
      obtain rfl := hmove
      exact (calm_dequeue hmail hcmd).holds hph

/-- The engine notes the stream it serves, or that it serves none. -/
theorem setInflight_flies {j : Option StreamId} {r : EngAns (.setInflight j : EngOp M)}
    (h : exec (.setInflight j) s r s') (hph : FlightHolds i s t ph)
    (hmove : flightMove i t ph (.setInflight j : EngOp M) r = some ph') :
    FlightHolds i s' t ph' := by
  obtain ⟨-, rfl⟩ := h
  obtain ⟨hsig, hph⟩ := hph
  cases t with
  | client n => contradiction
  | engine =>
    cases ph with
    | idle =>
      obtain rfl := Option.some.inj hmove
      exact ⟨hsig, hph⟩
    | held =>
      simp only [flightMove, Option.ite_none_right_eq_some, Option.some.injEq] at hmove
      obtain ⟨rfl, rfl⟩ := hmove
      exact ⟨hsig, hph.1, hph.2.1, hph.2.2, rfl, rfl⟩
    | lost => exact hph.elim
    | spent =>
      simp only [flightMove, Option.ite_none_right_eq_some, Option.some.injEq] at hmove
      obtain ⟨rfl, rfl⟩ := hmove
      exact ⟨hsig, hph⟩
    | _ =>
      simp only [flightMove, Option.ite_none_right_eq_some, Option.some.injEq] at hmove
      obtain ⟨rfl, rfl⟩ := hmove
      exact ⟨hsig, hph.1, hph.2.1⟩

/-- A step of the thread that has the command, or of any thread while nobody has it. -/
theorem exec_flies_own {op : EngOp M} {r : EngAns op} (hok : ErrorHasRoom i op s)
    (h : exec op s r s') (hph : FlightHolds i s t ph)
    (hmove : flightMove i t ph op r = some ph') : FlightHolds i s' t ph' := by
  rcases exec_calm h hmove with ⟨hcalm, rfl⟩ | htouch
  · exact hcalm.holds hph
  cases htouch with
  | gen gop =>
    rw [flightMove, if_pos rfl] at hmove
    exact execGen_flies hok h hph hmove
  | release =>
    obtain rfl := h
    simp only [flightMove, ↓reduceIte] at hmove
    split at hmove
    · contradiction
    · rename_i haway
      split at hmove
      · rename_i hlost
        subst hlost
        exact hph.2.elim
      · obtain rfl := Option.some.inj hmove
        have haside : s.posted i = true ∧ queued i s = 0 := flight_away hph haway
        exact ⟨hph.1, .inr (.inr haside)⟩
  | @submit cmd hcmd =>
    simp only [flightMove, hcmd, ↓reduceIte, Option.ite_none_right_eq_some, Option.some.injEq] at hmove
    obtain ⟨rfl, rfl⟩ := hmove
    cases cmd with
    | generate j cmd =>
      obtain rfl : j = i := by simpa [isGenerate] using hcmd
      simp only [exec, submitCmd] at h
      split at h
      · contradiction
      · rename_i hnew
        obtain rfl := Option.some.inj h
        refine ⟨hph.1, ?_⟩
        rcases hph.2 with ⟨-, hq, hempty⟩ | ⟨hp, -⟩ | ⟨hp, -⟩
        · exact ⟨by simp, hq, hempty⟩
        · exact absurd hp hnew
        · exact absurd hp hnew
    | _ => simp [isGenerate] at hcmd
  | @enqueue cmd hcmd =>
    simp only [flightMove, hcmd, ↓reduceIte, Option.ite_none_right_eq_some, Option.some.injEq] at hmove
    obtain ⟨rfl, rfl⟩ := hmove
    obtain ⟨hsig, hp, hq, hempty⟩ := hph
    obtain ⟨-, h⟩ := h
    split at h
    · obtain ⟨rfl, rfl⟩ := h
      exact ⟨hsig, hp, hq, hempty⟩
    · obtain ⟨rfl, rfl⟩ := h
      exact ⟨hsig, .inr (.inl ⟨hp, by simp [queued_append rfl, hq, hcmd], hempty⟩)⟩
  | dequeue => exact dequeue_flies h hph hmove
  | drainAll =>
    obtain ⟨-, rfl, rfl⟩ := h
    simp only [flightMove] at hmove
    split at hmove
    · rename_i hzero
      obtain rfl := Option.some.inj hmove
      exact (calm_drain hzero).holds hph
    · rename_i hone
      have hqueued : 0 < queued i s := by rw [queued, hone]; exact Nat.one_pos
      obtain ⟨rfl, -, hp, hempty⟩ := flight_queued hph hqueued
      obtain rfl := Option.some.inj hmove
      exact ⟨hph.1, hp, rfl, hempty⟩
    · rename_i hzero hone
      exact absurd (flight_queued hph (Nat.pos_of_ne_zero hzero)).2.1 hone
  | setInflight j => exact setInflight_flies h hph hmove
  | cancelInflight =>
    obtain ⟨-, rfl⟩ := h
    obtain rfl := Option.some.inj hmove
    exact cancelInflight_holds hph

/-- A step of any other thread while one has the command. -/
theorem exec_flies_other {who : Tid} {op : EngOp M} {r : EngAns op} (ht : t ≠ who)
    (h : exec op s r s') (hph : FlightHolds i s who ph) (haway : ph ≠ .idle)
    (hmove : flightMove i t .idle op r = some ph') : ph' = .idle ∧ FlightHolds i s' who ph := by
  rcases exec_calm h hmove with ⟨hcalm, rfl⟩ | htouch
  · exact ⟨rfl, hcalm.holds hph⟩
  obtain ⟨hp, hq⟩ := flight_away hph haway
  cases htouch with
  | gen gop => simp [flightMove, genFlight] at hmove
  | release => simp [flightMove] at hmove
  | @submit cmd hcmd =>
    cases cmd with
    | generate j cmd =>
      obtain rfl : j = i := by simpa [isGenerate] using hcmd
      simp [exec, submitCmd, hp] at h
    | _ => simp [isGenerate] at hcmd
  | @enqueue cmd hcmd => simp [flightMove, hcmd] at hmove
  | dequeue =>
    rcases dequeue_cases h.2 with ⟨rfl, rfl⟩ | ⟨cmd, rest, rfl, hmail, rfl⟩
    · exact ⟨(Option.some.inj hmove).symm, hph⟩
    · have hcmd : ¬ isGenerate i cmd = true := by
        intro hcmd
        have hcount := queued_dequeue (i := i) hmail
        rw [if_pos hcmd] at hcount
        omega
      simp only [flightMove, Option.any_some, hcmd, Bool.false_eq_true, ↓reduceIte,
        Option.some.injEq] at hmove
      exact ⟨hmove.symm, (calm_dequeue hmail hcmd).holds hph⟩
  | drainAll =>
    obtain ⟨-, rfl, rfl⟩ := h
    have hcalm := calm_drain hq
    rw [queued] at hq
    simp only [flightMove, hq, Option.some.injEq] at hmove
    exact ⟨hmove.symm, hcalm.holds hph⟩
  | setInflight j =>
    obtain ⟨-, rfl⟩ := h
    cases t with
    | client n => contradiction
    | engine =>
      obtain rfl := Option.some.inj hmove
      refine ⟨rfl, hph.1, ?_⟩
      obtain ⟨-, hph⟩ := hph
      cases ph with
      | start => exact absurd hph.2.2.2.1.symm ht
      | errored => exact absurd hph.2.2.1.symm ht
      | checked => exact absurd hph.2.2.1.symm ht
      | _ => exact hph
  | cancelInflight =>
    obtain ⟨-, rfl⟩ := h
    obtain rfl := Option.some.inj hmove
    exact ⟨rfl, cancelInflight_holds hph⟩

end Steps

/-! ## Runs -/

/-- The next step of a thread meets the condition for stream `i`. -/
def ErrorsHaveRoom (i : StreamId) (c : EngConfig M) (t : Tid) : Prop :=
  ∀ op next, c.threads t = .ask op next → ErrorHasRoom i op c.shared

theorem flightRule (i : StreamId) (chunk : Nat) : TokenRule (flightMove (M := M) i) .idle Landed
    (FlightHolds i) exec (starts chunk) (ErrorsHaveRoom i) (ErrorHasRoom i) where
  guard := fun _ _ op next hok hask => hok op next hask
  anyone := fun _ _ _ h => h
  done := by
    rintro s t ph hph (rfl | rfl)
    · rfl
    · exact hph.2.elim
  starts := by
    intro t s p h
    cases t with
    | engine =>
      obtain ⟨-, rfl⟩ := h
      exact engineTurn_lands chunk
    | client n => exact clientCall_lands h
  own := fun _ _ _ _ _ _ _ hok h hph hmove => exec_flies_own hok h hph hmove
  other := fun _ _ _ _ _ _ _ _ ht _ h hph haway hmove => exec_flies_other ht h hph haway hmove

/-- Once shutdown is signalled, a push the engine thread is about to make does not wait. -/
theorem shutdown_no_wait {i : StreamId} {chunk : Nat}
    {capacity : StreamId → { n : Nat // 0 < n }} {c : EngConfig M} {ch : Chunk M.Real}
    {next : Bool → Eng M Unit}
    (hrun : RunsTo exec (starts chunk) (ErrorsHaveRoom i) (initial M capacity) c)
    (hsignalled : c.shared.signalled = true)
    (hpush : c.threads .engine = .ask (.gen i (.push ch)) next) :
    (streamPush (c.shared.streams i) ch).isSome = true := by
  have hinit : ∃ who cur,
      TokenAt (flightMove (M := M) i) .idle Landed (FlightHolds i) (initial M capacity) who cur :=
    ⟨.engine, .idle, ⟨fun h => by contradiction, .inl ⟨rfl, rfl, rfl⟩⟩, .inl rfl, fun _ _ => .inl rfl⟩
  obtain ⟨who, cur, hholds, hwho, hrest⟩ := tokenAt_runsTo (flightRule i chunk) hinit hrun
  have hroom : Roomy c.shared i := by
    by_cases he : who = .engine
    · subst he
      rw [hpush] at hwho
      obtain ⟨ph, hmove, -⟩ := hwho true
      simp only [flightMove, ↓reduceIte] at hmove
      obtain ⟨-, hholds⟩ := hholds
      cases cur with
      | idle => contradiction
      | held => contradiction
      | start =>
        refine .inr ?_
        rw [hholds.2.2.1]
        exact Nat.zero_lt_of_lt (c.shared.streams i).ring.readPos_lt
      | errored => exact hholds.2.2.2.2 hsignalled
      | checked => exact .inl (hholds.2.2.2.2 hsignalled)
      | spent => contradiction
      | lost => exact hholds.elim
    · have hengine := hrest .engine fun h => he h.symm
      rw [hpush] at hengine
      obtain ⟨ph, hmove, -⟩ := hengine true
      simp [flightMove, genFlight] at hmove
  rcases hroom with hcancelled | hlen
  · simp [streamPush, hcancelled]
  · simp only [streamPush, hlen, ↓reduceDIte]
    split <;> rfl

/-! ## A request taken before the shutdown and recorded after it -/

def lateShared : Shared Nat :=
  { countInitial.shared with
    shutdown := true, signalled := true, inflight := some 0
    posted := fun j => if j = 0 then true else false }

/-- What the engine has still to do without a model. -/
def lateRest : Eng countWorld.mlx Unit := do
  onStream 0 (generateFail "model not loaded" .internal)
  let _ : Unit ← step (.setInflight none)
  step (.release 0 .command)

theorem late_runs : ∃ c : EngConfig countWorld.mlx,
    RunsTo exec (starts 1) (ErrorsHaveRoom 0) countInitial c ∧ c.shared = lateShared ∧
      c.threads .engine = lateRest := by
  let runs : EngConfig countWorld.mlx → EngConfig countWorld.mlx → Prop :=
    RunsTo exec (starts 1) (ErrorsHaveRoom 0)
  let cmd : Cmd Nat := .generate 0 countCmd
  let s₀ : Shared Nat := countInitial.shared
  let s₁ : Shared Nat :=
    { s₀ with mailbox := [cmd], posted := fun j => if j = 0 then true else false }
  let s₂ : Shared Nat := { s₁ with mailbox := [] }
  let s₃ : Shared Nat := { s₂ with shutdown := true, signalled := true }
  let post : Eng countWorld.mlx Unit := step (.submit cmd) >>= fun _ => enginePost cmd
  have hpost : Alone exec (ErrorHasRoom 0) s₀ post s₁ (.done ()) :=
    .step () trivial rfl
      (.step false trivial ⟨rfl, rfl⟩ (.step true trivial ⟨rfl, rfl, rfl⟩ (.refl _ _)))
  let handle : Eng countWorld.mlx Unit := handleGenerate 1 0 countCmd
  have htake : Alone exec (ErrorHasRoom 0) s₁ (engineTurn 1) s₂ handle :=
    .step false trivial ⟨rfl, rfl⟩ (.step (some cmd) trivial ⟨rfl, rfl⟩ (.refl _ _))
  have hsignal : Alone exec (ErrorHasRoom 0) s₂ (engineSignalShutdown (M := countWorld.mlx)) s₃
      (.done ()) :=
    .step () trivial rfl (.step () trivial ⟨rfl, rfl⟩ (.refl _ _))
  have hlate : Alone exec (ErrorHasRoom 0) s₃ handle lateShared lateRest :=
    .step () trivial ⟨rfl, rfl⟩ (.step .idle trivial ⟨rfl, rfl⟩ (.refl _ _))
  let c₁ := countInitial.resume (.client 0) s₁ (.done ())
  let c₂ := c₁.resume .engine s₂ handle
  let c₃ := c₂.resume (.client 1) s₃ (.done ())
  have h₁ : runs countInitial c₁ := runsTo_start (fun _ _ h => h) rfl (.post cmd rfl) hpost
  have h₂ : runs c₁ c₂ := runsTo_start (fun _ _ h => h) rfl ⟨rfl, rfl⟩ htake
  have h₃ : runs c₂ c₃ := runsTo_start (fun _ _ h => h) rfl .signalShutdown hsignal
  have h₄ : runs c₃ (c₃.resume .engine lateShared lateRest) :=
    runsTo_alone (fun _ _ h => h) hlate rfl rfl
  exact ⟨_, ((h₁.trans h₂).trans h₃).trans h₄, rfl, resume_self _ _ _ _⟩

/-- The first chunk of the failure does not wait. -/
theorem shutdown_no_wait_late :
    (streamPush (lateShared.streams 0) (.error .internal "model not loaded")).isSome = true := by
  obtain ⟨c, hrun, hshared, hengine⟩ := late_runs
  have hnext := shutdown_no_wait hrun (by rw [hshared]; rfl) hengine
  rwa [hshared] at hnext

/-- The second one waits when the ring has one slot and nobody reads. -/
theorem shutdown_waits : ∃ (c : EngConfig countWorld.mlx) (ch : Chunk Nat)
    (next : Bool → Eng countWorld.mlx Unit),
    RunsTo exec (starts 1) (fun _ _ => True) countInitial c ∧ c.shared.signalled = true ∧
      c.threads .engine = .ask (.gen 0 (.push ch)) next ∧
      streamPush (c.shared.streams 0) ch = none := by
  obtain ⟨c, hrun, hshared, hengine⟩ := late_runs
  let always : EngOp countWorld.mlx → Shared Nat → Prop := fun _ _ => True
  have hok : ∀ (c : EngConfig countWorld.mlx) (t : Tid),
      (∀ e next, c.threads t = .ask e next → always e c.shared) → True := fun _ _ _ => trivial
  have herror : ∃ s next, Alone exec always lateShared lateRest s
      (.ask (.gen 0 (.push (.done .stop))) next) ∧ s.signalled = true ∧
        streamPush (s.streams 0) (.done .stop) = none :=
    ⟨_, _, .step true trivial ⟨_, rfl, rfl⟩ (.step () trivial rfl (.refl _ _)), rfl, rfl⟩
  obtain ⟨s, next, halone, hsignalled, hfull⟩ := herror
  have hmore : RunsTo exec (starts 1) (fun _ _ => True) c (c.resume .engine s _) :=
    runsTo_alone hok halone hshared hengine
  exact ⟨_, _, _, (hrun.mono fun _ _ _ => trivial).trans hmore, hsignalled, resume_self _ _ _ _,
    hfull⟩

end Mlxd.Engine
