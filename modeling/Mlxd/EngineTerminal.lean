import Mlxd.EngineProtocol
import Mlxd.GenerateRefine

/-!
# The terminal chunk of a generate command

When the engine gives back a command, its stream has been written exactly one terminal chunk,
the last one a consumer can read. This holds in every run in which no failing request finds
its chunks refused with the shutdown flag unset.
-/
namespace Mlxd.Engine

open Mlxd.Lib Program

variable {M : Mlx} (i : StreamId)

/-- The generate commands of stream `i` in the mailbox. -/
def queued (s : Shared M.Real) : Nat := s.mailbox.countP (isGenerate i)

/-- What the shared state looks like while the thread that has the command is in a phase; in
idle nobody has it: it is not posted yet, in the mailbox, or given back. -/
def Holds (s : Shared M.Real) : Phase → Prop
  | .idle =>
    (s.posted i = false ∧ queued i s = 0 ∧ s.released i = false ∧ Unfinished (s.streams i)) ∨
    (s.posted i = true ∧ queued i s = 1 ∧ s.released i = false ∧ Unfinished (s.streams i)) ∨
    (s.posted i = true ∧ queued i s = 0 ∧ s.released i = true ∧ Finished (s.streams i))
  | .owed => s.posted i = true ∧ queued i s = 0 ∧ s.released i = false ∧ Unfinished (s.streams i)
  | .paid => s.posted i = true ∧ queued i s = 0 ∧ s.released i = false ∧ Finished (s.streams i)
  | .lost => False

variable {i} {s s' : Shared M.Real}

/-- Nothing that concerns the command of stream `i` has changed. -/
structure SameView (i : StreamId) (s s' : Shared M.Real) : Prop where
  post : s'.posted i = s.posted i
  inMailbox : queued i s' = queued i s
  release : s'.released i = s.released i
  reads : readable (s'.streams i) = readable (s.streams i)
  writes : (s'.streams i).written = (s.streams i).written

theorem SameView.refl (s : Shared M.Real) : SameView i s s := ⟨rfl, rfl, rfl, rfl, rfl⟩

theorem SameView.holds (h : SameView i s s') {ph : Phase} (hph : Holds i s ph) :
    Holds i s' ph := by
  have hu : Unfinished (s.streams i) → Unfinished (s'.streams i) :=
    fun hs => hs.congr h.reads h.writes
  have hf : Finished (s.streams i) → Finished (s'.streams i) :=
    fun hs => hs.congr h.reads h.writes
  cases ph with
  | idle =>
    simp only [Holds, h.post, h.inMailbox, h.release] at hph ⊢
    exact hph.imp (fun ⟨a, b, c, d⟩ => ⟨a, b, c, hu d⟩)
      (Or.imp (fun ⟨a, b, c, d⟩ => ⟨a, b, c, hu d⟩) fun ⟨a, b, c, d⟩ => ⟨a, b, c, hf d⟩)
  | owed =>
    simp only [Holds, h.post, h.inMailbox, h.release] at hph ⊢
    exact ⟨hph.1, hph.2.1, hph.2.2.1, hu hph.2.2.2⟩
  | paid =>
    simp only [Holds, h.post, h.inMailbox, h.release] at hph ⊢
    exact ⟨hph.1, hph.2.1, hph.2.2.1, hf hph.2.2.2⟩
  | lost => exact hph

@[simp] theorem setStream_self (s : Shared M.Real) (st : Stream M.Real) :
    (setStream s i st).streams i = st := by simp [setStream]

theorem setStream_other (s : Shared M.Real) (st : Stream M.Real) {j : StreamId} (h : j ≠ i) :
    (setStream s j st).streams i = s.streams i := by simp [setStream, Ne.symm h]

theorem sameView_setStream {j : StreamId} {st : Stream M.Real}
    (h : j = i → readable st = readable (s.streams i) ∧ st.written = (s.streams i).written) :
    SameView i s (setStream s j st) := by
  by_cases hj : j = i
  · subst hj
    obtain ⟨hr, hw⟩ := h rfl
    exact ⟨rfl, rfl, rfl, by rw [setStream_self, hr], by rw [setStream_self, hw]⟩
  · exact ⟨rfl, rfl, rfl, by rw [setStream_other s st hj], by rw [setStream_other s st hj]⟩

/-- The generate path of another stream. -/
theorem execGen_other {j : StreamId} (hj : j ≠ i) {op : GenOp M} {r : GenAns op}
    (h : execGen j op s r s') : SameView i s s' := by
  cases op with
  | push c =>
    obtain ⟨st, -, rfl⟩ := h
    exact sameView_setStream fun he => absurd he hj
  | finishCancelled =>
    obtain rfl := h
    exact sameView_setStream fun he => absurd he hj
  | loadShutdown failing => exact h.2 ▸ SameView.refl _
  | loadCancelled => exact h.2 ▸ SameView.refl _
  | _ => exact h ▸ SameView.refl _

/-- The failing check of stream `i` is made with the shutdown flag set. -/
def ChecksUnderShutdown (i : StreamId) : EngOp M → Shared M.Real → Prop
  | .gen j (.loadShutdown true), s => j = i → s.shutdown = true
  | _, _ => True

/-- A step of the generate path by the thread that has the command. -/
theorem execGen_own {op : GenOp M} {r : GenAns op} {ph ph' : Phase}
    (hok : ChecksUnderShutdown i (.gen i op) s) (h : execGen i op s r s') (hph : Holds i s ph)
    (hmove : genMove ph op r = some ph') : Holds i s' ph' := by
  cases ph with
  | idle => simp [genMove] at hmove
  | lost => exact hph.elim
  | paid =>
    cases op with
    | push c => simp [genMove] at hmove
    | finishCancelled => simp [genMove] at hmove
    | loadShutdown failing =>
      obtain rfl := Option.some.inj hmove
      exact h.2 ▸ hph
    | loadCancelled =>
      obtain rfl := Option.some.inj hmove
      exact h.2 ▸ hph
    | _ =>
      obtain rfl := Option.some.inj hmove
      exact h ▸ hph
  | owed =>
    obtain ⟨hp, hq, hr, hu⟩ := hph
    cases op with
    | push c =>
      obtain ⟨st, hpush, rfl⟩ := h
      obtain rfl := Option.some.inj hmove
      rcases streamPush_spec hpush with ⟨rfl, -, rfl⟩ | ⟨rfl, -, hread, hwrite⟩
      · rw [Bool.and_false]
        exact ⟨hp, hq, hr, by rwa [setStream_self]⟩
      · cases c with
        | done reason =>
          refine ⟨hp, hq, hr, ?_⟩
          rw [setStream_self]
          exact hu.finish _ (fun c hc => hc) hread hwrite
        | token id logprob =>
          refine ⟨hp, hq, hr, ?_⟩
          rw [setStream_self]
          exact hu.append rfl hread hwrite
        | error kind message =>
          refine ⟨hp, hq, hr, ?_⟩
          rw [setStream_self]
          exact hu.append rfl hread hwrite
    | finishCancelled =>
      obtain rfl := h
      obtain rfl := Option.some.inj hmove
      refine ⟨hp, hq, hr, ?_⟩
      rw [setStream_self]
      exact finishCancelled_finished hu
    | loadShutdown failing =>
      obtain ⟨rfl, rfl⟩ := h
      cases failing with
      | false =>
        obtain rfl := Option.some.inj hmove
        exact ⟨hp, hq, hr, hu⟩
      | true =>
        rw [hok rfl] at hmove
        obtain rfl := Option.some.inj hmove
        exact ⟨hp, hq, hr, hu⟩
    | loadCancelled =>
      obtain rfl := Option.some.inj hmove
      exact h.2 ▸ ⟨hp, hq, hr, hu⟩
    | _ =>
      obtain rfl := Option.some.inj hmove
      exact h ▸ ⟨hp, hq, hr, hu⟩

theorem queued_append {s : Shared M.Real} {cmd : Cmd M.Real} {cmds : List (Cmd M.Real)}
    (h : s.mailbox = cmds) : queued i { s with mailbox := cmds ++ [cmd] } =
      queued i s + if isGenerate i cmd then 1 else 0 := by
  simp only [queued, h, List.countP_append, List.countP_cons, List.countP_nil, Nat.zero_add]

theorem dequeue_cases {r : Option (Cmd M.Real)} (h : dequeueResult s = some (r, s')) :
    (r = none ∧ s' = s) ∨ ∃ cmd rest, r = some cmd ∧ s.mailbox = cmd :: rest ∧
      s' = { s with mailbox := rest, loading := cmd.accepted } := by
  simp only [dequeueResult] at h
  split at h
  · rename_i cmd rest hmail
    obtain ⟨rfl, rfl⟩ := Prod.mk.inj (Option.some.inj h)
    exact .inr ⟨cmd, rest, rfl, hmail, rfl⟩
  · split at h
    · obtain ⟨rfl, rfl⟩ := Prod.mk.inj (Option.some.inj h)
      exact .inl ⟨rfl, rfl⟩
    · contradiction

theorem sameView_releaseBy {j : StreamId} {owner : Owner} (h : owner = .command → j ≠ i) :
    SameView i s (releaseBy s j owner) := by
  have hstream : SameView i s (setStream s j (streamRelease (s.streams j))) :=
    sameView_setStream fun hj => by rw [hj]; exact ⟨rfl, rfl⟩
  cases owner with
  | reclaimed => exact hstream
  | command =>
    refine ⟨rfl, rfl, ?_, hstream.reads, hstream.writes⟩
    simp [releaseBy, Ne.symm (h rfl), setStream]

theorem sameView_submit {cmd : Cmd M.Real} (h : submitCmd s cmd = some s')
    (hcmd : isGenerate i cmd = false) : SameView i s s' := by
  cases cmd with
  | generate j cmd =>
    have hj : ¬ i = j := by
      rintro rfl
      simp [isGenerate] at hcmd
    simp only [submitCmd] at h
    split at h
    · contradiction
    · obtain rfl := Option.some.inj h
      exact ⟨by simp [hj], rfl, rfl, rfl, rfl⟩
  | _ => exact Option.some.inj h ▸ SameView.refl _

/-- The steps on the command of stream `i`. -/
inductive Touches (i : StreamId) : EngOp M → Prop
  | gen (op : GenOp M) : Touches i (.gen i op)
  | release : Touches i (.release i .command)
  | submit {cmd : Cmd M.Real} (h : isGenerate i cmd = true) : Touches i (.submit cmd)
  | enqueue {cmd : Cmd M.Real} (h : isGenerate i cmd = true) : Touches i (.enqueue cmd)
  | dequeue : Touches i .dequeue
  | drainAll : Touches i .drainAll

/-- All other steps leave the command alone, whoever takes them. -/
theorem exec_frame {op : EngOp M} {r : EngAns op} {ph ph' : Phase} (h : exec op s r s')
    (hmove : liveMove i ph op r = some ph') : (SameView i s s' ∧ ph' = ph) ∨ Touches i op := by
  cases op with
  | gen j gop =>
    by_cases hj : j = i
    · subst hj
      exact .inr (.gen gop)
    · simp only [liveMove, hj, ↓reduceIte, Option.some.injEq] at hmove
      exact .inl ⟨execGen_other hj h, hmove.symm⟩
  | release j owner =>
    obtain rfl := h
    cases owner with
    | reclaimed => exact .inl ⟨sameView_releaseBy (by simp), (Option.some.inj hmove).symm⟩
    | command =>
      by_cases hj : j = i
      · subst hj
        exact .inr .release
      · simp only [liveMove, hj, ↓reduceIte, Option.some.injEq] at hmove
        exact .inl ⟨sameView_releaseBy fun _ => hj, hmove.symm⟩
  | submit cmd =>
    by_cases hcmd : isGenerate i cmd = true
    · exact .inr (.submit hcmd)
    · simp only [liveMove, hcmd, Bool.false_eq_true, ↓reduceIte, Option.some.injEq] at hmove
      exact .inl ⟨sameView_submit h (by simpa using hcmd), hmove.symm⟩
  | enqueue cmd =>
    by_cases hcmd : isGenerate i cmd = true
    · exact .inr (.enqueue hcmd)
    · simp only [liveMove, hcmd, Bool.false_eq_true, ↓reduceIte, Option.some.injEq] at hmove
      obtain ⟨-, h⟩ := h
      split at h
      · exact .inl ⟨h.2 ▸ SameView.refl _, hmove.symm⟩
      · obtain ⟨-, rfl⟩ := h
        refine .inl ⟨⟨rfl, ?_, rfl, rfl, rfl⟩, hmove.symm⟩
        simp [queued_append rfl, hcmd]
  | lockForLoad =>
    obtain ⟨-, h⟩ := h
    split at h
    · exact .inl ⟨h.2 ▸ SameView.refl _, (Option.some.inj hmove).symm⟩
    · obtain ⟨-, rfl⟩ := h
      exact .inl ⟨⟨rfl, rfl, rfl, rfl, rfl⟩, (Option.some.inj hmove).symm⟩
  | enqueueLoad path =>
    obtain rfl := h
    refine .inl ⟨⟨rfl, ?_, rfl, rfl, rfl⟩, (Option.some.inj hmove).symm⟩
    simp [queued, isGenerate]
  | dequeue => exact .inr .dequeue
  | drainAll => exact .inr .drainAll
  | cancelInflight =>
    obtain ⟨-, rfl⟩ := h
    refine .inl ⟨?_, (Option.some.inj hmove).symm⟩
    cases hin : s.inflight with
    | none => exact ⟨rfl, rfl, rfl, rfl, rfl⟩
    | some j =>
      have hview : SameView i s (setStream s j (streamCancel (s.streams j))) :=
        sameView_setStream fun hj => by rw [hj]; exact ⟨rfl, rfl⟩
      exact ⟨hview.post, hview.inMailbox, hview.release, hview.reads, hview.writes⟩
  | streamCancel j =>
    obtain rfl := h
    exact .inl ⟨sameView_setStream fun hj => by rw [hj]; exact ⟨rfl, rfl⟩,
      (Option.some.inj hmove).symm⟩
  | streamNext j forever =>
    obtain ⟨st, hst, rfl⟩ := h
    refine .inl ⟨sameView_setStream fun hj => ?_, (Option.some.inj hmove).symm⟩
    obtain ⟨hr, hw, -⟩ := streamNext_spec hst
    rw [← hj]
    exact ⟨hr, hw⟩
  | loadShutdown => exact .inl ⟨h.2 ▸ SameView.refl _, (Option.some.inj hmove).symm⟩
  | loadLoadState => exact .inl ⟨h.2 ▸ SameView.refl _, (Option.some.inj hmove).symm⟩
  | readModel => exact .inl ⟨h.2 ▸ SameView.refl _, (Option.some.inj hmove).symm⟩
  | joinEngine => exact .inl ⟨h.2 ▸ SameView.refl _, (Option.some.inj hmove).symm⟩
  | engineModelLoad path => exact .inl ⟨h ▸ SameView.refl _, (Option.some.inj hmove).symm⟩
  | setInflight j =>
    obtain ⟨-, rfl⟩ := h
    exact .inl ⟨⟨rfl, rfl, rfl, rfl, rfl⟩, (Option.some.inj hmove).symm⟩
  | _ =>
    obtain rfl := h
    exact .inl ⟨⟨rfl, rfl, rfl, rfl, rfl⟩, (Option.some.inj hmove).symm⟩

/-- The poster gets the command when its stream has none yet. -/
theorem submit_owed {cmd : Cmd M.Real} (h : submitCmd s cmd = some s')
    (hcmd : isGenerate i cmd = true) (hph : Holds i s .idle) : Holds i s' .owed := by
  cases cmd with
  | generate j cmd =>
    obtain rfl : j = i := by simpa [isGenerate] using hcmd
    simp only [submitCmd] at h
    split at h
    · contradiction
    · rename_i hnew
      obtain rfl := Option.some.inj h
      rcases hph with ⟨-, hq, hr, hu⟩ | ⟨hp, -⟩ | ⟨hp, -⟩
      · exact ⟨by simp, hq, hr, hu⟩
      · exact absurd hp hnew
      · exact absurd hp hnew
  | _ => simp [isGenerate] at hcmd

/-- Nobody else has the command while it is in the mailbox. -/
theorem holds_queued {ph : Phase} (h : Holds i s ph) (hq : 0 < queued i s) :
    ph = .idle ∧ queued i s = 1 ∧ s.posted i = true ∧ s.released i = false ∧
      Unfinished (s.streams i) := by
  cases ph with
  | idle =>
    rcases h with ⟨-, h0, -⟩ | ⟨hp, h1, hr, hu⟩ | ⟨-, h0, -⟩
    · omega
    · exact ⟨rfl, h1, hp, hr, hu⟩
    · omega
  | owed => exact absurd h.2.1 (by omega)
  | paid => exact absurd h.2.1 (by omega)
  | lost => exact h.elim

/-- The engine takes the command out of the mailbox, or another one. -/
theorem dequeue_own {r : Option (Cmd M.Real)} {ph ph' : Phase}
    (h : dequeueResult s = some (r, s')) (hph : Holds i s ph)
    (hmove : liveMove i ph .dequeue r = some ph') : Holds i s' ph' := by
  rcases dequeue_cases h with ⟨rfl, rfl⟩ | ⟨cmd, rest, rfl, hmail, rfl⟩
  · obtain rfl := Option.some.inj hmove
    exact hph
  · have hcount : queued i s = queued i { s with mailbox := rest, loading := cmd.accepted } +
        if isGenerate i cmd = true then 1 else 0 := by
      simp only [queued, hmail, List.countP_cons]
    by_cases hcmd : isGenerate i cmd = true
    · rw [if_pos hcmd] at hcount
      obtain ⟨rfl, hone, hp, hr, hu⟩ := holds_queued hph (by omega)
      simp only [liveMove, Option.any_some, hcmd, ↓reduceIte, Option.some.injEq] at hmove
      obtain rfl := hmove
      exact ⟨hp, by omega, hr, hu⟩
    · simp only [liveMove, Option.any_some, hcmd, Bool.false_eq_true, ↓reduceIte,
        Option.some.injEq] at hmove
      obtain rfl := hmove
      rw [if_neg hcmd] at hcount
      have hview : SameView i s { s with mailbox := rest, loading := cmd.accepted } :=
        ⟨rfl, hcount.symm, rfl, rfl, rfl⟩
      exact hview.holds hph

/-- The mailbox is emptied, with the command in it or not. -/
theorem drainAll_own {ph ph' : Phase} (hph : Holds i s ph)
    (hmove : liveMove i ph .drainAll s.mailbox = some ph') :
    Holds i { s with mailbox := [] } ph' := by
  simp only [liveMove] at hmove
  split at hmove
  · rename_i hzero
    obtain rfl := Option.some.inj hmove
    have hview : SameView i s { s with mailbox := [] } := ⟨rfl, hzero.symm, rfl, rfl, rfl⟩
    exact hview.holds hph
  · rename_i hone
    have hqueued : 0 < queued i s := by rw [queued, hone]; exact Nat.one_pos
    obtain ⟨rfl, -, hp, hr, hu⟩ := holds_queued hph hqueued
    obtain rfl := Option.some.inj hmove
    exact ⟨hp, rfl, hr, hu⟩
  · rename_i hzero hone
    have hmany : 0 < queued i s := Nat.pos_of_ne_zero hzero
    exact absurd (holds_queued hph hmany).2.1 hone

/-- A step of the thread that has the command, or of any thread while nobody has it. -/
theorem exec_own {op : EngOp M} {r : EngAns op} {ph ph' : Phase}
    (hok : ChecksUnderShutdown i op s) (h : exec op s r s') (hph : Holds i s ph)
    (hmove : move i ph op r = some ph') : Holds i s' ph' := by
  have hlive : ph ≠ .lost := by
    rintro rfl
    exact hph
  rw [move, if_neg hlive] at hmove
  rcases exec_frame h hmove with ⟨hview, rfl⟩ | htouch
  · exact hview.holds hph
  cases htouch with
  | gen gop =>
    rw [liveMove, if_pos rfl] at hmove
    exact execGen_own hok h hph hmove
  | release =>
    simp only [liveMove, ↓reduceIte, Option.ite_none_right_eq_some, Option.some.injEq] at hmove
    obtain ⟨rfl, rfl⟩ := hmove
    obtain rfl := h
    obtain ⟨hp, hq, -, hf⟩ := hph
    refine .inr (.inr ⟨hp, hq, by simp [releaseBy], ?_⟩)
    exact hf.congr (by simp [releaseBy, setStream, readable, streamRelease])
      (by simp [releaseBy, setStream, streamRelease])
  | @submit cmd hcmd =>
    simp only [liveMove, hcmd, ↓reduceIte, Option.ite_none_right_eq_some, Option.some.injEq] at hmove
    obtain ⟨rfl, rfl⟩ := hmove
    exact submit_owed h hcmd hph
  | @enqueue cmd hcmd =>
    simp only [liveMove, hcmd, ↓reduceIte, Option.ite_none_right_eq_some, Option.some.injEq] at hmove
    obtain ⟨rfl, rfl⟩ := hmove
    obtain ⟨hp, hq, hr, hu⟩ := hph
    obtain ⟨-, h⟩ := h
    split at h
    · obtain ⟨rfl, rfl⟩ := h
      exact ⟨hp, hq, hr, hu⟩
    · obtain ⟨rfl, rfl⟩ := h
      exact .inr (.inl ⟨hp, by simp [queued_append rfl, hq, hcmd], hr, hu⟩)
  | dequeue => exact dequeue_own h.2 hph hmove
  | drainAll =>
    obtain ⟨-, rfl, rfl⟩ := h
    exact drainAll_own hph hmove

/-- A step of any other thread while one has the command. -/
theorem exec_other {op : EngOp M} {r : EngAns op} {ph ph' : Phase} (h : exec op s r s')
    (hph : Holds i s ph) (haway : ph ≠ .idle) (hmove : move i .idle op r = some ph') :
    ph' = .idle ∧ Holds i s' ph := by
  have hposted : s.posted i = true ∧ queued i s = 0 := by
    cases ph with
    | idle => exact absurd rfl haway
    | owed => exact ⟨hph.1, hph.2.1⟩
    | paid => exact ⟨hph.1, hph.2.1⟩
    | lost => exact hph.elim
  obtain ⟨hp, hq⟩ := hposted
  rw [move, if_neg (by decide)] at hmove
  rcases exec_frame h hmove with ⟨hview, rfl⟩ | htouch
  · exact ⟨rfl, hview.holds hph⟩
  cases htouch with
  | gen gop => simp [liveMove, genMove] at hmove
  | release => simp [liveMove] at hmove
  | @submit cmd hcmd =>
    cases cmd with
    | generate j cmd =>
      obtain rfl : j = i := by simpa [isGenerate] using hcmd
      simp [exec, submitCmd, hp] at h
    | _ => simp [isGenerate] at hcmd
  | @enqueue cmd hcmd => simp [liveMove, hcmd] at hmove
  | dequeue =>
    have hnone : ∀ cmd ∈ s.mailbox, isGenerate i cmd = false := by
      simpa [queued, List.countP_eq_zero] using hq
    rcases dequeue_cases h.2 with ⟨rfl, rfl⟩ | ⟨cmd, rest, rfl, hmail, rfl⟩
    · exact ⟨(Option.some.inj hmove).symm, hph⟩
    · have hcmd : isGenerate i cmd = false := hnone cmd (by simp [hmail])
      have hview : SameView i s { s with mailbox := rest, loading := cmd.accepted } :=
        ⟨rfl, by simp [queued, hmail, hcmd], rfl, rfl, rfl⟩
      simp only [liveMove, Option.any_some, hcmd, Bool.false_eq_true, ↓reduceIte,
        Option.some.injEq] at hmove
      exact ⟨hmove.symm, hview.holds hph⟩
  | drainAll =>
    obtain ⟨-, rfl, rfl⟩ := h
    have hview : SameView i s { s with mailbox := [] } := ⟨rfl, hq.symm, rfl, rfl, rfl⟩
    rw [queued] at hq
    simp only [liveMove, hq, Option.some.injEq] at hmove
    exact ⟨hmove.symm, hview.holds hph⟩

/-! ## Runs -/

abbrev EngConfig (M : Mlx) : Type := Config (Shared M.Real) Tid (EngOp M) EngAns

/-- A thread that makes the failing check of stream `i` next finds the shutdown flag set. -/
def FailsUnderShutdown (i : StreamId) (c : EngConfig M) (t : Tid) : Prop :=
  ∀ op next, c.threads t = .ask op next → ChecksUnderShutdown i op c.shared

theorem commandRule (chunk : Nat) : TokenRule (fun _ => move i) .idle Ended
    (fun s _ ph => Holds (M := M) i s ph) exec (starts chunk) (FailsUnderShutdown i)
    (ChecksUnderShutdown i) where
  guard := fun _ _ op next hok hask => hok op next hask
  anyone := fun _ _ _ h => h
  done := by
    rintro s t ph hph (rfl | rfl)
    · rfl
    · exact hph.elim
  starts := by
    intro t s p h
    cases t with
    | engine =>
      obtain ⟨-, rfl⟩ := h
      exact engineTurn_ends chunk
    | client n => exact clientCall_ends h
  own := fun _ _ _ _ _ _ _ hok h hph hmove => exec_own hok h hph hmove
  other := fun _ _ _ _ _ _ _ _ _ _ h hph haway hmove => exec_other h hph haway hmove

theorem streamCreate_unfinished {F : Type} (capacity : Nat) (h : 0 < capacity) (zero : F) :
    Unfinished (streamCreate capacity h zero) := by
  refine ⟨fun c hc => absurd hc (by simp [streamCreate]), fun c hc => absurd hc ?_⟩
  simp [streamCreate, readable]

/-- When a command has been given back, its stream has been written one terminal chunk, the
last one its consumer reads, and a consumer that has not read it yet does not wait. -/
theorem terminal_law {i : StreamId} {chunk : Nat} {capacity : StreamId → { n : Nat // 0 < n }}
    {c : EngConfig M}
    (hrun : RunsTo exec (starts chunk) (FailsUnderShutdown i) (initial M capacity) c)
    (hreleased : c.shared.released i = true) :
    Finished (c.shared.streams i) ∧
      ((∀ ch ∈ (c.shared.streams i).taken, ch.isDone = false) → 0 < (c.shared.streams i).ring.len) := by
  suffices hf : Finished (c.shared.streams i) from ⟨hf, hf.no_wait⟩
  have hinit : ∃ who cur,
      TokenAt (fun _ => move i) .idle Ended (fun s _ ph => Holds (M := M) i s ph)
        (initial M capacity) who cur :=
    ⟨.engine, .idle, .inl ⟨rfl, rfl, rfl, streamCreate_unfinished _ _ _⟩, .inl rfl,
      fun _ _ => .inl rfl⟩
  obtain ⟨who, cur, hholds, -⟩ := tokenAt_runsTo (commandRule chunk) hinit hrun
  cases cur with
  | idle =>
    rcases hholds with ⟨-, -, hr, -⟩ | ⟨-, -, hr, -⟩ | ⟨-, -, -, hf⟩
    · simp [hr] at hreleased
    · simp [hr] at hreleased
    · exact hf
  | owed =>
    obtain ⟨-, -, hr, -⟩ := hholds
    simp [hr] at hreleased
  | paid =>
    obtain ⟨-, -, hr, -⟩ := hholds
    simp [hr] at hreleased
  | lost => exact hholds.elim

/-! ## Two runs -/

def oneSlot : StreamId → { n : Nat // 0 < n } := fun _ => ⟨1, Nat.one_pos⟩

abbrev countInitial : EngConfig countWorld.mlx := initial countWorld.mlx oneSlot

/-- Shutdown, then a post that is refused: the poster writes the terminal chunk. -/
theorem terminal_law_rejected : ∃ c : EngConfig countWorld.mlx,
    c.shared.released 0 = true ∧ Finished (c.shared.streams 0) := by
  let c₁ := countInitial.resume (.client 0) 
    { countInitial.shared with shutdown := true, signalled := true } (.done ())
  have hsignal : RunsTo exec (starts 1) (FailsUnderShutdown 0) countInitial c₁ :=
    runsTo_start (fun _ _ h => h) rfl .signalShutdown
      (.step () trivial rfl (.step () trivial ⟨rfl, rfl⟩ (.refl _ _)))
  have hpost : ∃ s, s.released 0 = true ∧
      RunsTo exec (starts 1) (FailsUnderShutdown 0) c₁ (c₁.resume (.client 0) s (.done ())) :=
    ⟨_, by simp [releaseBy],
      runsTo_start (fun _ _ h => h) (resume_self _ _ _ _) (.post (.generate 0 countCmd) rfl)
        (.step () trivial rfl (.step true trivial ⟨rfl, rfl⟩
          (.step () trivial rfl (.step () trivial rfl (.step () trivial rfl (.refl _ _))))))⟩
  obtain ⟨s, hreleased, hpost⟩ := hpost
  exact ⟨_, hreleased, (terminal_law (hsignal.trans hpost) hreleased).1⟩

/-- A request without a model whose consumer has cancelled: both chunks of the failure are
refused, and nothing is written. -/
theorem terminal_chunk_lost : ∃ c : EngConfig countWorld.mlx,
    RunsTo exec (starts 1) (fun _ _ => True) countInitial c ∧
      c.shared.released 0 = true ∧ ¬ Finished (c.shared.streams 0) := by
  let always : EngOp countWorld.mlx → Shared Nat → Prop := fun _ _ => True
  let runs : EngConfig countWorld.mlx → EngConfig countWorld.mlx → Prop :=
    RunsTo exec (starts 1) fun _ _ => True
  have hok : ∀ (c : EngConfig countWorld.mlx) (t : Tid),
      (∀ e next, c.threads t = .ask e next → always e c.shared) → True := fun _ _ _ => trivial
  let cmd : Cmd Nat := .generate 0 countCmd
  let s₀ : Shared Nat := countInitial.shared
  let s₁ : Shared Nat :=
    { s₀ with mailbox := [cmd], posted := fun j => if j = 0 then true else false }
  let s₂ : Shared Nat := { s₁ with mailbox := [], inflight := some 0 }
  let s₃ : Shared Nat := setStream s₂ 0 (streamCancel (s₂.streams 0))
  let s₄ : Shared Nat := releaseBy { setStream s₃ 0 (s₃.streams 0) with inflight := none } 0 .command
  let rest : Eng countWorld.mlx Unit := do
    onStream 0 (generateFail "model not loaded" .internal)
    let _ : Unit ← step (.setInflight none)
    step (.release 0 .command)
  have hpost : Alone exec always s₀ (step (.submit cmd) >>= fun _ => enginePost cmd) s₁
      (.done ()) :=
    .step () trivial rfl
      (.step false trivial ⟨rfl, rfl⟩ (.step true trivial ⟨rfl, rfl, rfl⟩ (.refl _ _)))
  have htake : Alone exec always s₁ (engineTurn 1) s₂ rest :=
    .step false trivial ⟨rfl, rfl⟩ (.step (some cmd) trivial ⟨rfl, rfl⟩
      (.step () trivial ⟨rfl, rfl⟩ (.step .idle trivial ⟨rfl, rfl⟩ (.refl _ _))))
  have hcancel : Alone exec always s₂ (step (.streamCancel 0)) s₃ (.done ()) :=
    .step () trivial rfl (.refl _ _)
  have hfail : Alone exec always s₃ rest s₄ (.done ()) :=
    .step false trivial ⟨_, rfl, rfl⟩ (.step false trivial ⟨rfl, rfl⟩
      (.step () trivial ⟨rfl, rfl⟩ (.step () trivial rfl (.refl _ _))))
  let c₁ := countInitial.resume (.client 0) s₁ (.done ())
  let c₂ := c₁.resume .engine s₂ rest
  let c₃ := c₂.resume (.client 1) s₃ (.done ())
  have h₁ : runs countInitial c₁ := runsTo_start hok rfl (.post cmd rfl) hpost
  have h₂ : runs c₁ c₂ := runsTo_start hok rfl ⟨rfl, rfl⟩ htake
  have h₃ : runs c₂ c₃ := runsTo_start hok rfl (.streamCancel 0) hcancel
  have h₄ : runs c₃ (c₃.resume .engine s₄ (.done ())) := runsTo_alone hok hfail rfl rfl
  refine ⟨_, ((h₁.trans h₂).trans h₃).trans h₄, rfl, fun hf => ?_⟩
  have hnone : (s₄.streams 0).written = [] := rfl
  have hone := hf.once
  rw [resume_shared, hnone] at hone
  contradiction

end Mlxd.Engine
