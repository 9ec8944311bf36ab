import Mlxd.GenLifetimeProtocol

/-!
# A request is torn down once

The loop thread and whoever has the command each hold a reference to the stream, and
`begin_close` is entered only when the other reference is gone. As long as this is not in the
middle of a pass over the stream, nothing is used after its release, and everything is closed
and freed once.
-/
namespace Mlxd.Lifetime

open Mlxd.Lib Program
open Engine (Mlx Gen GenOp GenAns)

variable {M : Mlx} {s s' : Life} {phase : Tid → Phase}

/-! ## What holds of the shared state -/

def HandlesOpen (s : Life) : Prop :=
  s.asyncCloses = 0 ∧ s.asyncClosed = 0 ∧ s.timerCloses = 0 ∧ s.timerClosed = 0 ∧ s.frees = 0

/-- Each handle is being closed once, and the close callbacks still to come are counted. -/
def HandlesClosing (s : Life) : Prop :=
  s.asyncCloses = 1 ∧ s.timerCloses = s.timerInited.toNat ∧ s.asyncClosed ≤ 1 ∧
    s.timerClosed ≤ s.timerCloses ∧
    s.pendingCloses + s.asyncClosed + s.timerClosed = s.asyncCloses + s.timerCloses

/-- The state as the loop thread has left it. -/
def Looping (s : Life) : Phase → Prop
  | .open timer => s.timerInited = timer ∧ s.begun = 0 ∧ HandlesOpen s
  | .sole timer => s.timerInited = timer ∧ s.served = true ∧ s.begun = 0 ∧ HandlesOpen s
  | .marked timer => s.timerInited = timer ∧ s.served = true ∧ s.begun = 1 ∧ HandlesOpen s
  | .silenced timer => s.timerInited = timer ∧ s.served = true ∧ s.begun = 1 ∧ HandlesOpen s
  | .released timer => s.timerInited = timer ∧ s.served = true ∧ s.begun = 1 ∧ HandlesOpen s
  | .counted timer =>
    s.timerInited = timer ∧ s.served = true ∧ s.begun = 1 ∧ HandlesOpen s ∧
      s.pendingCloses = if timer then 2 else 1
  | .halfClosed =>
    s.timerInited = true ∧ s.served = true ∧ s.begun = 1 ∧ s.asyncCloses = 1 ∧
      s.asyncClosed = 0 ∧ s.timerCloses = 0 ∧ s.timerClosed = 0 ∧ s.frees = 0 ∧
      s.pendingCloses = 2
  | .shut => s.served = true ∧ s.begun = 1 ∧ HandlesClosing s ∧ 0 < s.pendingCloses ∧ s.frees = 0
  | .rest false => Running s.gr (.open s.timerInited) ∧ s.begun = 0 ∧ HandlesOpen s
  | .rest true =>
    Shut s.gr .shut ∧ s.served = true ∧ s.begun = 1 ∧ HandlesClosing s ∧
      s.frees = if s.pendingCloses = 0 then 1 else 0
  | .freeing =>
    Shut s.gr .shut ∧ s.served = true ∧ s.begun = 1 ∧ HandlesClosing s ∧ s.pendingCloses = 0 ∧
      s.frees = 0
  | _ => False

/-- The state as whoever has the command has left it. -/
def Serving (s : Life) : Phase → Prop
  | .idle => s.inflight = false ∧ (s.posted = true → s.served = false)
  | .serving b => s.inflight = b ∧ s.posted = false ∧ s.served = false
  | _ => False

/-- The references of the loop thread. -/
@[simp] def Phase.refs : Phase → Int
  | .released _ => 0
  | .counted _ => 0
  | .halfClosed => 0
  | .shut => 0
  | .rest true => 0
  | .freeing => 0
  | _ => 1

structure Alive (s : Life) (phase : Tid → Phase) : Prop where
  looping : Looping s (phase .loop)
  serving : Serving s (phase .server)
  others : ∀ n, phase (.other n) = .idle
  refs : s.refcount = (if s.served then 0 else 1) + (phase .loop).refs
  clean : s.faults = []

/-- Only the thread that has the command is in a phase of serving it. -/
theorem Alive.serves (h : Alive s phase) {t : Tid} {b : Bool} (ht : phase t = .serving b) :
    t = .server := by
  cases t with
  | loop =>
    have hloop := h.looping
    rw [ht] at hloop
    exact hloop.elim
  | server => rfl
  | other n =>
    rw [h.others n] at ht
    contradiction

/-- A phase of the teardown is the loop thread's. -/
theorem Alive.loops (h : Alive s phase) {t : Tid} (hidle : phase t ≠ .idle)
    (hserving : ∀ b, phase t ≠ .serving b) : t = .loop := by
  cases t with
  | loop => rfl
  | server =>
    have hserver := h.serving
    generalize phase .server = ph at hserver hidle hserving
    cases ph with
    | idle => exact absurd rfl hidle
    | serving b => exact absurd rfl (hserving b)
    | _ => exact hserver.elim
  | other n => exact absurd (h.others n) hidle

/-- While the command is served the request does not close. -/
theorem Alive.unclosed (h : Alive s phase) (hserved : s.served = false) :
    s.begun = 0 ∧ s.frees = 0 ∧ 0 < s.refcount := by
  obtain ⟨hloop, -, -, hrefs, -⟩ := h
  generalize phase .loop = ph at hloop hrefs
  rw [hserved] at hrefs
  unfold Looping HandlesOpen at hloop
  split at hloop <;> simp_all

theorem Life.use_eq (h : 0 < s.refcount) : s.use = s := if_neg (by omega)

/-! ## What a step can do -/

/-- A step of a thread that misuses nothing, with the phase before and after it. -/
inductive Moves (t : Tid) (s : Life) : Phase → Life → Phase → Prop
  | quiet (ph : Phase) : Moves t s ph s ph
  | push (b cb : Bool) : Moves t s (.serving b) { s with cbRead := cb } (.serving b)
  | take (ht : t = .server) (hposted : s.posted = true) :
      Moves t s .idle { s with posted := false } (.serving false)
  | inflight (b on : Bool) : Moves t s (.serving b) { s with inflight := on } (.serving on)
  | release : Moves t s (.serving false) { s with refcount := s.refcount - 1, served := true } .idle
  | sole (timer : Bool) (hsole : s.refcount = 1) : Moves t s (.open timer) s (.sole timer)
  | mark (timer : Bool) : Moves t s (.sole timer) { s with begun := s.begun + 1 } (.marked timer)
  | silence (timer : Bool) : Moves t s (.marked timer) { s with onPush := false } (.silenced timer)
  | drop (timer : Bool) :
      Moves t s (.silenced timer) { s with refcount := s.refcount - 1 } (.released timer)
  | count (timer : Bool) :
      Moves t s (.released timer) { s with pendingCloses := if timer then 2 else 1 } (.counted timer)
  | closeAsync (timer : Bool) :
      Moves t s (.counted timer) { s with asyncCloses := s.asyncCloses + 1 }
        (if timer then .halfClosed else .shut)
  | closeTimer : Moves t s .halfClosed { s with timerCloses := s.timerCloses + 1 } .shut
  | init : Moves t s (.open false) { s with timerInited := true } (.open true)
  | asyncClosed (hclosing : s.asyncClosed < s.asyncCloses) :
      Moves t s (.rest true)
        { s with asyncClosed := s.asyncClosed + 1, pendingCloses := s.pendingCloses - 1 }
        (if s.pendingCloses - 1 == 0 then .freeing else .rest true)
  | timerClosed (hclosing : s.timerClosed < s.timerCloses) :
      Moves t s (.rest true)
        { s with timerClosed := s.timerClosed + 1, pendingCloses := s.pendingCloses - 1 }
        (if s.pendingCloses - 1 == 0 then .freeing else .rest true)
  | free : Moves t s .freeing { s with frees := s.frees + 1 } (.rest true)
  | saveOpen (gr : Gr) (hgr : Running gr (.open gr.timerInited)) :
      Moves t s (.open gr.timerInited) { s with gr := gr } (.rest false)
  | saveShut (gr : Gr) (hgr : Shut gr .shut) : Moves t s .shut { s with gr := gr } (.rest true)
  | saveRest (gr : Gr) (hgr : Shut gr .shut) :
      Moves t s (.rest true) { s with gr := gr } (.rest true)

/-- `stream_sole_owner` in the middle of a pass finds another owner. -/
def CoOwned : LifeOp M → Life → Prop
  | .soleOwner true, s => s.refcount ≠ 1
  | _, _ => True

theorem gen_moves (h : Alive s phase) {t : Tid} {op : GenOp M} {r : GenAns op} {ph' : Phase}
    (hexec : execGen op s r s') (hmove : advance t (phase t) (LifeOp.gen op) r = some ph') :
    Moves t s (phase t) s' ph' := by
  simp only [advance] at hmove
  split at hmove
  · rename_i b ht
    obtain rfl := Option.some.inj hmove
    obtain rfl := h.serves ht
    have hserving := h.serving
    rw [ht] at hserving ⊢
    obtain ⟨-, -, hserved⟩ := hserving
    obtain ⟨hbegun, hfrees, hrefs⟩ := h.unclosed hserved
    have huse := Life.use_eq hrefs
    cases op with
    | push _ =>
      obtain rfl : s' = _ := hexec
      rw [huse]
      exact .push b _
    | finishCancelled =>
      obtain rfl : s' = _ := hexec
      rw [huse]
      exact .push b _
    | loadCancelled =>
      obtain rfl : s' = _ := hexec
      rw [huse]
      exact .quiet _
    | notify =>
      obtain rfl : s' = _ := hexec
      rw [if_neg (by simp [hbegun, hfrees])]
      exact .quiet _
    | _ =>
      obtain rfl : s' = s := hexec
      exact .quiet _
  · contradiction

/-- Until the loop thread has given its reference back the stream lives. -/
theorem Alive.refs_positive (h : Alive s phase) (hloop : (phase .loop).refs = 1) :
    0 < s.refcount := by
  have hrefs := h.refs
  rw [hloop] at hrefs
  split at hrefs <;> omega

/-- In a phase that is not the command's the thread is the loop thread. -/
theorem Alive.atLoop (h : Alive s phase) {t : Tid} {ph : Phase} (ht : phase t = ph)
    (hidle : ph ≠ .idle) (hserving : ∀ b, ph ≠ .serving b) : phase .loop = ph ∧ Looping s ph := by
  obtain rfl := h.loops (t := t) (by rwa [ht]) (by rwa [ht])
  exact ⟨ht, ht ▸ h.looping⟩

theorem cancelInflight_moves (h : Alive s phase) {t : Tid} :
    Moves t s .idle (if s.inflight then s.use else s) .idle := by
  split
  · rename_i hinflight
    have hserving := h.serving
    generalize phase .server = server at hserving
    cases server with
    | idle => exact absurd hinflight (by simp [hserving.1])
    | serving b =>
      rw [Life.use_eq (h.unclosed hserving.2.2).2.2]
      exact .quiet _
    | _ => exact hserving.elim
  · exact .quiet _

theorem soleOwner_moves {t : Tid} {inPass timer : Bool}
    (hok : CoOwned (.soleOwner inPass : LifeOp M) s) : Moves t s (.open timer) s
      (if s.refcount == 1 then if inPass then .lost else .sole timer else .open timer) := by
  by_cases hsole : s.refcount = 1
  · cases inPass with
    | true => exact absurd hsole hok
    | false =>
      rw [if_pos (by simpa using hsole), if_neg Bool.false_ne_true]
      exact .sole timer hsole
  · rw [if_neg (by simpa using hsole)]
    exact .quiet _

theorem closeCb_moves {t : Tid} (hloop : Looping s (.rest true)) {handle : HandleId}
    (hclosing : closing s handle) : Moves t s (.rest true) (execClosed s handle)
      (if s.pendingCloses - 1 == 0 then .freeing else .rest true) := by
  obtain ⟨-, -, -, ⟨hasync, -, hasyncs, htimers, hpending⟩, hfrees⟩ := hloop
  cases handle with
  | async =>
    have : s.asyncClosed < s.asyncCloses := hclosing
    rw [if_neg (by omega)] at hfrees
    rw [execClosed, if_neg (by simp [hfrees])]
    exact .asyncClosed hclosing
  | timer =>
    have : s.timerClosed < s.timerCloses := hclosing
    rw [if_neg (by omega)] at hfrees
    rw [execClosed, if_neg (by simp [hfrees])]
    exact .timerClosed hclosing

/-- Every operation of a thread that misuses nothing. -/
theorem exec_moves (h : Alive s phase) {t : Tid} {op : LifeOp M} {r : LifeAns op} {ph' : Phase}
    (hok : CoOwned op s) (hexec : exec op s r s') (hmove : move t (phase t) op r = some ph') :
    Moves t s (phase t) s' ph' := by
  have hlost : phase t ≠ .lost := fun ht => (h.atLoop ht (by simp) (by simp)).2
  rw [move, if_neg hlost] at hmove
  cases op with
  | gen op => exact gen_moves h hexec hmove
  | take =>
    simp only [advance, Option.ite_none_right_eq_some, Option.some.injEq] at hmove
    obtain ⟨⟨ht, hserver⟩, rfl⟩ := hmove
    obtain ⟨hposted, rfl⟩ := hexec
    rw [ht]
    exact .take hserver hposted
  | setInflight on =>
    obtain rfl : s' = _ := hexec
    simp only [advance] at hmove
    split at hmove
    · rename_i b ht
      obtain rfl := Option.some.inj hmove
      rw [ht]
      exact .inflight b on
    · contradiction
  | releaseCommand =>
    obtain rfl : s' = _ := hexec
    simp only [advance, Option.ite_none_right_eq_some, Option.some.injEq] at hmove
    obtain ⟨ht, rfl⟩ := hmove
    obtain rfl := h.serves ht
    have hserving := h.serving
    rw [ht] at hserving ⊢
    rw [Life.use_eq (h.unclosed hserving.2.2).2.2]
    exact .release
  | cancelInflight =>
    obtain rfl : s' = _ := hexec
    simp only [advance, Option.ite_none_right_eq_some, Option.some.injEq] at hmove
    obtain ⟨ht, rfl⟩ := hmove
    rw [ht]
    exact cancelInflight_moves h
  | ask =>
    obtain rfl : s' = s := hexec
    simp only [advance] at hmove
    split at hmove
    · rename_i timer ht
      obtain rfl := Option.some.inj hmove
      rw [ht]
      exact .quiet _
    · contradiction
  | useStream =>
    obtain rfl : s' = s.use := hexec
    simp only [advance] at hmove
    split at hmove
    · rename_i timer ht
      obtain rfl := Option.some.inj hmove
      obtain ⟨hat, -⟩ := h.atLoop ht (by simp) (by simp)
      rw [ht, Life.use_eq (h.refs_positive (by simp [hat]))]
      exact .quiet _
    · contradiction
  | soleOwner inPass =>
    obtain ⟨rfl, rfl⟩ := hexec
    simp only [advance] at hmove
    split at hmove
    · rename_i timer ht
      obtain rfl := Option.some.inj hmove
      obtain ⟨hat, -⟩ := h.atLoop ht (by simp) (by simp)
      rw [ht, Life.use_eq (h.refs_positive (by simp [hat]))]
      exact soleOwner_moves hok
    · contradiction
  | setClosing =>
    obtain rfl : s' = _ := hexec
    simp only [advance] at hmove
    split at hmove
    · rename_i timer ht
      obtain rfl := Option.some.inj hmove
      obtain ⟨-, -, -, hbegun, -⟩ := h.atLoop ht (by simp) (by simp)
      rw [ht, if_neg (by simp [hbegun])]
      exact .mark timer
    · contradiction
  | clearNotify =>
    obtain rfl : s' = _ := hexec
    simp only [advance] at hmove
    split at hmove
    · rename_i timer ht
      obtain rfl := Option.some.inj hmove
      obtain ⟨hat, -⟩ := h.atLoop ht (by simp) (by simp)
      rw [ht, Life.use_eq (h.refs_positive (by simp [hat]))]
      exact .silence timer
    · contradiction
  | releaseRequest =>
    obtain rfl : s' = _ := hexec
    simp only [advance] at hmove
    split at hmove
    · rename_i timer ht
      obtain rfl := Option.some.inj hmove
      obtain ⟨hat, -⟩ := h.atLoop ht (by simp) (by simp)
      rw [ht, Life.use_eq (h.refs_positive (by simp [hat]))]
      exact .drop timer
    · contradiction
  | setPending n =>
    obtain rfl : s' = _ := hexec
    simp only [advance] at hmove
    split at hmove
    · rename_i timer ht
      simp only [Option.ite_none_right_eq_some, Option.some.injEq] at hmove
      obtain ⟨rfl, rfl⟩ := hmove
      rw [ht]
      exact .count timer
    · contradiction
  | uvClose handle =>
    obtain rfl : s' = _ := hexec
    cases handle with
    | async =>
      simp only [advance] at hmove
      split at hmove
      · rename_i timer ht
        obtain rfl := Option.some.inj hmove
        obtain ⟨-, -, -, -, ⟨hopen, -⟩, -⟩ := h.atLoop ht (by simp) (by simp)
        rw [ht, execClose, if_neg (by simp [hopen])]
        exact .closeAsync timer
      · contradiction
    | timer =>
      simp only [advance, Option.ite_none_right_eq_some, Option.some.injEq] at hmove
      obtain ⟨ht, rfl⟩ := hmove
      obtain ⟨-, htimer, -, -, -, -, hopen, -⟩ := h.atLoop ht (by simp) (by simp)
      rw [ht, execClose, if_neg (by simp [htimer, hopen])]
      exact .closeTimer
  | timerInit =>
    obtain rfl : s' = _ := hexec
    simp only [advance, Option.ite_none_right_eq_some, Option.some.injEq] at hmove
    obtain ⟨ht, rfl⟩ := hmove
    rw [ht]
    exact .init
  | closeCb handle =>
    obtain ⟨hclosing, rfl, rfl⟩ := hexec
    simp only [advance, Option.ite_none_right_eq_some, Option.some.injEq] at hmove
    obtain ⟨ht, rfl⟩ := hmove
    rw [ht]
    exact closeCb_moves (h.atLoop ht (by simp) (by simp)).2 hclosing
  | freeGr =>
    obtain rfl : s' = _ := hexec
    simp only [advance, Option.ite_none_right_eq_some, Option.some.injEq] at hmove
    obtain ⟨ht, rfl⟩ := hmove
    obtain ⟨-, -, -, -, ⟨hasync, htimer, hasyncs, htimers, hpending⟩, hnone, hfrees⟩ :=
      h.atLoop ht (by simp) (by simp)
    have hone : s.asyncClosed = 1 := by omega
    have hall : s.timerClosed = s.timerInited.toNat := by omega
    rw [ht, if_neg (by simp [hfrees, hone, hall])]
    exact .free
  | save gr =>
    obtain rfl : s' = _ := hexec
    simp only [advance] at hmove
    split at hmove
    · rename_i hgr
      obtain rfl := Option.some.inj hmove
      rw [hgr.2.2]
      exact .saveOpen gr ⟨hgr.1, hgr.2.1, rfl⟩
    · split at hmove
      · rename_i hgr
        obtain rfl := Option.some.inj hmove
        rcases hgr.2.2 with ht | ht
        · rw [ht]
          exact .saveShut gr ⟨hgr.1, hgr.2.1, rfl⟩
        · rw [ht]
          exact .saveRest gr ⟨hgr.1, hgr.2.1, rfl⟩
      · contradiction

/-! ## The invariant is kept -/

/-- What the loop thread has left does not depend on how far the command has come. -/
theorem looping_serving {ph : Phase} (h : Looping s ph) (refcount : Int)
    (cbRead inflight posted served : Bool) (hserved : s.served = true → served = true) :
    Looping { s with
      refcount := refcount, cbRead := cbRead, inflight := inflight, posted := posted
      served := served } ph := by
  cases ph with
  | shut => exact ⟨hserved h.1, h.2⟩
  | sole timer => exact ⟨h.1, hserved h.2.1, h.2.2⟩
  | marked timer => exact ⟨h.1, hserved h.2.1, h.2.2⟩
  | silenced timer => exact ⟨h.1, hserved h.2.1, h.2.2⟩
  | released timer => exact ⟨h.1, hserved h.2.1, h.2.2⟩
  | counted timer => exact ⟨h.1, hserved h.2.1, h.2.2⟩
  | halfClosed => exact ⟨h.1, hserved h.2.1, h.2.2⟩
  | freeing => exact ⟨h.1, hserved h.2.1, h.2.2⟩
  | rest closing =>
    cases closing with
    | false => exact h
    | true => exact ⟨h.1, hserved h.2.1, h.2.2⟩
  | _ => exact h

theorem Alive.serve (h : Alive s phase) {ph : Phase} {refcount : Int}
    {cbRead inflight posted served : Bool} (hserved : s.served = true → served = true)
    (hserving : Serving { s with inflight := inflight, posted := posted, served := served } ph)
    (hrefs : refcount = (if served then 0 else 1) + (phase .loop).refs) :
    Alive { s with
      refcount := refcount, cbRead := cbRead, inflight := inflight, posted := posted
      served := served } (Function.update phase .server ph) where
  looping := by
    rw [Function.update_of_ne (by decide)]
    exact looping_serving h.looping refcount cbRead inflight posted served hserved
  serving := by
    rw [Function.update_self]
    exact hserving
  others n := by
    rw [Function.update_of_ne (by simp)]
    exact h.others n
  refs := by
    rw [Function.update_of_ne (by decide)]
    exact hrefs
  clean := h.clean

theorem Alive.loop (h : Alive s phase) {ph : Phase} (hlooping : Looping s' ph)
    (hserving : Serving s' (phase .server))
    (hrefs : s'.refcount = (if s'.served then 0 else 1) + ph.refs) (hclean : s'.faults = s.faults) :
    Alive s' (Function.update phase .loop ph) where
  looping := by
    rw [Function.update_self]
    exact hlooping
  serving := by
    rw [Function.update_of_ne (by decide)]
    exact hserving
  others n := by
    rw [Function.update_of_ne (by simp)]
    exact h.others n
  refs := by
    rw [Function.update_self]
    exact hrefs
  clean := hclean.trans h.clean

/-- A handle is closed; behind the last one the request is freed. -/
theorem Alive.handleClosed (h : Alive s phase) (ht : phase .loop = .rest true)
    (hgr : Shut s'.gr .shut) (hserved : s'.served = true) (hbegun : s'.begun = 1)
    (hclosing : HandlesClosing s') (hfrees : s'.frees = 0) (hserving : Serving s' (phase .server))
    (hrefs : s'.refcount = s.refcount) (hclean : s'.faults = s.faults) :
    Alive s' (Function.update phase .loop
      (if s'.pendingCloses == 0 then .freeing else .rest true)) := by
  have hcount : s'.refcount = (if s'.served then 0 else 1) + (Phase.rest true).refs := by
    have hserved' : s.served = true := by
      have hloop := h.looping
      rw [ht] at hloop
      exact hloop.2.1
    rw [hrefs, h.refs, ht, hserved, hserved']
  split
  · rename_i hlast
    exact h.loop ⟨hgr, hserved, hbegun, hclosing, by simpa using hlast, hfrees⟩ hserving hcount
      hclean
  · rename_i hlast
    refine h.loop ⟨hgr, hserved, hbegun, hclosing, ?_⟩ hserving hcount hclean
    rw [if_neg (by simpa using hlast)]
    exact hfrees

/-- The steps of whoever has the command. -/
theorem serving_alive (h : Alive s phase) {ph ph' : Phase} (ht : phase .server = ph)
    (hmoves : Moves .server s ph s' ph') :
    Alive s' (Function.update phase .server ph') := by
  have hrefs := h.refs
  have hserving := h.serving
  rw [ht] at hserving
  cases hmoves with
  | quiet ph =>
    rw [← ht, Function.update_eq_self]
    exact h
  | push b cb =>
    exact h.serve id hserving hrefs
  | take _ hposted =>
    exact h.serve id ⟨hserving.1, rfl, hserving.2 hposted⟩ hrefs
  | inflight b on =>
    exact h.serve id ⟨rfl, hserving.2⟩ hrefs
  | release =>
    refine h.serve (fun _ => rfl) ⟨hserving.1, by simp [hserving.2.1]⟩ ?_
    rw [hrefs, hserving.2.2]
    simp
  | _ => exact hserving.elim

/-- The steps of the loop thread. -/
theorem looping_alive (h : Alive s phase) {ph ph' : Phase} (ht : phase .loop = ph)
    (hmoves : Moves .loop s ph s' ph') : Alive s' (Function.update phase .loop ph') := by
  have hrefs := h.refs
  have hloop := h.looping
  rw [ht] at hloop
  cases hmoves with
  | quiet ph =>
    rw [← ht, Function.update_eq_self]
    exact h
  | push b cb => exact hloop.elim
  | take _ hposted => exact hloop.elim
  | inflight b on => exact hloop.elim
  | release => exact hloop.elim
  | sole timer hsole =>
    have hserved : s.served = true := by
      rw [ht, hsole] at hrefs
      cases hserved : s.served with
      | true => rfl
      | false => rw [hserved] at hrefs; simp at hrefs
    exact h.loop ⟨hloop.1, hserved, hloop.2⟩ h.serving (by rw [hrefs, ht]; rfl) rfl
  | mark timer =>
    obtain ⟨htimer, hserved, hbegun, hopen⟩ := hloop
    exact h.loop ⟨htimer, hserved, by rw [hbegun], hopen⟩ h.serving (by rw [hrefs, ht]; rfl) rfl
  | silence timer => exact h.loop hloop h.serving (by rw [hrefs, ht]; rfl) rfl
  | drop timer =>
    refine h.loop hloop h.serving ?_ rfl
    rw [hrefs, ht]
    simp
  | count timer =>
    obtain ⟨htimer, hserved, hbegun, hopen⟩ := hloop
    exact h.loop ⟨htimer, hserved, hbegun, hopen, rfl⟩ h.serving (by rw [hrefs, ht]; rfl) rfl
  | closeAsync timer =>
    obtain ⟨htimer, hserved, hbegun, ⟨hcloses, hclosed, htcloses, htclosed, hfrees⟩, hpending⟩ := hloop
    cases timer with
    | true =>
      exact h.loop ⟨htimer, hserved, hbegun, by rw [hcloses], hclosed, htcloses, htclosed, hfrees,
        hpending⟩ h.serving (by rw [hrefs, ht]; rfl) rfl
    | false =>
      refine h.loop ⟨hserved, hbegun, ?_, ?_, hfrees⟩ h.serving (by rw [hrefs, ht]; rfl) rfl
      · simp [HandlesClosing, *]
      · simp [hpending]
  | closeTimer =>
    obtain ⟨htimer, hserved, hbegun, hcloses, hclosed, htcloses, htclosed, hfrees, hpending⟩ := hloop
    refine h.loop ⟨hserved, hbegun, ?_, ?_, hfrees⟩ h.serving (by rw [hrefs, ht]; rfl) rfl
    · simp [HandlesClosing, *]
    · simp [hpending]
  | init =>
    obtain ⟨-, hbegun, hopen⟩ := hloop
    exact h.loop ⟨rfl, hbegun, hopen⟩ h.serving (by rw [hrefs, ht]; rfl) rfl
  | asyncClosed hclosing =>
    obtain ⟨hgr, hserved, hbegun, ⟨hasync, htimer, hasyncs, htimers, hpending⟩, hfrees⟩ := hloop
    rw [if_neg (by omega)] at hfrees
    exact h.handleClosed ht hgr hserved hbegun
      ⟨hasync, htimer, by dsimp only; omega, htimers, by dsimp only; omega⟩ hfrees h.serving rfl rfl
  | timerClosed hclosing =>
    obtain ⟨hgr, hserved, hbegun, ⟨hasync, htimer, hasyncs, htimers, hpending⟩, hfrees⟩ := hloop
    rw [if_neg (by omega)] at hfrees
    exact h.handleClosed ht hgr hserved hbegun
      ⟨hasync, htimer, hasyncs, by dsimp only; omega, by dsimp only; omega⟩ hfrees h.serving rfl rfl
  | free =>
    obtain ⟨hgr, hserved, hbegun, hclosing, hpending, hfrees⟩ := hloop
    refine h.loop ⟨hgr, hserved, hbegun, hclosing, ?_⟩ h.serving (by rw [hrefs, ht]; rfl) rfl
    simp [hpending, hfrees]
  | saveOpen gr hgr =>
    obtain ⟨htimer, hbegun, hopen⟩ := hloop
    refine h.loop ⟨?_, hbegun, hopen⟩ h.serving (by rw [hrefs, ht]; rfl) rfl
    rw [htimer]
    exact hgr
  | saveShut gr hgr =>
    obtain ⟨hserved, hbegun, hclosing, hpending, hfrees⟩ := hloop
    refine h.loop ⟨hgr, hserved, hbegun, hclosing, ?_⟩ h.serving (by rw [hrefs, ht]; rfl) rfl
    rw [if_neg (by dsimp only; omega)]
    exact hfrees
  | saveRest gr hgr =>
    exact h.loop ⟨hgr, hloop.2⟩ h.serving (by rw [hrefs, ht]) rfl

theorem effect_alive (h : Alive s phase) {t : Tid} {op : LifeOp M} {r : LifeAns op} {ph' : Phase}
    (hok : CoOwned op s) (hexec : exec op s r s') (hmove : move t (phase t) op r = some ph') :
    Alive s' (Function.update phase t ph') := by
  have hmoves := exec_moves h hok hexec hmove
  cases t with
  | loop => exact looping_alive h rfl hmoves
  | server => exact serving_alive h rfl hmoves
  | other n =>
    have hothers := h.others n
    generalize hph : phase (.other n) = ph at hmoves
    rw [hothers] at hph
    subst hph
    cases hmoves with
    | quiet _ =>
      rw [← hothers, Function.update_eq_self]
      exact h
    | take ht _ => contradiction

/-! ## The threads start in their phases -/

theorem loopEvent_obeys {p : Task M Unit} (h : Alive s phase) (hended : Ended (phase .loop))
    (hevent : LoopEvent s p) : ∃ ph, Alive s (Function.update phase .loop ph) ∧
      Obeys (move .loop) p ph fun _ ph => Ended ph := by
  have hloop := h.looping
  have hrefs := h.refs
  rcases hended with ht | ⟨closing, ht⟩ | ht
  · rw [ht] at hloop
    exact hloop.elim
  · rw [ht] at hloop hrefs
    cases closing with
    | false =>
      obtain ⟨hgr, hbegun, hopen⟩ := hloop
      have halive : Alive s (Function.update phase .loop (.open s.timerInited)) :=
        h.loop ⟨rfl, hbegun, hopen⟩ h.serving hrefs rfl
      cases hevent with
      | async kinds _ => exact ⟨_, halive, callback_obeys (genOnAsync_obeys hgr)⟩
      | timer hinited _ =>
        have htimer : s.gr.timerInited = true := (Phase.open.inj hgr.2.2).symm.trans hinited
        exact ⟨_, halive, callback_obeys (onTimer_obeys (hgr.detached hinited) htimer)⟩
      | connClosed =>
        refine ⟨_, halive, callback_obeys (obeys_mono (closeConn_obeys false hgr) fun _ _ h => ?_)⟩
        exact settled_of_open h
      | drain _ => exact ⟨_, halive, callback_obeys (genRequestDrain_obeys hgr)⟩
      | closed handle hclosing =>
        obtain ⟨hcloses, -, htcloses, -⟩ := hopen
        cases handle with
        | async => exact absurd hclosing (by simp [closing, hcloses])
        | timer => exact absurd hclosing (by simp [closing, htcloses])
    | true =>
      obtain ⟨⟨hgood, hclosing, -⟩, -, -, ⟨hasync, htimer, -⟩, -⟩ := hloop
      have halive : Alive s (Function.update phase .loop (.rest true)) := by
        rw [← ht, Function.update_eq_self]
        exact h
      cases hevent with
      | async kinds hopen => rw [hasync] at hopen; contradiction
      | timer hinited hopen =>
        rw [htimer, hinited] at hopen
        contradiction
      | connClosed => exact ⟨_, halive, closeConn_shut hgood hclosing⟩
      | drain hobserver =>
        have := (hgood.2.1 (hgood.1.trans hobserver)).1
        rw [hclosing] at this
        contradiction
      | closed handle _ => exact ⟨_, halive, onCloseCb_obeys handle⟩
  · rw [ht] at hloop
    exact hloop.elim

theorem phaseRule : PhaseRule (fun t => move (M := M) t) Ended Alive exec starts CoOwned where
  starts t s p phase h hended hstart := by
    cases t with
    | loop => exact loopEvent_obeys h hended hstart
    | server =>
      have hidle : phase .server = .idle := by
        have hserving := h.serving
        rcases hended with ht | ⟨b, ht⟩ | ht
        · exact ht
        · rw [ht] at hserving
          exact hserving.elim
        · rw [ht] at hserving
          exact hserving.elim
      refine ⟨.idle, by rw [← hidle, Function.update_eq_self]; exact h, ?_⟩
      obtain ⟨q, rfl | rfl⟩ := hstart
      · exact handleGenerate_obeys q
      · exact cmdCancel_obeys q
    | other n =>
      obtain rfl : p = _ := hstart
      refine ⟨.idle, by rw [← h.others n, Function.update_eq_self]; exact h, ?_⟩
      exact fun _ => ⟨.idle, rfl, .inl rfl⟩
  effect t op s r s' phase ph' hok h hexec hmove := effect_alive h hok hexec hmove

/-! ## Over whole runs -/

/-- The next tick of the timer closes both handles. -/
def TickCloses (M : Mlx) (s : Life) : Prop :=
  ∃ s' : Life, Alone (E := LifeOp M) exec CoOwned s (callback (onTimer s.gr)) s' (.done ()) ∧
    s'.begun = 1 ∧ s'.asyncCloses = 1 ∧ s'.timerCloses = 1

theorem tickCloses (hrefs : s.refcount = 1) (hbegun : s.begun = 0) (hasync : s.asyncCloses = 0)
    (htimer : s.timerCloses = 0) (hinited : s.timerInited = true) (hclosing : s.gr.closing = false)
    (hopen : s.gr.timerInited = true) : TickCloses M s := by
  obtain ⟨_, _, _, _, _, _, gr, _, _, _, _, _, _, _, _, _⟩ := s
  obtain ⟨_, _, _, _, _, _, _, _⟩ := gr
  dsimp only at hrefs hbegun hasync htimer hinited hclosing hopen
  subst hrefs hbegun hasync htimer hinited hclosing hopen
  exact ⟨_, .step true trivial ⟨rfl, rfl⟩ (.step () trivial rfl (.step () trivial rfl
    (.step () trivial rfl (.step () trivial rfl (.step () trivial rfl (.step () trivial rfl
      (.step () trivial rfl (.refl _ _)))))))), rfl, rfl, rfl⟩

/-- Nothing is misused, and everything is closed and freed at most once and in order; between two
callbacks a request that began to close has closed all it had, and one that did not still has its
connection or a timer, which closes it as soon as the command is served. -/
structure Orderly (c : Config Life Tid (LifeOp M) LifeAns) : Prop where
  clean : c.shared.faults = []
  begun : c.shared.begun ≤ 1
  asyncOnce : c.shared.asyncCloses ≤ 1
  timerOnce : c.shared.timerCloses ≤ 1
  freedOnce : c.shared.frees ≤ 1
  freedLast : 0 < c.shared.frees →
    c.shared.asyncClosed = 1 ∧ (c.shared.timerInited = true → c.shared.timerClosed = 1)
  closed : c.threads .loop = .done () → c.shared.begun = 1 →
    c.shared.asyncCloses = 1 ∧ c.shared.timerCloses = c.shared.timerInited.toNat
  waiting : c.threads .loop = .done () → c.shared.begun = 0 →
    c.shared.gr.conn = true ∨
      c.shared.timerInited = true ∧ (c.shared.served = true → TickCloses M c.shared)

theorem HandlesClosing.once (h : HandlesClosing s) :
    s.asyncCloses ≤ 1 ∧ s.timerCloses ≤ 1 ∧ (s.pendingCloses = 0 →
      s.asyncClosed = 1 ∧ (s.timerInited = true → s.timerClosed = 1)) := by
  obtain ⟨hasync, htimer, hasyncs, htimers, hpending⟩ := h
  have hle : s.timerInited.toNat ≤ 1 := Bool.toNat_le _
  refine ⟨by omega, by omega, fun hnone => ⟨by omega, fun hinit => ?_⟩⟩
  rw [hinit] at htimer
  simp only [Bool.toNat_true] at htimer
  omega

/-- The handles and the request, wherever the loop thread stands. -/
theorem Alive.once (h : Alive s phase) :
    s.begun ≤ 1 ∧ s.asyncCloses ≤ 1 ∧ s.timerCloses ≤ 1 ∧ s.frees ≤ 1 ∧ (0 < s.frees →
      s.asyncClosed = 1 ∧ (s.timerInited = true → s.timerClosed = 1)) := by
  have hloop := h.looping
  generalize phase .loop = ph at hloop
  unfold Looping HandlesOpen at hloop
  split at hloop
  case h_8 =>
    obtain ⟨-, hbegun, hclosing, -, hfrees⟩ := hloop
    obtain ⟨hasync, htimer, -⟩ := hclosing.once
    exact ⟨by omega, hasync, htimer, by omega, by omega⟩
  case h_10 =>
    obtain ⟨-, -, hbegun, hclosing, hfrees⟩ := hloop
    obtain ⟨hasync, htimer, hclosed⟩ := hclosing.once
    split at hfrees
    · rename_i hnone
      exact ⟨by omega, hasync, htimer, by omega, fun _ => hclosed hnone⟩
    · exact ⟨by omega, hasync, htimer, by omega, by omega⟩
  case h_11 =>
    obtain ⟨-, -, hbegun, hclosing, -, hfrees⟩ := hloop
    obtain ⟨hasync, htimer, -⟩ := hclosing.once
    exact ⟨by omega, hasync, htimer, by omega, by omega⟩
  case h_12 => exact hloop.elim
  all_goals omega

theorem orderly_of_phased {c : Config Life Tid (LifeOp M) LifeAns}
    (h : Phased (fun t => move t) Ended Alive c) : Orderly c := by
  obtain ⟨phase, halive, hobeys⟩ := h
  obtain ⟨hbegun, hasync, htimer, hfrees, hlast⟩ := halive.once
  have hrest : c.threads .loop = .done () → ∃ closing, phase .loop = .rest closing := by
    intro hdone
    have hended := hobeys .loop
    have hloop := halive.looping
    rw [hdone] at hended
    rcases hended with ht | ht | ht
    · rw [ht] at hloop
      exact hloop.elim
    · exact ht
    · rw [ht] at hloop
      exact hloop.elim
  refine ⟨halive.clean, hbegun, hasync, htimer, hfrees, hlast, fun hdone hone => ?_,
    fun hdone hzero => ?_⟩
  all_goals
    obtain ⟨closing, ht⟩ := hrest hdone
    have hloop := halive.looping
    rw [ht] at hloop
  · cases closing with
    | false =>
      obtain ⟨-, hzero, -⟩ := hloop
      omega
    | true =>
      obtain ⟨-, -, -, ⟨hcloses, htcloses, -⟩, -⟩ := hloop
      exact ⟨hcloses, htcloses⟩
  · cases closing with
    | false =>
      obtain ⟨⟨hgood, hclosing, hopen⟩, -, hasync, -, htimer, -⟩ := hloop
      cases hconn : c.shared.gr.conn with
      | true => exact .inl rfl
      | false =>
        rcases hgood.2.2 hconn with h | h
        · rw [hclosing] at h
          contradiction
        · have hinited : c.shared.timerInited = true := (Phase.open.inj hopen).trans h
          refine .inr ⟨hinited, fun hserved => ?_⟩
          have hrefs := halive.refs
          rw [ht, hserved] at hrefs
          exact tickCloses hrefs hzero hasync htimer hinited hclosing h
    | true =>
      obtain ⟨-, -, hone, -⟩ := hloop
      omega

theorem initial_phased (M : Mlx) (stream : Bool) :
    Phased (fun t => move t) Ended Alive (initial M stream) := by
  have hgood : (Gr.start stream).Good := ⟨rfl, fun _ => ⟨rfl, rfl, rfl⟩, by simp [Gr.start]⟩
  have hrunning : Running (Gr.start stream) (.open false) := ⟨hgood, rfl, rfl⟩
  refine ⟨fun t => if t = .loop then .open false else .idle, ⟨?_, ?_, fun n => rfl, rfl, rfl⟩,
    fun t => ?_⟩
  · exact ⟨rfl, rfl, rfl, rfl, rfl, rfl, rfl⟩
  · exact ⟨rfl, fun _ => rfl⟩
  · cases t with
    | loop =>
      refine callback_obeys ?_
      cases stream with
      | true => exact obeys_mono (queueWrite_obeys false hrunning) fun _ _ h => settled_of_open h
      | false => exact .inl hrunning
    | server => exact .inl rfl
    | other n => exact .inl rfl

/-- As long as no request begins to close in the middle of a pass over its stream. -/
theorem lifetime_orderly (M : Mlx) (stream : Bool) (c : Config Life Tid (LifeOp M) LifeAns)
    (hrun : RunsTo exec starts (NextMeets CoOwned) (initial M stream) c) : Orderly c :=
  orderly_of_phased (phased_runsTo phaseRule (initial_phased M stream) hrun)

/-! ### Two runs -/

@[reducible] def plainMlx : Mlx where
  Real := Nat
  Ids := List Int
  Logits := Unit
  Key := Unit
  Token := Int
  Logprob := Nat
  zero := 0
  one := 1
  stubLogprob := id
  makeIdsArray := id

/-- The engine echoes one token. -/
def echo : Gen plainMlx Unit :=
  Engine.handleGenerateStub ⟨⟨⟨1, 1, -1, 0, -1⟩, 0, 16, false⟩, [7]⟩

/-- The engine has written its last chunk and still has the command. -/
def echoedState : Life := { (initial plainMlx true).shared with posted := false, cbRead := true }

def headWritten : Config Life Tid (LifeOp plainMlx) LifeAns :=
  (initial plainMlx true).resume .loop (initial plainMlx true).shared (.done ())

def echoed : Config Life Tid (LifeOp plainMlx) LifeAns :=
  headWritten.resume .server echoedState (step .releaseCommand)

theorem echo_runs : RunsTo exec starts (NextMeets CoOwned) (initial plainMlx true) echoed := by
  have hhead : Alone exec CoOwned (initial plainMlx true).shared
      ((initial plainMlx true).threads .loop) (initial plainMlx true).shared (.done ()) :=
    .step true trivial rfl (.step () trivial rfl (.refl _ _))
  have hecho : Alone exec CoOwned (initial plainMlx true).shared (handleGenerate echo) echoedState
      (step .releaseCommand) :=
    .step () trivial ⟨rfl, rfl⟩ (.step () trivial rfl (.step false trivial rfl
      (.step true trivial rfl (.step () trivial rfl (.step true trivial rfl
        (.step () trivial rfl (.step () trivial rfl (.refl _ _))))))))
  have hok : ∀ (c : Config Life Tid (LifeOp plainMlx) LifeAns) (t : Tid),
      NextMeets CoOwned c t → NextMeets CoOwned c t := fun _ _ h => h
  have h₁ : RunsTo exec starts (NextMeets CoOwned) (initial plainMlx true) headWritten :=
    runsTo_alone hok hhead rfl rfl
  have h₂ : RunsTo exec starts (NextMeets CoOwned) headWritten echoed :=
    runsTo_start hok rfl ⟨echo, .inl rfl⟩ hecho
  exact h₁.trans h₂

/-- The response is finished before the command is released, and the timer closes the request. -/
theorem timer_runs : ∃ c : Config Life Tid (LifeOp plainMlx) LifeAns,
    RunsTo exec starts (NextMeets CoOwned) (initial plainMlx true) c ∧ c.shared.frees = 1 ∧
      c.shared.timerInited = true := by
  have hok : ∀ (c : Config Life Tid (LifeOp plainMlx) LifeAns) (t : Tid),
      NextMeets CoOwned c t → NextMeets CoOwned c t := fun _ _ h => h
  let coOwned : LifeOp plainMlx → Life → Prop := CoOwned
  let gr : Gr := ⟨false, false, false, false, true, true, false, false⟩
  let s₁ : Life := { echoedState with timerInited := true, gr := gr }
  let s₂ : Life := { s₁ with served := true, refcount := 1 }
  let s₃ : Life :=
    { s₂ with
      begun := 1, onPush := false, refcount := 0, pendingCloses := 2, asyncCloses := 1
      timerCloses := 1, gr := { gr with closing := true } }
  let s₄ : Life := { s₃ with asyncClosed := 1, pendingCloses := 1 }
  let s₅ : Life := { s₄ with timerClosed := 1, pendingCloses := 0, frees := 1 }
  have hpass : Alone exec coOwned echoedState (callback (genOnAsync [.token, .done] (Gr.start true)))
      s₁ (.done ()) :=
    .step () trivial rfl (.step true trivial rfl (.step false trivial rfl (.step false trivial rfl
      (.step () trivial rfl (.step true trivial rfl (.step false trivial rfl
        (.step false trivial rfl (.step true trivial rfl (.step true trivial rfl
          (.step false trivial rfl (.step true trivial rfl (.step true trivial rfl
            (.step false trivial ⟨rfl, rfl⟩ (.step () trivial rfl (.step () trivial rfl
              (.refl _ _))))))))))))))))
  have hrelease : Alone exec coOwned s₁ (step .releaseCommand) s₂ (.done ()) :=
    .step () trivial rfl (.refl _ _)
  have htimer : Alone exec coOwned s₂ (callback (onTimer gr)) s₃ (.done ()) :=
    .step true trivial ⟨rfl, rfl⟩ (.step () trivial rfl (.step () trivial rfl
      (.step () trivial rfl (.step () trivial rfl (.step () trivial rfl (.step () trivial rfl
        (.step () trivial rfl (.refl _ _))))))))
  have hclosing₃ : closing s₃ .async := Nat.lt_succ_self 0
  have hclosing₄ : closing s₄ .timer := Nat.lt_succ_self 0
  have hasync : Alone exec coOwned s₃ (onCloseCb .async) s₄ (.done ()) :=
    .step false trivial ⟨hclosing₃, rfl, rfl⟩ (.refl _ _)
  have hlast : Alone exec coOwned s₄ (onCloseCb .timer) s₅ (.done ()) :=
    .step true trivial ⟨hclosing₄, rfl, rfl⟩ (.step () trivial rfl (.refl _ _))
  let c₁ := echoed.resume .loop s₁ (.done ())
  let c₂ := c₁.resume .server s₂ (.done ())
  let c₃ := c₂.resume .loop s₃ (.done ())
  let c₄ := c₃.resume .loop s₄ (.done ())
  let runs : Config Life Tid (LifeOp plainMlx) LifeAns → _ → Prop :=
    RunsTo exec starts (NextMeets CoOwned)
  have h₁ : runs echoed c₁ := runsTo_start hok rfl (.async [.token, .done] rfl) hpass
  have h₂ : runs c₁ c₂ := runsTo_alone hok hrelease rfl rfl
  have h₃ : runs c₂ c₃ := runsTo_start hok rfl (.timer rfl rfl) htimer
  have h₄ : runs c₃ c₄ := runsTo_start hok rfl (.closed .async hclosing₃) hasync
  have h₅ : runs c₄ (c₄.resume .loop s₅ (.done ())) :=
    runsTo_start hok rfl (.closed .timer hclosing₄) hlast
  exact ⟨_, ((((echo_runs.trans h₁).trans h₂).trans h₃).trans h₄).trans h₅, rfl, rfl⟩

/-- The request of that run is freed after its handles. -/
theorem lifetime_orderly_timer : ∃ c : Config Life Tid (LifeOp plainMlx) LifeAns,
    0 < c.shared.frees ∧ c.shared.asyncClosed = 1 ∧ c.shared.timerClosed = 1 := by
  obtain ⟨c, hrun, hfrees, htimer⟩ := timer_runs
  have hfreed : 0 < c.shared.frees := by omega
  have hlast := (lifetime_orderly plainMlx true c hrun).freedLast hfreed
  exact ⟨c, hfreed, hlast.1, hlast.2 htimer⟩

/-- The command is released, and then the write of the token's chunk fails in the call. -/
theorem lifetime_cut :
    ¬ ∀ c : Config Life Tid (LifeOp plainMlx) LifeAns,
      RunsTo exec starts (fun _ _ => True) (initial plainMlx true) c → Orderly c := by
  let always : LifeOp plainMlx → Life → Prop := fun _ _ => True
  have hok : ∀ (c : Config Life Tid (LifeOp plainMlx) LifeAns) (t : Tid),
      (∀ e next, c.threads t = .ask e next → always e c.shared) → True := fun _ _ _ => trivial
  let s₁ : Life := { echoedState with served := true, refcount := 1 }
  let s₂ : Life :=
    { s₁ with
      begun := 1, onPush := false, refcount := 0, pendingCloses := 1, asyncCloses := 1
      faults := [.streamUsed]
      gr := ⟨true, true, false, false, true, false, true, false⟩ }
  have hrelease : Alone exec always echoedState (step .releaseCommand) s₁ (.done ()) :=
    .step () trivial rfl (.refl _ _)
  have hpass : Alone exec always s₁ (callback (genOnAsync [.token] (Gr.start true))) s₂
      (.done ()) :=
    .step () trivial rfl (.step true trivial rfl (.step true trivial rfl (.step true trivial rfl
      (.step false trivial rfl (.step () trivial rfl (.step true trivial ⟨rfl, rfl⟩
        (.step () trivial rfl (.step () trivial rfl (.step () trivial rfl (.step () trivial rfl
          (.step () trivial rfl (.step () trivial rfl (.step () trivial rfl
            (.refl _ _))))))))))))))
  intro h
  have hrun : RunsTo exec starts (fun _ _ => True) (initial plainMlx true)
      ((echoed.resume .server s₁ (.done ())).resume .loop s₂ (.done ())) :=
    ((echo_runs.mono fun _ _ _ => trivial).trans (runsTo_alone hok hrelease rfl rfl)).trans
      (runsTo_start hok rfl (.async [.token] rfl) hpass)
  have hclean : s₂.faults = [] := (h _ hrun).clean
  contradiction

end Mlxd.Lifetime
