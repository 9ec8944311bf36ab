import Mlxd.Stream

/-!
# Streams as queues

Any number of pushes may wait for room, and each tests again when it is woken. Over every order
of the calls the chunks read, followed by those in the ring, are the accepted ones in order; only
the engine's own terminal takes the newest one's place, and only in a full ring. All this up to
the capacity from which on the index of a chunk may overflow: there some order of calls has no
result.
-/
namespace Mlxd.Engine

open Mlxd.Lib

variable {F : Type}

/-- A stream and the pushes that wait for room. -/
structure Channel (F : Type) where
  stream : Stream F
  waiting : List (Chunk F)

inductive StreamCall (F : Type) where
  | push (c : Chunk F)
  /-- The waiting push with that number tests again. -/
  | wake (n : Nat)
  | next (forever : Bool)
  | cancel
  | finishCancelled

inductive Outcome (F : Type) where
  | pushed (c : Chunk F) (ok : Bool)
  | waits (c : Chunk F)
  | read (o : Option (Chunk F))
  | cancelled
  /-- The engine's own terminal, and whether the ring was full. -/
  | finished (full : Bool)
  | idle

/-- A push up to its result or its wait; only one that writes computes an index. -/
def Channel.attempt (ch : Channel F) (c : Chunk F) : Option (Channel F × Outcome F) :=
  match streamPush ch.stream c with
  | none => some ({ ch with waiting := ch.waiting ++ [c] }, .waits c)
  | some (s, false) => some ({ ch with stream := s }, .pushed c false)
  | some (s, true) =>
    if IndexFits ch.stream then some ({ ch with stream := s }, .pushed c true) else none

/-- One call; there is no result when the index it computes overflows. A read computes
`read_pos + 1`, which is at most the capacity. -/
def Channel.step (ch : Channel F) : StreamCall F → Option (Channel F × Outcome F)
  | .push c => ch.attempt c
  | .wake n =>
    match ch.waiting[n]? with
    | none => some (ch, .idle)
    | some c => Channel.attempt { ch with waiting := ch.waiting.eraseIdx n } c
  | .next forever =>
    match streamNext ch.stream forever with
    | none => some (ch, .idle)
    | some (s, o) => some ({ ch with stream := s }, .read o)
  | .cancel => some ({ ch with stream := streamCancel ch.stream }, .cancelled)
  | .finishCancelled =>
    if IndexFits ch.stream then
      some ({ ch with stream := streamFinishCancelled ch.stream },
        .finished (decide (ch.stream.ring.len = ch.stream.ring.cap)))
    else none

def Channel.run : List (StreamCall F) → Channel F → Option (Channel F × List (Outcome F))
  | [], ch => some (ch, [])
  | call :: calls, ch => do
    let (ch, o) ← ch.step call
    let (ch, outs) ← Channel.run calls ch
    return (ch, o :: outs)

/-! ## The queue -/

def consumed : Outcome F → List (Chunk F)
  | .read (some c) => [c]
  | _ => []

/-- The accepted chunks after an outcome. -/
def accept (accepted : List (Chunk F)) : Outcome F → List (Chunk F)
  | .pushed c true => accepted ++ [c]
  | .finished full => (if full then accepted.dropLast else accepted) ++ [.done .cancelled]
  | _ => accepted

/-- After it the stream is cancelled. -/
def Cancels : Outcome F → Prop
  | .cancelled | .finished _ => True
  | _ => False

/-- What one call does: the queue's operation, and no push after a cancellation. -/
structure Queued (s s' : Stream F) (o : Outcome F) : Prop where
  cap : s'.ring.cap = s.ring.cap
  queue : ∀ front accepted, front ++ s.ring.toList = accepted →
    front ++ consumed o ++ s'.ring.toList = accept accepted o
  stays : s.cancelled = true → s'.cancelled = true
  refuses : s.cancelled = true → ∀ c, o ≠ .pushed c true
  cancels : Cancels o → s'.cancelled = true

/-- An outcome that is no queue operation, on a stream that stays as it is. -/
theorem Queued.same {s : Stream F} {o : Outcome F} (hconsumed : consumed o = [])
    (haccept : ∀ accepted, accept accepted o = accepted) (hpush : ∀ c, o ≠ .pushed c true)
    (hcancels : ¬ Cancels o) : Queued s s o where
  cap := rfl
  queue front accepted h := by rw [hconsumed, List.append_nil, h, haccept]
  stays h := h
  refuses _ := hpush
  cancels h := absurd h hcancels

theorem push_queued {s s' : Stream F} {c : Chunk F} {ok : Bool}
    (h : streamPush s c = some (s', ok)) : Queued s s' (.pushed c ok) := by
  simp only [streamPush] at h
  split at h
  · obtain ⟨rfl, rfl⟩ := Prod.mk.inj (Option.some.inj h)
    exact .same rfl (fun _ => rfl) (fun _ h => by simp at h) not_false
  · rename_i hc
    split at h
    · obtain ⟨rfl, rfl⟩ := Prod.mk.inj (Option.some.inj h)
      exact {
        cap := rfl
        queue := fun front accepted h => by
          simp only [consumed, accept, List.append_nil, RingBuffer.toList_push, ← h,
            List.append_assoc]
        stays := fun h => absurd h hc
        refuses := fun h => absurd h hc
        cancels := False.elim }
    · contradiction

theorem attempt_queued {ch ch' : Channel F} {c : Chunk F} {o : Outcome F}
    (h : ch.attempt c = some (ch', o)) : Queued ch.stream ch'.stream o := by
  rw [Channel.attempt] at h
  split at h
  · obtain ⟨rfl, rfl⟩ := Prod.mk.inj (Option.some.inj h)
    exact .same rfl (fun _ => rfl) (fun _ h => by simp at h) not_false
  · rename_i s hpush
    obtain ⟨rfl, rfl⟩ := Prod.mk.inj (Option.some.inj h)
    exact push_queued hpush
  · rename_i s hpush
    split at h
    · obtain ⟨rfl, rfl⟩ := Prod.mk.inj (Option.some.inj h)
      exact push_queued hpush
    · contradiction

theorem finishCancelled_queued (s : Stream F) : Queued s (streamFinishCancelled s)
    (.finished (decide (s.ring.len = s.ring.cap))) := by
  by_cases hroom : s.ring.len < s.ring.cap
  · exact {
      cap := by
        simp only [streamFinishCancelled, hroom, ↓reduceDIte]
        rfl
      queue := fun front accepted h => by
        simp only [streamFinishCancelled, hroom, hroom.ne, consumed, accept, ↓reduceDIte,
          decide_false, Bool.false_eq_true, if_false, List.append_nil, RingBuffer.toList_push,
          ← h, List.append_assoc]
      stays := fun _ => rfl
      refuses := fun _ _ h => by simp at h
      cancels := fun _ => rfl }
  · have hle := s.ring.len_le
    have hfull : s.ring.len = s.ring.cap := by omega
    have hpos : 0 < s.ring.len := hfull ▸ Nat.zero_lt_of_lt s.ring.readPos_lt
    have hne : s.ring.toList ≠ [] := fun h => by
      rw [RingBuffer.toList_eq_nil] at h
      omega
    exact {
      cap := by
        simp only [streamFinishCancelled, hroom, ↓reduceDIte]
        rfl
      queue := fun front accepted h => by
        simp only [streamFinishCancelled, hroom, ↓reduceDIte, consumed, accept,
          decide_eq_true hfull, if_true, List.append_nil, RingBuffer.toList_replaceLast _ _ hpos,
          ← h, List.dropLast_append_of_ne_nil hne, List.append_assoc]
      stays := fun _ => rfl
      refuses := fun _ _ h => by simp at h
      cancels := fun _ => rfl }

theorem next_queued {s s' : Stream F} {forever : Bool} {o : Option (Chunk F)}
    (h : streamNext s forever = some (s', o)) : Queued s s' (.read o) := by
  simp only [streamNext] at h
  split at h
  · split at h
    · contradiction
    · obtain ⟨rfl, rfl⟩ := Prod.mk.inj (Option.some.inj h)
      exact .same rfl (fun _ => rfl) (fun _ h => by simp at h) not_false
  · rename_i hne
    obtain ⟨rfl, rfl⟩ := Prod.mk.inj (Option.some.inj h)
    exact {
      cap := rfl
      queue := fun front accepted h => by
        rw [RingBuffer.toList_pop _ (Nat.pos_of_ne_zero hne)] at h
        simpa only [consumed, accept, List.append_assoc, List.singleton_append] using h
      stays := fun h => h
      refuses := fun _ _ h => by simp at h
      cancels := False.elim }

theorem step_queued {ch ch' : Channel F} {call : StreamCall F} {o : Outcome F}
    (h : ch.step call = some (ch', o)) : Queued ch.stream ch'.stream o := by
  cases call with
  | push c => exact attempt_queued h
  | wake n =>
    simp only [Channel.step] at h
    split at h
    · obtain ⟨rfl, rfl⟩ := Prod.mk.inj (Option.some.inj h)
      exact .same rfl (fun _ => rfl) (fun _ h => by simp at h) not_false
    · exact @attempt_queued F { ch with waiting := ch.waiting.eraseIdx n } ch' _ o h
  | next forever =>
    simp only [Channel.step] at h
    split at h
    · obtain ⟨rfl, rfl⟩ := Prod.mk.inj (Option.some.inj h)
      exact .same rfl (fun _ => rfl) (fun _ h => by simp at h) not_false
    · rename_i hnext
      obtain ⟨rfl, rfl⟩ := Prod.mk.inj (Option.some.inj h)
      exact next_queued hnext
  | cancel =>
    obtain ⟨rfl, rfl⟩ := Prod.mk.inj (Option.some.inj h)
    exact {
      cap := rfl
      queue := fun front accepted h => by rw [← h]; exact congrArg (· ++ _) (List.append_nil front)
      stays := fun _ => rfl
      refuses := fun _ _ h => by simp at h
      cancels := fun _ => rfl }
  | finishCancelled =>
    simp only [Channel.step] at h
    split at h
    · obtain ⟨rfl, rfl⟩ := Prod.mk.inj (Option.some.inj h)
      exact finishCancelled_queued ch.stream
    · contradiction

/-! ## Runs -/

theorem run_cons {call : StreamCall F} {calls : List (StreamCall F)} {ch ch' : Channel F}
    {outs : List (Outcome F)} (h : Channel.run (call :: calls) ch = some (ch', outs)) :
    ∃ next o rest, ch.step call = some (next, o) ∧ Channel.run calls next = some (ch', rest) ∧
      outs = o :: rest := by
  simp only [Channel.run, Option.bind_eq_bind, Option.bind_eq_some_iff, Option.pure_def,
    Option.some.injEq, Prod.mk.injEq, Prod.exists] at h
  obtain ⟨next, o, hstep, ch'', rest, hrest, rfl, rfl⟩ := h
  exact ⟨next, o, rest, hstep, hrest, rfl⟩

theorem run_queue {calls : List (StreamCall F)} {ch ch' : Channel F} {outs : List (Outcome F)}
    (hrun : Channel.run calls ch = some (ch', outs)) (front accepted : List (Chunk F))
    (h : front ++ ch.stream.ring.toList = accepted) :
    front ++ outs.flatMap consumed ++ ch'.stream.ring.toList = outs.foldl accept accepted := by
  induction calls generalizing ch front accepted outs with
  | nil =>
    obtain ⟨rfl, rfl⟩ := Prod.mk.inj (Option.some.inj hrun)
    simpa using h
  | cons call calls ih =>
    obtain ⟨next, o, rest, hstep, hrest, rfl⟩ := run_cons hrun
    have hnext := ih hrest _ _ ((step_queued hstep).queue front accepted h)
    simpa only [List.flatMap_cons, List.foldl_cons, List.append_assoc] using hnext

theorem run_cap {calls : List (StreamCall F)} {ch ch' : Channel F} {outs : List (Outcome F)}
    (hrun : Channel.run calls ch = some (ch', outs)) :
    ch'.stream.ring.cap = ch.stream.ring.cap := by
  induction calls generalizing ch outs with
  | nil =>
    obtain ⟨rfl, rfl⟩ := Prod.mk.inj (Option.some.inj hrun)
    rfl
  | cons call calls ih =>
    obtain ⟨next, o, rest, hstep, hrest, rfl⟩ := run_cons hrun
    exact (ih hrest).trans (step_queued hstep).cap

theorem run_refuses {calls : List (StreamCall F)} {ch ch' : Channel F} {outs : List (Outcome F)}
    (hrun : Channel.run calls ch = some (ch', outs)) (h : ch.stream.cancelled = true)
    (c : Chunk F) : Outcome.pushed c true ∉ outs := by
  induction calls generalizing ch outs with
  | nil =>
    obtain ⟨rfl, rfl⟩ := Prod.mk.inj (Option.some.inj hrun)
    exact List.not_mem_nil
  | cons call calls ih =>
    obtain ⟨next, o, rest, hstep, hrest, rfl⟩ := run_cons hrun
    have hqueued := step_queued hstep
    rw [List.mem_cons, not_or]
    exact ⟨fun he => hqueued.refuses h c he.symm, ih hrest (hqueued.stays h)⟩

/-- No push is accepted behind a cancellation. -/
theorem run_cancelled {calls : List (StreamCall F)} {ch ch' : Channel F}
    {before after : List (Outcome F)} {o : Outcome F}
    (hrun : Channel.run calls ch = some (ch', before ++ o :: after)) (ho : Cancels o)
    (c : Chunk F) : Outcome.pushed c true ∉ after := by
  induction calls generalizing ch before with
  | nil =>
    have := (Prod.mk.inj (Option.some.inj hrun)).2
    simp at this
  | cons call calls ih =>
    obtain ⟨next, first, rest, hstep, hrest, hout⟩ := run_cons hrun
    cases before with
    | nil =>
      obtain ⟨rfl, rfl⟩ := List.cons.inj hout
      exact run_refuses hrest ((step_queued hstep).cancels ho) c
    | cons first before =>
      obtain ⟨rfl, rfl⟩ := List.cons.inj hout
      exact ih hrest

/-- A push that waits when the stream is cancelled is rejected, and the ring stays. -/
theorem wake_cancelled (ch : Channel F) (h : ch.stream.cancelled = true) {n : Nat} {c : Chunk F}
    (hn : ch.waiting[n]? = some c) :
    ch.step (.wake n) = some ({ ch with waiting := ch.waiting.eraseIdx n }, .pushed c false) := by
  simp only [Channel.step, hn, Channel.attempt, streamPush, h, if_true]

/-! ### Up to 2^30 chunks -/

theorem attempt_defined {ch : Channel F} (h : IndexFits ch.stream) (c : Chunk F) :
    (ch.attempt c).isSome := by
  rw [Channel.attempt]
  split
  · rfl
  · rfl
  · rw [if_pos h]
    rfl

theorem step_defined {ch : Channel F} (h : IndexFits ch.stream) (call : StreamCall F) :
    (ch.step call).isSome := by
  cases call with
  | push c => exact attempt_defined h c
  | wake n =>
    simp only [Channel.step]
    split
    · rfl
    · exact @attempt_defined F { ch with waiting := ch.waiting.eraseIdx n } h _
  | next forever =>
    simp only [Channel.step]
    split <;> rfl
  | cancel => rfl
  | finishCancelled =>
    simp only [Channel.step, if_pos h]
    rfl

theorem run_defined (calls : List (StreamCall F)) {ch : Channel F}
    (h : ch.stream.ring.cap ≤ 2 ^ 30) : ∃ ch' outs, Channel.run calls ch = some (ch', outs) := by
  induction calls generalizing ch with
  | nil => exact ⟨ch, [], rfl⟩
  | cons call calls ih =>
    obtain ⟨⟨next, o⟩, hstep⟩ := Option.isSome_iff_exists.mp (step_defined (indexFits_of_cap h) call)
    obtain ⟨ch', outs, hrest⟩ := ih ((step_queued hstep).cap.trans_le h)
    exact ⟨ch', o :: outs, by simp [Channel.run, hstep, hrest]⟩

/-! ### Beyond -/

section Overflow

variable {ch : Channel F} (c : Chunk F)

theorem run_cons_none {call : StreamCall F} {calls : List (StreamCall F)}
    (h : ∀ next o, ch.step call = some (next, o) → Channel.run calls next = none) :
    Channel.run (call :: calls) ch = none := by
  by_contra hsome
  obtain ⟨⟨ch', outs⟩, hrun⟩ := Option.ne_none_iff_exists'.mp hsome
  obtain ⟨next, o, rest, hstep, hrest, -⟩ := run_cons hrun
  rw [h next o hstep] at hrest
  contradiction

/-- A push into an open stream with room takes the next slot. -/
theorem push_step (hopen : ch.stream.cancelled = false)
    (hroom : ch.stream.ring.len < ch.stream.ring.cap) :
    ch.step (.push c) = if IndexFits ch.stream then
      some ({ ch with stream := { ch.stream with
        ring := ch.stream.ring.push c hroom, written := ch.stream.written ++ [c] } },
        .pushed c true) else none := by
  simp only [Channel.step, Channel.attempt, streamPush, hopen, hroom, Bool.false_eq_true, if_false,
    ↓reduceDIte]

theorem pushes_undefined (n : Nat) (hopen : ch.stream.cancelled = false)
    (hroom : ch.stream.ring.len + n < ch.stream.ring.cap)
    (hover : INT_MAX < ch.stream.ring.readPos + ch.stream.ring.len + n) :
    Channel.run (List.replicate (n + 1) (.push c)) ch = none := by
  induction n generalizing ch with
  | zero =>
    have hbeyond : ¬ IndexFits ch.stream := by
      simp only [IndexFits]
      omega
    refine run_cons_none fun next o hstep => ?_
    rw [push_step c hopen (by omega), if_neg hbeyond] at hstep
    contradiction
  | succ n ih =>
    have hlt : ch.stream.ring.len < ch.stream.ring.cap := by omega
    refine run_cons_none fun next o hstep => ?_
    rw [push_step c hopen hlt, Option.ite_none_right_eq_some] at hstep
    obtain ⟨rfl, -⟩ := Prod.mk.inj (Option.some.inj hstep.2)
    refine ih hopen ?_ ?_ <;> simp only [RingBuffer.push] <;> omega

/-- A push and a read leave an empty ring one position on. -/
theorem laps_undefined (n : Nat) {rest : List (StreamCall F)}
    (hopen : ch.stream.cancelled = false) (hempty : ch.stream.ring.len = 0)
    (hroom : ch.stream.ring.readPos + n < ch.stream.ring.cap)
    (hrest : ∀ ch' : Channel F, ch'.stream.cancelled = false → ch'.stream.ring.len = 0 →
      ch'.stream.ring.cap = ch.stream.ring.cap →
      ch'.stream.ring.readPos = ch.stream.ring.readPos + n → Channel.run rest ch' = none) :
    Channel.run ((List.replicate n [.push c, .next false]).flatten ++ rest) ch = none := by
  induction n generalizing ch with
  | zero => exact hrest ch hopen hempty rfl rfl
  | succ n ih =>
    have hlt : ch.stream.ring.len < ch.stream.ring.cap := by omega
    refine run_cons_none fun pushed o hpush => run_cons_none fun read o' hread => ?_
    rw [push_step c hopen hlt, Option.ite_none_right_eq_some] at hpush
    obtain ⟨rfl, -⟩ := Prod.mk.inj (Option.some.inj hpush.2)
    simp only [Channel.step, streamNext, RingBuffer.push, Nat.add_eq_zero_iff, Nat.one_ne_zero,
      and_false, if_false] at hread
    obtain ⟨rfl, -⟩ := Prod.mk.inj (Option.some.inj hread)
    have hpos : (ch.stream.ring.readPos + 1) % ch.stream.ring.cap = ch.stream.ring.readPos + 1 :=
      Nat.mod_eq_of_lt (by omega)
    refine ih hopen ?_ ?_ fun ch' hopen' hempty' hcap hat => hrest ch' hopen' hempty' hcap ?_
    · simp only [RingBuffer.pop, hempty]
    · simp only [RingBuffer.pop, hpos]
      omega
    · simp only [RingBuffer.pop, hpos] at hat
      omega

/-- Move the read position to the end of the ring, then fill it. -/
def overflowCalls (capacity : Nat) : List (StreamCall F) :=
  (List.replicate (capacity - 1) [.push c, .next false]).flatten ++
    List.replicate (capacity - 1 + 1) (.push c)

end Overflow

/-- A new stream, with no push waiting. -/
def Channel.create (capacity : Nat) (h : 0 < capacity) (zero : F) : Channel F :=
  ⟨streamCreate capacity h zero, []⟩

theorem overflowCalls_undefined {capacity : Nat} (hcap : 0 < capacity) (hbig : 2 ^ 30 < capacity)
    (zero : F) (c : Chunk F) :
    Channel.run (overflowCalls c capacity) (Channel.create capacity hcap zero) = none := by
  refine laps_undefined c (capacity - 1) rfl rfl ?_ fun ch' hopen hempty hcap' hat => ?_
  · simp only [Channel.create, streamCreate, RingBuffer.create]
    omega
  · simp only [Channel.create, streamCreate, RingBuffer.create] at hcap' hat
    refine pushes_undefined c (capacity - 1) hopen ?_ ?_
    · omega
    · simp only [INT_MAX]
      omega

/-! ## The queue over every run -/

/-- The calls have a result, which is the one of a bounded queue of the accepted chunks. Nothing is
accepted behind a cancellation, not from a push that waits either. -/
def Fifo (capacity : Nat) (calls : List (StreamCall F)) (start : Channel F) : Prop :=
  ∃ ch outs, Channel.run calls start = some (ch, outs) ∧
    ch.stream.ring.len ≤ capacity ∧
    outs.flatMap consumed ++ ch.stream.ring.toList = outs.foldl accept [] ∧
    (∀ before o after, outs = before ++ o :: after → Cancels o →
      ∀ c, Outcome.pushed c true ∉ after) ∧
    (ch.stream.cancelled = true → ∀ n c, ch.waiting[n]? = some c →
      ch.step (.wake n) = some ({ ch with waiting := ch.waiting.eraseIdx n }, .pushed c false))

theorem run_fifo {capacity : Nat} (hcap : 0 < capacity) {zero : F} {calls : List (StreamCall F)}
    {ch : Channel F} {outs : List (Outcome F)}
    (hrun : Channel.run calls (Channel.create capacity hcap zero) = some (ch, outs)) :
    Fifo capacity calls (Channel.create capacity hcap zero) := by
  refine ⟨ch, outs, hrun, ch.stream.ring.len_le.trans_eq (run_cap hrun), run_queue hrun [] [] rfl,
    ?_, fun h n c hn => wake_cancelled ch h hn⟩
  rintro before o after rfl ho c
  exact run_cancelled hrun ho c

/-- A stream is a queue over every order of calls exactly up to a capacity of 2^30. -/
theorem stream_fifo_iff (capacity : Nat) (hcap : 0 < capacity) (zero : F) :
    (∀ calls, Fifo capacity calls (Channel.create capacity hcap zero)) ↔ capacity ≤ 2 ^ 30 := by
  constructor
  · intro hall
    by_contra hbig
    obtain ⟨ch, outs, hrun, -⟩ := hall (overflowCalls (.token 0 zero) capacity)
    rw [overflowCalls_undefined hcap (by omega) zero] at hrun
    contradiction
  · intro hsmall calls
    obtain ⟨ch, outs, hrun⟩ := @run_defined F calls (Channel.create capacity hcap zero) hsmall
    exact run_fifo hcap hrun

/-- A full ring of one chunk, a push that waits, the engine's terminal, and the push again. -/
def crowdedCalls : List (StreamCall Nat) :=
  [.push (.token 1 0), .push (.token 2 0), .finishCancelled, .wake 0, .next false]

theorem stream_fifo_crowded : Fifo 1 crowdedCalls (Channel.create 1 Nat.one_pos 0) :=
  (stream_fifo_iff 1 Nat.one_pos 0).mpr (by decide) crowdedCalls

/-- One chunk more, and a push may overflow its index. -/
theorem stream_index_overflows : ¬ ∀ (capacity : Nat) (hcap : 0 < capacity)
    (calls : List (StreamCall Nat)), capacity ≤ INT_MAX →
      Fifo capacity calls (Channel.create capacity hcap 0) := by
  intro hclaim
  have hpos : 0 < 2 ^ 30 + 1 := by decide
  obtain ⟨ch, outs, hrun, -⟩ := hclaim (2 ^ 30 + 1) hpos (overflowCalls (.token 0 0) (2 ^ 30 + 1))
    (by decide)
  rw [overflowCalls_undefined hpos (by decide) 0] at hrun
  contradiction

end Mlxd.Engine
