import Mlxd.Lib.RingBuffer

/-!
# Streams

The channel between the engine and the consumer of one request: a bounded ring of chunks
with a cancel flag. Each function here is one section under the stream's mutex; a waiting
call has no result yet. Two logs are kept beside the source's fields: the chunks handed to
the consumer and the chunks written. The positions are numbers here and `int` in the source,
where `read_pos + len` may overflow; `IndexFits` says that it does not.
-/
namespace Mlxd.Engine

open Mlxd.Lib

inductive FinishReason where
  | stop | length | toolCalls | contentFilter | cancelled
  deriving DecidableEq, Repr

inductive GenErrKind where
  | internal | contextLength
  deriving DecidableEq, Repr

inductive Chunk (F : Type) where
  | token (id : Int) (logprob : F)
  | done (reason : FinishReason)
  | error (kind : GenErrKind) (message : String)
  deriving DecidableEq

def Chunk.isDone {F : Type} : Chunk F → Bool
  | .done _ => true
  | _ => false

structure Stream (F : Type) where
  ring : RingBuffer (Chunk F)
  cancelled : Bool
  refcount : Int
  /-- The chunks `stream_next` has returned. -/
  taken : List (Chunk F)
  /-- The chunks written to the ring. -/
  written : List (Chunk F)

variable {F : Type}

def INT_MAX : Nat := 2 ^ 31 - 1

/-- `read_pos + len` is an `int`. -/
def IndexFits (s : Stream F) : Prop := s.ring.readPos + s.ring.len ≤ INT_MAX

instance (s : Stream F) : Decidable (IndexFits s) := inferInstanceAs (Decidable (_ ≤ _))

/-- Up to this capacity the positions fit. -/
theorem indexFits_of_cap {s : Stream F} (h : s.ring.cap ≤ 2 ^ 30) : IndexFits s := by
  have hlen := s.ring.len_le
  have hpos := s.ring.readPos_lt
  simp only [IndexFits, INT_MAX]
  omega

def streamCreate (capacity : Nat) (h : 0 < capacity) (zero : F) : Stream F :=
  ⟨RingBuffer.create capacity h (.token 0 zero), false, 1, [], []⟩

/-- Waits while the ring is full and the stream is not cancelled; a cancelled stream
refuses the chunk. -/
def streamPush (s : Stream F) (c : Chunk F) : Option (Stream F × Bool) :=
  if s.cancelled then some (s, false)
  else if h : s.ring.len < s.ring.cap then
    some ({ s with ring := s.ring.push c h, written := s.written ++ [c] }, true)
  else none

/-- With `forever` the call waits while the ring is empty and the stream is not cancelled;
otherwise its time is up by now. -/
def streamNext (s : Stream F) (forever : Bool) : Option (Stream F × Option (Chunk F)) :=
  if s.ring.len = 0 then
    if forever && !s.cancelled then none else some (s, none)
  else some ({ s with ring := s.ring.pop, taken := s.taken ++ [s.ring.front] }, some s.ring.front)

def streamCancel (s : Stream F) : Stream F := { s with cancelled := true }

/-- The terminal chunk goes in without waiting, in a full ring over the newest chunk. -/
def streamFinishCancelled (s : Stream F) : Stream F :=
  let c : Chunk F := .done .cancelled
  { s with
    ring := if h : s.ring.len < s.ring.cap then s.ring.push c h else s.ring.replaceLast c
    cancelled := true
    written := s.written ++ [c] }

def streamRelease (s : Stream F) : Stream F := { s with refcount := s.refcount - 1 }

/-! ## The terminal chunk -/

/-- All a consumer that keeps calling `stream_next` reads. -/
def readable (s : Stream F) : List (Chunk F) := s.taken ++ s.ring.toList

/-- No terminal chunk has been written. -/
structure Unfinished (s : Stream F) : Prop where
  noneWritten : ∀ c ∈ s.written, c.isDone = false
  noneReadable : ∀ c ∈ readable s, c.isDone = false

/-- One terminal chunk has been written, and it is the last one to be read. -/
structure Finished (s : Stream F) : Prop where
  once : (s.written.filter Chunk.isDone).length = 1
  last : ∃ before reason, readable s = before ++ [.done reason] ∧
    ∀ c ∈ before, c.isDone = false

theorem readable_push (s : Stream F) (c : Chunk F) (h : s.ring.len < s.ring.cap) (w : List (Chunk F)) :
    readable { s with ring := s.ring.push c h, written := w } = readable s ++ [c] := by
  simp only [readable, RingBuffer.toList_push, List.append_assoc]

/-- A read moves the oldest chunk from the ring to the consumer. -/
theorem streamNext_spec {s s' : Stream F} {forever : Bool} {o : Option (Chunk F)}
    (h : streamNext s forever = some (s', o)) :
    readable s' = readable s ∧ s'.written = s.written ∧ s'.cancelled = s.cancelled := by
  simp only [streamNext] at h
  split at h
  · split at h
    · contradiction
    · obtain ⟨rfl, rfl⟩ := Prod.mk.inj (Option.some.inj h)
      exact ⟨rfl, rfl, rfl⟩
  · rename_i hne
    obtain ⟨rfl, rfl⟩ := Prod.mk.inj (Option.some.inj h)
    refine ⟨?_, rfl, rfl⟩
    simp only [readable, s.ring.toList_pop (Nat.pos_of_ne_zero hne), List.append_assoc,
      List.cons_append, List.nil_append]

/-- A push is refused, or its chunk is the new last one. -/
theorem streamPush_spec {s s' : Stream F} {c : Chunk F} {ok : Bool}
    (h : streamPush s c = some (s', ok)) :
    (ok = false ∧ s.cancelled = true ∧ s' = s) ∨
    (ok = true ∧ s.cancelled = false ∧ readable s' = readable s ++ [c] ∧
      s'.written = s.written ++ [c]) := by
  simp only [streamPush] at h
  split at h
  · rename_i hc
    obtain ⟨rfl, rfl⟩ := Prod.mk.inj (Option.some.inj h)
    exact .inl ⟨rfl, hc, rfl⟩
  · rename_i hc
    split at h
    · rename_i hroom
      obtain ⟨rfl, rfl⟩ := Prod.mk.inj (Option.some.inj h)
      exact .inr ⟨rfl, by simpa using hc, readable_push s c hroom _, rfl⟩
    · contradiction

section Terminal

variable {s s' : Stream F}

theorem Unfinished.congr (h : Unfinished s) (hr : readable s' = readable s)
    (hw : s'.written = s.written) : Unfinished s' :=
  ⟨by rw [hw]; exact h.noneWritten, by rw [hr]; exact h.noneReadable⟩

theorem Finished.congr (h : Finished s) (hr : readable s' = readable s)
    (hw : s'.written = s.written) : Finished s' :=
  ⟨by rw [hw]; exact h.once, by rw [hr]; exact h.last⟩

theorem Unfinished.append {c : Chunk F} (h : Unfinished s) (hc : c.isDone = false)
    (hr : readable s' = readable s ++ [c]) (hw : s'.written = s.written ++ [c]) :
    Unfinished s' := by
  constructor
  · rw [hw, List.forall_mem_append]
    exact ⟨h.noneWritten, by simpa using hc⟩
  · rw [hr, List.forall_mem_append]
    exact ⟨h.noneReadable, by simpa using hc⟩

theorem filter_unfinished (h : Unfinished s) : s.written.filter Chunk.isDone = [] :=
  List.filter_eq_nil_iff.mpr fun c hc => by simp [h.noneWritten c hc]

theorem Unfinished.finish {reason : FinishReason} (h : Unfinished s) (before : List (Chunk F))
    (hb : ∀ c ∈ before, c ∈ readable s) (hr : readable s' = before ++ [.done reason])
    (hw : s'.written = s.written ++ [.done reason]) : Finished s' := by
  constructor
  · rw [hw, List.filter_append, filter_unfinished h]
    rfl
  · exact ⟨before, reason, hr, fun c hc => h.noneReadable c (hb c hc)⟩

/-- The engine's own terminal finishes any unfinished stream. -/
theorem finishCancelled_finished (h : Unfinished s) : Finished (streamFinishCancelled s) := by
  by_cases hroom : s.ring.len < s.ring.cap
  · refine h.finish (readable s) (fun c hc => hc) ?_ rfl
    simp only [readable, streamFinishCancelled, hroom, ↓reduceDIte, RingBuffer.toList_push,
      List.append_assoc]
  · have hpos : 0 < s.ring.len := by
      have := s.ring.readPos_lt
      omega
    refine h.finish (s.taken ++ s.ring.toList.dropLast) (fun c hc => ?_) ?_ rfl
    · rcases List.mem_append.mp hc with hc | hc
      · exact List.mem_append_left _ hc
      · exact List.mem_append_right _ (List.dropLast_subset _ hc)
    · simp only [readable, streamFinishCancelled, hroom, ↓reduceDIte,
        s.ring.toList_replaceLast _ hpos, List.append_assoc]

/-- A consumer of a finished stream that has not read the terminal chunk finds the ring
non-empty. -/
theorem Finished.no_wait (h : Finished s) (hnot : ∀ c ∈ s.taken, c.isDone = false) :
    0 < s.ring.len := by
  obtain ⟨before, reason, hr, -⟩ := h.last
  by_contra hlen
  have hnil : s.ring.toList = [] := s.ring.toList_eq_nil.mpr (by omega)
  have hmem : Chunk.done reason ∈ s.taken := by
    have : Chunk.done reason ∈ readable s := by simp [hr]
    rwa [readable, hnil, List.append_nil] at this
  simpa [Chunk.isDone] using hnot _ hmem

end Terminal

end Mlxd.Engine
