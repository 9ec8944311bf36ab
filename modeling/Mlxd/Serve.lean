import Mlxd.GenerateRefine
import Mlxd.ForwardRun

/-!
# Generation over the forward pass

The generate loop runs on the faithful forward pass and its KV cache, with every call into MLX, the
stream and the flags answered from outside. Whatever fails and whoever stops it, the tokens it
pushes are the first of those that the naive loop draws from the reference decoder.
-/
namespace Mlxd.Serve

open Mlxd.Lib Mlxd.Forward Mlxd.KvCache Mlxd.Attention Mlxd.Engine
open Program

/-- What a sampler makes of a row of logits and the number of a subkey, and the floats. -/
structure Sampling (E F : Type) where
  zero : F
  one : F
  stubLogprob : Nat → F
  sample : SamplingParams F → List E → Nat → Int × F

section Serve

variable {M : KvCache.Mlx} {W F : Type}

/-- Ids and lazy tokens stand for their values, logits for their row. -/
@[reducible] def Sampling.mlx (S : Sampling M.Elt F) : Engine.Mlx where
  Real := F
  Ids := List Int
  Logits := List M.Elt
  Key := Nat
  Token := Int
  Logprob := F
  zero := S.zero
  one := S.one
  stubLogprob := S.stubLogprob
  makeIdsArray := id

/-! ## The environment -/

/-- The cache and the tokens in it, the subkeys handed out, what was pushed, and the answers to
come: of MLX inside a forward pass, of the cache's operations by pass and layer, of the flags, and
of all other calls. -/
structure Serving (M : KvCache.Mlx) (F : Type) where
  kv : Kvcache M
  fed : List Int
  keys : Nat
  pushed : List (Engine.Chunk F)
  outcomes : Outcomes
  okKv : Nat → Nat → MlxCall → Bool
  flags : Nat → Bool
  answers : Nat → Bool

namespace Serving

def flag (s : Serving M F) : Bool × Serving M F :=
  (s.flags 0, { s with flags := fun n => s.flags (n + 1) })

/-- The next answer. -/
def answer (s : Serving M F) : Bool × Serving M F :=
  (s.answers 0, { s with answers := fun n => s.answers (n + 1) })

def push (s : Serving M F) (c : Engine.Chunk F) : Serving M F := { s with pushed := s.pushed ++ [c] }

end Serving

variable (em : EngineModel M W)

/-- One sequence of ids. -/
def idsArray (ids : List Int) : Ids := ⟨1, ids.length, fun _ s => ids.getD s 0⟩

/-- A pass over some ids behind what the cache holds. A pass that fails ends the request, so what it
leaves in the cache is not looked at. -/
def forward (s : Serving M F) (ids : List Int) (wantLogits : Bool) :
    Option (Option (List (List M.Elt)) × Serving M F) :=
  (modelForward em (s.okKv 0) s.kv (idsArray ids) wantLogits s.outcomes).map fun r =>
    (r.1.2, { s with
      kv := r.1.1, fed := s.fed ++ ids, outcomes := r.2, okKv := fun n => s.okKv (n + 1) })

/-- A value when the next answer allows it. -/
def given {α : Type} (a : α) (s : Serving M F) : Option α × Serving M F :=
  (if s.answer.1 then some a else none, s.answer.2)

variable (S : Sampling M.Elt F)

def handler : (op : GenOp S.mlx) → Serving M F → GenAns op × Serving M F
  | .loadShutdown _, s => s.flag
  | .loadCancelled, s => s.flag
  | .push c, s => (s.answer.1, if s.answer.1 then s.answer.2.push c else s.answer.2)
  | .finishCancelled, s => ((), s.push (.done .cancelled))
  | .notify, s => ((), s)
  | .samplerKeyInit _, s => s.answer
  | .kvcacheInit layers, s =>
    match if s.answer.1 then kvcacheInit M layers else none with
    | some kv => (true, { s.answer.2 with kv := kv, fed := [] })
    | none => (false, s.answer.2)
  | .onPrefillChunk _ _, s => ((), s)
  | .onBeforeSeed, s => ((), s)
  | .onDecodeStep _, s => ((), s)
  | .modelPrefill ids, s =>
    match forward em s ids false with
    | some r => (true, r.2)
    | none => (false, s)
  | .modelForward ids, s =>
    match forward em s ids true with
    | some r => (r.1.map fun rows => rows.headD [], r.2)
    | none => (none, s)
  | .samplerKeyNext, s => ((given s.keys s).1, { s.answer.2 with keys := s.keys + 1 })
  | .samplerSampleLazy logits sp subkey _, s => given (S.sample sp logits subkey) s
  | .reshapeTokenIds token, s => given [token] s
  | .asyncEval _ _ _, s => s.answer
  | .itemInt32 token, s => given token s
  | .itemFloat32 lp, s => given lp s
  | .clearCache, s => ((), s)

/-! ## A pass behind the tokens so far -/

section Passes

variable {em} {turn : Rotation → Nat → Row M → Row M} {dtype : Nat}

def tokensOf (fed : List Int) : Nat → Nat → Int := fun _ p => fed.getD p 0

/-- What goes into the attention is decided by the tokens of the passes up to there. -/
theorem chunkCall_congr {batch start : Nat} {c : Forward.Chunk} {tok tok' : Nat → Nat → Int}
    (h : ∀ b, ∀ j < start + c.len, tok b j = tok' b j) :
    chunkCall em turn batch tok start c = chunkCall em turn batch tok' start c := by
  have hin : ∀ layer b, ∀ s < c.len,
      attentionIn em turn tok layer b (start + s) = attentionIn em turn tok' layer b (start + s) := by
    intro layer b s hs
    rw [attentionIn, attentionIn, inputNormed, inputNormed,
      hidden_causal em turn layer _ fun b j hj => h b j (by omega)]
  have hrows : ∀ {layer heads dim : Nat} (u : List M.Elt → List (List M.Elt)),
      transposed em heads dim ((chunkIn em turn batch tok start c.len layer).map u) =
        transposed em heads dim ((chunkIn em turn batch tok' start c.len layer).map u) := by
    intro layer heads dim u
    refine transposed_congr ?_ ?_ fun b _ s hs => congrArg u (hin layer b s hs)
    · rfl
    · rfl
  have hlayer : layerInput em turn batch tok start c = layerInput em turn batch tok' start c := by
    funext layer
    simp only [layerInput, ownKeysValues, hrows]
  rw [chunkCall, chunkCall, hlayer]

theorem chunkCalls_congr {batch : Nat} {tok tok' : Nat → Nat → Int} (cs : List Forward.Chunk) :
    ∀ start, (∀ b, ∀ j < start + Forward.fed cs, tok b j = tok' b j) →
      chunkCalls em turn batch tok start cs = chunkCalls em turn batch tok' start cs := by
  induction cs with
  | nil => exact fun _ _ => rfl
  | cons c cs ih =>
    intro start h
    rw [fed_cons] at h
    rw [chunkCalls, chunkCalls, chunkCall_congr fun b j hj => h b j (by omega),
      ih (start + c.len) fun b j hj => h b j (by omega)]

/-- The cache holds the tokens fed so far, in some passes. -/
def Ready (em : EngineModel M W) (turn : Rotation → Nat → Row M → Row M) (dtype : Nat)
    (s : Serving M F) : Prop :=
  ∃ cs, Behind em turn 1 (tokensOf s.fed) dtype s.kv cs ∧ Forward.fed cs = s.fed.length

/-- The logits behind some tokens, by the reference decoder. -/
def modelOf (em : EngineModel M W) (turn : Rotation → Nat → Row M → Row M) (fed : List Int) :
    List M.Elt := logitsAt em turn (tokensOf fed) 0 (fed.length - 1)

theorem idsArray_eq (before ids : List Int) :
    idsArray ids = chunkIds 1 (tokensOf (before ++ ids)) before.length ids.length := by
  rw [idsArray, chunkIds]
  congr 1
  funext b s
  rw [tokensOf, List.getD_append_right _ _ _ _ (Nat.le_add_right _ _), Nat.add_sub_cancel_left]

theorem forward_spec (hem : em.Documented turn dtype) {s s' : Serving M F} {ids : List Int}
    {wantLogits : Bool} {out : Option (List (List M.Elt))} (hready : Ready em turn dtype s)
    (hends : wantLogits = true → ids ≠ [])
    (h : forward em s ids wantLogits = some (out, s')) :
    Ready em turn dtype s' ∧ s'.fed = s.fed ++ ids ∧ s'.keys = s.keys ∧ s'.pushed = s.pushed ∧
      out = if wantLogits then some [modelOf em turn s'.fed] else none := by
  obtain ⟨cs, hbehind, hfed⟩ := hready
  obtain ⟨⟨⟨kv', logits⟩, rest⟩, hrun, hpair⟩ := Option.map_eq_some_iff.mp h
  obtain ⟨rfl, rfl⟩ := Prod.mk.inj hpair
  let c : Forward.Chunk := ⟨ids.length, wantLogits, s.okKv 0⟩
  have hlen : Forward.fed (cs ++ [c]) = (s.fed ++ ids).length := by
    rw [Forward.fed, List.map_append, List.sum_append, ← Forward.fed, hfed, List.length_append]
    rfl
  have hnow : Behind em turn 1 (tokensOf (s.fed ++ ids)) dtype s.kv cs := by
    have hsame : chunkCalls em turn 1 (tokensOf s.fed) 0 cs =
        chunkCalls em turn 1 (tokensOf (s.fed ++ ids)) 0 cs := by
      apply chunkCalls_congr
      intro b j hj
      rw [tokensOf, tokensOf, List.getD_append _ _ _ _ (by omega)]
    rw [Behind, ← hsame]
    exact hbehind
  have hc : c.Ends := fun hwant => List.length_pos_iff.mpr (hends hwant)
  rw [idsArray_eq s.fed ids, ← hfed] at hrun
  obtain ⟨hafter, hout⟩ := modelForward_yields 1 _ hem hc hnow _ _ _ hrun
  refine ⟨⟨cs ++ [c], hafter, hlen⟩, rfl, rfl, rfl, hout.trans ?_⟩
  have hpos : wantLogits = true → Forward.fed cs + (ids.length - 1) = (s.fed ++ ids).length - 1 := by
    intro hwant
    have := List.length_pos_iff.mpr (hends hwant)
    rw [hfed, List.length_append]
    omega
  cases wantLogits with
  | false => rfl
  | true =>
    dsimp only
    rw [if_pos rfl, if_pos rfl, hpos rfl]
    rfl

end Passes

/-! ## What may be pushed -/

/-- How a request ends that does not run to its end. -/
inductive Broken : List (Engine.Chunk F) → Prop
  | silent : Broken []
  | cancelled : Broken [.done .cancelled]
  | failed (kind : GenErrKind) (message : String) : Broken [.error kind message]
  | failedStop (kind : GenErrKind) (message : String) :
      Broken [.error kind message, .done .stop]
  | failedCancelled (kind : GenErrKind) (message : String) :
      Broken [.error kind message, .done .cancelled]

/-- All of the naive loop's chunks, or the first of its tokens and a broken end. -/
def Follows (naive out : List (Engine.Chunk F)) : Prop :=
  out = naive ∨ ∃ sent tail, sent <+: naive.dropLast ∧ Broken tail ∧ out = sent ++ tail

theorem Follows.broken {naive tail : List (Engine.Chunk F)} (h : Broken tail) : Follows naive tail :=
  .inr ⟨[], tail, List.nil_prefix, h, rfl⟩

theorem Follows.cons {naive out : List (Engine.Chunk F)} (c : Engine.Chunk F) (hne : naive ≠ [])
    (h : Follows naive out) : Follows (c :: naive) (c :: out) := by
  rcases h with rfl | ⟨sent, tail, hsent, htail, rfl⟩
  · exact .inl rfl
  · refine .inr ⟨c :: sent, tail, ?_, htail, rfl⟩
    rw [List.dropLast_cons_of_ne_nil hne]
    exact List.cons_prefix_cons.mpr ⟨rfl, hsent⟩

section Loop

variable {em} {S} {turn : Rotation → Nat → Row M → Row M} {dtype : Nat}

/-- Where a run stands between two calls. -/
structure At (em : EngineModel M W) (turn : Rotation → Nat → Row M → Row M) (dtype : Nat)
    (fed : List Int) (keys : Nat) (pushed : List (Engine.Chunk F)) (s : Serving M F) : Prop where
  fed_eq : s.fed = fed
  keys_eq : s.keys = keys
  pushed_eq : s.pushed = pushed
  ready : Ready em turn dtype s

/-- The request has ended behind some chunks. -/
def Ended (pushed : List (Engine.Chunk F)) (s : Serving M F) : Prop :=
  ∃ tail, Broken tail ∧ s.pushed = pushed ++ tail

variable {fed : List Int} {keys : Nat} {pushed : List (Engine.Chunk F)}

variable (em S) in
theorem streamPushP_pushed (c : Engine.Chunk F) (pushed : List (Engine.Chunk F)) :
    Ensures (handler em S) (·.pushed = pushed) (streamPushP (M := S.mlx) c)
      fun ok s => s.pushed = if ok then pushed ++ [c] else pushed := by
  intro s hs
  rw [streamPushP, run_bind]
  cases hans : s.answers 0 <;> simp [handler, Serving.answer, Serving.push, hans, hs]

theorem streamPushP_at (c : Engine.Chunk F) :
    Ensures (handler em S) (At em turn dtype fed keys pushed) (streamPushP (M := S.mlx) c)
      fun ok => At em turn dtype fed keys (if ok then pushed ++ [c] else pushed) := by
  intro s hs
  have hpush := streamPushP_pushed em S c pushed s hs.pushed_eq
  rw [streamPushP, run_bind] at hpush ⊢
  refine ⟨?_, ?_, hpush, ?_⟩
  · cases hans : s.answers 0 <;> simp [handler, Serving.answer, Serving.push, hans, hs.fed_eq]
  · cases hans : s.answers 0 <;> simp [handler, Serving.answer, Serving.push, hans, hs.keys_eq]
  · cases hans : s.answers 0 <;> simp [handler, Serving.answer, Serving.push, hans] <;> exact hs.ready

theorem streamFinishCancelledP_pushed :
    Ensures (handler em S) (·.pushed = pushed) (streamFinishCancelledP (M := S.mlx))
      fun _ s => s.pushed = pushed ++ [.done .cancelled] := by
  rintro s rfl
  rfl

theorem streamFinishCancelledP_ended :
    Ensures (handler em S) (·.pushed = pushed) (streamFinishCancelledP (M := S.mlx))
      fun _ => Ended pushed :=
  streamFinishCancelledP_pushed.imp fun _ _ h => ⟨_, .cancelled, h⟩

theorem streamFinishCancelledP_at : Ensures (handler em S) (At em turn dtype fed keys pushed)
    (streamFinishCancelledP (M := S.mlx)) fun _ => Ended pushed :=
  fun s hs => streamFinishCancelledP_ended s hs.pushed_eq

theorem finishWith_pushed (reason : FinishReason) :
    Ensures (handler em S) (·.pushed = pushed) (finishWith (M := S.mlx) reason)
      fun _ s => s.pushed = pushed ++ [.done reason] ∨ Ended pushed s := by
  refine (streamPushP_pushed em S _ pushed).bind fun ok => .ite (fun hok => ?_) fun hok => ?_
  · rw [hok]
    exact ensures_pure fun s hs => .inl hs
  · rw [Bool.not_eq_true] at hok
    rw [hok]
    exact streamFinishCancelledP_ended.imp fun _ _ h => .inr h

theorem generateFail_ended (message : String) (kind : GenErrKind) :
    Ensures (handler em S) (·.pushed = pushed) (generateFail (M := S.mlx) message kind)
      fun _ => Ended pushed := by
  refine (streamPushP_pushed em S _ pushed).bind fun ok => ?_
  -- the terminal chunk is tried only behind an accepted error
  have hsecond : Ensures (handler em S)
      (fun s => s.pushed = if ok then pushed ++ [.error kind message] else pushed)
      (if ok then streamPushP (M := S.mlx) (.done .stop) else pure false)
      fun done s => (done = true ∧ Ended pushed s) ∨ done = false ∧
        (s.pushed = pushed ∨ s.pushed = pushed ++ [.error kind message]) := by
    refine .ite (fun hok => ?_) fun hok => ?_
    · rw [hok]
      refine (streamPushP_pushed em S _ _).imp fun done s hs => ?_
      cases done with
      | true => exact .inl ⟨rfl, _, .failedStop kind message, hs.trans (List.append_assoc _ _ _)⟩
      | false => exact .inr ⟨rfl, .inr hs⟩
    · rw [Bool.not_eq_true] at hok
      rw [hok]
      exact ensures_pure fun s hs => .inr ⟨rfl, .inl hs⟩
  refine hsecond.bind fun done => .ite (fun hdone => ?_) fun hdone => ?_
  · rw [hdone]
    exact ensures_pure fun s hs => (hs.resolve_right fun h => Bool.noConfusion h.1).2
  · rw [Bool.not_eq_true] at hdone
    rw [hdone]
    have hflag : Ensures (handler em S)
        (fun s => (false = true ∧ Ended pushed s) ∨ false = false ∧
          (s.pushed = pushed ∨ s.pushed = pushed ++ [.error kind message]))
        (call (M := S.mlx) (.loadShutdown true))
        fun _ s => s.pushed = pushed ∨ s.pushed = pushed ++ [.error kind message] :=
      ensures_perform fun s hs => (hs.resolve_left fun h => Bool.noConfusion h.1).2
    refine hflag.bind fun shutdown => .ite (fun _ => ?_) fun _ => ?_
    · rintro s (hs | hs)
      · exact ⟨_, .cancelled, streamFinishCancelledP_pushed s hs⟩
      · exact ⟨_, .failedCancelled kind message,
          (streamFinishCancelledP_pushed s hs).trans (List.append_assoc _ _ _)⟩
    · refine ensures_pure ?_
      rintro s (hs | hs)
      · exact ⟨[], .silent, hs.trans (List.append_nil _).symm⟩
      · exact ⟨_, .failed kind message, hs⟩

theorem pollStop_at : Ensures (handler em S) (At em turn dtype fed keys pushed)
    (pollStop (M := S.mlx)) fun _ => At em turn dtype fed keys pushed := by
  have hflag : ∀ s : Serving M F, At em turn dtype fed keys pushed s →
      At em turn dtype fed keys pushed s.flag.2 :=
    fun s hs => ⟨hs.fed_eq, hs.keys_eq, hs.pushed_eq, hs.ready⟩
  have hshutdown : Ensures (handler em S) (At em turn dtype fed keys pushed)
      (call (M := S.mlx) (.loadShutdown false)) fun _ => At em turn dtype fed keys pushed :=
    ensures_perform hflag
  refine hshutdown.bind fun shutdown => .ite (fun _ => ?_) fun _ => ?_
  · exact ensures_pure fun s hs => hs
  · exact ensures_perform hflag

/-- The hooks do nothing to the request. -/
theorem pollHookPoll_at {hook : Gen S.mlx Unit}
    (hhook : ∀ s : Serving M F, (run (handler em S) hook s).2 = s) :
    Ensures (handler em S) (At em turn dtype fed keys pushed) (pollHookPoll hook)
      fun _ => At em turn dtype fed keys pushed := by
  refine pollStop_at.bind fun stop => .ite (fun _ => ?_) fun _ => ?_
  · exact ensures_pure fun s hs => hs
  · have hkept : Ensures (handler em S) (At em turn dtype fed keys pushed) hook
        fun _ => At em turn dtype fed keys pushed := by
      intro s hs
      rwa [hhook s]
    exact hkept.bind fun _ => pollStop_at

/-! ### Prefill -/

section Prefill

variable (hem : em.Documented turn dtype)
include hem

/-- Behind a prefill the cache holds its tokens, or the request has ended. -/
theorem prefillLoop_at {chunk : Nat} (hchunk : 0 < chunk) (ids : List Int) (stop fuel pos : Nat)
    (hstop : stop ≤ ids.length) (hpos : pos ≤ stop) (hfuel : stop ≤ pos + fuel) :
    Ensures (handler em S) (At em turn dtype (ids.take pos) keys pushed)
      (prefillLoop (M := S.mlx) chunk ids stop fuel pos)
      fun ok s => if ok then At em turn dtype (ids.take stop) keys pushed s else Ended pushed s := by
  induction fuel generalizing pos with
  | zero =>
    obtain rfl : pos = stop := by omega
    exact ensures_pure fun s hs => hs
  | succ fuel ih =>
    rw [prefillLoop]
    refine .ite (fun hlt => ?_) fun hge => ?_
    · obtain ⟨e, he, hpe, hes⟩ : ∃ e, (if stop < pos + chunk then stop else pos + chunk) = e ∧
          pos < e ∧ e ≤ stop := by
        refine ⟨_, rfl, ?_⟩
        split <;> omega
      have htake : ids.take pos ++ (ids.drop pos).take (e - pos) = ids.take e := by
        rw [← List.take_add, Nat.add_sub_cancel' hpe.le]
      dsimp only
      rw [he]
      refine (pollHookPoll_at fun _ => rfl).bind fun stopped => .ite (fun _ => ?_) fun _ => ?_
      · exact streamFinishCancelledP_at.bind fun _ => ensures_pure fun s hs => hs
      · have hpass : Ensures (handler em S) (At em turn dtype (ids.take pos) keys pushed)
            (call (M := S.mlx) (.modelPrefill ((ids.drop pos).take (e - pos))))
            fun ok s => if ok then At em turn dtype (ids.take e) keys pushed s
              else s.pushed = pushed := by
          refine ensures_perform fun s hs => ?_
          rw [handler]
          cases hrun : forward em s ((ids.drop pos).take (e - pos)) false with
          | none => exact hs.pushed_eq
          | some r =>
            obtain ⟨out, s'⟩ := r
            obtain ⟨hready, hfed, hkeys, hpushed, -⟩ :=
              forward_spec hem hs.ready (fun h => Bool.noConfusion h) hrun
            refine ⟨?_, hkeys.trans hs.keys_eq, hpushed.trans hs.pushed_eq, hready⟩
            rw [hfed, hs.fed_eq, htake]
        refine hpass.bind fun ok => .ite (fun hok => ?_) fun hok => ?_
        · rw [hok]
          have hclear : Ensures (handler em S) (At em turn dtype (ids.take e) keys pushed)
              (call (M := S.mlx) .clearCache) fun _ => At em turn dtype (ids.take e) keys pushed :=
            ensures_perform fun s hs => hs
          exact hclear.bind fun _ => ih e hes (by omega)
        · rw [Bool.not_eq_true] at hok
          rw [hok]
          exact (generateFail_ended _ _).bind fun _ => ensures_pure fun s hs => hs
    · obtain rfl : pos = stop := by omega
      exact ensures_pure fun s hs => hs

theorem seedLogits_at (ids : List Int) (hn : 0 < ids.length) :
    Ensures (handler em S) (At em turn dtype (ids.take (ids.length - 1)) keys pushed)
      (seedLogits (M := S.mlx) ids)
      fun r s => match r with
        | some logits => At em turn dtype ids keys pushed s ∧ logits = modelOf em turn ids
        | none => Ended pushed s := by
  have hlast : ids.take (ids.length - 1) ++ (ids.drop (ids.length - 1)).take 1 = ids := by
    rw [← List.take_add, Nat.sub_add_cancel hn, List.take_length]
  have hne : (ids.drop (ids.length - 1)).take 1 ≠ [] := by
    intro hnil
    have := congrArg List.length hlast
    rw [hnil, List.append_nil, List.length_take] at this
    omega
  refine (pollHookPoll_at fun _ => rfl).bind fun stopped => .ite (fun _ => ?_) fun _ => ?_
  · exact streamFinishCancelledP_at.bind fun _ => ensures_pure fun s hs => hs
  · have hpass : Ensures (handler em S) (At em turn dtype (ids.take (ids.length - 1)) keys pushed)
        (call (M := S.mlx) (.modelForward ((ids.drop (ids.length - 1)).take 1)))
        fun r s => match r with
          | some logits => At em turn dtype ids keys pushed s ∧ logits = modelOf em turn ids
          | none => s.pushed = pushed := by
      refine ensures_perform fun s hs => ?_
      rw [handler]
      cases hrun : forward em s ((ids.drop (ids.length - 1)).take 1) true with
      | none => exact hs.pushed_eq
      | some r =>
        obtain ⟨out, s'⟩ := r
        obtain ⟨hready, hfed, hkeys, hpushed, hout⟩ := forward_spec hem hs.ready (fun _ => hne) hrun
        rw [hs.fed_eq, hlast] at hfed
        rw [if_pos rfl, hfed] at hout
        rw [hout]
        exact ⟨⟨hfed, hkeys.trans hs.keys_eq, hpushed.trans hs.pushed_eq, hready⟩, rfl⟩
    refine hpass.bind fun r => ?_
    cases r with
    | none => exact (generateFail_ended _ _).bind fun _ => ensures_pure fun s hs => hs
    | some logits => exact ensures_pure fun s hs => hs

end Prefill

/-! ### Decode -/

section Decode

variable (hem : em.Documented turn dtype) (sp : SamplingParams F) (wantLp : Bool)

theorem given_value {α : Type} {a b : α} {s : Serving M F} (h : (given a s).1 = some b) : b = a := by
  rw [given] at h
  split at h
  · exact (Option.some.inj h).symm
  · contradiction

theorem At.answer {s : Serving M F} (h : At em turn dtype fed keys pushed s) :
    At em turn dtype fed keys pushed s.answer.2 := ⟨h.fed_eq, h.keys_eq, h.pushed_eq, h.ready⟩

theorem sampleCurrent_at (pending : List M.Elt) :
    Ensures (handler em S) (At em turn dtype fed keys pushed)
      (sampleCurrent (M := S.mlx) sp wantLp pending)
      fun r s => At em turn dtype fed (keys + 1) pushed s ∧
        ∀ drawn, r = .ok drawn → drawn = S.sample sp pending keys := by
  have hkey : Ensures (handler em S) (At em turn dtype fed keys pushed)
      (call (M := S.mlx) .samplerKeyNext)
      fun subkey s => At em turn dtype fed (keys + 1) pushed s ∧ ∀ k, subkey = some k → k = keys := by
    refine ensures_perform fun s hs => ?_
    refine ⟨⟨hs.fed_eq, congrArg (· + 1) hs.keys_eq, hs.pushed_eq, hs.ready⟩, fun k hk => ?_⟩
    rw [given_value hk, hs.keys_eq]
  refine hkey.bind fun subkey => ?_
  cases subkey with
  | none => exact ensures_pure fun s hs => ⟨hs.1, fun _ h => nomatch h⟩
  | some k =>
    have hsample : Ensures (handler em S)
        (fun s => At em turn dtype fed (keys + 1) pushed s ∧ ∀ k', some k = some k' → k' = keys)
        (call (M := S.mlx) (.samplerSampleLazy pending sp k wantLp))
        fun r s => At em turn dtype fed (keys + 1) pushed s ∧
          ∀ drawn, r = some drawn → drawn = S.sample sp pending keys := by
      rintro s ⟨hs, hk⟩
      refine ⟨hs.answer, fun drawn hdrawn => ?_⟩
      rw [given_value hdrawn, hk k rfl]
    refine hsample.bind fun r => ?_
    cases r with
    | none => exact ensures_pure fun s hs => ⟨hs.1, fun _ h => nomatch h⟩
    | some drawn =>
      exact ensures_pure fun s hs => ⟨hs.1, fun d hd => Except.ok.inj hd ▸ hs.2 drawn rfl⟩

include hem

/-- The pass after a token, when more are wanted. -/
theorem launchNext_at (more : Bool) (token : Int) (lp : F) :
    Ensures (handler em S) (At em turn dtype fed keys pushed)
      (launchNext (M := S.mlx) wantLp more token lp)
      fun r s => s.pushed = pushed ∧ ∀ next, r = .ok next →
        if more then At em turn dtype (fed ++ [token]) keys pushed s ∧
          next = some (modelOf em turn (fed ++ [token]))
        else At em turn dtype fed keys pushed s ∧ next = none := by
  rw [launchNext]
  refine .ite (fun hmore => ?_) fun hmore => ?_
  · have hids : Ensures (handler em S) (At em turn dtype fed keys pushed)
        (call (M := S.mlx) (.reshapeTokenIds token))
        fun r s => At em turn dtype fed keys pushed s ∧ ∀ ids, r = some ids → ids = [token] :=
      ensures_perform fun s hs => ⟨hs.answer, fun _ => given_value⟩
    refine hids.bind fun r => ?_
    cases r with
    | none => exact ensures_pure fun s hs => ⟨hs.1.pushed_eq, fun _ h => nomatch h⟩
    | some ids =>
      have hpass : Ensures (handler em S)
          (fun s => At em turn dtype fed keys pushed s ∧ ∀ ids', some ids = some ids' → ids' = [token])
          (call (M := S.mlx) (.modelForward ids))
          fun r s => s.pushed = pushed ∧ ∀ next, r = some next →
            At em turn dtype (fed ++ [token]) keys pushed s ∧ next = modelOf em turn (fed ++ [token]) := by
        rintro s ⟨hs, hids⟩
        obtain rfl := hids ids rfl
        rw [run_perform, handler]
        cases hrun : forward em s [token] true with
        | none => exact ⟨hs.pushed_eq, fun _ h => nomatch h⟩
        | some out =>
          obtain ⟨rows, s'⟩ := out
          obtain ⟨hready, hfed, hkeys, hpushed, hrows⟩ :=
            forward_spec hem hs.ready (fun _ => List.cons_ne_nil _ _) hrun
          rw [hs.fed_eq] at hfed
          rw [if_pos rfl, hfed] at hrows
          refine ⟨hpushed.trans hs.pushed_eq, fun next hnext => ?_⟩
          rw [hrows] at hnext
          exact ⟨⟨hfed, hkeys.trans hs.keys_eq, hpushed.trans hs.pushed_eq, hready⟩,
            (Option.some.inj hnext).symm⟩
      refine hpass.bind fun r => ?_
      cases r with
      | none => exact ensures_pure fun s hs => ⟨hs.1, fun _ h => nomatch h⟩
      | some next =>
        have heval : Ensures (handler em S)
            (fun s => s.pushed = pushed ∧ ∀ next', some next = some next' →
              At em turn dtype (fed ++ [token]) keys pushed s ∧
                next' = modelOf em turn (fed ++ [token]))
            (call (M := S.mlx) (.asyncEval token (some next) (if wantLp then some lp else none)))
            fun _ s => At em turn dtype (fed ++ [token]) keys pushed s ∧
              next = modelOf em turn (fed ++ [token]) := by
          rintro s ⟨-, hnext⟩
          obtain ⟨hs, hvalue⟩ := hnext next rfl
          exact ⟨hs.answer, hvalue⟩
        refine heval.bind fun launched => .ite (fun _ => ?_) fun _ => ?_
        · refine ensures_pure fun s hs => ⟨hs.1.pushed_eq, fun r hr => ?_⟩
          rw [if_pos hmore, ← Except.ok.inj hr, hs.2]
          exact ⟨hs.1, rfl⟩
        · exact ensures_pure fun s hs => ⟨hs.1.pushed_eq, fun _ h => nomatch h⟩
  · have heval : Ensures (handler em S) (At em turn dtype fed keys pushed)
        (call (M := S.mlx) (.asyncEval token none (if wantLp then some lp else none)))
        fun _ => At em turn dtype fed keys pushed :=
      ensures_perform fun s hs => hs.answer
    refine heval.bind fun launched => .ite (fun _ => ?_) fun _ => ?_
    · refine ensures_pure fun s hs => ⟨hs.pushed_eq, fun r hr => ?_⟩
      rw [if_neg hmore, ← Except.ok.inj hr]
      exact ⟨hs, rfl⟩
    · exact ensures_pure fun s hs => ⟨hs.pushed_eq, fun _ h => nomatch h⟩

omit hem in
theorem materialize_at (token : Int) (lp : F) (P : Serving M F → Prop)
    (hP : ∀ s, P s → P s.answer.2) :
    Ensures (handler em S) P (materialize (M := S.mlx) wantLp token lp)
      fun r s => P s ∧ ∀ read, r = .ok read → read = (token, if wantLp then lp else S.zero) := by
  have hid : Ensures (handler em S) P (call (M := S.mlx) (.itemInt32 token))
      fun r s => P s ∧ ∀ id, r = some id → id = token :=
    ensures_perform fun s hs => ⟨hP s hs, fun _ => given_value⟩
  refine hid.bind fun r => ?_
  cases r with
  | none => exact ensures_pure fun s hs => ⟨hs.1, fun _ h => nomatch h⟩
  | some id =>
    refine .ite (fun hlp => ?_) fun hlp => ?_
    · have hvalue : Ensures (handler em S) (fun s => P s ∧ ∀ id', some id = some id' → id' = token)
          (call (M := S.mlx) (.itemFloat32 lp))
          fun r s => P s ∧ id = token ∧ ∀ value, r = some value → value = lp := by
        rintro s ⟨hs, htoken⟩
        exact ⟨hP s hs, htoken id rfl, fun _ => given_value⟩
      refine hvalue.bind fun r => ?_
      cases r with
      | none => exact ensures_pure fun s hs => ⟨hs.1, fun _ h => nomatch h⟩
      | some value =>
        refine ensures_pure fun s hs => ⟨hs.1, fun read hr => ?_⟩
        rw [← Except.ok.inj hr, if_pos hlp, hs.2.1, hs.2.2 value rfl]
    · refine ensures_pure fun s hs => ⟨hs.1, fun read hr => ?_⟩
      rw [← Except.ok.inj hr, if_neg hlp, hs.2 id rfl]

/-- One iteration draws the next sample of the reference and feeds it when more are wanted. -/
theorem decodeToken_at (more : Bool) :
    Ensures (handler em S) (At em turn dtype fed keys pushed)
      (decodeToken (M := S.mlx) sp wantLp more (modelOf em turn fed))
      fun r s => s.pushed = pushed ∧ ∀ id value next, r = .ok (id, value, next) →
        let drawn := S.sample sp (modelOf em turn fed) keys
        id = drawn.1 ∧ value = (if wantLp then drawn.2 else S.zero) ∧
          if more then At em turn dtype (fed ++ [id]) (keys + 1) pushed s ∧
            next = some (modelOf em turn (fed ++ [id]))
          else At em turn dtype fed (keys + 1) pushed s ∧ next = none := by
  refine (sampleCurrent_at sp wantLp _).bind fun r => ?_
  cases r with
  | error message => exact ensures_pure fun s hs => ⟨hs.1.pushed_eq, fun _ _ _ h => nomatch h⟩
  | ok drawn =>
    obtain ⟨token, lp⟩ := drawn
    have hlaunch : Ensures (handler em S)
        (fun s => At em turn dtype fed (keys + 1) pushed s ∧ ∀ drawn,
          (Except.ok (token, lp) : Except String (Int × F)) = .ok drawn →
            drawn = S.sample sp (modelOf em turn fed) keys)
        (launchNext (M := S.mlx) wantLp more token lp)
        fun r s => s.pushed = pushed ∧ (token, lp) = S.sample sp (modelOf em turn fed) keys ∧
          ∀ next, r = .ok next →
            if more then At em turn dtype (fed ++ [token]) (keys + 1) pushed s ∧
              next = some (modelOf em turn (fed ++ [token]))
            else At em turn dtype fed (keys + 1) pushed s ∧ next = none := by
      rintro s ⟨hs, hdrawn⟩
      obtain ⟨hpushed, hnext⟩ := launchNext_at hem wantLp more token lp s hs
      exact ⟨hpushed, hdrawn _ rfl, hnext⟩
    refine hlaunch.bind fun r => ?_
    cases r with
    | error message => exact ensures_pure fun s hs => ⟨hs.1, fun _ _ _ h => nomatch h⟩
    | ok next =>
      refine (materialize_at wantLp token lp _ ?_).bind fun r => ?_
      · rintro s ⟨hpushed, hdrawn, hnext⟩
        refine ⟨hpushed, hdrawn, fun n hn => ?_⟩
        have hat := hnext n hn
        cases more with
        | true => exact ⟨hat.1.answer, hat.2⟩
        | false => exact ⟨hat.1.answer, hat.2⟩
      · cases r with
        | error message => exact ensures_pure fun s hs => ⟨hs.1.1, fun _ _ _ h => nomatch h⟩
        | ok read =>
          refine ensures_pure ?_
          rintro s ⟨⟨hpushed, hdrawn, hnext⟩, hread⟩
          refine ⟨hpushed, fun id value next' heq => ?_⟩
          obtain rfl := hread read rfl
          obtain ⟨rfl, rfl, rfl⟩ : token = id ∧ (if wantLp then lp else S.zero) = value ∧
              next = next' := by simpa using heq
          rw [← hdrawn]
          exact ⟨rfl, rfl, hnext next rfl⟩

/-- The naive loop's world: the reference decoder and the sampler. -/
def world (em : EngineModel M W) (turn : Rotation → Nat → Row M → Row M) (S : Sampling M.Elt F) :
    World (List M.Elt) F := ⟨S.zero, S.one, S.stubLogprob, modelOf em turn, S.sample⟩

omit hem in
theorem autoregress_ne_nil {L : Type} (V : World L F) (cfg : Engine.ModelConfig F)
    (k i : Nat) (fed : List Int) : autoregress V cfg sp wantLp k i fed ≠ [] := by
  cases k with
  | zero => exact List.cons_ne_nil _ _
  | succ k =>
    rw [autoregress]
    split
    · exact List.cons_ne_nil _ _
    · exact List.cons_ne_nil _ _

/-- What a run from here on pushes follows the naive loop. -/
def Pushes (naive pushed : List (Engine.Chunk F)) (s : Serving M F) : Prop :=
  ∃ out, Follows naive out ∧ s.pushed = pushed ++ out

omit hem in
theorem Ended.pushes {naive : List (Engine.Chunk F)} {s : Serving M F} (h : Ended pushed s) :
    Pushes naive pushed s := by
  obtain ⟨tail, htail, hs⟩ := h
  exact ⟨tail, .broken htail, hs⟩

omit hem in
theorem finishWith_pushes (reason : FinishReason) :
    Ensures (handler em S) (·.pushed = pushed) (finishWith (M := S.mlx) reason)
      fun _ => Pushes [.done reason] pushed := by
  refine (finishWith_pushed reason).imp fun _ s h => ?_
  rcases h with h | h
  · exact ⟨_, .inl rfl, h⟩
  · exact h.pushes

omit hem in
/-- The chunks behind one that was pushed. -/
theorem Pushes.behind {naive : List (Engine.Chunk F)} {c : Engine.Chunk F} {s : Serving M F}
    (hne : naive ≠ []) (h : Pushes naive (pushed ++ [c]) s) : Pushes (c :: naive) pushed s := by
  obtain ⟨out, hout, hs⟩ := h
  exact ⟨c :: out, hout.cons c hne, hs.trans (List.append_assoc _ _ _)⟩

omit hem in
/-- A token is pushed before what comes behind it, unless it is EOS. -/
theorem emitToken_pushes (cfg : Engine.ModelConfig F) {maxNew : Int} {emitted : Nat} {id : Int}
    {value : F} {next : Option (List M.Elt)} {goOn : List M.Elt → Gen S.mlx Unit}
    {rest : List (Engine.Chunk F)} (hrest : rest ≠ [])
    (hlast : (emitted + 1 : Int) = maxNew → rest = [.done .length])
    (hgo : (emitted + 1 : Int) ≠ maxNew → ∃ n, next = some n ∧
      Ensures (handler em S) (At em turn dtype fed keys (pushed ++ [.token id value])) (goOn n)
        fun _ => Pushes rest (pushed ++ [.token id value])) :
    Ensures (handler em S) (At em turn dtype fed keys pushed)
      (emitToken (M := S.mlx) cfg maxNew emitted id value next goOn)
      fun _ => Pushes (if tokenIsEos (M := S.mlx) cfg id then [.done .stop]
        else .token id value :: rest) pushed := by
  refine .ite (fun heos => ?_) fun heos => ?_
  · rw [if_pos heos]
    exact fun s hs => finishWith_pushes .stop s hs.pushed_eq
  · rw [if_neg heos]
    refine (streamPushP_at _).bind fun ok => .ite (fun hok => ?_) fun hok => ?_
    · rw [hok]
      refine .ite (fun hmax => ?_) fun hmax => ?_
      · rw [hlast hmax]
        intro s hs
        exact (finishWith_pushes .length s hs.pushed_eq).behind (List.cons_ne_nil _ _)
      · obtain ⟨n, rfl, hrun⟩ := hgo hmax
        have hclear : Ensures (handler em S) (At em turn dtype fed keys (pushed ++ [.token id value]))
            (if (emitted + 1) % 256 = 0 then call .clearCache else pure () : Gen S.mlx Unit)
            fun _ => At em turn dtype fed keys (pushed ++ [.token id value]) :=
          .ite (fun _ => ensures_perform fun s hs => hs) fun _ => ensures_pure fun s hs => hs
        exact hclear.bind fun _ => hrun.imp fun _ _ h => h.behind hrest
    · rw [Bool.not_eq_true] at hok
      rw [hok]
      exact streamFinishCancelledP_at.imp fun _ _ h => h.pushes

/-- The loop pushes what the naive loop does, as far as it gets. -/
theorem decodeLoop_pushes (cfg : Engine.ModelConfig F) {maxNew : Int} (k fuel : Nat) (hk : 0 < k)
    (hfuel : k ≤ fuel) (hmax : maxNew = keys + k) :
    Ensures (handler em S) (At em turn dtype fed keys pushed)
      (decodeLoop (M := S.mlx) cfg sp wantLp maxNew fuel keys (modelOf em turn fed))
      fun _ => Pushes (autoregress (world em turn S) cfg sp wantLp k keys fed) pushed := by
  induction fuel generalizing k keys fed pushed with
  | zero => omega
  | succ fuel ih =>
    obtain ⟨k, rfl⟩ : ∃ n, k = n + 1 := ⟨k - 1, by omega⟩
    rw [decodeLoop, if_pos (by omega)]
    refine (pollHookPoll_at fun _ => rfl).bind fun stopped => .ite (fun _ => ?_) fun _ => ?_
    · exact streamFinishCancelledP_at.imp fun _ _ h => h.pushes
    · refine (decodeToken_at hem sp wantLp _).bind fun r => ?_
      cases r with
      | error message =>
        rintro s ⟨hs, -⟩
        exact (generateFail_ended _ _ s hs).pushes
      | ok read =>
        obtain ⟨id, value, next⟩ := read
        rintro s ⟨hpushed, hread⟩
        obtain ⟨hid, hvalue, hnext⟩ := hread id value next rfl
        have hnaive : autoregress (world em turn S) cfg sp wantLp (k + 1) keys fed =
            if tokenIsEos (M := S.mlx) cfg id then [.done .stop]
            else .token id value ::
              autoregress (world em turn S) cfg sp wantLp k (keys + 1) (fed ++ [id]) := by
          rw [hid, hvalue]
          rfl
        rw [hnaive]
        cases k with
        | zero =>
          -- the last token that is wanted is not fed
          rw [if_neg (by simp; omega)] at hnext
          exact emitToken_pushes cfg (autoregress_ne_nil _ _ _ _ _ _ _) (fun _ => rfl)
            (fun hne => absurd hmax.symm (by push_cast; simpa using hne)) s hnext.1
        | succ k =>
          rw [if_pos (by simp; omega)] at hnext
          refine emitToken_pushes cfg (autoregress_ne_nil _ _ _ _ _ _ _)
            (fun hlast => by omega) (fun _ => ⟨_, hnext.2, ?_⟩) s hnext.1
          exact ih (k + 1) (by omega) (by omega) (by push_cast; omega)

end Decode

/-! ### The request -/

section Request

variable (hem : em.Documented turn dtype)

/-- A request that has not pushed anything and not drawn anything. -/
def Fresh (s : Serving M F) : Prop := s.keys = 0 ∧ s.pushed = []

include hem

theorem kvcacheInit_at {layers : Int} (hlayers : layers = em.cfg.numHiddenLayers) :
    Ensures (handler em S) Fresh (call (M := S.mlx) (.kvcacheInit layers))
      fun ok s => if ok then At em turn dtype [] 0 [] s else s.pushed = [] := by
  subst hlayers
  refine ensures_perform fun s hs => ?_
  rw [handler]
  cases hinit : (if s.answer.1 then kvcacheInit M em.cfg.numHiddenLayers else none) with
  | none => exact hs.2
  | some kv =>
    have hkv : kvcacheInit M em.cfg.numHiddenLayers = some kv := by
      split at hinit
      · exact hinit
      · contradiction
    exact ⟨rfl, hs.1, hs.2, [], init_behind 1 _ hem hkv, rfl⟩

/-- The chunks of the naive loop over the reference decoder. -/
def naiveChunks (em : EngineModel M W) (turn : Rotation → Nat → Row M → Row M) (S : Sampling M.Elt F)
    (cfg : Engine.ModelConfig F) (cmd : GenerateCmd F) : List (Engine.Chunk F) :=
  autoregress (world em turn S) cfg
    (samplingResolve (M := S.mlx) cmd.params.sampling cmd.params.samplingSet cfg)
    cmd.params.logprobs cmd.params.maxTokens.toNat 0 cmd.tokenIds

end Request

end Loop

/-! ### A request to the small model -/

/-- The sum of the row and the number of the subkey. -/
def addSampling : Sampling fnMlx.Elt Nat :=
  ⟨0, 1, id, fun _ row i => (((row.foldl Nat.add 0 : Nat) + i : Nat), i)⟩

def smallConfig : Engine.ModelConfig Nat := ⟨none, none, none, 16, 2, [7]⟩

def smallCmd : GenerateCmd Nat := ⟨⟨⟨1, 1, -1, 0, -1⟩, 0, 1, true⟩, [1, 2]⟩

/-- Nothing fails, and no flag is set. -/
def smoothRun : Serving fnMlx Nat :=
  ⟨⟨fun _ => ⟨fnMlx.null, fnMlx.null, 0, 0, 0, 0, false⟩, 0⟩, [], 0, [], fun _ => true,
    fun _ _ _ => true, fun _ => false, fun _ => true⟩

def smoothPushed : List (Engine.Chunk Nat) :=
  (run (handler smallModel addSampling)
    (handleGenerateReal (M := Sampling.mlx (M := fnMlx) addSampling) 2 smallConfig smallCmd)
      smoothRun).2.pushed

theorem smoothPushed_length : smoothPushed.length = 2 := by decide +kernel

end Serve

end Mlxd.Serve
