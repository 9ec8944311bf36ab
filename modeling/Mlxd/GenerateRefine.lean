import Mlxd.Generate

/-!
# The pipelined loop generates what the naive loop does

A model is a function of the tokens fed to its cache, a sampler a function of the logits
and the number of the subkey. Under any such pair, and with nothing failing and nobody
cancelling, `handle_generate_real` pushes the chunks of the loop that feeds the prompt and
then samples, stops at EOS, emits and feeds back.
-/
namespace Mlxd.Engine

open Mlxd.Lib Program

/-- A model and a sampler with exact results. -/
structure World (L F : Type) where
  zero : F
  one : F
  stubLogprob : Nat → F
  model : List Int → L
  sampler : SamplingParams F → L → Nat → Int × F

variable {L F : Type}

/-- Logits stand for the tokens fed before them, a lazy token for its value. -/
@[reducible] def World.mlx (W : World L F) : Mlx where
  Real := F
  Ids := List Int
  Logits := List Int
  Key := Nat
  Token := Int
  Logprob := F
  zero := W.zero
  one := W.one
  stubLogprob := W.stubLogprob
  makeIdsArray := id

/-- What a run has done so far. -/
structure Trace (F : Type) where
  /-- The tokens in the cache. -/
  fed : List Int
  /-- The chunks fed without logits. -/
  prefills : List (List Int)
  /-- The subkeys handed out. -/
  keys : Nat
  /-- The tokens fed before the logits of each sample, and its subkey. -/
  samples : List (List Int × Nat)
  pushed : List (Chunk F)

namespace Trace

def empty : Trace F := ⟨[], [], 0, [], []⟩

def push (s : Trace F) (c : Chunk F) : Trace F := { s with pushed := s.pushed ++ [c] }

def feed (s : Trace F) (ids : List Int) : Trace F := { s with fed := s.fed ++ ids }

def feedChunk (s : Trace F) (ids : List Int) : Trace F :=
  { s with fed := s.fed ++ ids, prefills := s.prefills ++ [ids] }

def nextKey (s : Trace F) : Trace F := { s with keys := s.keys + 1 }

def sample (s : Trace F) (context : List Int) (subkey : Nat) : Trace F :=
  { s with samples := s.samples ++ [(context, subkey)] }

end Trace

/-- No call fails, and no flag is ever set. -/
def World.handler (W : World L F) : (op : GenOp W.mlx) → Trace F → GenAns op × Trace F
  | .loadShutdown _, s => (false, s)
  | .loadCancelled, s => (false, s)
  | .push c, s => (true, s.push c)
  | .finishCancelled, s => ((), s.push (.done .cancelled))
  | .notify, s => ((), s)
  | .samplerKeyInit _, s => (true, s)
  | .kvcacheInit _, s => (true, s)
  | .onPrefillChunk _ _, s => ((), s)
  | .onBeforeSeed, s => ((), s)
  | .onDecodeStep _, s => ((), s)
  | .modelPrefill ids, s => (true, s.feedChunk ids)
  | .modelForward ids, s => (some (s.feed ids).fed, s.feed ids)
  | .samplerKeyNext, s => (some s.keys, s.nextKey)
  | .samplerSampleLazy logits sp subkey _, s =>
    (some (W.sampler sp (W.model logits) subkey), s.sample logits subkey)
  | .reshapeTokenIds token, s => (some [token], s)
  | .asyncEval _ _ _, s => (true, s)
  | .itemInt32 token, s => (some token, s)
  | .itemFloat32 lp, s => (some lp, s)
  | .clearCache, s => ((), s)

/-! ## The naive loop -/

section Naive

variable (W : World L F) (cfg : ModelConfig F) (sp : SamplingParams F) (wantLp : Bool)

def tokenChunk (sample : Int × F) : Chunk F := .token sample.1 (if wantLp then sample.2 else W.zero)

/-- Sample, stop if EOS, emit, feed back; the first argument counts the tokens still wanted. -/
def autoregress : Nat → Nat → List Int → List (Chunk F)
  | 0, _, _ => [.done .length]
  | k + 1, i, fed =>
    let sample := W.sampler sp (W.model fed) i
    if tokenIsEos (M := W.mlx) cfg sample.1 then [.done .stop]
    else tokenChunk W wantLp sample :: autoregress k (i + 1) (fed ++ [sample.1])

/-- The first `i` tokens sampled after the prompt. -/
def firstTokens (prompt : List Int) : Nat → List Int
  | 0 => []
  | i + 1 => firstTokens prompt i ++ [(W.sampler sp (W.model (prompt ++ firstTokens prompt i)) i).1]

/-- Sample number `i` after the prompt. -/
def sampleAt (prompt : List Int) (i : Nat) : Int × F :=
  W.sampler sp (W.model (prompt ++ firstTokens W sp prompt i)) i

end Naive

/-! ## Runs of the parts -/

section Runs

variable (W : World L F) (cfg : ModelConfig F) (sp : SamplingParams F) (wantLp : Bool)

@[simp] theorem run_pollStop (s : Trace F) : run W.handler pollStop s = (false, s) := rfl

@[simp] theorem run_streamPushP (c : Chunk F) (s : Trace F) :
    run W.handler (streamPushP (M := W.mlx) c) s = (true, s.push c) := rfl

@[simp] theorem run_finishWith (reason : FinishReason) (s : Trace F) :
    run W.handler (finishWith reason) s = ((), s.push (.done reason)) := rfl

@[simp] theorem run_decodeToken_more (context : List Int) (s : Trace F) :
    run W.handler (decodeToken (M := W.mlx) sp wantLp true context) s =
      (let sample := W.sampler sp (W.model context) s.keys
      (.ok (sample.1, if wantLp then sample.2 else W.zero, some (s.fed ++ [sample.1])),
        (s.nextKey.sample context s.keys).feed [sample.1])) := by
  cases wantLp <;> rfl

@[simp] theorem run_decodeToken_last (context : List Int) (s : Trace F) :
    run W.handler (decodeToken (M := W.mlx) sp wantLp false context) s =
      (let sample := W.sampler sp (W.model context) s.keys
      (.ok (sample.1, if wantLp then sample.2 else W.zero, none),
        s.nextKey.sample context s.keys)) := by
  cases wantLp <;> rfl

@[simp] theorem run_pollHookPoll_decode (step : Nat) (s : Trace F) :
    run W.handler (pollHookPoll (call (.onDecodeStep step))) s = (false, s) := rfl

theorem prefillLoop_step (chunk : Nat) (ids : List Int) (stop fuel : Nat) {pos : Nat} (s : Trace F)
    (h : pos < stop) : run W.handler (prefillLoop chunk ids stop (fuel + 1) pos) s =
      run W.handler
        (prefillLoop chunk ids stop fuel (if stop < pos + chunk then stop else pos + chunk))
        (s.feedChunk ((ids.drop pos).take
          ((if stop < pos + chunk then stop else pos + chunk) - pos))) := by
  rw [prefillLoop, if_pos h]
  rfl

/-- Prefill feeds the prompt up to `stop`, in non-empty chunks of at most the chunk size. -/
theorem run_prefillLoop {chunk : Nat} (hchunk : 0 < chunk) (ids : List Int) (stop fuel pos : Nat)
    (s : Trace F) (hstop : stop ≤ ids.length) (hpos : pos ≤ stop) (hfuel : stop ≤ pos + fuel)
    (hfed : s.fed = ids.take pos) :
    ∃ chunks, run W.handler (prefillLoop chunk ids stop fuel pos) s =
        (true, { s with fed := ids.take stop, prefills := s.prefills ++ chunks }) ∧
      ids.take pos ++ chunks.flatten = ids.take stop ∧
      ∀ c ∈ chunks, c ≠ [] ∧ c.length ≤ chunk := by
  induction fuel generalizing pos s with
  | zero =>
    obtain rfl : pos = stop := by omega
    refine ⟨[], ?_, by simp, by simp⟩
    rw [← hfed, List.append_nil]
    rfl
  | succ fuel ih =>
    by_cases hlt : pos < stop
    · have hmin : ∃ e, (if stop < pos + chunk then stop else pos + chunk) = e ∧ pos < e ∧
          e ≤ stop ∧ e ≤ pos + chunk := by
        refine ⟨_, rfl, ?_⟩
        split <;> omega
      obtain ⟨e, he, hpe, hes, hec⟩ := hmin
      have htake : ids.take pos ++ (ids.drop pos).take (e - pos) = ids.take e := by
        rw [← List.take_add, Nat.add_sub_cancel' hpe.le]
      obtain ⟨chunks, hrun, hflat, hall⟩ := ih e (s.feedChunk ((ids.drop pos).take (e - pos))) hes
        (by omega) (by rw [Trace.feedChunk, hfed, htake])
      refine ⟨(ids.drop pos).take (e - pos) :: chunks, ?_, ?_, ?_⟩
      · rw [prefillLoop_step W chunk ids stop fuel s hlt, he, hrun]
        simp only [Trace.feedChunk, List.append_assoc, List.cons_append, List.nil_append]
      · rw [List.flatten_cons, ← List.append_assoc, htake, hflat]
      · refine List.forall_mem_cons.mpr ⟨⟨?_, ?_⟩, hall⟩
        · rw [ne_eq, ← List.length_eq_zero_iff, List.length_take, List.length_drop]
          omega
        · rw [List.length_take]
          omega
    · obtain rfl : pos = stop := by omega
      refine ⟨[], ?_, by simp, by simp⟩
      rw [← hfed, List.append_nil, prefillLoop, if_neg hlt]
      rfl

/-- The tokens fed before each sample of the loop, with the number of its subkey. -/
def contexts (prompt : List Int) (i m : Nat) : List (List Int × Nat) :=
  (List.range' i m).map fun j => (prompt ++ firstTokens W sp prompt j, j)

theorem run_emitToken_more {maxNew : Int} {emitted : Nat} (h : (emitted + 1 : Int) ≠ maxNew)
    (id : Int) (value : F) (next : List Int) (goOn : List Int → Gen W.mlx Unit) (s : Trace F) :
    run W.handler (emitToken (M := W.mlx) cfg maxNew emitted id value (some next) goOn) s =
      if tokenIsEos (M := W.mlx) cfg id then ((), s.push (.done .stop))
      else run W.handler (goOn next) (s.push (.token id value)) := by
  by_cases heos : tokenIsEos (M := W.mlx) cfg id = true
  · rw [emitToken, if_pos heos, if_pos heos]
    rfl
  · rw [emitToken, if_neg heos, if_neg heos, run_bind, run_streamPushP, if_pos rfl, if_neg h]
    by_cases hc : (emitted + 1) % 256 = 0
    · rw [if_pos hc]
      rfl
    · rw [if_neg hc]
      rfl

theorem run_emitToken_last {maxNew : Int} {emitted : Nat} (h : (emitted + 1 : Int) = maxNew)
    (id : Int) (value : F) (goOn : List Int → Gen W.mlx Unit) (s : Trace F) :
    run W.handler (emitToken (M := W.mlx) cfg maxNew emitted id value none goOn) s =
      ((), if tokenIsEos (M := W.mlx) cfg id then s.push (.done .stop)
        else (s.push (.token id value)).push (.done .length)) := by
  by_cases heos : tokenIsEos (M := W.mlx) cfg id = true
  · rw [emitToken, if_pos heos, if_pos heos]
    rfl
  · rw [emitToken, if_neg heos, if_neg heos, run_bind, run_streamPushP, if_pos rfl, if_pos h]
    rfl

/-- One iteration with more tokens to come. -/
theorem decodeLoop_more {maxNew : Int} (fuel : Nat) {emitted : Nat} (s : Trace F)
    (h : (emitted + 1 : Int) < maxNew) (context : List Int) :
    run W.handler (decodeLoop (M := W.mlx) cfg sp wantLp maxNew (fuel + 1) emitted context) s =
      (let sample := W.sampler sp (W.model context) s.keys
      let s' := (s.nextKey.sample context s.keys).feed [sample.1]
      if tokenIsEos (M := W.mlx) cfg sample.1 then ((), s'.push (.done .stop))
      else run W.handler (decodeLoop (M := W.mlx) cfg sp wantLp maxNew fuel (emitted + 1) s'.fed)
        (s'.push (tokenChunk W wantLp sample))) := by
  rw [decodeLoop, if_pos (by omega), decide_eq_true h]
  cases wantLp <;> exact run_emitToken_more W cfg (by omega) _ _ _ _ _

/-- The iteration of the last token that is wanted. -/
theorem decodeLoop_last {maxNew : Int} (fuel : Nat) {emitted : Nat} (s : Trace F)
    (h : (emitted + 1 : Int) = maxNew) (context : List Int) :
    run W.handler (decodeLoop (M := W.mlx) cfg sp wantLp maxNew (fuel + 1) emitted context) s =
      (let sample := W.sampler sp (W.model context) s.keys
      let s' := s.nextKey.sample context s.keys
      ((), if tokenIsEos (M := W.mlx) cfg sample.1 then s'.push (.done .stop)
        else (s'.push (tokenChunk W wantLp sample)).push (.done .length))) := by
  rw [decodeLoop, if_pos (by omega), decide_eq_false (by omega)]
  have hlast := fun lp value => run_emitToken_last W cfg h
    (W.sampler sp (W.model context) s.keys).1 value
    (decodeLoop (M := W.mlx) cfg sp lp maxNew fuel (emitted + 1)) (s.nextKey.sample context s.keys)
  cases wantLp with
  | false => exact hlast false _
  | true => exact hlast true _

/-- From sample `i` on, the loop pushes what the naive loop does, and each sample is taken
from the logits after the prompt and the samples before it. -/
theorem run_decodeLoop (prompt : List Int) {maxNew : Int} (k fuel i : Nat) (s : Trace F)
    (hk : 0 < k) (hfuel : k ≤ fuel) (hmax : maxNew = i + k)
    (hfed : s.fed = prompt ++ firstTokens W sp prompt i) (hkeys : s.keys = i) :
    ∃ m, (run W.handler (decodeLoop (M := W.mlx) cfg sp wantLp maxNew fuel i s.fed) s).2.pushed =
        s.pushed ++ autoregress W cfg sp wantLp k i s.fed ∧
      (run W.handler (decodeLoop (M := W.mlx) cfg sp wantLp maxNew fuel i s.fed) s).2.samples =
        s.samples ++ contexts W sp prompt i m ∧
      (run W.handler (decodeLoop (M := W.mlx) cfg sp wantLp maxNew fuel i s.fed) s).2.prefills =
        s.prefills := by
  induction fuel generalizing k i s with
  | zero => omega
  | succ fuel ih =>
    obtain ⟨k, rfl⟩ : ∃ n, k = n + 1 := ⟨k - 1, by omega⟩
    subst hkeys
    have hone : contexts W sp prompt s.keys 1 = [(s.fed, s.keys)] := by
      rw [hfed]
      rfl
    cases k with
    | zero =>
      refine ⟨1, ?_⟩
      rw [decodeLoop_last W cfg sp wantLp fuel s (by omega), hone, autoregress]
      dsimp only
      split
      · exact ⟨rfl, rfl, rfl⟩
      · refine ⟨?_, rfl, rfl⟩
        simp only [Trace.push, Trace.sample, Trace.nextKey, autoregress, List.append_assoc,
          List.cons_append, List.nil_append]
    | succ k =>
      rw [decodeLoop_more W cfg sp wantLp fuel s (by omega), autoregress]
      dsimp only
      split
      · exact ⟨1, by rw [hone]; exact ⟨rfl, rfl, rfl⟩⟩
      · obtain ⟨m, hpushed, hsamples, hprefills⟩ := ih (k + 1) (s.keys + 1)
          (((s.nextKey.sample s.fed s.keys).feed
            [(W.sampler sp (W.model s.fed) s.keys).1]).push
              (tokenChunk W wantLp (W.sampler sp (W.model s.fed) s.keys)))
          (by omega) (by omega) (by push_cast; omega)
          (by simp only [Trace.push, Trace.feed, Trace.sample, Trace.nextKey, hfed, firstTokens,
                List.append_assoc]) rfl
        refine ⟨m + 1, hpushed.trans ?_, hsamples.trans ?_, hprefills⟩
        · simp only [Trace.push, Trace.feed, Trace.sample, Trace.nextKey, List.append_assoc,
            List.cons_append, List.nil_append]
        · have hcons : contexts W sp prompt s.keys (m + 1) =
              contexts W sp prompt s.keys 1 ++ contexts W sp prompt (s.keys + 1) m := by
            simp only [contexts, List.range'_succ, List.map_cons, List.range'_zero, List.map_nil,
              List.cons_append, List.nil_append]
          rw [hcons, hone]
          simp only [Trace.push, Trace.feed, Trace.sample, Trace.nextKey, List.append_assoc]

theorem run_seedLogits (ids : List Int) (s : Trace F) :
    run W.handler (seedLogits (M := W.mlx) ids) s =
      (some (s.feed ((ids.drop (ids.length - 1)).take 1)).fed,
        s.feed ((ids.drop (ids.length - 1)).take 1)) := rfl

end Runs

/-! ## The whole request -/

section Request

variable (W : World L F) (cfg : ModelConfig F) (cmd : GenerateCmd F)

/-- The naive loop up to sample `n`, as far as no EOS is sampled. -/
theorem autoregress_split (sp : SamplingParams F) (wantLp : Bool) (prompt : List Int)
    (n k i : Nat)
    (h : ∀ j < n, tokenIsEos (M := W.mlx) cfg (sampleAt W sp prompt (i + j)).1 = false) :
    autoregress W cfg sp wantLp (n + k) i (prompt ++ firstTokens W sp prompt i) =
      (List.range' i n).map (fun j => tokenChunk W wantLp (sampleAt W sp prompt j)) ++
        autoregress W cfg sp wantLp k (i + n) (prompt ++ firstTokens W sp prompt (i + n)) := by
  induction n generalizing i with
  | zero => simp
  | succ n ih =>
    have hfirst : tokenIsEos (M := W.mlx) cfg (sampleAt W sp prompt i).1 = false := h 0 (by omega)
    have hrest := ih (i + 1) fun j hj => by
      have := h (j + 1) (by omega)
      rwa [Nat.add_comm j 1, ← Nat.add_assoc] at this
    have hnext : prompt ++ firstTokens W sp prompt i ++ [(sampleAt W sp prompt i).1] =
        prompt ++ firstTokens W sp prompt (i + 1) := List.append_assoc _ _ _
    rw [Nat.add_right_comm n 1 k, autoregress, List.range'_succ, List.map_cons, List.cons_append]
    change (if tokenIsEos (M := W.mlx) cfg (sampleAt W sp prompt i).1 = true then _ else _) = _
    rw [if_neg (by simp [hfirst])]
    change _ :: autoregress W cfg sp wantLp (n + k) (i + 1)
      (prompt ++ firstTokens W sp prompt i ++ [(sampleAt W sp prompt i).1]) = _
    rw [hnext, hrest, Nat.add_comm n 1, ← Nat.add_assoc]
    rfl

/-- What a request does to the model and the stream. -/
def generate (chunk : Nat) : Trace F :=
  (run W.handler (handleGenerateReal (M := W.mlx) chunk cfg cmd) Trace.empty).2

def requestSampling : SamplingParams F :=
  samplingResolve (M := W.mlx) cmd.params.sampling cmd.params.samplingSet cfg

theorem generate_spec (chunk : Nat) (hchunk : 0 < chunk) (hn : 0 < cmd.tokenIds.length)
    (hctx : (cmd.tokenIds.length : Int) ≤ cfg.maxPositionEmbeddings)
    (hmax : 0 < cmd.params.maxTokens) :
    ∃ chunks m, (generate W cfg cmd chunk).pushed =
        autoregress W cfg (requestSampling W cfg cmd) cmd.params.logprobs cmd.params.maxTokens.toNat
          0 cmd.tokenIds ∧
      (generate W cfg cmd chunk).samples =
        contexts W (requestSampling W cfg cmd) cmd.tokenIds 0 m ∧
      (generate W cfg cmd chunk).prefills = chunks ∧
      chunks.flatten = cmd.tokenIds.dropLast ∧ ∀ c ∈ chunks, c ≠ [] ∧ c.length ≤ chunk := by
  obtain ⟨chunks, hprefill, hflat, hall⟩ := run_prefillLoop W hchunk cmd.tokenIds
    (cmd.tokenIds.length - 1) cmd.tokenIds.length 0 Trace.empty (by omega) (Nat.zero_le _)
    (by omega) rfl
  have hbody : run W.handler (generateBody (M := W.mlx) chunk cfg cmd) Trace.empty =
      run W.handler (decodeLoop (M := W.mlx) cfg (requestSampling W cfg cmd) cmd.params.logprobs
        cmd.params.maxTokens cmd.params.maxTokens.toNat 0 cmd.tokenIds)
        ⟨cmd.tokenIds, chunks, 0, [], []⟩ := by
    have hlast : cmd.tokenIds.take (cmd.tokenIds.length - 1) ++
        (cmd.tokenIds.drop (cmd.tokenIds.length - 1)).take 1 = cmd.tokenIds := by
      have hdrop : (cmd.tokenIds.drop (cmd.tokenIds.length - 1)).length ≤ 1 := by
        rw [List.length_drop]
        omega
      rw [List.take_of_length_le hdrop, List.take_append_drop]
    rw [generateBody, run_bind]
    change run W.handler (if (!true) = true then _ else if cfg.maxPositionEmbeddings < _ then _
      else _) Trace.empty = _
    rw [if_neg (by decide), if_neg (by omega), if_neg (by omega), run_bind]
    change run W.handler (if (!true) = true then _ else _) Trace.empty = _
    rw [if_neg (by decide), run_bind, hprefill, if_pos rfl, run_bind, run_seedLogits]
    simp only [Trace.feed, hlast]
    rfl
  have hcount : cmd.params.maxTokens = (0 : Nat) + (cmd.params.maxTokens.toNat : Int) := by omega
  obtain ⟨m, hpushed, hsamples, hprefills⟩ := run_decodeLoop W cfg (requestSampling W cfg cmd)
    cmd.params.logprobs cmd.tokenIds cmd.params.maxTokens.toNat cmd.params.maxTokens.toNat 0
    ⟨cmd.tokenIds, chunks, 0, [], []⟩ (by omega) (Nat.le_refl _) hcount
    (List.append_nil _).symm rfl
  have hrun : generate W cfg cmd chunk = (run W.handler (decodeLoop (M := W.mlx) cfg
      (requestSampling W cfg cmd) cmd.params.logprobs cmd.params.maxTokens
      cmd.params.maxTokens.toNat 0 cmd.tokenIds) ⟨cmd.tokenIds, chunks, 0, [], []⟩).2 := by
    rw [generate, handleGenerateReal, run_bind, hbody]
    rfl
  refine ⟨chunks, m, ?_, ?_, ?_, ?_, hall⟩
  · rw [hrun, hpushed]
    rfl
  · rw [hrun, hsamples]
    rfl
  · rw [hrun, hprefills]
  · rw [List.dropLast_eq_take, ← hflat]
    rfl

/-- The request refines the naive loop: it pushes the naive loop's chunks, ends with STOP
before the first EOS among the wanted samples and with LENGTH after all of them otherwise,
prefills the prompt but its last token in chunks, and takes sample `i` from the logits after
the prompt and the first `i` samples. -/
theorem handleGenerateReal_refines (chunk : Nat) (hchunk : 0 < chunk)
    (hn : 0 < cmd.tokenIds.length)
    (hctx : (cmd.tokenIds.length : Int) ≤ cfg.maxPositionEmbeddings)
    (hmax : 0 < cmd.params.maxTokens) :
    let sp : SamplingParams F := requestSampling W cfg cmd
    let lp := cmd.params.logprobs
    let maxNew := cmd.params.maxTokens.toNat
    let eos := fun i => tokenIsEos (M := W.mlx) cfg (sampleAt W sp cmd.tokenIds i).1
    let tokens := fun n =>
      (List.range n).map fun i => tokenChunk W lp (sampleAt W sp cmd.tokenIds i)
    let t := generate W cfg cmd chunk
    t.pushed = autoregress W cfg sp lp maxNew 0 cmd.tokenIds ∧
      (∀ n < maxNew, eos n = true → (∀ i < n, eos i = false) →
        t.pushed = tokens n ++ [.done .stop]) ∧
      ((∀ i < maxNew, eos i = false) → t.pushed = tokens maxNew ++ [.done .length]) ∧
      t.prefills.flatten = cmd.tokenIds.dropLast ∧
      (∀ c ∈ t.prefills, c ≠ [] ∧ c.length ≤ chunk) ∧
      t.samples = (List.range t.samples.length).map fun i =>
        (cmd.tokenIds ++ firstTokens W sp cmd.tokenIds i, i) := by
  intro sp lp maxNew eos tokens t
  obtain ⟨chunks, m, hpushed, hsamples, hprefills, hflat, hall⟩ :=
    generate_spec W cfg cmd chunk hchunk hn hctx hmax
  have hsplit : ∀ n k, n + k = maxNew → (∀ i < n, eos i = false) → t.pushed = tokens n ++
      autoregress W cfg sp lp k n (cmd.tokenIds ++ firstTokens W sp cmd.tokenIds n) := by
    intro n k hnk heos
    have h := autoregress_split W cfg sp lp cmd.tokenIds n k 0 fun j hj => by
      rw [Nat.zero_add]
      exact heos j hj
    rw [hnk, Nat.zero_add, ← List.range_eq_range'] at h
    rw [← h, show t.pushed = _ from hpushed, firstTokens, List.append_nil]
  refine ⟨hpushed, ?_, ?_, ?_, ?_, ?_⟩
  · intro n hnmax hstop heos
    obtain ⟨k, hk⟩ : ∃ k, n + (k + 1) = maxNew := ⟨maxNew - n - 1, by omega⟩
    rw [hsplit n (k + 1) hk heos, autoregress]
    exact congrArg (tokens n ++ ·) (if_pos hstop)
  · intro heos
    rw [hsplit maxNew 0 rfl heos, autoregress]
  · rw [show t.prefills = chunks from hprefills, hflat]
  · rw [show t.prefills = chunks from hprefills]
    exact hall
  · have hlen : t.samples.length = m := by
      rw [show t.samples = _ from hsamples, contexts, List.length_map, List.length_range']
    rw [hlen, List.range_eq_range']
    exact hsamples

/-! ## A counting model -/

/-- The logits are the number of tokens fed, and sample `i` adds `i` to it. -/
def countWorld : World Nat Nat := ⟨0, 1, id, List.length, fun _ logits i => (logits + i, i)⟩

def countConfig : ModelConfig Nat := ⟨none, none, none, 16, 2, [7]⟩

def countCmd : GenerateCmd Nat := ⟨⟨⟨1, 1, -1, 0, -1⟩, 0, 3, true⟩, [5, 6, 7]⟩

/-- The third sample is EOS: two tokens are pushed, and the reason is STOP. -/
theorem handleGenerateReal_refines_count : (generate countWorld countConfig countCmd 2).pushed =
    [.token 3 0, .token 5 1, .done .stop] :=
  (handleGenerateReal_refines countWorld countConfig countCmd 2 (by decide) (by decide) (by decide)
    (by decide)).1

end Request

end Mlxd.Engine
