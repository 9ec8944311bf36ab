import Mlxd.Lib.Program
import Mlxd.Stream

/-!
# The generate loops

`handle_generate_stub` and `handle_generate_real` as programs whose effects are the calls
into the stream, the flags and the MLX library. MLX is outside the repository: its arrays
are handles of unknown types, and every call into it may fail. Freeing arrays has no effect
here.
-/
namespace Mlxd.Engine

open Mlxd.Lib Program

/-- Handles of MLX arrays, and the floats the engine touches. -/
structure Mlx where
  Real : Type
  Ids : Type
  Logits : Type
  Key : Type
  Token : Type
  Logprob : Type
  zero : Real
  one : Real
  /-- `-0.25f * (float)(i + 1)`, the log-probability of the echo path. -/
  stubLogprob : Nat → Real
  makeIdsArray : List Int → Ids

structure SamplingParams (F : Type) where
  temperature : F
  topP : F
  topK : Int
  minP : F
  seed : Int

structure GenParams (F : Type) where
  sampling : SamplingParams F
  samplingSet : Nat
  maxTokens : Int
  logprobs : Bool

/-- The part of a model's configuration the generate loop reads. -/
structure ModelConfig (F : Type) where
  genTemperature : Option F
  genTopP : Option F
  genTopK : Option Int
  maxPositionEmbeddings : Int
  numHiddenLayers : Int
  eosTokenIds : List Nat

structure GenerateCmd (F : Type) where
  params : GenParams F
  tokenIds : List Int

variable {M : Mlx}

def samplingParamsDefault : SamplingParams M.Real := ⟨M.one, M.one, -1, M.zero, -1⟩

/-- A field set by the request, else by the model's configuration, else the default. -/
def resolveField {α : Type} (mask bit : Nat) (req : α) (gen : Option α) (dflt : α) : α :=
  if mask &&& bit ≠ 0 then req else gen.getD dflt

def samplingResolve (req : SamplingParams M.Real) (mask : Nat) (cfg : ModelConfig M.Real) :
    SamplingParams M.Real :=
  let dflt : SamplingParams M.Real := samplingParamsDefault
  { temperature := resolveField mask 1 req.temperature cfg.genTemperature dflt.temperature
    topP := resolveField mask 2 req.topP cfg.genTopP dflt.topP
    topK := resolveField mask 4 req.topK cfg.genTopK dflt.topK
    minP := resolveField mask 8 req.minP none dflt.minP
    seed := resolveField mask 16 req.seed none dflt.seed }

/-- The calls of the generate path. A load of the shutdown flag says whether it is the one
made after a refused push of a failing path. -/
inductive GenOp (M : Mlx) where
  | loadShutdown (failing : Bool)
  | loadCancelled
  | push (c : Chunk M.Real)
  | finishCancelled
  | notify
  | samplerKeyInit (seed : Int)
  | kvcacheInit (layers : Int)
  | onPrefillChunk (pos len : Nat)
  | onBeforeSeed
  | onDecodeStep (step : Nat)
  /-- `model_forward` without logits. -/
  | modelPrefill (ids : M.Ids)
  /-- `model_forward` with the logits of the last position. -/
  | modelForward (ids : M.Ids)
  | samplerKeyNext
  | samplerSampleLazy (logits : M.Logits) (sp : SamplingParams M.Real) (subkey : M.Key)
      (wantLp : Bool)
  | reshapeTokenIds (token : M.Token)
  | asyncEval (token : M.Token) (next : Option M.Logits) (lp : Option M.Logprob)
  | itemInt32 (token : M.Token)
  | itemFloat32 (lp : M.Logprob)
  | clearCache

/-- The answers; a failing call answers `false` or `none`. -/
@[reducible] def GenAns : GenOp M → Type
  | .loadShutdown _ => Bool
  | .loadCancelled => Bool
  | .push _ => Bool
  | .finishCancelled => Unit
  | .notify => Unit
  | .samplerKeyInit _ => Bool
  | .kvcacheInit _ => Bool
  | .onPrefillChunk _ _ => Unit
  | .onBeforeSeed => Unit
  | .onDecodeStep _ => Unit
  | .modelPrefill _ => Bool
  | .modelForward _ => Option M.Logits
  | .samplerKeyNext => Option M.Key
  | .samplerSampleLazy _ _ _ _ => Option (M.Token × M.Logprob)
  | .reshapeTokenIds _ => Option M.Ids
  | .asyncEval _ _ _ => Bool
  | .itemInt32 _ => Option Int
  | .itemFloat32 _ => Option M.Real
  | .clearCache => Unit

/-- A program of the generate path. -/
abbrev Gen (M : Mlx) (α : Type) : Type := Program (GenOp M) GenAns α

abbrev call (op : GenOp M) : Gen M (GenAns op) := perform op

/-! ## Stream helpers -/

def streamPushP (c : Chunk M.Real) : Gen M Bool := do
  let ok : Bool ← call (.push c)
  if ok then
    let _ : Unit ← call .notify
    return true
  else return false

def streamFinishCancelledP : Gen M Unit := do
  let _ : Unit ← call .finishCancelled
  call .notify

/-- Push the terminal chunk, or write the cancelled one when the push is refused. -/
def finishWith (reason : FinishReason) : Gen M Unit := do
  if ← streamPushP (.done reason) then return ()
  else streamFinishCancelledP

def generateFail (message : String) (kind : GenErrKind) : Gen M Unit := do
  let pushed ← streamPushP (.error kind message)
  let ok : Bool ← (if pushed then streamPushP (.done .stop) else pure false : Gen M Bool)
  if ok then return ()
  else
    let shutdown : Bool ← call (.loadShutdown true)
    if shutdown then streamFinishCancelledP else return ()

/-- `atomic_load(&eng->shutdown) || atomic_load(&s->cancelled)`. -/
def pollStop : Gen M Bool := do
  let shutdown : Bool ← call (.loadShutdown false)
  if shutdown then return true else call .loadCancelled

def tokenIsEos (cfg : ModelConfig M.Real) (id : Int) : Bool :=
  cfg.eosTokenIds.any fun eos => (BitVec.ofNat 32 eos).toInt == id

/-- Poll the flags, run a hook, poll again: true when the request has to stop. -/
def pollHookPoll (hook : Gen M Unit) : Gen M Bool := do
  if ← pollStop then return true
  else
    hook
    pollStop

/-! ## The echo path -/

/-- Echo the tokens; false when the stream has been finished early. -/
def stubLoop (wantLp : Bool) : Nat → List Int → Gen M Bool
  | _, [] => return true
  | i, id :: rest => do
    let shutdown : Bool ← call (.loadShutdown false)
    if shutdown then
      streamFinishCancelledP
      return false
    else if ← streamPushP (.token id (if wantLp then M.stubLogprob i else M.zero)) then
      stubLoop wantLp (i + 1) rest
    else
      streamFinishCancelledP
      return false

def handleGenerateStub (cmd : GenerateCmd M.Real) : Gen M Unit := do
  let count : Int := cmd.tokenIds.length
  let limit := if count < cmd.params.maxTokens then count else cmd.params.maxTokens
  if ← stubLoop cmd.params.logprobs 0 (cmd.tokenIds.take limit.toNat) then
    finishWith (if limit < count then .length else .stop)
  else return ()

/-! ## Prefill -/

section Real

variable (cfg : ModelConfig M.Real) (sp : SamplingParams M.Real) (wantLp : Bool)

/-- Feed the prompt up to `prefixEnd` in chunks; false when the request has ended. -/
def prefillLoop (chunk : Nat) (ids : List Int) (prefixEnd : Nat) : Nat → Nat → Gen M Bool
  | 0, _ => return true
  | fuel + 1, pos =>
    if pos < prefixEnd then do
      let chunkEnd := if prefixEnd < pos + chunk then prefixEnd else pos + chunk
      if ← pollHookPoll (call (.onPrefillChunk pos (chunkEnd - pos))) then
        streamFinishCancelledP
        return false
      else
        let fed : Bool ← call (.modelPrefill (M.makeIdsArray ((ids.drop pos).take (chunkEnd - pos))))
        if fed then
          let _ : Unit ← call .clearCache
          prefillLoop chunk ids prefixEnd fuel chunkEnd
        else
          generateFail "prefill forward failed" .internal
          return false
    else return true

/-- The logits of the last prompt token; none when the request has ended. -/
def seedLogits (ids : List Int) : Gen M (Option M.Logits) := do
  if ← pollHookPoll (call .onBeforeSeed) then
    streamFinishCancelledP
    return none
  else
    let seed : Option M.Logits ←
      call (.modelForward (M.makeIdsArray ((ids.drop (ids.length - 1)).take 1)))
    match seed with
    | none =>
      generateFail "seed forward failed" .internal
      return none
    | some logits => return some logits

/-! ## Decode -/

/-- Sample the current token lazily, or say what failed. -/
def sampleCurrent (pending : M.Logits) : Gen M (Except String (M.Token × M.Logprob)) := do
  let subkey : Option M.Key ← call .samplerKeyNext
  match subkey with
  | none => return .error "sampler key_next failed"
  | some subkey =>
    let sampled : Option (M.Token × M.Logprob) ← call (.samplerSampleLazy pending sp subkey wantLp)
    match sampled with
    | none => return .error "sampler sample failed"
    | some sampled => return .ok sampled

/-- Launch the next forward when more tokens are wanted, and the evaluation of the token. -/
def launchNext (more : Bool) (token : M.Token) (lp : M.Logprob) :
    Gen M (Except String (Option M.Logits)) := do
  let lpOut := if wantLp then some lp else none
  if more then
    let ids : Option M.Ids ← call (.reshapeTokenIds token)
    match ids with
    | none => return .error "token reshape failed"
    | some ids =>
      let next : Option M.Logits ← call (.modelForward ids)
      match next with
      | none => return .error "decode forward failed"
      | some next =>
        let launched : Bool ← call (.asyncEval token (some next) lpOut)
        if launched then return .ok (some next) else return .error "async_eval failed"
  else
    let launched : Bool ← call (.asyncEval token none lpOut)
    if launched then return .ok none else return .error "async_eval failed"

/-- Wait for the current token and its log-probability. -/
def materialize (token : M.Token) (lp : M.Logprob) : Gen M (Except String (Int × M.Real)) := do
  let id : Option Int ← call (.itemInt32 token)
  match id with
  | none => return .error "token materialize failed"
  | some id =>
    if wantLp then
      let value : Option M.Real ← call (.itemFloat32 lp)
      match value with
      | none => return .error "logprob materialize failed"
      | some value => return .ok (id, value)
    else return .ok (id, M.zero)

/-- Sample a token, launch the step after it, then read it: what one iteration does between
its polls and its pushes. -/
def decodeToken (more : Bool) (pending : M.Logits) :
    Gen M (Except String (Int × M.Real × Option M.Logits)) := do
  match ← sampleCurrent sp wantLp pending with
  | .error message => return .error message
  | .ok (token, lp) =>
    match ← launchNext wantLp more token lp with
    | .error message => return .error message
    | .ok next =>
      match ← materialize wantLp token lp with
      | .error message => return .error message
      | .ok (id, value) => return .ok (id, value, next)

/-- Push a materialized token, then end the request or go on with the next logits. -/
def emitToken (maxNew : Int) (emitted : Nat) (id : Int) (value : M.Real) (next : Option M.Logits)
    (goOn : M.Logits → Gen M Unit) : Gen M Unit := do
  if tokenIsEos cfg id then finishWith .stop
  else if ← streamPushP (.token id value) then
    if (emitted + 1 : Int) = maxNew then finishWith .length
    else
      match next with
      | none => return ()
      | some next =>
        (if (emitted + 1) % 256 = 0 then call .clearCache else pure () : Gen M Unit)
        goOn next
  else streamFinishCancelledP

/-- The pipelined loop, from `emitted` tokens on; the fuel bounds the tokens to come. -/
def decodeLoop (maxNew : Int) : Nat → Nat → M.Logits → Gen M Unit
  | 0, _, _ => return ()
  | fuel + 1, emitted, pending =>
    if emitted < maxNew then do
      if ← pollHookPoll (call (.onDecodeStep emitted)) then streamFinishCancelledP
      else
        match ← decodeToken sp wantLp (decide ((emitted + 1 : Int) < maxNew)) pending with
        | .error message => generateFail message .internal
        | .ok (id, value, next) =>
          emitToken cfg maxNew emitted id value next (decodeLoop maxNew fuel (emitted + 1))
    else return ()

end Real

def contextMessage (n : Nat) (limit : Int) : String :=
  "prompt token count " ++ toString n ++ " exceeds max_position_embeddings " ++ toString limit

/-- The body of `handle_generate_real` up to its cleanup. -/
def generateBody (chunk : Nat) (cfg : ModelConfig M.Real) (cmd : GenerateCmd M.Real) :
    Gen M Unit := do
  let ids := cmd.tokenIds
  let maxNew := cmd.params.maxTokens
  let sp := samplingResolve cmd.params.sampling cmd.params.samplingSet cfg
  let keyed : Bool ← call (.samplerKeyInit sp.seed)
  if !keyed then generateFail "sampler key init failed" .internal
  else if cfg.maxPositionEmbeddings < ids.length then
    generateFail (contextMessage ids.length cfg.maxPositionEmbeddings) .contextLength
  else if ids.length = 0 ∨ maxNew ≤ 0 then finishWith .stop
  else
    let cached : Bool ← call (.kvcacheInit cfg.numHiddenLayers)
    if !cached then generateFail "kvcache init failed" .internal
    else if ← prefillLoop chunk ids (ids.length - 1) ids.length 0 then
      match ← seedLogits ids with
      | none => return ()
      | some pending => decodeLoop cfg sp cmd.params.logprobs maxNew maxNew.toNat 0 pending
    else return ()

def handleGenerateReal (chunk : Nat) (cfg : ModelConfig M.Real) (cmd : GenerateCmd M.Real) :
    Gen M Unit := do
  generateBody chunk cfg cmd
  call .clearCache

end Mlxd.Engine
