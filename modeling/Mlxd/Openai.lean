import Mlxd.Generate
import Mlxd.Json

/-!
# Chat and completion requests

The parsers of the two request bodies. Integers are read as 64-bit values and narrowed to an
`int`, and an integer of more than 64 bits is read as a real and ignored. So an accepted request
carries its integers exactly when each fits an `int`; the limit never exceeds a positive one that
was asked for in either case.
-/
namespace Mlxd.Openai

open Mlxd.Unicode Mlxd.Json
open Mlxd.Engine (SamplingParams GenParams)

/-! ## Values -/

/-- The float operations of the parser: the constants of the defaults, the cast of a number and
the `int` a number is equal to. -/
structure Casts (F : Type) where
  zero : F
  one : F
  float : Value → F
  integral : Value → Option Int

/-- A copy of a string value; a C string ends at its first NUL. -/
def jsonStrDup (v : Option Value) : Option Bytes := (getStr v).map cstr

def isObj : Option Value → Bool
  | some (.obj _) => true
  | _ => false

def isNum : Value → Bool
  | .int _ => true
  | .real _ => true
  | _ => false

/-- The boolean of a boolean value. -/
def getBool : Option Value → Option Bool
  | some (.bool b) => some b
  | _ => none

/-- The integer of an integer value. -/
def getInt : Option Value → Option Int
  | some (.int i) => some i
  | _ => none

/-- `(int)yyjson_get_sint(v)`: the low 32 bits, signed. -/
def toInt (i : Int) : Int := i.bmod (2 ^ 32)

def INT_MAX : Int := 2147483647
def INT_MIN : Int := -2147483648

/-! ## Request data -/

inductive Role where
  | system | user | assistant | tool
  deriving DecidableEq, Repr

structure ContentPart where
  type : Option Bytes
  text : Option Bytes
  /-- The inner option is the url of an `image_url` object. -/
  imageUrl : Option (Option Bytes)

inductive Content where
  | none
  | string (s : Bytes)
  | parts (parts : List ContentPart)

structure ToolCall where
  id : Option Bytes
  functionName : Option Bytes
  arguments : Option Bytes

structure Message where
  role : Role
  content : Content
  name : Option Bytes
  toolCallId : Option Bytes
  toolCalls : List ToolCall

structure Tool where
  type : Option Bytes
  name : Option Bytes
  description : Option Bytes
  parametersJson : Option Value

inductive ToolChoice where
  | unset | auto | none | required
  | function (name : Bytes)

/-- The generation parameters of a request: those the engine reads and the others. -/
structure Params (F : Type) extends GenParams F where
  n : Int
  stream : Bool
  topLogprobs : Int
  stop : List Bytes

structure ChatCompletionRequest (F : Type) where
  model : Bytes
  messages : List Message
  params : Params F
  tools : List Tool
  toolChoice : ToolChoice
  includeUsage : Bool

structure CompletionRequest (F : Type) where
  model : Bytes
  prompt : Bytes
  params : Params F

/-! ## Parsing -/

def parseStop : Option Value → Except String (List Bytes)
  | some (.str s) => .ok [cstr s]
  | some (.arr items) =>
    items.mapM fun item =>
      match jsonStrDup (some item) with
      | some s => .ok s
      | none => .error "stop values must be strings"
  | _ => .ok []

def roleFromStr (s : Option Bytes) : Option Role :=
  if s = some (ascii "system") then some .system
  else if s = some (ascii "user") then some .user
  else if s = some (ascii "assistant") then some .assistant
  else if s = some (ascii "tool") then some .tool
  else none

def parsePart (item : Value) : ContentPart where
  type := jsonStrDup (objGet (some item) (ascii "type"))
  text := jsonStrDup (objGet (some item) (ascii "text"))
  imageUrl :=
    let iu := objGet (some item) (ascii "image_url")
    if isObj iu then some (jsonStrDup (objGet iu (ascii "url"))) else none

def parseContent : Option Value → Option Content
  | none => some .none
  | some .null => some .none
  | some (.str s) => some (.string (cstr s))
  | some (.arr items) => some (.parts (items.map parsePart))
  | some _ => none

def parseToolCall (tc : Value) : ToolCall :=
  let fn := objGet (some tc) (ascii "function")
  ⟨jsonStrDup (objGet (some tc) (ascii "id")), jsonStrDup (objGet fn (ascii "name")),
    jsonStrDup (objGet fn (ascii "arguments"))⟩

def parseMessage (m : Value) : Except String Message :=
  match roleFromStr (jsonStrDup (objGet (some m) (ascii "role"))) with
  | none => .error "invalid or missing message role"
  | some role =>
    match parseContent (objGet (some m) (ascii "content")) with
    | none => .error "invalid message content"
    | some content => .ok {
        role, content
        name := jsonStrDup (objGet (some m) (ascii "name"))
        toolCallId := jsonStrDup (objGet (some m) (ascii "tool_call_id"))
        toolCalls := match objGet (some m) (ascii "tool_calls") with
          | some (.arr tcs) => tcs.map parseToolCall
          | _ => [] }

def parseMessages : Option Value → Except String (List Message)
  | some (.arr msgs) => msgs.mapM parseMessage
  | _ => .error "missing required field: messages"

/-- The members of `function` are read only from an object, which `objGet` sees to. -/
def parseTool (t : Value) : Tool :=
  let fn := objGet (some t) (ascii "function")
  ⟨jsonStrDup (objGet (some t) (ascii "type")), jsonStrDup (objGet fn (ascii "name")),
    jsonStrDup (objGet fn (ascii "description")),
    (objGet fn (ascii "parameters")).bind yyjsonMutWrite⟩

def parseTools : Option Value → Except String (List Tool)
  | none => .ok []
  | some (.arr tools) => .ok (tools.map parseTool)
  | some _ => .error "tools must be an array"

def parseToolChoice : Option Value → Except String ToolChoice
  | some (.str s) =>
    if cstr s = ascii "auto" then .ok .auto
    else if cstr s = ascii "none" then .ok .none
    else if cstr s = ascii "required" then .ok .required
    else .error "invalid tool_choice"
  | some (.obj members) =>
    let fn := objGet (some (.obj members)) (ascii "function")
    if isObj fn then
      match jsonStrDup (objGet fn (ascii "name")) with
      | some name => .ok (.function name)
      | none => .error "tool_choice function missing name"
    else .error "tool_choice object missing function"
  | _ => .ok .unset

/-- A numeric field of the request. -/
def getNum (root : Value) (field : Bytes) : Option Value :=
  (objGet (some root) field).filter isNum

section Parse

variable {F : Type} (casts : Casts F)

/-- The defaults, with the sampling fields of the request laid over them and marked in the mask. -/
def parseSampling (root : Value) : SamplingParams F × Nat :=
  let temperature := getNum root (ascii "temperature")
  let topP := getNum root (ascii "top_p")
  let topK := (getNum root (ascii "top_k")).bind casts.integral
  let minP := getNum root (ascii "min_p")
  let seed := getInt (objGet (some root) (ascii "seed"))
  let bit (set : Bool) (mask : Nat) := if set then mask else 0
  ({ temperature := (temperature.map casts.float).getD casts.one
     topP := (topP.map casts.float).getD casts.one
     topK := topK.getD (-1)
     minP := (minP.map casts.float).getD casts.zero
     seed := (seed.map toInt).getD (-1) },
   bit temperature.isSome 1 ||| bit topP.isSome 2 ||| bit topK.isSome 4 ||| bit minP.isSome 8 |||
     bit seed.isSome 16)

/-- `max_completion_tokens` wins over the legacy `max_tokens` when both are present. -/
def chatMaxTokens (root : Value) : Int :=
  match getInt (objGet (some root) (ascii "max_completion_tokens")) with
  | some i => toInt i
  | none => ((getInt (objGet (some root) (ascii "max_tokens"))).map toInt).getD 0

def parseTopLogprobs (v : Option Value) : Except String Int :=
  match getInt v with
  | none => .ok 0
  | some i =>
    if toInt i < 0 then .error "top_logprobs must be >= 0"
    else if 0 < toInt i then .error "top_logprobs is not yet supported"
    else .ok (toInt i)

def chatCompletionRequestParse (root : Value) : Except String (ChatCompletionRequest F) :=
  if isObj (some root) then
    match jsonStrDup (objGet (some root) (ascii "model")) with
    | none => .error "missing required field: model"
    | some model => do
      let messages ← parseMessages (objGet (some root) (ascii "messages"))
      let topLogprobs ← parseTopLogprobs (objGet (some root) (ascii "top_logprobs"))
      let streamOptions := objGet (some root) (ascii "stream_options")
      let stop ← parseStop (objGet (some root) (ascii "stop"))
      let tools ← parseTools (objGet (some root) (ascii "tools"))
      let toolChoice ← parseToolChoice (objGet (some root) (ascii "tool_choice"))
      .ok {
        model, messages, tools, toolChoice
        params := {
          sampling := (parseSampling casts root).1
          samplingSet := (parseSampling casts root).2
          maxTokens := chatMaxTokens root
          logprobs := (getBool (objGet (some root) (ascii "logprobs"))).getD false
          n := 1
          stream := (getBool (objGet (some root) (ascii "stream"))).getD false
          topLogprobs, stop }
        includeUsage := (getBool (objGet streamOptions (ascii "include_usage"))).getD false }
  else .error "request body must be a JSON object"

/-- The `prompt` of a completion: a string only. -/
def parsePrompt : Option Value → Except String Bytes
  | some (.arr _) => .error "completion prompt array form not supported"
  | some (.str s) => .ok (cstr s)
  | _ => .error "missing required field: prompt"

def checkLogprobs (v : Option Value) : Except String Unit :=
  match getInt v with
  | none => .ok ()
  | some i =>
    if 1 ≤ i.bmod (2 ^ 64) then .error "logprobs is not supported on the completions endpoint"
    else .ok ()

def completionRequestParse (root : Value) : Except String (CompletionRequest F) :=
  if isObj (some root) then
    match jsonStrDup (objGet (some root) (ascii "model")) with
    | none => .error "missing required field: model"
    | some model => do
      let prompt ← parsePrompt (objGet (some root) (ascii "prompt"))
      checkLogprobs (objGet (some root) (ascii "logprobs"))
      let stop ← parseStop (objGet (some root) (ascii "stop"))
      .ok {
        model, prompt
        params := {
          sampling := (parseSampling casts root).1
          samplingSet := (parseSampling casts root).2
          maxTokens := ((getInt (objGet (some root) (ascii "max_tokens"))).map toInt).getD 0
          logprobs := false
          n := 1
          stream := (getBool (objGet (some root) (ascii "stream"))).getD false
          topLogprobs := 0, stop } }
  else .error "request body must be a JSON object"

end Parse

/-- The limit `gen_request_start` hands to the engine. -/
def effectiveMaxTokens (chat : Bool) (maxTokens : Int) : Int :=
  if maxTokens ≤ 0 then if chat then INT_MAX else 16 else maxTokens

/-! ## Integers of a request -/

/-- The request carries the integer `n` in a field. The JSON reader hands an integer of more than
64 bits out as the double next to it, given by its bits. -/
def Carries (double : Int → Nat) (root : Value) (field : Bytes) (n : Int) : Prop :=
  objGet (some root) field = some (.int n) ∨
    (n < -2 ^ 63 ∨ 2 ^ 64 ≤ n) ∧ objGet (some root) field = some (.real (double n))

def Fits (n : Int) : Prop := INT_MIN ≤ n ∧ n ≤ INT_MAX

instance (n : Int) : Decidable (Fits n) := inferInstanceAs (Decidable (_ ∧ _))

theorem toInt_fits (i : Int) : Fits (toInt i) := by
  have hlo := Int.le_bmod (x := i) (m := 2 ^ 32) (by decide)
  have hhi := Int.bmod_lt (x := i) (m := 2 ^ 32) (by decide)
  simp only [Fits, toInt, INT_MIN, INT_MAX]
  omega

theorem toInt_of_fits {i : Int} (h : Fits i) : toInt i = i := by
  simp only [Fits, INT_MIN, INT_MAX] at h
  exact Int.bmod_eq_of_le (by omega) (by omega)

section Carried

variable {double : Int → Nat} {root : Value} {field : Bytes} {n : Int}

/-- An integer value is carried, and nothing else is carried with it. -/
theorem carries_of_getInt (h : getInt (objGet (some root) field) = some n) :
    Carries double root field n := by
  unfold getInt at h
  split at h
  · rename_i i hi
    rw [← Option.some.inj h]
    exact .inl hi
  · contradiction

theorem Carries.getInt_of_fits (h : Carries double root field n) (hfits : Fits n) :
    getInt (objGet (some root) field) = some n := by
  rcases h with h | ⟨hwide, -⟩
  · rw [h]
    rfl
  · simp only [Fits, INT_MIN, INT_MAX] at hfits
    omega

/-- What is stored for a field is the integer carried there exactly when that fits an `int`. -/
theorem Carries.stored_iff (h : Carries double root field n) (dflt : Int) (hdflt : Fits dflt) :
    ((getInt (objGet (some root) field)).map toInt).getD dflt = n ↔ Fits n := by
  constructor
  · rintro rfl
    cases getInt (objGet (some root) field) with
    | none => exact hdflt
    | some i => exact toInt_fits i
  · intro hfits
    rw [h.getInt_of_fits hfits]
    exact toInt_of_fits hfits

theorem chatMaxTokens_fits (root : Value) : Fits (chatMaxTokens root) := by
  unfold chatMaxTokens
  split
  · exact toInt_fits _
  · cases getInt (objGet (some root) (ascii "max_tokens")) with
    | none => decide
    | some i => exact toInt_fits i

/-- With both limits there the newer one is stored. -/
theorem chatMaxTokens_newer (h : Carries double root (ascii "max_completion_tokens") n) :
    chatMaxTokens root = n ↔ Fits n := by
  refine ⟨fun he => he ▸ chatMaxTokens_fits root, fun hfits => ?_⟩
  rw [chatMaxTokens, h.getInt_of_fits hfits]
  exact toInt_of_fits hfits

theorem chatMaxTokens_older
    (hnone : ¬ ∃ m, Carries double root (ascii "max_completion_tokens") m)
    (h : Carries double root (ascii "max_tokens") n) : chatMaxTokens root = n ↔ Fits n := by
  have hnew : getInt (objGet (some root) (ascii "max_completion_tokens")) = none := by
    cases hmct : getInt (objGet (some root) (ascii "max_completion_tokens")) with
    | some i => exact absurd ⟨i, carries_of_getInt hmct⟩ hnone
    | none => rfl
  rw [chatMaxTokens, hnew]
  exact h.stored_iff 0 (by decide)

end Carried

/-! ## Which requests are exact -/

/-- A computation that succeeds has passed its first step. -/
theorem except_bind_ok {α β : Type} {m : Except String α} {f : α → Except String β} {b : β}
    (h : (m >>= f) = .ok b) : ∃ a, m = .ok a ∧ f a = .ok b := by
  cases m with
  | error e => contradiction
  | ok a => exact ⟨a, rfl, h⟩

section Exact

variable {F : Type} (casts : Casts F) (double : Int → Nat) (root : Value)

/-- The stored values are those the request carries, and the engine's limit is not above a positive
one of the request. -/
structure Exact (chat : Bool) (params : Params F) : Prop where
  maxTokens : ∀ n, Carries double root (ascii "max_tokens") n → params.maxTokens = n
  maxCompletionTokens :
    ∀ n, Carries double root (ascii "max_completion_tokens") n → params.maxTokens = n
  seed : ∀ n, Carries double root (ascii "seed") n → params.sampling.seed = n
  topLogprobs : ∀ n, Carries double root (ascii "top_logprobs") n → params.topLogprobs = n
  limited : ∀ n, Carries double root (ascii "max_tokens") n ∨
    Carries double root (ascii "max_completion_tokens") n → 0 < n →
      effectiveMaxTokens chat params.maxTokens ≤ n

/-- The chat request is refused or stored exactly. -/
def ChatExact : Prop :=
  ∀ req, chatCompletionRequestParse casts root = .ok req → Exact double root true req.params

def CompletionExact : Prop :=
  ∀ req, completionRequestParse casts root = .ok req → Exact double root false req.params

/-- The members of a chat request are accepted, one by one. -/
structure ChatAccepted (root : Value) : Prop where
  obj : isObj (some root) = true
  model : (jsonStrDup (objGet (some root) (ascii "model"))).isSome
  messages : ∃ messages, parseMessages (objGet (some root) (ascii "messages")) = .ok messages
  /-- Only an integer whose low 32 bits are zero is let through. -/
  topLogprobs : ∀ i, getInt (objGet (some root) (ascii "top_logprobs")) = some i → toInt i = 0
  stop : ∃ stop, parseStop (objGet (some root) (ascii "stop")) = .ok stop
  tools : ∃ tools, parseTools (objGet (some root) (ascii "tools")) = .ok tools
  toolChoice : ∃ choice, parseToolChoice (objGet (some root) (ascii "tool_choice")) = .ok choice

structure CompletionAccepted (root : Value) : Prop where
  obj : isObj (some root) = true
  model : (jsonStrDup (objGet (some root) (ascii "model"))).isSome
  prompt : ∃ prompt, parsePrompt (objGet (some root) (ascii "prompt")) = .ok prompt
  logprobs : checkLogprobs (objGet (some root) (ascii "logprobs")) = .ok ()
  stop : ∃ stop, parseStop (objGet (some root) (ascii "stop")) = .ok stop

theorem parseTopLogprobs_ok (v : Option Value) (n : Int) :
    parseTopLogprobs v = .ok n ↔ n = 0 ∧ ∀ i, getInt v = some i → toInt i = 0 := by
  unfold parseTopLogprobs
  cases getInt v with
  | none => simp [eq_comm]
  | some i =>
    simp only [Option.some.injEq, forall_eq']
    split
    · simp; omega
    · split
      · simp; omega
      · simp only [Except.ok.injEq]
        omega

/-- An accepted chat request has the limit, the seed and the `top_logprobs` that were read. -/
theorem chatParse_ok {req : ChatCompletionRequest F}
    (h : chatCompletionRequestParse casts root = .ok req) :
    ChatAccepted root ∧ req.params.maxTokens = chatMaxTokens root ∧
      req.params.sampling.seed =
        ((getInt (objGet (some root) (ascii "seed"))).map toInt).getD (-1) ∧
      req.params.topLogprobs = 0 := by
  unfold chatCompletionRequestParse at h
  split at h
  · rename_i hobj
    split at h
    · contradiction
    · rename_i model hmodel
      obtain ⟨messages, hmessages, h⟩ := except_bind_ok h
      obtain ⟨topLogprobs, htop, h⟩ := except_bind_ok h
      obtain ⟨stop, hstop, h⟩ := except_bind_ok h
      obtain ⟨tools, htools, h⟩ := except_bind_ok h
      obtain ⟨choice, hchoice, h⟩ := except_bind_ok h
      obtain ⟨hzero, htop⟩ := (parseTopLogprobs_ok _ _).mp htop
      rw [← Except.ok.inj h]
      exact ⟨⟨hobj, by rw [hmodel]; rfl, ⟨messages, hmessages⟩, htop, ⟨stop, hstop⟩,
        ⟨tools, htools⟩, ⟨choice, hchoice⟩⟩, rfl, rfl, hzero⟩
  · contradiction

/-- Acceptable members make an accepted request. -/
theorem chatParse_of_accepted (h : ChatAccepted root) :
    ∃ req, chatCompletionRequestParse casts root = .ok req := by
  obtain ⟨model, hmodel⟩ := Option.isSome_iff_exists.mp h.model
  obtain ⟨messages, hmessages⟩ := h.messages
  obtain ⟨stop, hstop⟩ := h.stop
  obtain ⟨tools, htools⟩ := h.tools
  obtain ⟨choice, hchoice⟩ := h.toolChoice
  have htop := (parseTopLogprobs_ok (objGet (some root) (ascii "top_logprobs")) 0).mpr
    ⟨rfl, h.topLogprobs⟩
  rw [chatCompletionRequestParse, if_pos h.obj, hmodel, hmessages, htop, hstop, htools, hchoice]
  exact ⟨_, rfl⟩

theorem completionParse_ok {req : CompletionRequest F}
    (h : completionRequestParse casts root = .ok req) :
    CompletionAccepted root ∧ req.params.maxTokens =
        ((getInt (objGet (some root) (ascii "max_tokens"))).map toInt).getD 0 ∧
      req.params.sampling.seed =
        ((getInt (objGet (some root) (ascii "seed"))).map toInt).getD (-1) ∧
      req.params.topLogprobs = 0 := by
  unfold completionRequestParse at h
  split at h
  · rename_i hobj
    split at h
    · contradiction
    · rename_i model hmodel
      obtain ⟨prompt, hprompt, h⟩ := except_bind_ok h
      obtain ⟨⟨⟩, hlogprobs, h⟩ := except_bind_ok h
      obtain ⟨stop, hstop, h⟩ := except_bind_ok h
      rw [← Except.ok.inj h]
      exact ⟨⟨hobj, by rw [hmodel]; rfl, ⟨prompt, hprompt⟩, hlogprobs, ⟨stop, hstop⟩⟩, rfl, rfl, rfl⟩
  · contradiction

theorem completionParse_of_accepted (h : CompletionAccepted root) :
    ∃ req, completionRequestParse casts root = .ok req := by
  obtain ⟨model, hmodel⟩ := Option.isSome_iff_exists.mp h.model
  obtain ⟨prompt, hprompt⟩ := h.prompt
  obtain ⟨stop, hstop⟩ := h.stop
  rw [completionRequestParse, if_pos h.obj, hmodel, hprompt, h.logprobs, hstop]
  exact ⟨_, rfl⟩

variable {casts double root}

/-- A limit stored as it is carried is handed on when it is positive. -/
theorem effective_of_stored {chat : Bool} {stored n : Int} (h : stored = n) (hpos : 0 < n) :
    effectiveMaxTokens chat stored ≤ n := by
  rw [h, effectiveMaxTokens, if_neg (by omega)]

theorem chatExact_iff : ChatExact casts double root ↔ ¬ ChatAccepted root ∨
    (∀ n, Carries double root (ascii "max_completion_tokens") n → Fits n) ∧
    (∀ n, Carries double root (ascii "max_tokens") n → Fits n) ∧
    (∀ m n, Carries double root (ascii "max_completion_tokens") m →
      Carries double root (ascii "max_tokens") n → m = n) ∧
    (∀ n, Carries double root (ascii "seed") n → Fits n) ∧
    ∀ n, Carries double root (ascii "top_logprobs") n → n = 0 := by
  constructor
  · intro h
    by_cases hacc : ChatAccepted root
    · obtain ⟨req, hreq⟩ := chatParse_of_accepted casts root hacc
      obtain ⟨hold, hnew, hseed, htop, -⟩ := h req hreq
      obtain ⟨-, hmax, hsampling, hzero⟩ := chatParse_ok casts root hreq
      refine .inr ⟨fun n hn => ?_, fun n hn => ?_, fun m n hm hn => ?_, fun n hn => ?_,
        fun n hn => ?_⟩
      · exact (chatMaxTokens_newer hn).mp (hmax ▸ hnew n hn)
      · rw [← hold n hn, hmax]
        exact chatMaxTokens_fits root
      · rw [← hnew m hm, hold n hn]
      · exact (hn.stored_iff (-1) (by decide)).mp (hsampling ▸ hseed n hn)
      · rw [← htop n hn, hzero]
    · exact .inl hacc
  · intro h req hreq
    obtain ⟨hacc, hmax, hsampling, hzero⟩ := chatParse_ok casts root hreq
    obtain ⟨hnew, hold, hsame, hseed, htop⟩ := h.resolve_left (not_not_intro hacc)
    have hnewer : ∀ n, Carries double root (ascii "max_completion_tokens") n →
        req.params.maxTokens = n := by
      intro n hn
      rw [hmax]
      exact (chatMaxTokens_newer hn).mpr (hnew n hn)
    have holder : ∀ n, Carries double root (ascii "max_tokens") n → req.params.maxTokens = n := by
      intro n hn
      by_cases hboth : ∃ m, Carries double root (ascii "max_completion_tokens") m
      · obtain ⟨m, hm⟩ := hboth
        rw [hnewer m hm, hsame m n hm hn]
      · rw [hmax]
        exact (chatMaxTokens_older hboth hn).mpr (hold n hn)
    refine ⟨holder, hnewer, fun n hn => ?_, fun n hn => ?_, fun n hn => ?_⟩
    · rw [hsampling]
      exact (hn.stored_iff (-1) (by decide)).mpr (hseed n hn)
    · rw [hzero, htop n hn]
    · exact effective_of_stored (hn.elim (holder n) (hnewer n))

theorem completionExact_iff : CompletionExact casts double root ↔ ¬ CompletionAccepted root ∨
    (∀ n, Carries double root (ascii "max_tokens") n → Fits n) ∧
    (∀ n, Carries double root (ascii "max_completion_tokens") n →
      Carries double root (ascii "max_tokens") n ∨
        n = 0 ∧ ¬ ∃ m, Carries double root (ascii "max_tokens") m) ∧
    (∀ n, Carries double root (ascii "seed") n → Fits n) ∧
    ∀ n, Carries double root (ascii "top_logprobs") n → n = 0 := by
  have hstored : ∀ n, (getInt (objGet (some root) (ascii "max_tokens"))).map toInt = some n →
      ∃ m, Carries double root (ascii "max_tokens") m := by
    intro n hn
    obtain ⟨i, hi, -⟩ := Option.map_eq_some_iff.mp hn
    exact ⟨i, carries_of_getInt hi⟩
  constructor
  · intro h
    by_cases hacc : CompletionAccepted root
    · obtain ⟨req, hreq⟩ := completionParse_of_accepted casts root hacc
      obtain ⟨hold, hnew, hseed, htop, -⟩ := h req hreq
      obtain ⟨-, hmax, hsampling, hzero⟩ := completionParse_ok casts root hreq
      refine .inr ⟨fun n hn => ?_, fun n hn => ?_, fun n hn => ?_, fun n hn => ?_⟩
      · exact (hn.stored_iff 0 (by decide)).mp (hmax ▸ hold n hn)
      · by_cases hthere : ∃ m, Carries double root (ascii "max_tokens") m
        · obtain ⟨m, hm⟩ := hthere
          rw [← hnew n hn, hold m hm]
          exact .inl hm
        · refine .inr ⟨?_, hthere⟩
          rw [← hnew n hn, hmax]
          cases hread : (getInt (objGet (some root) (ascii "max_tokens"))).map toInt with
          | none => rfl
          | some i => exact absurd (hstored i hread) hthere
      · exact (hn.stored_iff (-1) (by decide)).mp (hsampling ▸ hseed n hn)
      · rw [← htop n hn, hzero]
    · exact .inl hacc
  · intro h req hreq
    obtain ⟨hacc, hmax, hsampling, hzero⟩ := completionParse_ok casts root hreq
    obtain ⟨hold, hnew, hseed, htop⟩ := h.resolve_left (not_not_intro hacc)
    have holder : ∀ n, Carries double root (ascii "max_tokens") n → req.params.maxTokens = n := by
      intro n hn
      rw [hmax]
      exact (hn.stored_iff 0 (by decide)).mpr (hold n hn)
    have hnewer : ∀ n, Carries double root (ascii "max_completion_tokens") n →
        req.params.maxTokens = n := by
      intro n hn
      rcases hnew n hn with hsame | ⟨rfl, hnone⟩
      · exact holder n hsame
      · rw [hmax]
        cases hread : (getInt (objGet (some root) (ascii "max_tokens"))).map toInt with
        | none => rfl
        | some i => exact absurd (hstored i hread) hnone
    refine ⟨holder, hnewer, fun n hn => ?_, fun n hn => ?_, fun n hn => ?_⟩
    · rw [hsampling]
      exact (hn.stored_iff (-1) (by decide)).mpr (hseed n hn)
    · rw [hzero, htop n hn]
    · exact effective_of_stored (hn.elim (holder n) (hnewer n))

variable (casts double root)

/-- A request is exact exactly when it is refused or its integers fit an `int`, its two limits say
the same (a completion has `max_tokens` only), and the only `top_logprobs` in it is zero. -/
theorem requests_exact_iff :
    (ChatExact casts double root ↔ ¬ ChatAccepted root ∨
      (∀ n, Carries double root (ascii "max_completion_tokens") n → Fits n) ∧
      (∀ n, Carries double root (ascii "max_tokens") n → Fits n) ∧
      (∀ m n, Carries double root (ascii "max_completion_tokens") m →
        Carries double root (ascii "max_tokens") n → m = n) ∧
      (∀ n, Carries double root (ascii "seed") n → Fits n) ∧
      ∀ n, Carries double root (ascii "top_logprobs") n → n = 0) ∧
    (CompletionExact casts double root ↔ ¬ CompletionAccepted root ∨
      (∀ n, Carries double root (ascii "max_tokens") n → Fits n) ∧
      (∀ n, Carries double root (ascii "max_completion_tokens") n →
        Carries double root (ascii "max_tokens") n ∨
          n = 0 ∧ ¬ ∃ m, Carries double root (ascii "max_tokens") m) ∧
      (∀ n, Carries double root (ascii "seed") n → Fits n) ∧
      ∀ n, Carries double root (ascii "top_logprobs") n → n = 0) :=
  ⟨chatExact_iff, completionExact_iff⟩

end Exact

/-- A chat body without messages that asks for `2 ^ 32 + 1` tokens. -/
def wideLimit : Value := .obj [(ascii "model", .str (ascii "m")), (ascii "messages", .arr []),
  (ascii "max_tokens", .int 4294967297)]

/-- The request is accepted with a limit of one token. -/
theorem wide_limit_narrowed : ¬ ∀ (casts : Casts Unit) (double : Int → Nat) (root : Value),
    ChatExact casts double root ∧ CompletionExact casts double root := by
  intro h
  have hexact := (h ⟨(), (), fun _ => (), fun _ => none⟩ (fun _ => 0) wideLimit).1
  have hlimit : Carries (fun _ => 0) wideLimit (ascii "max_tokens") 4294967297 := .inl rfl
  exact absurd ((hexact _ rfl).maxTokens _ hlimit) (by decide)

end Mlxd.Openai
