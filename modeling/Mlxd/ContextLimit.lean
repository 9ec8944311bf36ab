import Mlxd.GenerateRefine

/-!
# The positions a request feeds

The context limit is checked once, against the prompt. Behind that check a request feeds its
prompt and one position for every token but the last one it may emit, whatever MLX and the
consumer answer.
-/
namespace Mlxd.Engine

open Mlxd.Lib Program

variable {M : Mlx} (size : M.Ids → Nat)

/-- How many positions are in the cache. -/
inductive Feed where
  | fed (n : Nat)
  /-- MLX has reshaped a token to something other than one position. -/
  | excused
  deriving DecidableEq, Repr

/-- A forward adds the positions of its ids, up to the limit. -/
def feed (limit : Nat) (ids : M.Ids) : Feed → Option Feed
  | .fed n => if n + size ids ≤ limit then some (.fed (n + size ids)) else none
  | .excused => some .excused

def feedMove (limit : Nat) (ph : Feed) : (op : GenOp M) → GenAns op → Option Feed
  | .modelPrefill ids, _ => feed size limit ids ph
  | .modelForward ids, _ => feed size limit ids ph
  | .reshapeTokenIds _, some ids => some (if size ids = 1 then ph else .excused)
  | _, _ => some ph

/-- At most that many positions have been fed. -/
def Within (bound : Nat) (ph : Feed) : Prop := ph = .excused ∨ ∃ n ≤ bound, ph = .fed n

/-- The calls that neither feed positions nor make ids. -/
def Still : GenOp M → Prop
  | .modelPrefill _ | .modelForward _ | .reshapeTokenIds _ => False
  | _ => True

section Feeds

variable {size} {limit bound : Nat} {ph : Feed}

theorem Within.mono {bound' : Nat} (h : Within bound ph) (hle : bound ≤ bound') :
    Within bound' ph := by
  rcases h with h | ⟨n, hn, h⟩
  · exact .inl h
  · exact .inr ⟨n, hn.trans hle, h⟩

theorem feed_within {ids : M.Ids} {len : Nat} (h : Within bound ph) (hsize : size ids ≤ len)
    (hle : bound + len ≤ limit) :
    ∃ ph', feed size limit ids ph = some ph' ∧ Within (bound + len) ph' := by
  rcases h with rfl | ⟨n, hn, rfl⟩
  · exact ⟨.excused, rfl, .inl rfl⟩
  · exact ⟨.fed (n + size ids), if_pos (by omega), .inr ⟨_, by omega, rfl⟩⟩

/-- A program of still calls. -/
theorem still_obeys {α : Type} {p : Gen M α} (h : Uses Still p) :
    Obeys (feedMove size limit) p ph fun _ ph' => ph' = ph := by
  refine obeys_uses h fun op hop r => ?_
  cases op with
  | modelPrefill ids => exact absurd hop not_false
  | modelForward ids => exact absurd hop not_false
  | reshapeTokenIds token => exact absurd hop not_false
  | _ => rfl

/-- A still program, and then the rest. -/
theorem still_bind {α β : Type} {p : Gen M α} {f : α → Gen M β} {post : β → Feed → Prop}
    (h : Uses Still p) (hf : ∀ a, Obeys (feedMove size limit) (f a) ph post) :
    Obeys (feedMove size limit) (p >>= f) ph post := by
  refine obeys_bind (still_obeys h) fun a ph' hph => ?_
  subst hph
  exact hf a

end Feeds

/-! ## Still programs -/

theorem streamPush_still (c : Chunk M.Real) : Uses Still (streamPushP c) := by
  refine uses_bind (uses_perform trivial) fun ok => ?_
  cases ok with
  | true => exact uses_bind (uses_perform trivial) fun _ => trivial
  | false => trivial

theorem finishCancelled_still : Uses Still (streamFinishCancelledP (M := M)) :=
  uses_bind (uses_perform trivial) fun _ => uses_perform trivial

theorem finishWith_still (reason : FinishReason) : Uses Still (finishWith (M := M) reason) := by
  refine uses_bind (streamPush_still _) fun ok => ?_
  cases ok with
  | true => trivial
  | false => exact finishCancelled_still

theorem generateFail_still (message : String) (kind : GenErrKind) :
    Uses Still (generateFail (M := M) message kind) := by
  refine uses_bind (streamPush_still _) fun pushed => uses_bind ?_ fun ok => ?_
  · cases pushed with
    | true => exact streamPush_still _
    | false => trivial
  · cases ok with
    | true => trivial
    | false =>
      refine uses_bind (uses_perform trivial) fun shutdown => ?_
      cases shutdown with
      | true => exact finishCancelled_still
      | false => trivial

theorem pollStop_still : Uses Still (pollStop (M := M)) := by
  refine uses_bind (uses_perform trivial) fun shutdown => ?_
  cases shutdown with
  | true => trivial
  | false => exact uses_perform trivial

theorem pollHookPoll_still {hook : Gen M Unit} (h : Uses Still hook) :
    Uses Still (pollHookPoll hook) := by
  refine uses_bind pollStop_still fun stop => ?_
  cases stop with
  | true => trivial
  | false => exact uses_bind h fun _ => pollStop_still

theorem sampleCurrent_still (sp : SamplingParams M.Real) (wantLp : Bool) (pending : M.Logits) :
    Uses Still (sampleCurrent sp wantLp pending) := by
  refine uses_bind (uses_perform trivial) fun subkey => ?_
  cases subkey with
  | none => trivial
  | some subkey =>
    refine uses_bind (uses_perform trivial) fun sampled => ?_
    cases sampled <;> trivial

theorem materialize_still (wantLp : Bool) (token : M.Token) (lp : M.Logprob) :
    Uses Still (materialize wantLp token lp) := by
  refine uses_bind (uses_perform trivial) fun id => ?_
  cases id with
  | none => trivial
  | some id =>
    cases wantLp with
    | false => trivial
    | true =>
      refine uses_bind (uses_perform trivial) fun value => ?_
      cases value <;> trivial

/-! ## The loops -/

section Loops

variable {size} {limit : Nat}

/-- What a run of the program feeds stays within the bound. -/
abbrev Feeds {α : Type} (size : M.Ids → Nat) (limit bound : Nat) (p : Gen M α) : Prop :=
  ∀ ph, Within bound ph → Obeys (feedMove size limit) p ph fun _ _ => True

theorem still_feeds {α : Type} {p : Gen M α} (h : Uses Still p) (bound : Nat) :
    Feeds size limit bound p := fun _ _ => obeys_mono (still_obeys h) fun _ _ _ => trivial

/-- A loop that has ended well has fed no more than its stop. -/
theorem prefillLoop_within (hsize : ∀ l, size (M.makeIdsArray l) = l.length) {chunk : Nat}
    {ids : List Int} {stop fuel pos : Nat} {ph : Feed} (hpos : pos ≤ stop) (hstop : stop ≤ limit)
    (h : Within pos ph) : Obeys (feedMove size limit) (prefillLoop (M := M) chunk ids stop fuel pos)
      ph fun goOn ph => goOn = true → Within stop ph := by
  induction fuel generalizing pos ph with
  | zero => exact fun _ => h.mono hpos
  | succ fuel ih =>
    rw [prefillLoop]
    split
    · rename_i hlt
      dsimp only
      generalize hend : (if stop < pos + chunk then stop else pos + chunk) = chunkEnd
      have hle : chunkEnd ≤ stop ∧ pos ≤ chunkEnd := by
        rw [← hend]
        split <;> omega
      refine still_bind (pollHookPoll_still (uses_perform trivial)) fun stopped => ?_
      cases stopped with
      | true => exact still_bind finishCancelled_still fun _ h => by contradiction
      | false =>
        have hfeed : ∀ fed : Bool, ∃ ph', feedMove size limit ph (.modelPrefill
            (M.makeIdsArray ((ids.drop pos).take (chunkEnd - pos)))) fed = some ph' ∧
              Within chunkEnd ph' := by
          intro fed
          obtain ⟨ph', hmove, hwithin⟩ := @feed_within M size limit _ _
            (M.makeIdsArray ((ids.drop pos).take (chunkEnd - pos))) (chunkEnd - pos) h
            (by rw [hsize, List.length_take]; omega) (by omega)
          exact ⟨ph', hmove, by rwa [Nat.add_sub_cancel' hle.2] at hwithin⟩
        refine obeys_bind (obeys_perform hfeed) fun fed ph' hph => ?_
        cases fed with
        | true => exact still_bind (uses_perform trivial) fun _ => ih hle.1 hph
        | false => exact still_bind (generateFail_still _ _) fun _ h => by contradiction
    · exact fun _ => h.mono hpos

theorem seedLogits_within (hsize : ∀ l, size (M.makeIdsArray l) = l.length) {ids : List Int}
    {bound : Nat} {ph : Feed} (hle : bound + 1 ≤ limit) (h : Within bound ph) :
    Obeys (feedMove size limit) (seedLogits (M := M) ids) ph fun seed ph =>
      seed.isSome → Within (bound + 1) ph := by
  refine still_bind (pollHookPoll_still (uses_perform trivial)) fun stopped => ?_
  cases stopped with
  | true => exact still_bind finishCancelled_still fun _ h => by contradiction
  | false =>
    refine obeys_bind (obeys_perform fun seed => feed_within h ?_ hle) fun seed ph' hph => ?_
    · rw [hsize]
      exact List.length_take_le _ _
    · cases seed with
      | none => exact still_bind (generateFail_still _ _) fun _ h => by contradiction
      | some logits => exact fun _ => hph

/-- One more position goes in when more tokens are wanted. -/
theorem launchNext_within {wantLp more : Bool} {token : M.Token} {lp : M.Logprob} {bound : Nat}
    {ph : Feed} (hle : more = true → bound + 1 ≤ limit) (h : Within bound ph) :
    Obeys (feedMove size limit) (launchNext wantLp more token lp) ph
      fun _ ph => Within (bound + 1) ph := by
  cases more with
  | false =>
    refine still_bind (uses_perform trivial) fun launched => ?_
    cases launched <;> exact h.mono (Nat.le_succ _)
  | true =>
    have hreshape : ∀ ids : Option M.Ids, ∃ ph',
        feedMove size limit ph (.reshapeTokenIds token) ids = some ph' ∧
          Within bound ph' ∧ ∀ made, ids = some made → ph' = .excused ∨ size made = 1 := by
      intro ids
      cases ids with
      | none => exact ⟨ph, rfl, h, fun _ h => by contradiction⟩
      | some made =>
        by_cases hone : size made = 1
        · exact ⟨ph, congrArg some (if_pos hone), h, fun _ h => .inr (Option.some.inj h ▸ hone)⟩
        · exact ⟨.excused, congrArg some (if_neg hone), .inl rfl, fun _ _ => .inl rfl⟩
    refine obeys_bind (obeys_perform hreshape) fun ids ph' hph => ?_
    obtain ⟨hwithin, hmade⟩ := hph
    cases ids with
    | none => exact hwithin.mono (Nat.le_succ _)
    | some made =>
      have hfeed : ∀ next : Option M.Logits, ∃ ph'',
          feedMove size limit ph' (.modelForward made) next = some ph'' ∧
            Within (bound + 1) ph'' := by
        intro next
        rcases hmade made rfl with rfl | hone
        · exact ⟨.excused, rfl, .inl rfl⟩
        · exact feed_within hwithin hone.le (hle rfl)
      refine obeys_bind (obeys_perform hfeed) fun next ph'' hph => ?_
      cases next with
      | none => exact hph
      | some next =>
        refine still_bind (uses_perform trivial) fun launched => ?_
        cases launched <;> exact hph

theorem decodeToken_within {sp : SamplingParams M.Real} {wantLp more : Bool} {pending : M.Logits}
    {bound : Nat} {ph : Feed} (hle : more = true → bound + 1 ≤ limit) (h : Within bound ph) :
    Obeys (feedMove size limit) (decodeToken sp wantLp more pending) ph
      fun _ ph => Within (bound + 1) ph := by
  refine still_bind (sampleCurrent_still sp wantLp pending) fun sampled => ?_
  cases sampled with
  | error message => exact h.mono (Nat.le_succ _)
  | ok sampled =>
    refine obeys_bind (launchNext_within hle h) fun next ph' hph => ?_
    cases next with
    | error message => exact hph
    | ok next =>
      refine still_bind (materialize_still wantLp _ _) fun token => ?_
      cases token <;> exact hph

theorem emitToken_feeds {cfg : ModelConfig M.Real} {maxNew : Int} {emitted bound : Nat} {id : Int}
    {value : M.Real} {next : Option M.Logits} {goOn : M.Logits → Gen M Unit}
    (hgoOn : (emitted + 1 : Int) ≠ maxNew → ∀ logits, Feeds size limit bound (goOn logits)) :
    Feeds size limit bound (emitToken cfg maxNew emitted id value next goOn) := by
  intro ph h
  rw [emitToken.eq_def]
  split
  · exact still_feeds (finishWith_still _) bound ph h
  · refine still_bind (streamPush_still _) fun ok => ?_
    cases ok with
    | false => exact still_feeds finishCancelled_still bound ph h
    | true =>
      rw [if_pos rfl]
      split
      · exact still_feeds (finishWith_still _) bound ph h
      · rename_i hne
        cases next with
        | none => trivial
        | some next =>
          have hclear : Uses Still
              (if (emitted + 1) % 256 = 0 then call .clearCache else pure () : Gen M Unit) := by
            split
            · exact uses_perform trivial
            · trivial
          exact still_bind hclear fun _ => hgoOn hne next ph h

/-- Before the token number `emitted` the prompt and the tokens before it are in the cache. -/
theorem decodeLoop_feeds (cfg : ModelConfig M.Real) (sp : SamplingParams M.Real) (wantLp : Bool)
    {maxNew : Int} {fuel emitted prompt : Nat} (pending : M.Logits)
    (hlimit : prompt + maxNew.toNat ≤ limit + 1) : Feeds size limit (prompt + emitted)
      (decodeLoop cfg sp wantLp maxNew fuel emitted pending) := by
  induction fuel generalizing emitted pending with
  | zero => exact fun _ _ => trivial
  | succ fuel ih =>
    intro ph h
    rw [decodeLoop]
    split
    · refine still_bind (pollHookPoll_still (uses_perform trivial)) fun stopped => ?_
      cases stopped with
      | true => exact still_feeds finishCancelled_still _ ph h
      | false =>
        have hmore : decide ((emitted + 1 : Int) < maxNew) = true → prompt + emitted + 1 ≤ limit := by
          intro hlt
          have := of_decide_eq_true hlt
          omega
        refine obeys_bind (decodeToken_within hmore h) fun token ph' hph => ?_
        cases token with
        | error message => exact still_feeds (generateFail_still _ _) _ ph' hph
        | ok token => exact emitToken_feeds (fun _ logits => ih logits) ph' hph
    · trivial

end Loops

/-- Over every run of a request the cache holds no more positions than the prompt has tokens,
and one for every token but the last one the request may emit. -/
theorem context_bounded (hsize : ∀ l, size (M.makeIdsArray l) = l.length) (chunk : Nat)
    (cfg : ModelConfig M.Real) (cmd : GenerateCmd M.Real) (limit : Nat)
    (hlimit : cmd.tokenIds.length + cmd.params.maxTokens.toNat ≤ limit + 1) :
    Obeys (feedMove size limit) (handleGenerateReal chunk cfg cmd) (.fed 0) fun _ _ => True := by
  have hnone : Within 0 (.fed 0) := .inr ⟨0, Nat.le_refl 0, rfl⟩
  have hbody : Obeys (feedMove size limit) (generateBody chunk cfg cmd) (.fed 0)
      fun _ _ => True := by
    refine still_bind (uses_perform trivial) fun keyed => ?_
    split
    · exact still_feeds (generateFail_still _ _) 0 _ hnone
    · split
      · exact still_feeds (generateFail_still _ _) 0 _ hnone
      · split
        · exact still_feeds (finishWith_still _) 0 _ hnone
        · rename_i hrun
          refine still_bind (uses_perform trivial) fun cached => ?_
          split
          · exact still_feeds (generateFail_still _ _) 0 _ hnone
          · refine obeys_bind (prefillLoop_within hsize (Nat.zero_le _) (by omega) hnone)
              fun goOn ph hph => ?_
            cases goOn with
            | false => trivial
            | true =>
              refine obeys_bind (seedLogits_within hsize (by omega) (hph rfl)) fun seed ph hph => ?_
              cases seed with
              | none => trivial
              | some pending =>
                refine @decodeLoop_feeds M size limit cfg _ _ _ _ _ cmd.tokenIds.length pending hlimit
                  ph ?_
                exact (hph rfl).mono (by omega)
  exact obeys_bind hbody fun _ ph _ => obeys_mono (still_obeys (uses_perform trivial))
    fun _ _ _ => trivial

/-- A prompt that fills a context of one position, and no limit on the tokens asked for. -/
def narrowConfig : ModelConfig Nat := ⟨none, none, none, 1, 2, [7]⟩

def openEndedCmd : GenerateCmd Nat := ⟨⟨⟨1, 1, -1, 0, -1⟩, 0, 2147483647, false⟩, [5]⟩

/-- Every call succeeds, nothing stops the request, and no token is EOS. -/
def willing : (op : GenOp countWorld.mlx) → GenAns op
  | .loadShutdown _ => false
  | .loadCancelled => false
  | .push _ => true
  | .finishCancelled => ()
  | .notify => ()
  | .samplerKeyInit _ => true
  | .kvcacheInit _ => true
  | .onPrefillChunk _ _ => ()
  | .onBeforeSeed => ()
  | .onDecodeStep _ => ()
  | .modelPrefill _ => true
  | .modelForward ids => some ids
  | .samplerKeyNext => some 0
  | .samplerSampleLazy _ _ _ _ => some (3, 0)
  | .reshapeTokenIds token => some [token]
  | .asyncEval _ _ _ => true
  | .itemInt32 token => some token
  | .itemFloat32 lp => some lp
  | .clearCache => ()

/-- The first token's forward is the second position in a context of one. -/
theorem context_exceeded : ¬ ∀ (M : Mlx) (size : M.Ids → Nat),
    (∀ l, size (M.makeIdsArray l) = l.length) → ∀ (chunk : Nat) (cfg : ModelConfig M.Real)
      (cmd : GenerateCmd M.Real), 0 < cfg.maxPositionEmbeddings →
        (cmd.tokenIds.length : Int) ≤ cfg.maxPositionEmbeddings →
          Obeys (feedMove size cfg.maxPositionEmbeddings.toNat) (handleGenerateReal chunk cfg cmd)
            (.fed 0) fun _ _ => True := by
  intro h
  have hobeys := h countWorld.mlx List.length (fun _ => rfl) 512 narrowConfig openEndedCmd
    (by decide) (by decide)
  have htrack : (track (feedMove List.length 1) willing
      (handleGenerateReal (M := countWorld.mlx) 512 narrowConfig openEndedCmd) (.fed 0)).isSome :=
    obeys_track hobeys
  exact absurd htrack (by decide +kernel)

/-- Three prompt tokens and three new ones feed at most five positions. -/
theorem context_bounded_count : Obeys (feedMove (M := countWorld.mlx) List.length 5)
    (handleGenerateReal (M := countWorld.mlx) 2 countConfig countCmd) (.fed 0) fun _ _ => True :=
  context_bounded (M := countWorld.mlx) List.length (fun _ => rfl) 2 countConfig countCmd 5
    (show 3 + 3 ≤ 5 + 1 by decide)

end Mlxd.Engine
