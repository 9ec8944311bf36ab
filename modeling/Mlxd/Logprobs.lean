import Mlxd.GenAgree

/-!
# Log-probabilities of a whole response

A whole chat response keeps one entry for each piece of text that the detokenizer releases, with the
log-probability of the token that released it. A token that ends inside a character releases
nothing, so it has no entry, and its bytes are found in the entry of a later token. The entries
account for the tokens exactly when every token ends a character and the response can be written.
-/
namespace Mlxd.Http

open Mlxd.Unicode Mlxd.Json Mlxd.Engine Mlxd.TokLoad Mlxd.Detok
open Mlxd.Utf8Codec Mlxd.DetokStream

/-! ## What is promised -/

/-- An entry read back from the document. -/
def entryOf (entry : Value) : Option TokenLogprob :=
  match objGet (some entry) (ascii "token"), objGet (some entry) (ascii "logprob") with
  | some (.str token), some (.real logprob) => some ⟨token, logprob⟩
  | _, _ => none

/-- The entries of a response; none when it has no array of them. -/
def logprobsOf (doc : Value) : Option (List TokenLogprob) :=
  match objGet (objGet (firstChoice doc) (ascii "logprobs")) (ascii "content") with
  | some (.arr entries) => entries.mapM entryOf
  | _ => none

/-- A response with status 200 is written whose entries are the tokens in order, each with its
log-probability, and join to the content. -/
def Accounted (tokens : List (Int × Nat)) (written : List (Wire × Bool)) : Prop :=
  ∃ doc content entries, written = [(.response 200 doc, true)] ∧
    contentOf true "message" doc = some content ∧ logprobsOf doc = some entries ∧
    (entries.map fun entry => entry.logprob) = (tokens.map fun t => t.2) ∧
    (entries.flatMap fun entry => entry.token) = content

def EachEndsCharacter (tok : Tokenizer) (tokens : List (Int × Nat)) : Prop :=
  ∀ before t, before ++ [t] <+: tokens → EndsCharacter (textOf tok before) (tokenText tok t.1)

/-! ## Documents -/

theorem logprobsOf_chatResponse (h : Header) (content : Bytes) (reason : FinishReason) (u : Usage)
    (entries : List TokenLogprob) : logprobsOf (genBuildChatResponse h content reason u entries) =
      if entries = [] then none else some entries := by
  have hread : ∀ entries : List TokenLogprob,
      (entries.map addLogprobEntry).mapM entryOf = some entries := by
    intro entries
    induction entries with
    | nil => rfl
    | cons entry rest ih =>
      have hentry : entryOf (addLogprobEntry entry) = some entry := rfl
      rw [List.map_cons, List.mapM_cons, hentry, ih]
      rfl
  cases entries with
  | nil => rfl
  | cons entry rest =>
    rw [if_neg (List.cons_ne_nil _ _), ← hread (entry :: rest)]
    rfl

theorem Accounted.answered {tokens : List (Int × Nat)} {written : List (Wire × Bool)}
    (h : Accounted tokens written) : ∃ content, Answered true written content := by
  obtain ⟨doc, content, entries, hwritten, hcontent, -⟩ := h
  exact ⟨content, doc, hwritten, hcontent⟩

/-! ## Released text -/

theorem eachEndsCharacter_nil (tok : Tokenizer) : EachEndsCharacter tok [] := by
  intro before t hinit
  simp at hinit

theorem eachEndsCharacter_snoc (tok : Tokenizer) (tokens : List (Int × Nat)) (t : Int × Nat) :
    EachEndsCharacter tok (tokens ++ [t]) ↔
      EachEndsCharacter tok tokens ∧ EndsCharacter (textOf tok tokens) (tokenText tok t.1) :=
  forall_prefix_snoc tokens t

/-- When every token ends a character, all log-probabilities have to be finite. -/
theorem finiteLogprobs_iff {tok : Tokenizer} {tokens : List (Int × Nat)}
    (heach : EachEndsCharacter tok tokens) :
    FiniteLogprobs tok tokens ↔ ∀ t ∈ tokens, isFinite t.2 = true := by
  constructor
  · intro h t ht
    obtain ⟨before, after, rfl⟩ := List.append_of_mem ht
    have hinit : before ++ [t] <+: before ++ t :: after := ⟨after, by simp⟩
    exact h before t hinit (heach before t hinit)
  · intro h before t hinit _
    exact h t (hinit.subset (by simp))

/-- Nothing is withheld at the end of a UTF-8 text. -/
theorem withheld_nil {withheld : Bytes} (hidle : utf8CompletePrefix withheld = 0)
    (h : WellFormed withheld) : withheld = [] := by
  by_contra hne
  have hlen := List.length_pos_iff.mpr hne
  have hcut := (@utf8CompletePrefix_pos_iff withheld [] (by rwa [List.append_nil])).mpr
    ⟨withheld.length - 1, by omega, by rwa [Nat.sub_add_cancel hlen, List.take_length]⟩
  omega

/-! ## The entries -/

section Entries

variable {tok : Tokenizer} {env : Env} {p : StartParams} {m : Loop} {ids : List (Int × Nat)}

/-- The entries join to the accumulated text, and in a UTF-8 stream there is one for each token
exactly when every token has ended a character. -/
structure Accounts (tok : Tokenizer) (ids : List (Int × Nat)) (gr : GenRequest) : Prop where
  asked : gr.logprobs = true
  joined : (gr.lpEntries.flatMap fun entry => entry.token) = gr.accum
  few : gr.lpEntries.length ≤ ids.length
  every : ∀ more, WellFormed (textOf tok ids ++ more) → EachEndsCharacter tok ids →
    (gr.lpEntries.map fun entry => entry.logprob) = ids.map fun t => t.2
  short : ∀ more, WellFormed (textOf tok ids ++ more) → ¬ EachEndsCharacter tok ids →
    gr.lpEntries.length < ids.length

/-- The entries of a UTF-8 stream are the tokens exactly when every token has ended a character. -/
theorem Accounts.order_iff {gr : GenRequest} (h : Accounts tok ids gr) {more : Bytes}
    (hmore : WellFormed (textOf tok ids ++ more)) :
    (gr.lpEntries.map fun entry => entry.logprob) = (ids.map fun t => t.2) ↔
      EachEndsCharacter tok ids := by
  constructor
  · intro horder
    by_contra hnot
    have hshort := h.short more hmore hnot
    have hlen := congrArg List.length horder
    rw [List.length_map, List.length_map] at hlen
    omega
  · exact h.every more hmore

theorem Accounts.kept {gr : GenRequest} (h : Accounts tok ids gr) (piece : Bytes) (logprob : Nat) :
    keptEntries gr piece logprob = if piece = [] then [] else [⟨piece, logprob⟩] := by
  rw [keptEntries, h.asked]
  by_cases hempty : piece = []
  · rw [if_pos hempty, if_pos (.inl hempty)]
  · rw [if_neg hempty, if_neg (by simp [hempty])]

/-- A token adds its entry exactly when it ends a character. -/
theorem Accounts.token {t : Int × Nat} {gr : GenRequest} (h : Accounts tok ids gr)
    (hgathered : Gathered tok ids gr) {piece rest : Bytes} {n : Int}
    (hcuts : Cuts tok (textOf tok ids) gr.detok piece rest t) :
    Accounts tok (ids ++ [t]) { gr with
      completionTokens := n, detok := rest, accum := gr.accum ++ piece
      lpEntries := gr.lpEntries ++ keptEntries gr piece t.2 } := by
  have hreleased : ∀ more, WellFormed (textOf tok (ids ++ [t]) ++ more) →
      WellFormed (textOf tok ids ++ (tokenText tok t.1 ++ more)) ∧
        (piece ≠ [] ↔ EndsCharacter (textOf tok ids) (tokenText tok t.1)) := by
    intro more hmore
    rw [textOf_snoc, List.append_assoc] at hmore
    obtain ⟨haccum, hdetok, -⟩ := hgathered.utf8 _ hmore
    exact ⟨hmore, hcuts.ends gr.accum more hgathered.text haccum hdetok⟩
  rw [h.kept]
  refine ⟨h.asked, ?_, ?_, ?_, ?_⟩
  · dsimp only
    rw [List.flatMap_append, h.joined]
    congr 1
    split
    · next hempty => rw [hempty]; rfl
    · rw [List.flatMap_singleton]
  · have hfew := h.few
    simp only [List.length_append, List.length_singleton]
    split
    · rw [List.length_nil]
      omega
    · rw [List.length_singleton]
      omega
  · intro more hmore heach
    obtain ⟨hbefore, hends⟩ := hreleased more hmore
    rw [eachEndsCharacter_snoc] at heach
    dsimp only
    rw [if_neg (hends.mpr heach.2), List.map_append, List.map_append,
      h.every _ hbefore heach.1]
    rfl
  · intro more hmore hnot
    obtain ⟨hbefore, hends⟩ := hreleased more hmore
    rw [eachEndsCharacter_snoc, ← hends, Classical.not_and_iff_not_or_not, not_not] at hnot
    have hfew := h.few
    dsimp only
    simp only [List.length_append, List.length_singleton]
    rcases hnot with hnot | hempty
    · have hshort := h.short _ hbefore hnot
      split
      · rw [List.length_nil]
        omega
      · rw [List.length_singleton]
        omega
    · rw [if_pos hempty, List.length_nil]
      omega

/-! ## The response -/

structure AccountGoing (tok : Tokenizer) (p : StartParams) (ids : List (Int × Nat)) (m : Loop) :
    Prop where
  whole : WholeGoing tok p ids m
  accounts : Accounts tok ids m.gr

/-- The condition on the tokens and the header. -/
def Accountable (tok : Tokenizer) (p : StartParams) (tokens : List (Int × Nat)) : Prop :=
  tokens ≠ [] ∧ isUtf8 (textOf tok tokens) = true ∧ p.header.Utf8 ∧ EachEndsCharacter tok tokens ∧
    ∀ t ∈ tokens, isFinite t.2 = true

def accountCourse (tok : Tokenizer) (p : StartParams) : Course where
  going := AccountGoing tok p
  ended := fun ids _ written => Accounted ids written ↔ Accountable tok p ids
  failed := fun written => ∀ tokens, ¬ Accounted tokens written

theorem account_token (hserved : Served env) (hstream : p.stream = false) {t : Int × Nat}
    (h : Attached p m) (hgoing : AccountGoing tok p ids m) (ht : Decodable tok t) :
    (onToken tok env t.1 t.2 m).1 = true ∧
      AccountGoing tok p (ids ++ [t]) (onToken tok env t.1 t.2 m).2 := by
  obtain ⟨hgo, hwhole⟩ := whole_token hserved hstream h hgoing.whole ht
  obtain ⟨piece, rest, hcuts⟩ :=
    detokFeed_decodable ht (textOf tok ids) hgoing.whole.gathered.idle
  obtain ⟨-, -, hgr⟩ := onToken_whole hserved hstream h hcuts.feed
  refine ⟨hgo, hwhole, ?_⟩
  rw [hgr]
  exact hgoing.accounts.token hgoing.whole.gathered hcuts

theorem account_done (hserved : Served env) (hchat : p.chat = true) (hasked : p.logprobs = true)
    (hstream : p.stream = false)
    (reason : FinishReason) (h : Attached p m) (hgoing : AccountGoing tok p ids m) :
    Accounted ids (finishResponse env reason m).conn.written ↔ Accountable tok p ids := by
  obtain ⟨u, hwritten⟩ := finishResponse_whole hserved reason h hstream hgoing.whole
  have hdoc := hgoing.whole.gathered.writable_wholeDoc hgoing.whole.asked reason u
  have hlogprobs : logprobsOf (wholeDoc p (textOf tok ids) reason u m.gr.lpEntries) =
      if m.gr.lpEntries = [] then none else some m.gr.lpEntries := by
    rw [wholeDoc, if_pos hchat, logprobsOf_chatResponse]
  have hcontent : contentOf true "message"
      (wholeDoc p (textOf tok ids) reason u m.gr.lpEntries) = some (textOf tok ids) := by
    rw [← hchat, contentOf_wholeDoc]
  generalize wholeDoc p (textOf tok ids) reason u m.gr.lpEntries = doc at *
  have horder : isUtf8 (textOf tok ids) = true →
      ((m.gr.lpEntries.map fun entry => entry.logprob) = (ids.map fun t => t.2) ↔
        EachEndsCharacter tok ids) := by
    intro hutf8
    have hmore : WellFormed (textOf tok ids ++ []) := by
      rwa [List.append_nil, wellFormed_iff]
    exact hgoing.accounts.order_iff hmore
  constructor
  · rintro ⟨doc', content, entries, hone, -, hentries, hall, -⟩
    rw [hwritten] at hone
    split at hone
    · next hwritable =>
      obtain ⟨hutf8, hheader, hfinite⟩ := hdoc.mp hwritable
      cases hone
      rw [hlogprobs] at hentries
      split at hentries
      · contradiction
      · next hsome =>
        obtain rfl := Option.some.inj hentries
        have heach := (horder hutf8).mp hall
        refine ⟨?_, hutf8, hheader, heach, (finiteLogprobs_iff heach).mp (hfinite hchat hasked)⟩
        rintro rfl
        exact hsome (List.map_eq_nil_iff.mp hall)
    · contradiction
  · rintro ⟨hne, hutf8, hheader, heach, hfinite⟩
    have hall := (horder hutf8).mpr heach
    have hsome : m.gr.lpEntries ≠ [] := by
      intro hnil
      rw [hnil] at hall
      exact hne (List.map_eq_nil_iff.mp hall.symm)
    refine ⟨doc, textOf tok ids, m.gr.lpEntries, ?_, hcontent, ?_, hall, ?_⟩
    · rw [hwritten, if_pos (hdoc.mpr ⟨hutf8, hheader, fun _ _ => (finiteLogprobs_iff heach).mpr hfinite⟩)]
    · rw [hlogprobs, if_neg hsome]
    · have hend := hgoing.whole.gathered.utf8 []
      rw [List.append_nil, List.append_nil, wellFormed_iff] at hend
      have hdetok := withheld_nil hgoing.whole.gathered.idle (hend hutf8).2.1
      rw [hgoing.accounts.joined, ← hgoing.whole.gathered.text, hdetok, List.append_nil]

theorem accountCourse_holds (hserved : Served env) (hchat : p.chat = true)
    (hasked : p.logprobs = true) (hstream : p.stream = false) : (accountCourse tok p).Holds tok env p where
  same := fun h hgr hconn => ⟨(wholeCourse_holds hserved hstream).same h.whole hgr hconn,
    hgr ▸ h.accounts⟩
  conn := fun h => h.whole.conn
  token := account_token hserved hstream
  lost := by
    intro ids t m h hgoing ht
    obtain ⟨hstop, hnot⟩ := whole_lost hserved hstream h hgoing.whole ht
    refine ⟨hstop, fun tokens haccounted => ?_⟩
    obtain ⟨content, hanswered⟩ := haccounted.answered
    exact hnot content (hchat ▸ hanswered)
  done := account_done hserved hchat hasked hstream

end Entries

/-! ## The accounting -/

/-- The whole chat that asks for log-probabilities. -/
def wholeLogprobStart : StartParams := logprobStart.asked false

/-- The texts and log-probabilities of the entries that were written. -/
def writtenEntries : Wire × Bool → Option (List (Bytes × Nat))
  | (.response _ doc, _) =>
    (logprobsOf doc).map fun entries => entries.map fun entry => (entry.token, entry.logprob)
  | _ => none

end Mlxd.Http
