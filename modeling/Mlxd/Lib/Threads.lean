import Mathlib.Logic.Function.Basic
import Mathlib.Logic.Relation
import Mlxd.Lib.Program

/-!
# Threads over a shared state

Threads run programs whose effects are atomic steps on a shared state; a thread whose
program has ended may start another. A token passes between the shared state and the
threads: at most one thread is away from its idle phase, and what the shared state looks
like depends on the phase of the one that is. Each thread has a protocol of its own.
-/
namespace Mlxd.Lib

variable {σ T E : Type} {R : E → Type}

/-- The shared state and what each thread still has to run. -/
structure Config (σ T E : Type) (R : E → Type) where
  shared : σ
  threads : T → Program E R Unit

section Steps

variable [DecidableEq T]

/-- Thread `t` goes on with `p` in the shared state `s`. -/
def Config.resume (c : Config σ T E R) (t : T) (s : σ) (p : Program E R Unit) : Config σ T E R :=
  ⟨s, Function.update c.threads t p⟩

section Resume

variable (c : Config σ T E R) (t : T) (s : σ) (p : Program E R Unit)

@[simp] theorem resume_shared : (c.resume t s p).shared = s := rfl

@[simp] theorem resume_self : (c.resume t s p).threads t = p := Function.update_self _ _ _

theorem resume_other {u : T} (h : u ≠ t) : (c.resume t s p).threads u = c.threads u :=
  Function.update_of_ne h _ _

end Resume

variable (exec : (e : E) → σ → R e → σ → Prop)
  (start : T → σ → Program E R Unit → Prop)

/-- One step of a thread: its next effect, or the start of its next program. -/
inductive Step : Config σ T E R → T → Config σ T E R → Prop
  | effect {c : Config σ T E R} {t : T} {e : E} {next : R e → Program E R Unit} {r : R e} {s : σ}
      (hask : c.threads t = .ask e next) (hexec : exec e c.shared r s) :
      Step c t (c.resume t s (next r))
  | start {c : Config σ T E R} {t : T} {p : Program E R Unit}
      (hdone : c.threads t = .done ()) (hstart : start t c.shared p) :
      Step c t (c.resume t c.shared p)

/-- Runs all of whose steps are taken where the condition holds. -/
def RunsTo (ok : Config σ T E R → T → Prop) : Config σ T E R → Config σ T E R → Prop :=
  Relation.ReflTransGen fun c c' => ∃ t, ok c t ∧ Step exec start c t c'

/-- One thread takes some of its steps, each where the condition on the state holds. -/
inductive Alone (enabled : (e : E) → σ → Prop) :
    σ → Program E R Unit → σ → Program E R Unit → Prop
  | refl (s : σ) (p : Program E R Unit) : Alone enabled s p s p
  | step {s s' s'' : σ} {e : E} {next : R e → Program E R Unit} {p : Program E R Unit} (r : R e)
      (hok : enabled e s) (hexec : exec e s r s') (hrest : Alone enabled s' (next r) s'' p) :
      Alone enabled s (.ask e next) s'' p

variable {exec start}

theorem resume_resume (c : Config σ T E R) (t : T) (s s' : σ) (p p' : Program E R Unit) :
    (c.resume t s p).resume t s' p' = c.resume t s' p' := by
  simp only [Config.resume, Function.update_idem]

theorem resume_eq {c : Config σ T E R} {t : T} {s : σ} {p : Program E R Unit}
    (hs : c.shared = s) (hp : c.threads t = p) : c.resume t s p = c := by
  subst hs hp
  simp only [Config.resume, Function.update_eq_self]

theorem RunsTo.mono {ok ok' : Config σ T E R → T → Prop} {c c' : Config σ T E R}
    (h : RunsTo exec start ok c c') (hok : ∀ c t, ok c t → ok' c t) :
    RunsTo exec start ok' c c' := by
  induction h with
  | refl => exact .refl
  | tail _ hstep ih =>
    obtain ⟨t, ht, hstep⟩ := hstep
    exact .tail ih ⟨t, hok _ t ht, hstep⟩

/-- Steps of one thread alone are steps of the system. -/
theorem runsTo_alone {enabled : (e : E) → σ → Prop} {ok : Config σ T E R → T → Prop}
    (hok : ∀ c t, (∀ e next, c.threads t = .ask e next → enabled e c.shared) → ok c t)
    {s s' : σ} {p p' : Program E R Unit} (h : Alone exec enabled s p s' p')
    {c : Config σ T E R} {t : T} (hs : c.shared = s) (hp : c.threads t = p) :
    RunsTo exec start ok c (c.resume t s' p') := by
  induction h generalizing c with
  | refl s p =>
    rw [resume_eq hs hp]
    exact .refl
  | @step s s₁ s' e next p' r henabled hexec _ ih =>
    have hfirst : ok c t := by
      refine hok c t fun e' next' h' => ?_
      rw [hp] at h'
      obtain ⟨rfl, -⟩ := Program.ask.inj h'
      rwa [hs]
    have hrest := ih (c := c.resume t s₁ (next r)) rfl (resume_self c t s₁ _)
    rw [resume_resume] at hrest
    exact .head ⟨t, hfirst, .effect hp (hs ▸ hexec)⟩ hrest

/-- An idle thread starts a program and takes some of its steps. -/
theorem runsTo_start {enabled : (e : E) → σ → Prop} {ok : Config σ T E R → T → Prop}
    (hok : ∀ c t, (∀ e next, c.threads t = .ask e next → enabled e c.shared) → ok c t)
    {s' : σ} {p p' : Program E R Unit} {c : Config σ T E R} {t : T} (hidle : c.threads t = .done ())
    (hstart : start t c.shared p) (h : Alone exec enabled c.shared p s' p') :
    RunsTo exec start ok c (c.resume t s' p') := by
  have hfirst : ok c t := by
    refine hok c t fun e next h' => ?_
    rw [hidle] at h'
    contradiction
  have hrest : RunsTo exec start ok (c.resume t c.shared p) _ := runsTo_alone hok h rfl
    (resume_self c t _ _)
  rw [resume_resume] at hrest
  exact .head ⟨t, hfirst, .start hidle hstart⟩ hrest

end Steps

/-! ## The token rule -/

section Token

variable {φ : Type} (δ : T → φ → (e : E) → R e → Option φ) (idle : φ) (ended : φ → Prop)
  (holds : σ → T → φ → Prop)

/-- One thread has the token in some phase; all others follow the protocol from idle. -/
def TokenAt (c : Config σ T E R) (who : T) (cur : φ) : Prop :=
  holds c.shared who cur ∧ Program.Obeys (δ who) (c.threads who) cur (fun _ ph => ended ph) ∧
    ∀ t, t ≠ who → Program.Obeys (δ t) (c.threads t) idle fun _ ph => ended ph

/-- What the steps must keep for the token rule. -/
structure TokenRule (exec : (e : E) → σ → R e → σ → Prop)
    (start : T → σ → Program E R Unit → Prop) (ok : Config σ T E R → T → Prop)
    (enabled : (e : E) → σ → Prop) : Prop where
  guard : ∀ c t e next, ok c t → c.threads t = .ask e next → enabled e c.shared
  anyone : ∀ s t u, holds s t idle → holds s u idle
  done : ∀ s t ph, holds s t ph → ended ph → ph = idle
  starts : ∀ t s p, start t s p → Program.Obeys (δ t) p idle fun _ ph => ended ph
  own : ∀ t e s r s' ph ph', enabled e s → exec e s r s' → holds s t ph →
    δ t ph e r = some ph' → holds s' t ph'
  other : ∀ t who e s r s' ph ph', t ≠ who → enabled e s → exec e s r s' → holds s who ph →
    ph ≠ idle → δ t idle e r = some ph' → ph' = idle ∧ holds s' who ph

variable {δ idle ended holds} [DecidableEq T] {exec : (e : E) → σ → R e → σ → Prop}
  {start : T → σ → Program E R Unit → Prop} {ok : Config σ T E R → T → Prop}
  {enabled : (e : E) → σ → Prop}

/-- When nobody holds the token, any thread can count as its holder. -/
theorem TokenAt.switch (hrule : TokenRule δ idle ended holds exec start ok enabled)
    {c : Config σ T E R} {who : T} (h : TokenAt δ idle ended holds c who idle) (t : T) :
    TokenAt δ idle ended holds c t idle := by
  obtain ⟨hshared, hwho, hrest⟩ := h
  have hall : ∀ u, Program.Obeys (δ u) (c.threads u) idle fun _ ph => ended ph := by
    intro u
    by_cases hu : u = who
    · rw [hu]
      exact hwho
    · exact hrest u hu
  exact ⟨hrule.anyone _ who t hshared, hall t, fun u _ => hall u⟩

/-- The step of the thread that has the token. -/
theorem TokenAt.own (hrule : TokenRule δ idle ended holds exec start ok enabled)
    {c c' : Config σ T E R} {t : T} {cur : φ} (h : TokenAt δ idle ended holds c t cur)
    (hok : ok c t) (hstep : Step exec start c t c') :
    ∃ cur', TokenAt δ idle ended holds c' t cur' := by
  obtain ⟨hshared, hwho, hrest⟩ := h
  have hframe : ∀ s p u, u ≠ t →
      Program.Obeys (δ u) ((c.resume t s p).threads u) idle fun _ ph => ended ph := by
    intro s p u hu
    rw [resume_other c t s p hu]
    exact hrest u hu
  cases hstep with
  | @effect e next r s hask hexec =>
    rw [hask] at hwho
    obtain ⟨cur', hmove, hnext⟩ := hwho r
    have hholds : holds s t cur' :=
      hrule.own t e _ r s cur cur' (hrule.guard c t e next hok hask) hexec hshared hmove
    exact ⟨cur', hholds, by rwa [resume_self], hframe s _⟩
  | @start p hdone hstart =>
    rw [hdone] at hwho
    obtain rfl : cur = idle := hrule.done _ t cur hshared hwho
    exact ⟨cur, hshared, by rw [resume_self]; exact hrule.starts t _ p hstart, hframe _ _⟩

/-- The step of another thread while the token is away from idle. -/
theorem TokenAt.other (hrule : TokenRule δ idle ended holds exec start ok enabled)
    {c c' : Config σ T E R} {who t : T} {cur : φ} (h : TokenAt δ idle ended holds c who cur)
    (hcur : cur ≠ idle) (ht : t ≠ who) (hok : ok c t) (hstep : Step exec start c t c') :
    TokenAt δ idle ended holds c' who cur := by
  obtain ⟨hshared, hwho, hrest⟩ := h
  have hframe : ∀ s p, holds s who cur → Program.Obeys (δ t) p idle (fun _ ph => ended ph) →
      TokenAt δ idle ended holds (c.resume t s p) who cur := by
    intro s p hs hp
    refine ⟨hs, by rwa [resume_other c t s p ht.symm], fun u hu => ?_⟩
    by_cases hut : u = t
    · rw [hut, resume_self]
      exact hp
    · rw [resume_other c t s p hut]
      exact hrest u hu
  cases hstep with
  | @effect e next r s hask hexec =>
    have hmine := hrest t ht
    rw [hask] at hmine
    obtain ⟨ph', hmove, hnext⟩ := hmine r
    obtain ⟨rfl, hholds⟩ := hrule.other t who e _ r s cur ph' ht
      (hrule.guard c t e next hok hask) hexec hshared hcur hmove
    exact hframe s _ hholds hnext
  | @start p hdone hstart => exact hframe _ p hshared (hrule.starts t _ p hstart)

/-- The token stays in exactly one place along every run that meets the condition. -/
theorem tokenAt_runsTo (hrule : TokenRule δ idle ended holds exec start ok enabled)
    {c c' : Config σ T E R} (h : ∃ who cur, TokenAt δ idle ended holds c who cur)
    (hrun : RunsTo exec start ok c c') :
    ∃ who cur, TokenAt δ idle ended holds c' who cur := by
  induction hrun with
  | refl => exact h
  | tail _ hstep ih =>
    obtain ⟨who, cur, hc⟩ := ih
    obtain ⟨t, hok, hstep⟩ := hstep
    by_cases ht : t = who
    · obtain ⟨cur', h'⟩ := (ht ▸ hc).own hrule hok hstep
      exact ⟨t, cur', h'⟩
    · by_cases hcur : cur = idle
      · subst hcur
        obtain ⟨cur', h'⟩ := (hc.switch hrule t).own hrule hok hstep
        exact ⟨t, cur', h'⟩
      · exact ⟨who, cur, hc.other hrule hcur ht hok hstep⟩

end Token

/-! ## Phases of all threads -/

section Phases

variable {φ : Type} (δ : T → φ → (e : E) → R e → Option φ) (ended : φ → Prop)
  (holds : σ → (T → φ) → Prop)

/-- Every thread follows its protocol from a phase of its own, and the shared state fits the
phases. -/
def Phased (c : Config σ T E R) : Prop :=
  ∃ phase : T → φ, holds c.shared phase ∧
    ∀ t, Program.Obeys (δ t) (c.threads t) (phase t) fun _ ph => ended ph

/-- What the steps must keep for the phases. -/
structure PhaseRule [DecidableEq T] (exec : (e : E) → σ → R e → σ → Prop)
    (start : T → σ → Program E R Unit → Prop) (enabled : (e : E) → σ → Prop) : Prop where
  starts : ∀ t s p phase, holds s phase → ended (phase t) → start t s p →
    ∃ ph, holds s (Function.update phase t ph) ∧ Program.Obeys (δ t) p ph fun _ ph => ended ph
  effect : ∀ t e s r s' phase ph', enabled e s → holds s phase → exec e s r s' →
    δ t (phase t) e r = some ph' → holds s' (Function.update phase t ph')

/-- The next effect of a thread meets a condition on the state. -/
def NextMeets (enabled : (e : E) → σ → Prop) (c : Config σ T E R) (t : T) : Prop :=
  ∀ e next, c.threads t = .ask e next → enabled e c.shared

variable {δ ended holds} [DecidableEq T] {exec : (e : E) → σ → R e → σ → Prop}
  {start : T → σ → Program E R Unit → Prop} {enabled : (e : E) → σ → Prop}

/-- Threads other than the one that steps keep their programs and their phases. -/
theorem obeys_resume {c : Config σ T E R} {phase : T → φ} {t : T} {s : σ} {p : Program E R Unit}
    {ph : φ} (hobeys : ∀ u, Program.Obeys (δ u) (c.threads u) (phase u) fun _ ph => ended ph)
    (hp : Program.Obeys (δ t) p ph fun _ ph => ended ph) (u : T) :
    Program.Obeys (δ u) ((c.resume t s p).threads u) (Function.update phase t ph u)
      fun _ ph => ended ph := by
  by_cases hu : u = t
  · rw [hu, resume_self, Function.update_self]
    exact hp
  · rw [resume_other c t s p hu, Function.update_of_ne hu]
    exact hobeys u

theorem phased_step (hrule : PhaseRule δ ended holds exec start enabled) {c c' : Config σ T E R}
    {t : T} (h : Phased δ ended holds c) (hok : NextMeets enabled c t)
    (hstep : Step exec start c t c') : Phased δ ended holds c' := by
  obtain ⟨phase, hholds, hobeys⟩ := h
  have hmine := hobeys t
  cases hstep with
  | @effect e next r s hask hexec =>
    rw [hask] at hmine
    obtain ⟨ph', hmove, hnext⟩ := hmine r
    exact ⟨_, hrule.effect t e _ r s phase ph' (hok e next hask) hholds hexec hmove,
      obeys_resume hobeys hnext⟩
  | @start p hdone hstart =>
    rw [hdone] at hmine
    obtain ⟨ph, hnew, hp⟩ := hrule.starts t _ p phase hholds hmine hstart
    exact ⟨_, hnew, obeys_resume hobeys hp⟩

/-- The shared state fits the phases along every run that meets the condition. -/
theorem phased_runsTo (hrule : PhaseRule δ ended holds exec start enabled)
    {c c' : Config σ T E R} (h : Phased δ ended holds c)
    (hrun : RunsTo exec start (NextMeets enabled) c c') : Phased δ ended holds c' := by
  induction hrun with
  | refl => exact h
  | tail _ hstep ih =>
    obtain ⟨t, hok, hstep⟩ := hstep
    exact phased_step hrule ih hok hstep

end Phases

end Mlxd.Lib
