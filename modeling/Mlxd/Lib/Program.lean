import Mathlib.Logic.Basic

/-!
# Programs with effects

A program asks for effects and goes on with their answers. It can be run by a handler on a
state of its own, and it can be checked against a protocol: an automaton whose phase moves
with every effect and its answer.
-/
namespace Mlxd.Lib

/-- A program over effects `E` with answers `R`; every run of it ends. -/
inductive Program (E : Type) (R : E → Type) (α : Type) where
  | done (a : α)
  | ask (e : E) (next : R e → Program E R α)

namespace Program

variable {E : Type} {R : E → Type} {α β : Type}

def bind : Program E R α → (α → Program E R β) → Program E R β
  | done a, f => f a
  | ask e next, f => ask e fun r => bind (next r) f

instance : Monad (Program E R) where
  pure := done
  bind := bind

/-- One effect. -/
def perform (e : E) : Program E R (R e) := ask e done

@[simp] theorem pure_eq (a : α) : (pure a : Program E R α) = done a := rfl

@[simp] theorem done_bind (a : α) (f : α → Program E R β) : (done a >>= f) = f a := rfl

@[simp] theorem ask_bind (e : E) (next : R e → Program E R α) (f : α → Program E R β) :
    (ask e next >>= f) = ask e fun r => next r >>= f := rfl

/-- Run the effects of a program as effects of a larger system. -/
def embed {E' : Type} {R' : E' → Type} (f : E → E') (answer : ∀ e, R' (f e) → R e) :
    Program E R α → Program E' R' α
  | done a => done a
  | ask e next => ask (f e) fun r => embed f answer (next (answer e r))

/-! ## Running -/

section Run

variable {σ : Type} (handler : (e : E) → σ → R e × σ)

/-- The result and the state after a run. -/
def run : Program E R α → σ → α × σ
  | done a, s => (a, s)
  | ask e next, s => run (next (handler e s).1) (handler e s).2

@[simp] theorem run_done (a : α) (s : σ) : run handler (done a) s = (a, s) := rfl

@[simp] theorem run_ask (e : E) (next : R e → Program E R α) (s : σ) :
    run handler (ask e next) s = run handler (next (handler e s).1) (handler e s).2 := rfl

@[simp] theorem run_perform (e : E) (s : σ) : run handler (perform e) s = handler e s := rfl

@[simp] theorem run_bind (p : Program E R α) (f : α → Program E R β) (s : σ) :
    run handler (p >>= f) s = run handler (f (run handler p s).1) (run handler p s).2 := by
  induction p generalizing s with
  | done a => rfl
  | ask e next ih => exact ih _ _

end Run

/-! ## Protocols -/

section Obeys

variable {φ : Type} (δ : φ → (e : E) → R e → Option φ)

/-- Started in the phase, every run of the program makes allowed moves only, and ends with a
result and a phase in `post`. -/
def Obeys : Program E R α → φ → (α → φ → Prop) → Prop
  | done a, ph, post => post a ph
  | ask e next, ph, post => ∀ r, ∃ ph', δ ph e r = some ph' ∧ Obeys (next r) ph' post

variable {δ} {ph : φ}

theorem obeys_mono {p : Program E R α} {post post' : α → φ → Prop} (h : Obeys δ p ph post)
    (hpost : ∀ a ph, post a ph → post' a ph) : Obeys δ p ph post' := by
  induction p generalizing ph with
  | done a => exact hpost a ph h
  | ask e next ih =>
    intro r
    obtain ⟨ph', hmove, hrest⟩ := h r
    exact ⟨ph', hmove, ih r hrest⟩

theorem obeys_bind {p : Program E R α} {f : α → Program E R β} {mid : α → φ → Prop}
    {post : β → φ → Prop} (h : Obeys δ p ph mid)
    (hf : ∀ a ph, mid a ph → Obeys δ (f a) ph post) : Obeys δ (p >>= f) ph post := by
  induction p generalizing ph with
  | done a => exact hf a ph h
  | ask e next ih =>
    intro r
    obtain ⟨ph', hmove, hrest⟩ := h r
    exact ⟨ph', hmove, ih r hrest⟩

theorem obeys_perform {e : E} {post : R e → φ → Prop}
    (h : ∀ r, ∃ ph', δ ph e r = some ph' ∧ post r ph') : Obeys δ (perform e) ph post := h

/-- An effect whose answers all leave the phase as it is. -/
theorem obeys_quiet {e : E} (h : ∀ r, δ ph e r = some ph) :
    Obeys δ (perform e) ph fun _ ph' => ph' = ph := fun r => ⟨ph, h r, rfl⟩

/-- An embedded program obeys the larger protocol when that follows the smaller one. -/
theorem obeys_embed {E' : Type} {R' : E' → Type} {f : E → E'} {answer : ∀ e, R' (f e) → R e}
    {δ' : φ → (e : E') → R' e → Option φ} {p : Program E R α} {post : α → φ → Prop}
    (hδ : ∀ ph e r, δ' ph (f e) r = δ ph e (answer e r)) (h : Obeys δ p ph post) :
    Obeys δ' (embed f answer p) ph post := by
  induction p generalizing ph with
  | done a => exact h
  | ask e next ih =>
    intro r
    obtain ⟨ph', hmove, hrest⟩ := h (answer e r)
    exact ⟨ph', (hδ ph e r).trans hmove, ih _ hrest⟩

/-- The phase after a run in which every effect has one answer, as long as the moves are
allowed. -/
def track (δ : φ → (e : E) → R e → Option φ) (answer : (e : E) → R e) :
    Program E R α → φ → Option φ
  | done _, ph => some ph
  | ask e next, ph => (δ ph e (answer e)).bind (track δ answer (next (answer e)))

theorem obeys_track {answer : (e : E) → R e} {p : Program E R α} {post : α → φ → Prop}
    (h : Obeys δ p ph post) : (track δ answer p ph).isSome := by
  induction p generalizing ph with
  | done a => rfl
  | ask e next ih =>
    obtain ⟨ph', hmove, hrest⟩ := h (answer e)
    rw [track, hmove]
    exact ih _ hrest

end Obeys

/-! ## The effects of a program -/

section Uses

variable {P : E → Prop}

/-- Every effect the program may ask for meets the condition. -/
def Uses (P : E → Prop) : Program E R α → Prop
  | done _ => True
  | ask e next => P e ∧ ∀ r, Uses P (next r)

theorem uses_perform {e : E} (h : P e) : Uses P (perform e : Program E R (R e)) :=
  ⟨h, fun _ => trivial⟩

theorem uses_bind {p : Program E R α} {f : α → Program E R β} (h : Uses P p)
    (hf : ∀ a, Uses P (f a)) : Uses P (p >>= f) := by
  induction p with
  | done a => exact hf a
  | ask e next ih => exact ⟨h.1, fun r => ih r (h.2 r)⟩

/-- Effects that leave a phase as it is keep it through a whole program. -/
theorem obeys_uses {φ : Type} {δ : φ → (e : E) → R e → Option φ} {ph : φ} {p : Program E R α}
    (h : Uses P p) (hδ : ∀ e, P e → ∀ r, δ ph e r = some ph) :
    Obeys δ p ph fun _ ph' => ph' = ph := by
  induction p with
  | done a => rfl
  | ask e next ih => exact fun r => ⟨ph, hδ e h.1 r, ih r (h.2 r)⟩

end Uses

/-! ## What holds after a run -/

section Ensures

variable {σ : Type} {handler : (e : E) → σ → R e × σ}

/-- From a state of the precondition the run ends in one of the postcondition. -/
def Ensures (handler : (e : E) → σ → R e × σ) (pre : σ → Prop) (p : Program E R α)
    (post : α → σ → Prop) : Prop :=
  ∀ s, pre s → post (run handler p s).1 (run handler p s).2

variable {pre : σ → Prop} {p : Program E R α} {post : α → σ → Prop}

theorem ensures_pure {a : α} (h : ∀ s, pre s → post a s) : Ensures handler pre (pure a) post := h

theorem ensures_perform {e : E} {post : R e → σ → Prop}
    (h : ∀ s, pre s → post (handler e s).1 (handler e s).2) :
    Ensures handler pre (perform e) post := h

theorem Ensures.bind {f : α → Program E R β} {last : β → σ → Prop} (hp : Ensures handler pre p post)
    (hf : ∀ a, Ensures handler (post a) (f a) last) : Ensures handler pre (p >>= f) last := by
  intro s hs
  rw [run_bind]
  exact hf _ _ (hp s hs)

theorem Ensures.imp {post' : α → σ → Prop} (hp : Ensures handler pre p post)
    (h : ∀ a s, post a s → post' a s) : Ensures handler pre p post' :=
  fun s hs => h _ _ (hp s hs)

theorem Ensures.ite {c : Prop} [Decidable c] {q : Program E R α}
    (ht : c → Ensures handler pre p post) (hf : ¬ c → Ensures handler pre q post) :
    Ensures handler pre (if c then p else q) post := by
  by_cases hc : c
  · rw [if_pos hc]
    exact ht hc
  · rw [if_neg hc]
    exact hf hc

end Ensures

end Program

end Mlxd.Lib
