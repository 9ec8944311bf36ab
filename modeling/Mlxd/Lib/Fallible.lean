import Mathlib.Tactic.Common

/-!
# Computations with calls that may fail

A computation makes calls outside of the program, and the first one that fails ends it. Which of
them fail is given from outside, so what holds of every result holds wherever they fail.
-/
namespace Mlxd.Lib

/-- Whether the calls to come succeed. -/
abbrev Outcomes := Nat → Bool

def Fallible (α : Type) : Type := Outcomes → Option (α × Outcomes)

namespace Fallible

variable {α β : Type}

instance : Monad Fallible where
  pure a := fun o => some (a, o)
  bind m f := fun o => (m o).bind fun r => f r.1 r.2

/-- One call, with its result when it succeeds. -/
def call (a : α) : Fallible α := fun o => if o 0 then some (a, fun n => o (n + 1)) else none

def fail : Fallible α := fun _ => none

def ofOption (a : Option α) : Fallible α := fun o => a.map fun a => (a, o)

/-- A call that fails unless its arguments fit. -/
def callIf (fits : Prop) [Decidable fits] (a : α) : Fallible α := if fits then call a else fail

/-! ## What holds of every result -/

def Yields (m : Fallible α) (P : α → Prop) : Prop := ∀ o a o', m o = some (a, o') → P a

variable {m : Fallible α} {P Q : α → Prop} {R : β → Prop}

theorem Yields.imp (h : Yields m P) (himp : ∀ a, P a → Q a) : Yields m Q :=
  fun o a o' hrun => himp a (h o a o' hrun)

theorem Yields.pure {a : α} (h : P a) : Yields (pure a) P := by
  intro o a' o' hrun
  obtain ⟨rfl, rfl⟩ := Prod.mk.inj (Option.some.inj hrun)
  exact h

theorem Yields.bind {f : α → Fallible β} (hm : Yields m P) (hf : ∀ a, P a → Yields (f a) R) :
    Yields (m >>= f) R := by
  intro o b o' hrun
  obtain ⟨⟨a, o₁⟩, hfirst, hrest⟩ := Option.bind_eq_some_iff.mp hrun
  exact hf a (hm o a o₁ hfirst) o₁ b o' hrest

theorem Yields.call {a : α} (h : P a) : Yields (call a) P := by
  intro o a' o' hrun
  rw [Fallible.call] at hrun
  split at hrun
  · obtain ⟨rfl, rfl⟩ := Prod.mk.inj (Option.some.inj hrun)
    exact h
  · contradiction

/-- A step with a known result. -/
theorem Yields.eq_bind {a : α} {f : α → Fallible β} (hm : Yields m (· = a))
    (hf : Yields (f a) R) : Yields (m >>= f) R :=
  hm.bind fun _ ha => ha ▸ hf

theorem Yields.call_bind {a : α} {f : α → Fallible β} (hf : Yields (f a) R) :
    Yields (Fallible.call a >>= f) R :=
  (Yields.call (P := (· = a)) rfl).eq_bind hf

theorem Yields.fail : Yields fail P := fun _ _ _ hrun => nomatch hrun

theorem Yields.ofOption {a : Option α} (h : ∀ x, a = some x → P x) : Yields (ofOption a) P := by
  intro o x o' hrun
  obtain ⟨y, hy, hpair⟩ := Option.map_eq_some_iff.mp hrun
  obtain ⟨rfl, rfl⟩ := Prod.mk.inj hpair
  exact h y hy

theorem Yields.callIf {fits : Prop} [Decidable fits] {a : α} (h : fits → P a) :
    Yields (callIf fits a) P := by
  rw [Fallible.callIf]
  split
  · rename_i hfits
    exact .call (h hfits)
  · exact .fail

theorem Yields.ite {c : Prop} [Decidable c] {m' : Fallible α} (ht : c → Yields m P)
    (he : ¬ c → Yields m' P) : Yields (if c then m else m') P := by
  split
  · rename_i h
    exact ht h
  · rename_i h
    exact he h

end Fallible

end Mlxd.Lib
