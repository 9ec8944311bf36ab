import Mathlib.Tactic.Common

/-!
# Reading in pieces

A reader takes one byte after the other and ends with a message or with nothing. A conversation
reads message after message, as long as the listener goes on. It depends on the bytes alone, not on
the pieces in which they come.
-/
namespace Mlxd.Lib.Incremental

/-- What a reader says to a byte. -/
inductive Verdict (σ ρ : Type) where
  | going (s : σ)
  | done (r : ρ)
  | dead

variable {σ β ρ : Type} (step : σ → β → Verdict σ ρ)

/-- Read up to a verdict; the bytes behind it are left. -/
def run : σ → List β → Verdict σ ρ × List β
  | s, [] => (.going s, [])
  | s, b :: rest =>
    match step s b with
    | .going s => run s rest
    | .done r => (.done r, rest)
    | .dead => (.dead, rest)

theorem run_suffix (s : σ) (bs : List β) : (run step s bs).2 <:+ bs := by
  induction bs generalizing s with
  | nil => exact List.suffix_refl _
  | cons b bs ih =>
    rw [run]
    split
    · exact (ih _).trans (List.suffix_cons b bs)
    · exact List.suffix_cons b bs
    · exact List.suffix_cons b bs

/-- Behind a message there is less to read. -/
theorem run_done_length {s : σ} {bs rest : List β} {r : ρ} (h : run step s bs = (.done r, rest)) :
    rest.length < bs.length := by
  induction bs generalizing s with
  | nil => simp [run] at h
  | cons b bs ih =>
    rw [run] at h
    split at h
    · exact Nat.lt_succ_of_lt (ih h)
    · rw [← (Prod.mk.inj h).2]
      exact Nat.lt_succ_self _
    · simp at h

/-- The messages so far, and the reader unless the conversation is over. -/
structure Talk (σ ρ : Type) where
  said : List ρ
  reader : Option σ

section Talk

variable (start : σ) (goesOn : Nat → ρ → Bool)

def Talk.hear (t : Talk σ ρ) (b : β) : Talk σ ρ :=
  match t.reader with
  | none => t
  | some s =>
    match step s b with
    | .going s => ⟨t.said, some s⟩
    | .done r => ⟨t.said ++ [r], if goesOn t.said.length r then some start else none⟩
    | .dead => ⟨t.said, none⟩

def Talk.hearAll (t : Talk σ ρ) (bs : List β) : Talk σ ρ :=
  bs.foldl (Talk.hear step start goesOn) t

theorem hearAll_append (t : Talk σ ρ) (bs more : List β) :
    t.hearAll step start goesOn (bs ++ more) =
      (t.hearAll step start goesOn bs).hearAll step start goesOn more :=
  List.foldl_append

/-- Nothing is said after the end. -/
theorem hearAll_over (said : List ρ) (bs : List β) :
    (⟨said, none⟩ : Talk σ ρ).hearAll step start goesOn bs = ⟨said, none⟩ := by
  induction bs with
  | nil => rfl
  | cons b bs ih => exact ih

/-- A conversation is the run up to its next message, and the conversation behind it. -/
theorem hearAll_run (said : List ρ) (s : σ) (bs : List β) :
    (⟨said, some s⟩ : Talk σ ρ).hearAll step start goesOn bs =
      match run step s bs with
      | (.going s, _) => ⟨said, some s⟩
      | (.done r, rest) =>
        (⟨said ++ [r], if goesOn said.length r then some start else none⟩ : Talk σ ρ).hearAll
          step start goesOn rest
      | (.dead, _) => ⟨said, none⟩ := by
  induction bs generalizing s with
  | nil => rfl
  | cons b bs ih =>
    rw [Talk.hearAll, List.foldl_cons, run, Talk.hear]
    dsimp only
    cases step s b with
    | going s' => exact ih s'
    | done r => rfl
    | dead => exact hearAll_over step start goesOn said bs

end Talk

end Mlxd.Lib.Incremental
