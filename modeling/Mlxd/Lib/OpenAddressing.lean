import Mathlib.Data.Finset.Card
import Mathlib.Data.Finset.Range
import Mathlib.Data.Nat.Bitwise
import Mathlib.Data.Nat.Find
import Mathlib.Tactic.Common

/-!
# Open addressing with linear probing

A table of a power of two of slots. An entry stands behind no free slot of its probe path, so a
walk from the hash of a key ends at the entry of that key or at a free slot, and only there.
Growing may fail; as long as one slot is free the table is a finite map.
-/
namespace Mlxd.Lib.OpenAddressing

structure Entry (K V : Type) where
  key : K
  hash : Nat
  val : V

structure Table (K V : Type) where
  cap : Nat
  count : Nat
  slots : Nat → Option (Entry K V)

variable {K V : Type}

def empty (cap : Nat) : Table K V := ⟨cap, 0, fun _ => none⟩

namespace Table

def start (T : Table K V) (h : Nat) : Nat := h &&& (T.cap - 1)

def next (T : Table K V) (i : Nat) : Nat := (i + 1) &&& (T.cap - 1)

/-- The first slot from `i` on that is free or whose entry stops the walk; `none` when the fuel
ends before. -/
def walk (T : Table K V) (stop : Entry K V → Bool) : Nat → Nat → Option Nat
  | 0, _ => none
  | fuel + 1, i =>
    match T.slots i with
    | none => some i
    | some e => if stop e then some i else walk T stop fuel (T.next i)

/-- A walk that visits every slot without an end goes on for ever. -/
def find [DecidableEq K] (T : Table K V) (h : Nat) (key : K) : Option Nat :=
  T.walk (fun e => e.hash = h && e.key = key) T.cap (T.start h)

def free (T : Table K V) (h : Nat) : Option Nat := T.walk (fun _ => false) T.cap (T.start h)

def set (T : Table K V) (i : Nat) (e : Entry K V) : Table K V :=
  { T with slots := Function.update T.slots i (some e) }

/-- The entries of the first slots, moved one by one into an empty table of twice the size. -/
def rehash (T : Table K V) : Nat → Option (Table K V)
  | 0 => some (empty (T.cap * 2))
  | i + 1 => do
    let N ← rehash T i
    match T.slots i with
    | none => some N
    | some e => do
      let j ← N.free e.hash
      some (N.set j e)

/-- Double the table, unless it is larger than `limit` or the allocation fails. -/
def grow (limit : Nat) (alloc : Bool) (T : Table K V) : Option (Table K V) :=
  if limit < T.cap then some T
  else if alloc then (T.rehash T.cap).map fun N => { N with count := T.count }
  else some T

section Ops

variable [DecidableEq K] (hash : K → Nat)

/-- Insert or update, after an attempt to grow a crowded table. The last free slot is not filled. -/
def put (crowded : Nat → Nat → Bool) (limit : Nat) (T : Table K V) (key : K) (val : V)
    (alloc : Bool) : Option (Bool × Table K V) := do
  let T ← (if crowded T.count T.cap then T.grow limit alloc else some T)
  let i ← T.find (hash key) key
  match T.slots i with
  | none =>
    if T.cap ≤ T.count + 1 then some (false, T)
    else some (true, { T.set i ⟨key, hash key, val⟩ with count := T.count + 1 })
  | some e => some (true, T.set i { e with val })

def get (T : Table K V) (key : K) : Option (Option V) := do
  let i ← T.find (hash key) key
  some ((T.slots i).map (·.val))

end Ops

/-! ## Walks -/

/-- The entry stands in some slot. -/
def Has (T : Table K V) (e : Entry K V) : Prop := ∃ i < T.cap, T.slots i = some e

/-- The slots that are taken. -/
def taken (T : Table K V) : Finset Nat := (Finset.range T.cap).filter fun i => (T.slots i).isSome

/-- The capacity is a power of two. -/
def Sized (T : Table K V) : Prop := ∃ k, T.cap = 2 ^ k

theorem Sized.pos {T : Table K V} (h : T.Sized) : 0 < T.cap := by
  obtain ⟨k, hk⟩ := h
  rw [hk]
  exact Nat.pow_pos (by decide)

theorem Sized.start {T : Table K V} (hT : T.Sized) (h : Nat) : T.start h = h % T.cap := by
  obtain ⟨k, hk⟩ := hT
  rw [Table.start, hk, Nat.and_two_pow_sub_one_eq_mod]

theorem Sized.next {T : Table K V} (hT : T.Sized) (h : Nat) :
    T.next (h % T.cap) = (h + 1) % T.cap := by
  obtain ⟨k, hk⟩ := hT
  rw [Table.next, hk, Nat.and_two_pow_sub_one_eq_mod, Nat.mod_add_mod]

/-- A walk passes the entries that do not stop it. -/
theorem walk_eq {T : Table K V} (hT : T.Sized) {stop : Entry K V → Bool} (n h fuel : Nat)
    (hpass : ∀ k < n, ∃ e, T.slots ((h + k) % T.cap) = some e ∧ stop e = false)
    (hend : T.slots ((h + n) % T.cap) = none ∨
      ∃ e, T.slots ((h + n) % T.cap) = some e ∧ stop e = true) (hfuel : n < fuel) :
    T.walk stop fuel (h % T.cap) = some ((h + n) % T.cap) := by
  induction n generalizing h fuel with
  | zero =>
    obtain ⟨fuel, rfl⟩ : ∃ f, fuel = f + 1 := ⟨fuel - 1, by omega⟩
    rw [Nat.add_zero] at hend ⊢
    rw [walk]
    rcases hend with hnone | ⟨e, he, hstop⟩
    · rw [hnone]
      rfl
    · rw [he]
      exact if_pos hstop
  | succ n ih =>
    obtain ⟨fuel, rfl⟩ : ∃ f, fuel = f + 1 := ⟨fuel - 1, by omega⟩
    obtain ⟨e, he, hstop⟩ := hpass 0 (Nat.zero_lt_succ n)
    rw [Nat.add_zero] at he
    rw [walk, he]
    dsimp only
    rw [hstop, if_neg Bool.false_ne_true, hT.next, ← Nat.add_assoc, Nat.add_right_comm]
    refine ih (h + 1) fuel (fun k hk => ?_) ?_ (by omega)
    · have := hpass (k + 1) (by omega)
      rwa [← Nat.add_assoc, Nat.add_right_comm] at this
    · rwa [← Nat.add_assoc, Nat.add_right_comm] at hend

/-- Where a slot is free a walk ends, at the first slot that is free or stops it. -/
theorem walk_spec {T : Table K V} (hT : T.Sized) {i : Nat} (hi : i < T.cap)
    (hfree : T.slots i = none) (stop : Entry K V → Bool) (h : Nat) :
    ∃ d, T.walk stop T.cap (T.start h) = some ((h + d) % T.cap) ∧
      (∀ k < d, ∃ e, T.slots ((h + k) % T.cap) = some e ∧ stop e = false) ∧
      (T.slots ((h + d) % T.cap) = none ∨
        ∃ e, T.slots ((h + d) % T.cap) = some e ∧ stop e = true) := by
  classical
  have hreach : ∃ d < T.cap, (h + d) % T.cap = i := by
    have hmod := Nat.mod_lt h hT.pos
    refine ⟨(i + (T.cap - h % T.cap)) % T.cap, Nat.mod_lt _ hT.pos, ?_⟩
    rw [Nat.add_mod_mod, ← Nat.mod_add_mod, show h % T.cap + (i + (T.cap - h % T.cap)) =
      i + T.cap by omega, Nat.add_mod_right, Nat.mod_eq_of_lt hi]
  obtain ⟨d, hd, hdi⟩ := hreach
  have hex : ∃ d, T.slots ((h + d) % T.cap) = none ∨
      ∃ e, T.slots ((h + d) % T.cap) = some e ∧ stop e = true := ⟨d, .inl (hdi ▸ hfree)⟩
  have hpass : ∀ k < Nat.find hex, ∃ e, T.slots ((h + k) % T.cap) = some e ∧ stop e = false := by
    intro k hk
    have hnot := Nat.find_min hex hk
    simp only [not_or, not_exists, not_and, Bool.not_eq_true] at hnot
    obtain ⟨e, he⟩ := Option.ne_none_iff_exists'.mp hnot.1
    exact ⟨e, he, hnot.2 e he⟩
  have hle : Nat.find hex ≤ d := Nat.find_min' hex (.inl (hdi ▸ hfree))
  refine ⟨Nat.find hex, ?_, hpass, Nat.find_spec hex⟩
  rw [hT.start]
  exact walk_eq hT _ h T.cap hpass (Nat.find_spec hex) (by omega)

/-! ## The invariant -/

/-- No free slot stands before an entry on its probe path, and no key stands twice. -/
structure Chained (hash : K → Nat) (T : Table K V) : Prop where
  sized : T.Sized
  hashed : ∀ e, T.Has e → e.hash = hash e.key
  chain : ∀ i < T.cap, ∀ e, T.slots i = some e →
    ∃ d, i = (e.hash + d) % T.cap ∧ ∀ k < d, T.slots ((e.hash + k) % T.cap) ≠ none
  unique : ∀ i < T.cap, ∀ j < T.cap, ∀ e e', T.slots i = some e → T.slots j = some e' →
    e.key = e'.key → i = j

/-- A slot is free when fewer entries are taken than there are slots. -/
theorem exists_free {T : Table K V} (h : T.taken.card < T.cap) :
    ∃ i < T.cap, T.slots i = none := by
  by_contra hno
  push Not at hno
  refine Nat.lt_irrefl T.cap (Nat.lt_of_le_of_lt ?_ h)
  have hall : T.taken = Finset.range T.cap := by
    refine Finset.filter_true_of_mem fun i hi => ?_
    exact Option.isSome_iff_ne_none.mpr (hno i (Finset.mem_range.mp hi))
  rw [hall, Finset.card_range]

theorem taken_set_free {T : Table K V} {i : Nat} (hi : i < T.cap) (hfree : T.slots i = none)
    (e : Entry K V) : (T.set i e).taken.card = T.taken.card + 1 := by
  have hins : (T.set i e).taken = insert i T.taken := by
    ext j
    simp only [taken, set, Finset.mem_filter, Finset.mem_range, Finset.mem_insert,
      Function.update_apply]
    by_cases hj : j = i
    · simp [hj, hi]
    · simp [hj]
  have hnot : i ∉ T.taken := by simp [taken, hfree]
  rw [hins, Finset.card_insert_of_notMem hnot]

theorem taken_set_same {T : Table K V} {i : Nat} {e₀ : Entry K V} (he₀ : T.slots i = some e₀)
    (e : Entry K V) : (T.set i e).taken = T.taken := by
  ext j
  simp only [taken, set, Finset.mem_filter, Finset.mem_range, Function.update_apply]
  by_cases hj : j = i
  · simp [hj, he₀]
  · simp [hj]

theorem has_set_free {T : Table K V} {i : Nat} (hi : i < T.cap) (hfree : T.slots i = none)
    (e x : Entry K V) : (T.set i e).Has x ↔ T.Has x ∨ x = e := by
  constructor
  · rintro ⟨j, hj, hx⟩
    simp only [set, Function.update_apply] at hx
    split at hx
    · exact .inr (Option.some.inj hx).symm
    · exact .inl ⟨j, hj, hx⟩
  · rintro (⟨j, hj, hx⟩ | rfl)
    · have hne : j ≠ i := by
        rintro rfl
        rw [hfree] at hx
        contradiction
      exact ⟨j, hj, by simpa only [set, Function.update_apply, if_neg hne] using hx⟩
    · exact ⟨i, hi, by simp [set]⟩

/-- An entry put into the first free slot of its path continues the chains. -/
theorem Chained.place {hash : K → Nat} {T : Table K V} (hT : T.Chained hash) {i d : Nat}
    {e : Entry K V} (hhash : e.hash = hash e.key) (hi : i = (e.hash + d) % T.cap)
    (hfree : T.slots i = none) (hpath : ∀ k < d, T.slots ((e.hash + k) % T.cap) ≠ none)
    (hnew : ∀ x, T.Has x → x.key ≠ e.key) : (T.set i e).Chained hash := by
  have hlt : i < T.cap := hi ▸ Nat.mod_lt _ hT.sized.pos
  have hkeep : ∀ j, T.slots j ≠ none → (T.set i e).slots j ≠ none := by
    intro j hj
    simp only [set, Function.update_apply]
    split
    · exact Option.some_ne_none e
    · exact hj
  refine ⟨hT.sized, fun x hx => ?_, fun j hj x hx => ?_, fun j hj j' hj' x x' hx hx' hkey => ?_⟩
  · rcases (has_set_free hlt hfree e x).mp hx with hx | rfl
    · exact hT.hashed x hx
    · exact hhash
  · simp only [set, Function.update_apply] at hx
    split at hx
    · rename_i hji
      obtain rfl := Option.some.inj hx
      exact ⟨d, hji.trans hi, fun k hk => hkeep _ (hpath k hk)⟩
    · obtain ⟨d', hd', hpath'⟩ := hT.chain j hj x hx
      exact ⟨d', hd', fun k hk => hkeep _ (hpath' k hk)⟩
  · simp only [set, Function.update_apply] at hx hx'
    split at hx <;> split at hx'
    · rename_i hji hji'
      rw [hji, hji']
    · obtain rfl := Option.some.inj hx
      exact absurd hkey.symm (hnew x' ⟨j', hj', hx'⟩)
    · obtain rfl := Option.some.inj hx'
      exact absurd hkey (hnew x ⟨j, hj, hx⟩)
    · exact hT.unique j hj j' hj' x x' hx hx' hkey

/-- An update in place changes no chain. -/
theorem Chained.update {hash : K → Nat} {T : Table K V} (hT : T.Chained hash) {i : Nat}
    {e : Entry K V} (he : T.slots i = some e) (val : V) :
    (T.set i { e with val }).Chained hash := by
  have hold : ∀ j < T.cap, ∀ x, (T.set i { e with val }).slots j = some x →
      ∃ x₀, T.slots j = some x₀ ∧ x₀.key = x.key ∧ x₀.hash = x.hash := by
    intro j _ x hx
    simp only [set, Function.update_apply] at hx
    split at hx
    · rename_i hji
      obtain rfl := Option.some.inj hx
      exact ⟨e, hji ▸ he, rfl, rfl⟩
    · exact ⟨x, hx, rfl, rfl⟩
  have hkeep : ∀ j, T.slots j ≠ none → (T.set i { e with val }).slots j ≠ none := by
    intro j hj
    simp only [set, Function.update_apply]
    split
    · exact Option.some_ne_none _
    · exact hj
  refine ⟨hT.sized, fun x hx => ?_, fun j hj x hx => ?_, fun j hj j' hj' x x' hx hx' hkey => ?_⟩
  · obtain ⟨j, hj, hx⟩ := hx
    obtain ⟨x₀, hx₀, hkey, hhash⟩ := hold j hj x hx
    rw [← hkey, ← hhash]
    exact hT.hashed x₀ ⟨j, hj, hx₀⟩
  · obtain ⟨x₀, hx₀, -, hhash⟩ := hold j hj x hx
    rw [← hhash]
    obtain ⟨d, hd, hpath⟩ := hT.chain j hj x₀ hx₀
    exact ⟨d, hd, fun k hk => hkeep _ (hpath k hk)⟩
  · obtain ⟨x₀, hx₀, hkey₀, -⟩ := hold j hj x hx
    obtain ⟨x₁, hx₁, hkey₁, -⟩ := hold j' hj' x' hx'
    exact hT.unique j hj j' hj' x₀ x₁ hx₀ hx₁ (by rw [hkey₀, hkey₁, hkey])

/-- The walk for a key ends at its entry, or at the first free slot of its path when the table
has none. -/
theorem find_spec [DecidableEq K] {hash : K → Nat} {T : Table K V} (hT : T.Chained hash)
    (hroom : T.taken.card < T.cap) (key : K) :
    ∃ i < T.cap, T.find (hash key) key = some i ∧
      ((∃ e, T.slots i = some e ∧ e.key = key) ∨
        (T.slots i = none ∧ (∀ x, T.Has x → x.key ≠ key) ∧
          ∃ d, i = (hash key + d) % T.cap ∧
            ∀ k < d, T.slots ((hash key + k) % T.cap) ≠ none)) := by
  obtain ⟨j, hj, hfree⟩ := exists_free hroom
  obtain ⟨d, hwalk, hpass, hend⟩ := walk_spec hT.sized hj hfree
    (fun e => e.hash = hash key && e.key = key) (hash key)
  refine ⟨_, Nat.mod_lt _ hT.sized.pos, hwalk, ?_⟩
  rcases hend with hnone | ⟨e, he, hstop⟩
  · refine .inr ⟨hnone, ?_, d, rfl, fun k hk => ?_⟩
    · rintro x ⟨i, hi, hx⟩ rfl
      have hhash := hT.hashed x ⟨i, hi, hx⟩
      obtain ⟨d', hd', hpath⟩ := hT.chain i hi x hx
      rw [hhash] at hd' hpath
      -- the entry would have been met before the free slot, or lie behind it
      rcases Nat.lt_trichotomy d' d with hlt | rfl | hgt
      · obtain ⟨e, he, hstop⟩ := hpass d' hlt
        rw [← hd', hx] at he
        obtain rfl := Option.some.inj he
        simp [hhash] at hstop
      · rw [← hd', hx] at hnone
        contradiction
      · exact hpath d hgt hnone
    · obtain ⟨e, he, -⟩ := hpass k hk
      rw [he]
      exact Option.some_ne_none e
  · simp only [Bool.and_eq_true, decide_eq_true_eq] at hstop
    exact .inl ⟨e, he, hstop.2⟩

theorem chained_empty (hash : K → Nat) {k : Nat} : (empty (2 ^ k) : Table K V).Chained hash := by
  refine ⟨⟨k, rfl⟩, ?_, ?_, ?_⟩
  · rintro e ⟨i, -, he⟩
    contradiction
  · intro i _ e he
    contradiction
  · intro i _ j _ e e' he
    contradiction

theorem taken_empty (cap : Nat) : (empty cap : Table K V).taken.card = 0 := by
  simp [taken, empty]

/-- An entry with a new key moves to the first free slot of its path. -/
theorem move_spec {hash : K → Nat} {N : Table K V} (hN : N.Chained hash)
    (hroom : N.taken.card < N.cap) {e : Entry K V} (hhash : e.hash = hash e.key)
    (hnew : ∀ x, N.Has x → x.key ≠ e.key) :
    ∃ i, N.free e.hash = some i ∧ (N.set i e).Chained hash ∧
      (∀ x, (N.set i e).Has x ↔ N.Has x ∨ x = e) ∧
      (N.set i e).taken.card = N.taken.card + 1 := by
  obtain ⟨j, hj, hfree⟩ := exists_free hroom
  obtain ⟨d, hwalk, hpass, hend⟩ := walk_spec hN.sized hj hfree (fun _ => false) e.hash
  have hnone : N.slots ((e.hash + d) % N.cap) = none := by
    rcases hend with hnone | ⟨x, -, hx⟩
    · exact hnone
    · contradiction
  have hlt := Nat.mod_lt (e.hash + d) hN.sized.pos
  have hpath : ∀ k < d, N.slots ((e.hash + k) % N.cap) ≠ none := by
    intro k hk
    obtain ⟨x, hx, -⟩ := hpass k hk
    rw [hx]
    exact Option.some_ne_none x
  exact ⟨_, hwalk, hN.place hhash rfl hnone hpath hnew, has_set_free hlt hnone e,
    taken_set_free hlt hnone e⟩

/-- The moved entries are those of the slots passed so far. -/
theorem rehash_spec {hash : K → Nat} {T : Table K V} (hT : T.Chained hash) (n : Nat)
    (hn : n ≤ T.cap) :
    ∃ N, T.rehash n = some N ∧ N.Chained hash ∧ N.cap = T.cap * 2 ∧
      (∀ x, N.Has x ↔ ∃ j < n, T.slots j = some x) ∧
      N.taken.card = ((Finset.range n).filter fun i => (T.slots i).isSome).card := by
  induction n with
  | zero =>
    obtain ⟨k, hk⟩ := hT.sized
    have hcap : T.cap * 2 = 2 ^ (k + 1) := by rw [hk, Nat.pow_succ]
    refine ⟨empty (T.cap * 2), rfl, hcap ▸ chained_empty hash, rfl, fun x => ?_, taken_empty _⟩
    constructor
    · rintro ⟨i, -, he⟩
      contradiction
    · rintro ⟨j, hj, -⟩
      omega
  | succ n ih =>
    obtain ⟨N, he, hN, hcap, hhas, hcard⟩ := ih (by omega)
    have hle : N.taken.card ≤ n := by
      rw [hcard]
      exact (Finset.card_filter_le _ _).trans (Finset.card_range n).le
    rw [rehash, he]
    simp only [Option.bind_eq_bind, Option.bind_some]
    rw [Finset.range_add_one, Finset.filter_insert]
    cases hslot : T.slots n with
    | none =>
      refine ⟨N, rfl, hN, hcap, fun x => ?_, hcard⟩
      rw [hhas]
      constructor
      · rintro ⟨j, hj, hx⟩
        exact ⟨j, by omega, hx⟩
      · rintro ⟨j, hj, hx⟩
        have hne : j ≠ n := by
          rintro rfl
          rw [hslot] at hx
          contradiction
        exact ⟨j, by omega, hx⟩
    | some e =>
      have hmem : T.Has e := ⟨n, by omega, hslot⟩
      have hnew : ∀ x, N.Has x → x.key ≠ e.key := by
        intro x hx hkey
        obtain ⟨j, hj, hx⟩ := (hhas x).mp hx
        have := hT.unique j (by omega) n (by omega) x e hx hslot hkey
        omega
      obtain ⟨i, hfree, hmoved, hmovedHas, hmovedCard⟩ :=
        move_spec hN (by omega) (hT.hashed e hmem) hnew
      dsimp only
      rw [hfree]
      refine ⟨_, rfl, hmoved, hcap, fun x => ?_, ?_⟩
      · rw [hmovedHas, hhas]
        constructor
        · rintro (⟨j, hj, hx⟩ | rfl)
          · exact ⟨j, by omega, hx⟩
          · exact ⟨n, by omega, hslot⟩
        · rintro ⟨j, hj, hx⟩
          by_cases hjn : j = n
          · subst hjn
            exact .inr (Option.some.inj (hx.symm.trans hslot))
          · exact .inl ⟨j, by omega, hx⟩
      · rw [hmovedCard, if_pos (by rfl), Finset.card_insert_of_notMem (by simp), hcard]

/-! ## Operations -/

/-- What a table keeps between two operations: its counter counts the entries and leaves a slot
free. -/
structure Good (hash : K → Nat) (T : Table K V) : Prop where
  chained : T.Chained hash
  count : T.count = T.taken.card
  room : T.count < T.cap

/-- The table holds the value for the key. -/
def Maps (T : Table K V) (key : K) (val : V) : Prop := ∃ e, T.Has e ∧ e.key = key ∧ e.val = val

variable {hash : K → Nat} {T : Table K V}

theorem Good.exists_free (hT : T.Good hash) : ∃ i < T.cap, T.slots i = none :=
  Table.exists_free (hT.count ▸ hT.room)

/-- The attempt to grow always ends and loses nothing. -/
theorem grow_spec (hT : T.Good hash) (limit : Nat) (alloc : Bool) :
    ∃ N, T.grow limit alloc = some N ∧ N.Good hash ∧ N.count = T.count ∧
      (N.cap = T.cap ∨ N.cap = T.cap * 2 ∧ T.cap ≤ limit ∧ alloc = true) ∧
      ∀ x, N.Has x ↔ T.Has x := by
  unfold grow
  split
  · exact ⟨T, rfl, hT, rfl, .inl rfl, fun _ => Iff.rfl⟩
  · rename_i hlimit
    split
    · rename_i halloc
      obtain ⟨N, he, hN, hcap, hhas, hcard⟩ := rehash_spec hT.chained T.cap (Nat.le_refl _)
      have hcount : T.count = N.taken.card := by rw [hT.count, hcard, taken]
      have hroom := hT.room
      rw [he]
      refine ⟨_, rfl, ⟨⟨hN.sized, hN.hashed, hN.chain, hN.unique⟩, hcount, ?_⟩, rfl,
        .inr ⟨hcap, by omega, halloc⟩, hhas⟩
      change T.count < N.cap
      omega
    · exact ⟨T, rfl, hT, rfl, .inl rfl, fun _ => Iff.rfl⟩

variable [DecidableEq K]

/-- The value found for a key is the one the table holds. -/
theorem get_spec (hT : T.Good hash) (key : K) :
    ∃ r, T.get hash key = some r ∧ ∀ val, r = some val ↔ T.Maps key val := by
  obtain ⟨i, hi, hfind, hcase⟩ := find_spec hT.chained (hT.count ▸ hT.room) key
  refine ⟨(T.slots i).map (·.val), by rw [get, hfind]; rfl, fun val => ?_⟩
  rcases hcase with ⟨e, he, hkey⟩ | ⟨hnone, habsent, -⟩
  · rw [he, Option.map_some, Option.some.injEq]
    constructor
    · rintro rfl
      exact ⟨e, ⟨i, hi, he⟩, hkey, rfl⟩
    · rintro ⟨x, ⟨j, hj, hx⟩, hxkey, rfl⟩
      obtain rfl := hT.chained.unique i hi j hj e x he hx (hkey.trans hxkey.symm)
      rw [Option.some.inj (he.symm.trans hx)]
  · rw [hnone]
    simp only [Option.map_none, reduceCtorEq, false_iff]
    rintro ⟨x, hx, hxkey, -⟩
    exact habsent x hx hxkey

/-- Overwriting the value of a key. -/
theorem maps_update (hT : T.Good hash) {i : Nat} (hi : i < T.cap) {e : Entry K V}
    (he : T.slots i = some e) (val : V) (k : K) (v : V) :
    (T.set i { e with val }).Maps k v ↔ if k = e.key then v = val else T.Maps k v := by
  constructor
  · rintro ⟨x, ⟨j, hj, hx⟩, rfl, rfl⟩
    simp only [set, Function.update_apply] at hx
    split at hx
    · obtain rfl := Option.some.inj hx
      simp
    · rename_i hne
      have hkey : x.key ≠ e.key := fun hkey =>
        hne (hT.chained.unique j hj i hi x e hx he hkey)
      rw [if_neg hkey]
      exact ⟨x, ⟨j, hj, hx⟩, rfl, rfl⟩
  · intro h
    split at h
    · rename_i hk
      exact ⟨{ e with val }, ⟨i, hi, by simp [set]⟩, hk.symm, h.symm⟩
    · rename_i hk
      obtain ⟨x, ⟨j, hj, hx⟩, rfl, rfl⟩ := h
      have hne : j ≠ i := by
        rintro rfl
        exact hk (by rw [Option.some.inj (hx.symm.trans he)])
      exact ⟨x, ⟨j, hj, by simpa only [set, Function.update_apply, if_neg hne] using hx⟩, rfl, rfl⟩

/-- Adding a key that is not there. -/
theorem maps_insert {i : Nat} (hi : i < T.cap) (hfree : T.slots i = none) {key : K} {h : Nat}
    (habsent : ∀ x, T.Has x → x.key ≠ key) (val : V) (k : K) (v : V) :
    (T.set i ⟨key, h, val⟩).Maps k v ↔ if k = key then v = val else T.Maps k v := by
  simp only [Maps, has_set_free hi hfree]
  constructor
  · rintro ⟨x, hx | rfl, rfl, rfl⟩
    · rw [if_neg (habsent x hx)]
      exact ⟨x, hx, rfl, rfl⟩
    · simp
  · intro h
    split at h
    · rename_i hk
      exact ⟨_, .inr rfl, hk.symm, h.symm⟩
    · obtain ⟨x, hx, hkey, hval⟩ := h
      exact ⟨x, .inl hx, hkey, hval⟩

/-- A put updates a key that is there, inserts a new one, or refuses a new one for which only the
last slot is free. -/
theorem put_spec (hT : T.Good hash) (crowded : Nat → Nat → Bool) (limit : Nat) (key : K) (val : V)
    (alloc : Bool) :
    ∃ ok N, T.put hash crowded limit key val alloc = some (ok, N) ∧ N.Good hash ∧
      (N.cap = T.cap ∨ N.cap = T.cap * 2 ∧ T.cap ≤ limit) ∧
      ((ok = true ∧ (∀ k v, N.Maps k v ↔ if k = key then v = val else T.Maps k v) ∧
          ((∃ v, T.Maps key v) ∧ N.count = T.count ∨
            (¬ ∃ v, T.Maps key v) ∧ N.count = T.count + 1)) ∨
        (ok = false ∧ (¬ ∃ v, T.Maps key v) ∧ (∀ k v, N.Maps k v ↔ T.Maps k v) ∧
          N.count = T.count ∧ N.count + 1 = N.cap)) := by
  have hgrow : ∃ G, (if crowded T.count T.cap then T.grow limit alloc else some T) = some G ∧
      G.Good hash ∧ G.count = T.count ∧ (G.cap = T.cap ∨ G.cap = T.cap * 2 ∧ T.cap ≤ limit) ∧
      ∀ x, G.Has x ↔ T.Has x := by
    split
    · obtain ⟨G, he, hG, hcount, hcap, hhas⟩ := grow_spec hT limit alloc
      exact ⟨G, he, hG, hcount, hcap.imp_right fun h => ⟨h.1, h.2.1⟩, hhas⟩
    · exact ⟨T, rfl, hT, rfl, .inl rfl, fun _ => Iff.rfl⟩
  obtain ⟨G, he, hG, hcount, hcap, hhas⟩ := hgrow
  have hmaps : ∀ k v, G.Maps k v ↔ T.Maps k v := fun k v => by simp only [Maps, hhas]
  obtain ⟨i, hi, hfind, hcase⟩ := find_spec hG.chained (hG.count ▸ hG.room) key
  rw [put, he]
  simp only [Option.bind_eq_bind, Option.bind_some, hfind]
  rcases hcase with ⟨e, hslot, rfl⟩ | ⟨hnone, habsent, d, hd, hpath⟩
  · rw [hslot]
    refine ⟨true, _, rfl, ⟨hG.chained.update hslot val, ?_, hG.room⟩, hcap, .inl ⟨rfl, fun k v => ?_,
      .inl ⟨⟨e.val, (hmaps _ _).mp ⟨e, ⟨i, hi, hslot⟩, rfl, rfl⟩⟩, hcount⟩⟩⟩
    · rw [taken_set_same hslot]
      exact hG.count
    · rw [maps_update hG hi hslot, hmaps]
  · have hfresh : ¬ ∃ v, T.Maps key v := by
      rintro ⟨v, x, hx, hkey, -⟩
      exact habsent x ((hhas x).mpr hx) hkey
    have hroom := hG.room
    rw [hnone]
    dsimp only
    split
    · exact ⟨false, G, rfl, hG, hcap, .inr ⟨rfl, hfresh, hmaps, hcount, by omega⟩⟩
    · have hplace := hG.chained.place (e := ⟨key, hash key, val⟩) rfl hd hnone hpath habsent
      have hcard := taken_set_free hi hnone ⟨key, hash key, val⟩
      refine ⟨true, _, rfl, ⟨⟨hplace.sized, hplace.hashed, hplace.chain, hplace.unique⟩, ?_, ?_⟩,
        hcap, .inl ⟨rfl, fun k v => ?_, .inr ⟨hfresh, by rw [← hcount]⟩⟩⟩
      · change G.count + 1 = (G.set i ⟨key, hash key, val⟩).taken.card
        rw [hcard, hG.count]
      · change G.count + 1 < G.cap
        omega
      · rw [← hmaps]
        exact maps_insert hi hnone habsent val k v

end Table

/-! ## Sequences of puts and gets -/

inductive Op (K V : Type) where
  | put (key : K) (val : V) (alloc : Bool)
  | get (key : K)

/-- The table, and the puts that succeeded with the newest first. -/
structure Run (K V : Type) where
  table : Table K V
  log : List (K × V)

section Runs

variable [DecidableEq K] (hash : K → Nat) (crowded : Nat → Nat → Bool) (limit : Nat)

def exec (r : Run K V) : Op K V → Option (Run K V)
  | .put key val alloc => do
    let (ok, T) ← r.table.put hash crowded limit key val alloc
    some ⟨T, if ok then (key, val) :: r.log else r.log⟩
  | .get key => do
    let _ ← r.table.get hash key
    some r

/-- The value of the last successful put for a key. -/
def lastPut (log : List (K × V)) (key : K) : Option V := log.lookup key

/-- The keys put successfully. -/
def keys (log : List (K × V)) : Finset K := (log.map Prod.fst).toFinset

/-- The table is the map of the successful puts. -/
structure Refines (r : Run K V) : Prop where
  good : r.table.Good hash
  maps : ∀ key val, r.table.Maps key val ↔ lastPut r.log key = some val
  count : r.table.count = (keys r.log).card

variable {hash crowded limit}

theorem keys_cons (log : List (K × V)) (key : K) (val : V) :
    keys ((key, val) :: log) = insert key (keys log) := by
  simp [keys]

theorem lastPut_cons (log : List (K × V)) (key : K) (val : V) (k : K) :
    lastPut ((key, val) :: log) k = if k = key then some val else lastPut log k := by
  rw [lastPut, lastPut, List.lookup_cons]
  split
  · rename_i h
    rw [if_pos (beq_iff_eq.mp h)]
  · rename_i h
    rw [if_neg (beq_eq_false_iff_ne.mp h)]

theorem mem_keys_iff (log : List (K × V)) (key : K) :
    key ∈ keys log ↔ ∃ val, lastPut log key = some val := by
  induction log with
  | nil => simp [keys, lastPut]
  | cons p log ih =>
    obtain ⟨key', val'⟩ := p
    rw [keys_cons, Finset.mem_insert, ih]
    simp only [lastPut_cons]
    by_cases h : key = key'
    · simp [h]
    · simp [h]

theorem Refines.present_iff {r : Run K V} (hr : Refines hash r) (key : K) :
    (∃ val, r.table.Maps key val) ↔ key ∈ keys r.log := by
  rw [mem_keys_iff]
  simp only [hr.maps]

/-- One operation ends and keeps the table the map of the successful puts. -/
theorem Refines.exec {r : Run K V} (hr : Refines hash r) (op : Op K V) :
    ∃ r', exec hash crowded limit r op = some r' ∧ Refines hash r' ∧
      (r'.table.cap = r.table.cap ∨ r'.table.cap = r.table.cap * 2 ∧ r.table.cap ≤ limit) := by
  cases op with
  | get key =>
    obtain ⟨v, hget, -⟩ := Table.get_spec hr.good key
    exact ⟨r, by simp [OpenAddressing.exec, hget], hr, .inl rfl⟩
  | put key val alloc =>
    obtain ⟨ok, N, hput, hN, hcap, hcase⟩ := Table.put_spec hr.good crowded limit key val alloc
    refine ⟨⟨N, if ok then (key, val) :: r.log else r.log⟩, by simp [OpenAddressing.exec, hput], ?_,
      hcap⟩
    rcases hcase with ⟨rfl, hmaps, hcount⟩ | ⟨rfl, -, hmaps, hcount, -⟩
    · refine ⟨hN, fun k v => ?_, ?_⟩
      · rw [hmaps, if_pos rfl, lastPut_cons, hr.maps]
        split
        · rw [Option.some.injEq, eq_comm]
        · rfl
      · rw [if_pos rfl, keys_cons]
        rw [hr.present_iff, hr.count] at hcount
        rcases hcount with ⟨hmem, hcount⟩ | ⟨hmem, hcount⟩
        · rw [Finset.insert_eq_of_mem hmem, hcount]
        · rw [Finset.card_insert_of_notMem hmem, hcount]
    · exact ⟨hN, fun k v => by rw [hmaps, hr.maps]; rfl, by rw [hcount, hr.count]; rfl⟩

/-- Every sequence of operations ends in the map of its successful puts. -/
theorem Refines.run {r : Run K V} (hr : Refines hash r) (hcap : r.table.cap ≤ limit * 2)
    (ops : List (Op K V)) :
    ∃ r', ops.foldlM (OpenAddressing.exec hash crowded limit) r = some r' ∧ Refines hash r' ∧
      r'.table.cap ≤ limit * 2 := by
  induction ops generalizing r with
  | nil => exact ⟨r, rfl, hr, hcap⟩
  | cons op ops ih =>
    obtain ⟨r₁, he, hr₁, hcap₁⟩ : ∃ r₁, OpenAddressing.exec hash crowded limit r op = some r₁ ∧
        Refines hash r₁ ∧ (r₁.table.cap = r.table.cap ∨
          r₁.table.cap = r.table.cap * 2 ∧ r.table.cap ≤ limit) := hr.exec op
    obtain ⟨r₂, he₂, hr₂, hcap₂⟩ := ih hr₁ (by omega)
    exact ⟨r₂, by rw [List.foldlM_cons, he]; exact he₂, hr₂, hcap₂⟩

theorem refines_empty {k : Nat} : Refines hash (⟨empty (2 ^ k), []⟩ : Run K V) := by
  refine ⟨⟨Table.chained_empty hash, (Table.taken_empty _).symm, Nat.pow_pos (by decide)⟩,
    fun key val => ?_, rfl⟩
  simp only [Table.Maps, lastPut, List.lookup_nil, reduceCtorEq, iff_false]
  rintro ⟨e, ⟨i, -, he⟩, -⟩
  contradiction

/-- What a caller sees of a table that refines its puts. -/
structure Faithful (hash : K → Nat) (crowded : Nat → Nat → Bool) (limit : Nat) (r : Run K V) :
    Prop where
  get : ∀ key, r.table.get hash key = some (lastPut r.log key)
  ends : ∀ key val alloc, (r.table.put hash crowded limit key val alloc).isSome
  present : ∀ key val alloc, (lastPut r.log key).isSome →
    ∃ T, r.table.put hash crowded limit key val alloc = some (true, T)
  refused : ∀ key val alloc T, r.table.put hash crowded limit key val alloc = some (false, T) →
    lastPut r.log key = none ∧ T.count + 1 = T.cap
  count : r.table.count = (keys r.log).card
  free : ∃ i < r.table.cap, r.table.slots i = none

theorem Refines.faithful {r : Run K V} (hr : Refines hash r) :
    Faithful hash crowded limit r := by
  have habsent : ∀ key, (¬ ∃ v, r.table.Maps key v) → lastPut r.log key = none := by
    intro key h
    rw [hr.present_iff, mem_keys_iff] at h
    exact Option.eq_none_iff_forall_ne_some.mpr fun v hv => h ⟨v, hv⟩
  refine ⟨fun key => ?_, fun key val alloc => ?_, fun key val alloc hkey => ?_,
    fun key val alloc T hput => ?_, hr.count, hr.good.exists_free⟩
  · obtain ⟨v, hget, hv⟩ := Table.get_spec hr.good key
    rw [hget, Option.some.injEq]
    refine Option.ext fun val => ?_
    rw [hv, hr.maps]
  · obtain ⟨ok, N, hput, -⟩ := Table.put_spec hr.good crowded limit key val alloc
    rw [hput]
    rfl
  · obtain ⟨ok, N, hput, -, -, hcase⟩ := Table.put_spec hr.good crowded limit key val alloc
    rcases hcase with ⟨rfl, -⟩ | ⟨-, hno, -⟩
    · exact ⟨N, hput⟩
    · rw [habsent key hno] at hkey
      contradiction
  · obtain ⟨ok, N, hput', -, -, hcase⟩ := Table.put_spec hr.good crowded limit key val alloc
    rw [hput', Option.some.injEq, Prod.mk.injEq] at hput
    obtain ⟨rfl, rfl⟩ := hput
    rcases hcase with ⟨htrue, -⟩ | ⟨-, hno, -, -, hfull⟩
    · contradiction
    · exact ⟨habsent key hno, hfull⟩

end Runs

end Mlxd.Lib.OpenAddressing
