import Mlxd.Lib.OpenAddressing
import Mlxd.Utf8Codec

/-!
# The maps of the tokenizer

The two tables are open-addressing maps: one from strings, one from ordered pairs of strings
whose hash puts a byte between the parts. The load factor is compared in 32 bits, which is exact
up to a capacity of 2^30; a table of 2^31 slots is not grown whatever the comparison says.
-/
namespace Mlxd.TokMap

open Mlxd.Unicode Mlxd.Lib OpenAddressing
open Mlxd.Utf8Codec (u32)

/-! ## Hashes -/

def FNV_INIT : Nat := 0xcbf29ce484222325
def FNV_PRIME : Nat := 0x100000001b3

/-- One byte of FNV-1a, in 64 bits. -/
def fnv1aByte (h b : Nat) : Nat := ((h ^^^ b) * FNV_PRIME) % 2 ^ 64

def fnv1aUpdate (h : Nat) (data : Bytes) : Nat := data.foldl (fun h b => fnv1aByte h b.toNat) h

def fnv1a (data : Bytes) : Nat := fnv1aUpdate FNV_INIT data

def mergeHash (pair : Bytes × Bytes) : Nat :=
  fnv1aUpdate (fnv1aByte (fnv1aUpdate FNV_INIT pair.1) 0xFF) pair.2

/-! ## Capacities -/

def smear (s v : Nat) : Nat := v ||| v >>> s

def nextPow2 (v : Nat) : Nat :=
  if v = 0 then 1
  else u32 (smear 16 (smear 8 (smear 4 (smear 2 (smear 1 (v - 1))))) + 1)

def MAP_MAX_INITIAL_CAP : Nat := 2 ^ 30

/-- The capacity for a hint. -/
def initialCap (hint : Nat) : Nat :=
  let hint := if MAP_MAX_INITIAL_CAP < hint then MAP_MAX_INITIAL_CAP else hint
  nextPow2 (if hint < 4 then 4 else hint)

/-- `count * 4 >= cap * 3` in 32 bits. -/
def crowded (count cap : Nat) : Bool := u32 (cap * 3) ≤ u32 (count * 4)

/-- `UINT32_MAX / 2`: a larger table is not grown. -/
def growLimit : Nat := UINT32_MAX / 2

/-! ## The maps -/

abbrev StrU32Map := Table Bytes Nat

abbrev MergeMap := Table (Bytes × Bytes) Nat

def strU32MapInit (hint : Nat) (alloc : Bool) : Option StrU32Map :=
  if alloc then some (empty (initialCap hint)) else none

def strU32MapPut (m : StrU32Map) (key : Bytes) (val : Nat) (alloc : Bool) :
    Option (Bool × StrU32Map) :=
  m.put fnv1a crowded growLimit key val alloc

def strU32MapGet (m : StrU32Map) (key : Bytes) : Option (Option Nat) := m.get fnv1a key

def mergeMapInit (hint : Nat) (alloc : Bool) : Option MergeMap :=
  if alloc then some (empty (initialCap hint)) else none

def mergeMapPut (m : MergeMap) (l r : Bytes) (rank : Nat) (alloc : Bool) :
    Option (Bool × MergeMap) :=
  m.put mergeHash crowded growLimit (l, r) rank alloc

def mergeMapGet (m : MergeMap) (l r : Bytes) : Option (Option Nat) := m.get mergeHash (l, r)

/-- The operations on a string map, one after the other. -/
def strU32MapRun (m : StrU32Map) (ops : List (Op Bytes Nat)) : Option (Run Bytes Nat) :=
  ops.foldlM (exec fnv1a crowded growLimit) ⟨m, []⟩

def mergeMapRun (m : MergeMap) (ops : List (Op (Bytes × Bytes) Nat)) :
    Option (Run (Bytes × Bytes) Nat) :=
  ops.foldlM (exec mergeHash crowded growLimit) ⟨m, []⟩

/-! ## The arithmetic of capacities -/

/-- A bit of `x` is set when one of the `n` bits of `v` from it on is. -/
def Smeared (n v x : Nat) : Prop := ∀ i, x.testBit i = true ↔ ∃ j, i ≤ j ∧ j < i + n ∧ v.testBit j = true

theorem Smeared.smear {n v x : Nat} (h : Smeared n v x) : Smeared (n + n) v (smear n x) := by
  intro i
  rw [TokMap.smear, Nat.testBit_or, Bool.or_eq_true, Nat.testBit_shiftRight, h, h]
  constructor
  · rintro (⟨j, hij, hj, hbit⟩ | ⟨j, hij, hj, hbit⟩)
    · exact ⟨j, hij, by omega, hbit⟩
    · exact ⟨j, by omega, by omega, hbit⟩
  · rintro ⟨j, hij, hj, hbit⟩
    by_cases hlt : j < i + n
    · exact .inl ⟨j, hij, hlt, hbit⟩
    · exact .inr ⟨j, by omega, by omega, hbit⟩

theorem smeared_one (v : Nat) : Smeared 1 v v := by
  intro i
  constructor
  · exact fun h => ⟨i, le_refl i, by omega, h⟩
  · rintro ⟨j, hij, hj, hbit⟩
    obtain rfl : j = i := by omega
    exact hbit

/-- All bits below the highest one are filled. -/
theorem Smeared.eq {v x k : Nat} (h : Smeared 32 v x) (hlo : 2 ^ k ≤ v) (hhi : v < 2 ^ (k + 1))
    (hk : k < 32) : x = 2 ^ (k + 1) - 1 := by
  have htop : v.testBit k = true := by
    rw [Nat.testBit_eq_decide_div_mod_eq, decide_eq_true_eq]
    have hdiv : v / 2 ^ k = 1 := by
      rw [Nat.div_eq_iff (Nat.pow_pos (by decide))]
      rw [Nat.pow_succ] at hhi
      omega
    rw [hdiv]
  refine Nat.eq_of_testBit_eq fun i => ?_
  rw [Nat.testBit_two_pow_sub_one, Bool.eq_iff_iff, h, decide_eq_true_eq]
  constructor
  · rintro ⟨j, hij, -, hbit⟩
    by_contra hge
    rw [Nat.testBit_lt_two_pow (lt_of_lt_of_le hhi (Nat.pow_le_pow_right (by decide) (by omega)))]
      at hbit
    contradiction
  · exact fun hi => ⟨k, by omega, by omega, htop⟩

/-- The next power of two, up to 2^30. -/
theorem nextPow2_spec {v : Nat} (hv : 2 ≤ v) (hmax : v ≤ 2 ^ 30) :
    ∃ k ≤ 30, nextPow2 v = 2 ^ k ∧ v ≤ 2 ^ k := by
  have hne : v - 1 ≠ 0 := by omega
  have hlo := Nat.log2_self_le hne
  have hhi := Nat.lt_log2_self (n := v - 1)
  have hlog : (v - 1).log2 < 30 := (Nat.log2_lt hne).mpr (by omega)
  refine ⟨(v - 1).log2 + 1, by omega, ?_, by omega⟩
  have hsmear := (((((smeared_one (v - 1)).smear).smear).smear).smear).smear
  have hpos : 0 < 2 ^ ((v - 1).log2 + 1) := Nat.pow_pos (by decide)
  have hlt : 2 ^ ((v - 1).log2 + 1) ≤ 2 ^ 30 := Nat.pow_le_pow_right (by decide) (by omega)
  rw [nextPow2, if_neg (by omega), hsmear.eq hlo hhi (by omega), u32,
    Nat.sub_add_cancel hpos, Nat.mod_eq_of_lt (by omega)]

theorem initialCap_spec (hint : Nat) : ∃ k ≤ 30, initialCap hint = 2 ^ k := by
  have hclamp : (if MAP_MAX_INITIAL_CAP < hint then MAP_MAX_INITIAL_CAP else hint) ≤ 2 ^ 30 := by
    unfold MAP_MAX_INITIAL_CAP
    split <;> omega
  have hbound : ∀ h ≤ 2 ^ 30, 2 ≤ (if h < 4 then 4 else h) ∧ (if h < 4 then 4 else h) ≤ 2 ^ 30 := by
    intro h hh
    split <;> omega
  obtain ⟨k, hk, he, -⟩ := nextPow2_spec (hbound _ hclamp).1 (hbound _ hclamp).2
  exact ⟨k, hk, he⟩

/-- Up to 2^30 slots the comparison is that of the exact load. -/
theorem crowded_exact {count cap : Nat} (hcount : count < cap) (hcap : cap ≤ 2 ^ 30) :
    crowded count cap = decide (cap * 3 ≤ count * 4) := by
  have hlt : cap * 3 < 4294967296 := by omega
  have hlt' : count * 4 < 4294967296 := by omega
  rw [crowded, u32, u32, Nat.mod_eq_of_lt hlt, Nat.mod_eq_of_lt hlt']

/-! ## Refinement -/

/-- What is seen of a map after any operations: reads give the last successful put for exactly
that key, every put ends, an update succeeds, only the insertion into the last free slot is
refused, the counter counts the keys, and a slot is free. -/
def Observed {K : Type} [DecidableEq K] (m : Table K Nat) (log : List (K × Nat))
    (put : K → Nat → Bool → Option (Bool × Table K Nat)) (get : K → Option (Option Nat)) : Prop :=
  (∀ key, get key = some (lastPut log key)) ∧
  (∀ key val alloc, (put key val alloc).isSome) ∧
  (∀ key val alloc, (lastPut log key).isSome → ∃ m', put key val alloc = some (true, m')) ∧
  (∀ key val alloc m', put key val alloc = some (false, m') →
    lastPut log key = none ∧ m'.count + 1 = m'.cap) ∧
  m.count = (keys log).card ∧
  (∃ i < m.cap, m.slots i = none) ∧ m.cap ≤ 2 ^ 31

/-- The largest power of two a table can reach. -/
theorem cap_le {K : Type} {hash : K → Nat} {m : Table K Nat} (hm : m.Good hash)
    (hcap : m.cap ≤ growLimit * 2) : m.cap ≤ 2 ^ 31 := by
  obtain ⟨k, hk⟩ := hm.chained.sized
  rw [hk] at hcap ⊢
  refine Nat.pow_le_pow_right (by decide) (Nat.lt_succ_iff.mp ?_)
  exact (Nat.pow_lt_pow_iff_right (by decide)).mp (lt_of_le_of_lt hcap (by decide))

theorem run_observed {K : Type} [DecidableEq K] (hash : K → Nat) (hint : Nat)
    (ops : List (Op K Nat)) :
    ∃ r, ops.foldlM (exec hash crowded growLimit) ⟨empty (initialCap hint), []⟩ = some r ∧
      Observed r.table r.log (r.table.put hash crowded growLimit) (r.table.get hash) := by
  obtain ⟨k, hk, hcap⟩ := initialCap_spec hint
  rw [hcap]
  have hsmall : 2 ^ k ≤ growLimit * 2 :=
    (Nat.pow_le_pow_right (by decide) hk).trans (by decide)
  have hempty : Refines hash (⟨empty (2 ^ k), []⟩ : Run K Nat) := refines_empty
  obtain ⟨r, he, hr, hrcap⟩ := hempty.run hsmall ops
  have h : Faithful hash crowded growLimit r := hr.faithful
  exact ⟨r, he, h.get, h.ends, h.present, h.refused, h.count, h.free, cap_le hr.good hrcap⟩

/-- Both maps are finite maps after every sequence of operations, whatever allocations fail. -/
theorem tok_maps_refine :
    (∀ hint m, strU32MapInit hint true = some m → ∀ ops, ∃ r, strU32MapRun m ops = some r ∧
      Observed r.table r.log (strU32MapPut r.table) (strU32MapGet r.table)) ∧
    ∀ hint m, mergeMapInit hint true = some m → ∀ ops, ∃ r, mergeMapRun m ops = some r ∧
      Observed r.table r.log (fun pair => mergeMapPut r.table pair.1 pair.2)
        (fun pair => mergeMapGet r.table pair.1 pair.2) := by
  refine ⟨fun hint m hm ops => ?_, fun hint m hm ops => ?_⟩
  · obtain rfl := Option.some.inj hm
    exact run_observed fnv1a hint ops
  · obtain rfl := Option.some.inj hm
    exact run_observed mergeHash hint ops

end Mlxd.TokMap
