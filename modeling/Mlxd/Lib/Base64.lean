import Mathlib.Algebra.Ring.Nat
import Mathlib.Tactic.Common

/-!
# Base 64

Bytes are written in groups of three as four digits, and the last group is padded. The digits are
those of any alphabet. Only whole groups are decoded, with padding at the end alone, and the bits
that the padding cuts off have to be zero.
-/
namespace Mlxd.Lib.Base64

/-- The digits of the numbers below 64 with their values, and the padding, which is no digit. -/
structure Alphabet where
  digit : Nat → UInt8
  value : UInt8 → Option Nat
  pad : UInt8
  value_digit : ∀ n < 64, value (digit n) = some n
  value_pad : value pad = none

/-- The number that three bytes stand for. -/
def group (a b c : UInt8) : Nat := (a.toNat * 256 + b.toNat) * 256 + c.toNat

/-- The number that four digits stand for. -/
def number (w x y z : Nat) : Nat := ((w * 64 + x) * 64 + y) * 64 + z

/-- A byte of a group, counted from the right. -/
def byteAt (n k : Nat) : UInt8 := UInt8.ofNat (n / 256 ^ k)

section Codec

variable (A : Alphabet)

/-- A digit of a group, counted from the right. -/
def Alphabet.digitAt (n k : Nat) : UInt8 := A.digit (n / 64 ^ k % 64)

def encode : List UInt8 → List UInt8
  | [] => []
  | [a] => [A.digitAt (group a 0 0) 3, A.digitAt (group a 0 0) 2, A.pad, A.pad]
  | [a, b] =>
    [A.digitAt (group a b 0) 3, A.digitAt (group a b 0) 2, A.digitAt (group a b 0) 1, A.pad]
  | a :: b :: c :: rest =>
    A.digitAt (group a b c) 3 :: A.digitAt (group a b c) 2 :: A.digitAt (group a b c) 1 ::
      A.digitAt (group a b c) 0 :: encode rest

/-- The bytes of the last group; the digits before the padding hold no further bits. -/
def decodeLast (w x y : UInt8) : Option (List UInt8) := do
  let w ← A.value w
  let x ← A.value x
  if y = A.pad then
    if x % 16 = 0 then some [byteAt (number w x 0 0) 2] else none
  else
    let y ← A.value y
    if y % 4 = 0 then some [byteAt (number w x y 0) 2, byteAt (number w x y 0) 1] else none

def decodeGroup (w x y z : UInt8) : Option (List UInt8) := do
  let n := number (← A.value w) (← A.value x) (← A.value y) (← A.value z)
  some [byteAt n 2, byteAt n 1, byteAt n 0]

def decode : List UInt8 → Option (List UInt8)
  | [] => some []
  | w :: x :: y :: z :: rest =>
    if z = A.pad ∧ rest = [] then decodeLast A w x y
    else do return (← decodeGroup A w x y z) ++ (← decode rest)
  | _ => none

variable {A}

/-! ## Groups -/

theorem group_lt (a b c : UInt8) : group a b c < 2 ^ 24 := by
  have ha := a.toNat_lt
  have hb := b.toNat_lt
  have hc := c.toNat_lt
  rw [group]
  omega

/-- The four digits of a number of 24 bits. -/
theorem number_digits {n : Nat} (h : n < 2 ^ 24) :
    number (n / 64 ^ 3 % 64) (n / 64 ^ 2 % 64) (n / 64 ^ 1 % 64) (n / 64 ^ 0 % 64) = n := by
  rw [number]
  omega

theorem byteAt_group (a b c : UInt8) : byteAt (group a b c) 2 = a ∧
    byteAt (group a b c) 1 = b ∧ byteAt (group a b c) 0 = c := by
  have ha := a.toNat_lt
  have hb := b.toNat_lt
  have hc := c.toNat_lt
  have hbyte : ∀ (n : Nat) (x : UInt8), n % 256 = x.toNat → UInt8.ofNat n = x := by
    intro n x h
    rw [← UInt8.toNat_inj, UInt8.toNat_ofNat']
    exact h
  refine ⟨hbyte _ a ?_, hbyte _ b ?_, hbyte _ c ?_⟩ <;> rw [group] <;> omega

/-! ## Digits -/

theorem Alphabet.value_digitAt (n k : Nat) :
    A.value (A.digitAt n k) = some (n / 64 ^ k % 64) :=
  A.value_digit _ (Nat.mod_lt _ (by decide))

theorem Alphabet.digitAt_ne_pad (n k : Nat) : A.digitAt n k ≠ A.pad := by
  intro h
  have hvalue := A.value_digitAt n k
  rw [h, A.value_pad] at hvalue
  contradiction

theorem decodeGroup_digits (a b c : UInt8) :
    decodeGroup A (A.digitAt (group a b c) 3) (A.digitAt (group a b c) 2)
      (A.digitAt (group a b c) 1) (A.digitAt (group a b c) 0) = some [a, b, c] := by
  obtain ⟨ha, hb, hc⟩ := byteAt_group a b c
  simp only [decodeGroup, A.value_digitAt, Option.bind_eq_bind, Option.bind_some,
    number_digits (group_lt a b c), ha, hb, hc]

theorem decodeLast_one (a : UInt8) :
    decodeLast A (A.digitAt (group a 0 0) 3) (A.digitAt (group a 0 0) 2) A.pad = some [a] := by
  have hnumber := number_digits (group_lt a 0 0)
  have hlow : group a 0 0 / 64 ^ 1 % 64 = 0 ∧ group a 0 0 / 64 ^ 0 % 64 = 0 ∧
      group a 0 0 / 64 ^ 2 % 64 % 16 = 0 := by
    have hzero : (0 : UInt8).toNat = 0 := rfl
    rw [group, hzero]
    omega
  rw [hlow.1, hlow.2.1] at hnumber
  simp only [decodeLast, A.value_digitAt, Option.bind_eq_bind, Option.bind_some, if_true,
    hlow.2.2, hnumber, (byteAt_group a 0 0).1]

theorem decodeLast_two (a b : UInt8) :
    decodeLast A (A.digitAt (group a b 0) 3) (A.digitAt (group a b 0) 2)
      (A.digitAt (group a b 0) 1) = some [a, b] := by
  have hnumber := number_digits (group_lt a b 0)
  have hlow : group a b 0 / 64 ^ 0 % 64 = 0 ∧ group a b 0 / 64 ^ 1 % 64 % 4 = 0 := by
    have hzero : (0 : UInt8).toNat = 0 := rfl
    rw [group, hzero]
    omega
  rw [hlow.1] at hnumber
  obtain ⟨ha, hb, -⟩ := byteAt_group a b 0
  simp only [decodeLast, A.value_digitAt, Option.bind_eq_bind, Option.bind_some,
    if_neg (A.digitAt_ne_pad _ _), if_true, hlow.2, hnumber, ha, hb]

/-! ## The round trip -/

theorem decode_encode (bs : List UInt8) : decode A (encode A bs) = some bs := by
  induction bs using encode.induct with
  | case1 => rfl
  | case2 a => rw [encode, decode, if_pos ⟨rfl, rfl⟩, decodeLast_one]
  | case3 a b => rw [encode, decode, if_pos ⟨rfl, rfl⟩, decodeLast_two]
  | case4 a b c rest ih =>
    rw [encode, decode, if_neg fun h => A.digitAt_ne_pad _ _ h.1, decodeGroup_digits, ih]
    rfl

theorem length_encode (bs : List UInt8) : (encode A bs).length = (bs.length + 2) / 3 * 4 := by
  induction bs using encode.induct with
  | case1 => rfl
  | case2 a => simp [encode]
  | case3 a b => simp [encode]
  | case4 a b c rest ih =>
    simp only [encode, List.length_cons, ih]
    omega

/-- Only digits and padding are written. -/
theorem mem_encode {bs : List UInt8} {x : UInt8} (h : x ∈ encode A bs) :
    x = A.pad ∨ ∃ n < 64, x = A.digit n := by
  have hdigit : ∀ n k, A.digitAt n k = A.pad ∨ ∃ m < 64, A.digitAt n k = A.digit m :=
    fun n k => .inr ⟨_, Nat.mod_lt _ (by decide), rfl⟩
  induction bs using encode.induct with
  | case1 => contradiction
  | case2 a =>
    simp only [encode, List.mem_cons, List.not_mem_nil, or_false] at h
    rcases h with rfl | rfl | rfl | rfl
    · exact hdigit _ _
    · exact hdigit _ _
    · exact .inl rfl
    · exact .inl rfl
  | case3 a b =>
    simp only [encode, List.mem_cons, List.not_mem_nil, or_false] at h
    rcases h with rfl | rfl | rfl | rfl
    · exact hdigit _ _
    · exact hdigit _ _
    · exact hdigit _ _
    · exact .inl rfl
  | case4 a b c rest ih =>
    simp only [encode, List.mem_cons] at h
    rcases h with rfl | rfl | rfl | rfl | h
    · exact hdigit _ _
    · exact hdigit _ _
    · exact hdigit _ _
    · exact hdigit _ _
    · exact ih h

end Codec

/-! ## The standard alphabet -/

def standardDigit (n : Nat) : UInt8 :=
  if n < 26 then UInt8.ofNat (65 + n)
  else if n < 52 then UInt8.ofNat (97 + (n - 26))
  else if n < 62 then UInt8.ofNat (48 + (n - 52))
  else if n = 62 then 43
  else 47

def standardValue (x : UInt8) : Option Nat :=
  if 65 ≤ x ∧ x ≤ 90 then some (x.toNat - 65)
  else if 97 ≤ x ∧ x ≤ 122 then some (x.toNat - 97 + 26)
  else if 48 ≤ x ∧ x ≤ 57 then some (x.toNat - 48 + 52)
  else if x = 43 then some 62
  else if x = 47 then some 63
  else none

/-- Letters, digits, `+` and `/`, padded with `=`. -/
def standard : Alphabet where
  digit := standardDigit
  value := standardValue
  pad := 61
  value_digit := by decide
  value_pad := by decide

theorem zero_not_mem_encode (bs : List UInt8) : (0 : UInt8) ∉ encode standard bs := by
  have hdigit : ∀ n < 64, (0 : UInt8) ≠ standardDigit n := by decide
  intro h
  rcases mem_encode h with hpad | ⟨n, hn, hzero⟩
  · exact absurd hpad (by decide)
  · exact hdigit n hn hzero

end Mlxd.Lib.Base64
