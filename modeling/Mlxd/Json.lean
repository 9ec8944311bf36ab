import Mlxd.Unicode

/-!
# JSON documents

Documents as the JSON reader hands them out: strings are byte sequences, objects
keep their members in document order and may repeat a key. A document also
stands for its own text, so writing it fails exactly when it holds a string that
is not UTF-8 or a real that is not finite, and reading the written text gives the
document back.
-/
namespace Mlxd.Json

open Mlxd.Unicode

/-- The bytes of an ASCII literal. -/
def ascii (s : String) : Bytes := s.toList.map fun c => UInt8.ofNat c.toNat

inductive Value where
  | null
  | bool (b : Bool)
  | int (i : Int)
  /-- A double, by its bits. -/
  | real (bits : Nat)
  | str (s : Bytes)
  | arr (items : List Value)
  | obj (members : List (Bytes × Value))

/-- The first member of that name; `none` for a missing value or another shape. -/
def objGet : Option Value → Bytes → Option Value
  | some (.obj members), key => members.lookup key
  | _, _ => none

/-- The text of a string value. -/
def getStr : Option Value → Option Bytes
  | some (.str s) => some s
  | _ => none

/-- A well-formed concatenation of UTF-8 encodings; the fuel bounds the characters. -/
def isUtf8Loop : Nat → Bytes → Bool
  | 0, s => s.isEmpty
  | n + 1, s =>
    if s.isEmpty then true
    else if decodeHead s = invalid then false
    else isUtf8Loop n (s.drop (decodeHead s).len)

def isUtf8 (s : Bytes) : Bool := isUtf8Loop s.length s

/-- Neither an infinity nor a NaN: not all bits of the exponent are set. -/
def isFinite (bits : Nat) : Bool := bits / 2 ^ 52 % 2 ^ 11 != 2 ^ 11 - 1

mutual
/-- Every string and key of the document is UTF-8, and every real is finite. -/
def writable : Value → Bool
  | .null => true
  | .bool _ => true
  | .int _ => true
  | .real bits => isFinite bits
  | .str s => isUtf8 s
  | .arr items => writableItems items
  | .obj members => writableMembers members

def writableItems : List Value → Bool
  | [] => true
  | v :: rest => writable v && writableItems rest

def writableMembers : List (Bytes × Value) → Bool
  | [] => true
  | (key, v) :: rest => isUtf8 key && writable v && writableMembers rest
end

/-- The text of a document, represented by the document itself. -/
def yyjsonMutWrite (v : Value) : Option Value := if writable v then some v else none

theorem sizeOf_lookup (members : List (Bytes × Value)) (key : Bytes) (v : Value)
    (h : members.lookup key = some v) : sizeOf v < sizeOf members := by
  induction members with
  | nil => simp at h
  | cons m rest ih =>
    obtain ⟨k, w⟩ := m
    simp only [List.lookup_cons] at h
    split at h
    · simp only [Option.some.injEq] at h
      subst h
      simp only [List.cons.sizeOf_spec, Prod.mk.sizeOf_spec]
      omega
    · have := ih h
      simp only [List.cons.sizeOf_spec]
      omega

theorem sizeOf_objGet (v : Value) (key : Bytes) (w : Value) (h : objGet (some v) key = some w) :
    sizeOf w < sizeOf v := by
  cases v with
  | obj members =>
    have := sizeOf_lookup members key w h
    simp only [Value.obj.sizeOf_spec]
    omega
  | _ => simp [objGet] at h

/-! ## Well-formed text -/

theorem isUtf8Loop_fuel (n m : Nat) (s : Bytes) (hn : s.length ≤ n) (hm : s.length ≤ m) :
    isUtf8Loop n s = isUtf8Loop m s := by
  induction n generalizing s m with
  | zero =>
    obtain rfl : s = [] := List.length_eq_zero_iff.mp (by omega)
    cases m <;> rfl
  | succ n ih =>
    cases s with
    | nil => cases m <;> rfl
    | cons b s =>
      obtain ⟨m, rfl⟩ : ∃ k, m = k + 1 := ⟨m - 1, by simp at hm; omega⟩
      have hlen := decodeHead_len_pos (b :: s) (by simp)
      simp only [isUtf8Loop, List.isEmpty_cons, Bool.false_eq_true, ↓reduceIte]
      split
      · rfl
      · refine ih m _ ?_ ?_
        all_goals
          simp only [List.length_drop, List.length_cons] at hn hm ⊢
          omega

theorem isUtf8_step (s : Bytes) (hs : s ≠ []) :
    isUtf8 s = (decide (decodeHead s ≠ invalid) && isUtf8 (s.drop (decodeHead s).len)) := by
  have hlen := decodeHead_len_pos s hs
  have hpos := List.length_pos_iff.mpr hs
  obtain ⟨n, hn⟩ : ∃ n, s.length = n + 1 := ⟨s.length - 1, by omega⟩
  rw [isUtf8, hn, isUtf8Loop, if_neg (by simpa using hs)]
  by_cases h : decodeHead s = invalid
  · simp [h]
  · rw [if_neg h, isUtf8, isUtf8Loop_fuel n _ _ (by simp only [List.length_drop]; omega)
      (Nat.le_refl _)]
    simp [h]

/-- Joining UTF-8 texts gives UTF-8. -/
theorem isUtf8_append (s t : Bytes) (hs : isUtf8 s = true) (ht : isUtf8 t = true) :
    isUtf8 (s ++ t) = true := by
  by_cases hne : s = []
  · rw [hne, List.nil_append]
    exact ht
  · have hlen := decodeHead_len_pos s hne
    have hle := decodeHead_len_le s
    rw [isUtf8_step s hne, Bool.and_eq_true, decide_eq_true_eq] at hs
    rw [isUtf8_step (s ++ t) (by simp [hne]), decodeHead_append s t hne hs.1,
      List.drop_append_of_le_length hle, isUtf8_append _ t hs.2 ht]
    simpa using hs.1
termination_by s.length
decreasing_by
  simp only [List.length_drop]
  omega

theorem writable_lookup (members : List (Bytes × Value)) (h : writableMembers members = true)
    (key : Bytes) (v : Value) (hv : members.lookup key = some v) : writable v = true := by
  induction members with
  | nil => simp at hv
  | cons m rest ih =>
    obtain ⟨k, w⟩ := m
    simp only [writableMembers, Bool.and_eq_true] at h
    simp only [List.lookup_cons] at hv
    split at hv
    · exact Option.some.inj hv ▸ h.1.2
    · exact ih h.2 hv

/-- A member of a writable document is writable. -/
theorem writable_objGet (v : Value) (h : writable v = true) (key : Bytes) (w : Value)
    (hw : objGet (some v) key = some w) : writable w = true := by
  cases v with
  | obj members => exact writable_lookup members (by simpa [writable] using h) key w hw
  | _ => simp [objGet] at hw

end Mlxd.Json
