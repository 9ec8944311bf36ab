import Mlxd.Lib.Base64
import Mlxd.Openai
import Mlxd.Sse

/-!
# Base64 embeddings

A vector goes out as the base64 text of its little-endian bytes. Every access of a buffer and every
index is checked: `none` is an access outside its block or an `int` that overflows. The bytes are
indexed with an `int`, so the text is exact up to 2^29 values, and no longer vector is defined.
-/
namespace Mlxd.Embedding

open Mlxd.Unicode Mlxd.Json Mlxd.Lib.Buffer Mlxd.Lib.Base64
open Mlxd.Openai (INT_MAX)
open Mlxd.Sse (Malloc)

/-- The values by their bits; their number is an `int`. -/
structure EmbeddingData where
  values : List UInt32
  count_le : (values.length : Int) ≤ INT_MAX

/-- The answers of the allocators. -/
structure Heap where
  calloc : Bool
  malloc : Malloc
  /-- The document has room for a copy of the text. -/
  strcpy : Bool

/-! ## The encoder -/

def alphabet : Bytes := ascii "ABCDEFGHIJKLMNOPQRSTUVWXYZabcdefghijklmnopqrstuvwxyz0123456789+/"

def equals : UInt8 := 61

def digit (v shift : UInt32) : UInt8 := alphabet.getD ((v >>> shift) &&& 0x3F).toNat 0

/-- Four characters at `out[o]`. -/
def putGroup (out : Array UInt8) (o : Nat) (w x y z : UInt8) : Option (Array UInt8) := do
  let out ← store out o w
  let out ← store out (o + 1) x
  let out ← store out (o + 2) y
  store out (o + 3) z

/-- The whole groups; the fuel bounds the rounds. -/
def encodeLoop (input : Array UInt8) (n : Nat) :
    Nat → Nat → Nat → Array UInt8 → Option (Nat × Nat × Array UInt8)
  | 0, _, _, _ => none
  | fuel + 1, o, i, out =>
    if i + 3 ≤ n then do
      let v := ((← load input i).toUInt32 <<< 16) ||| ((← load input (i + 1)).toUInt32 <<< 8) |||
        (← load input (i + 2)).toUInt32
      let out ← putGroup out o (digit v 18) (digit v 12) (digit v 6) (digit v 0)
      encodeLoop input n fuel (o + 4) (i + 3) out
    else some (o, i, out)

/-- The last one or two bytes. -/
def encodeTail (input : Array UInt8) (n o i : Nat) (out : Array UInt8) :
    Option (Nat × Array UInt8) :=
  if n - i = 1 then do
    let v := (← load input i).toUInt32 <<< 16
    let out ← putGroup out o (digit v 18) (digit v 12) equals equals
    some (o + 4, out)
  else if n - i = 2 then do
    let v := ((← load input i).toUInt32 <<< 16) ||| ((← load input (i + 1)).toUInt32 <<< 8)
    let out ← putGroup out o (digit v 18) (digit v 12) (digit v 6) equals
    some (o + 4, out)
  else some (o, out)

def base64Encode (input : Array UInt8) (n : Nat) (out : Array UInt8) : Option (Array UInt8) := do
  let (o, i, out) ← encodeLoop input n (n + 1) 0 0 out
  let (o, out) ← encodeTail input n o i out
  store out o 0

/-! ## The vector -/

/-- `j * 4 + k` in `int`. -/
def byteIndex (j k : Nat) : Option Nat :=
  if ((j * 4 + k : Nat) : Int) ≤ INT_MAX then some (j * 4 + k) else none

def storeBits (bits : UInt32) (j : Nat) (bytes : Array UInt8) : Option (Array UInt8) := do
  let bytes ← store bytes (← byteIndex j 0) (bits &&& 0xFF).toUInt8
  let bytes ← store bytes (← byteIndex j 1) ((bits >>> 8) &&& 0xFF).toUInt8
  let bytes ← store bytes (← byteIndex j 2) ((bits >>> 16) &&& 0xFF).toUInt8
  store bytes (← byteIndex j 3) ((bits >>> 24) &&& 0xFF).toUInt8

def bytesLoop : List UInt32 → Nat → Array UInt8 → Option (Array UInt8)
  | [], _, bytes => some bytes
  | bits :: rest, j, bytes => do bytesLoop rest (j + 1) (← storeBits bits j bytes)

def base64Size (nbytes : Nat) : Nat := (nbytes + 2) / 3 * 4 + 1

/-- The object with the text added, unless an allocation fails. -/
def addEmbeddingBase64 (heap : Heap) (obj : List (Bytes × Value)) (d : EmbeddingData) :
    Option (List (Bytes × Value)) :=
  let nbytes := d.values.length * 4
  if !heap.calloc then some obj
  else do
    let bytes ← bytesLoop d.values 0 (Array.replicate (if nbytes = 0 then 1 else nbytes) 0)
    match heap.malloc.1 (base64Size nbytes) with
    | none => some obj
    | some b64 => do
      let b64 ← base64Encode bytes nbytes b64
      some (if heap.strcpy then obj ++ [(ascii "embedding", .str (cstr b64.toList))] else obj)

/-! ## Digits -/

theorem word_toNat (a b c : UInt8) :
    ((a.toUInt32 <<< 16) ||| (b.toUInt32 <<< 8) ||| c.toUInt32).toNat = group a b c := by
  have ha := a.toNat_lt
  have hb := b.toNat_lt
  have hc := c.toNat_lt
  have hhigh : a.toNat <<< 16 % 2 ^ 32 = 2 ^ 16 * a.toNat := by
    rw [Nat.shiftLeft_eq]
    omega
  have hmid : b.toNat <<< 8 % 2 ^ 32 = 2 ^ 8 * b.toNat := by
    rw [Nat.shiftLeft_eq]
    omega
  have hjoin : 2 ^ 16 * a.toNat ||| 2 ^ 8 * b.toNat = 2 ^ 8 * (2 ^ 8 * a.toNat + b.toNat) := by
    rw [← Nat.two_pow_add_eq_or_of_lt (by omega)]
    omega
  simp only [UInt32.toNat_or, UInt32.toNat_shiftLeft, UInt8.toNat_toUInt32]
  rw [show (16 : UInt32).toNat % 32 = 16 from rfl, show (8 : UInt32).toNat % 32 = 8 from rfl, hhigh,
    hmid, hjoin, ← Nat.two_pow_add_eq_or_of_lt (by omega), group]
  omega

theorem alphabet_digit : ∀ n < 64, alphabet.getD n 0 = standard.digit n := by decide +kernel

/-- The bits that a shift of `6 * k` brings down are the digit at that position. -/
theorem digit_eq {v shift : UInt32} {n k : Nat} (hv : v.toNat = n) (hshift : shift.toNat = 6 * k)
    (hk : k ≤ 3) : digit v shift = standard.digitAt n k := by
  have hbits : ((v >>> shift) &&& 0x3F).toNat = n / 64 ^ k % 64 := by
    rw [UInt32.toNat_and, UInt32.toNat_shiftRight, hv, hshift, Nat.mod_eq_of_lt (by omega),
      show (0x3F : UInt32).toNat = 2 ^ 6 - 1 from rfl, Nat.and_two_pow_sub_one_eq_mod,
      Nat.shiftRight_eq_div_pow, Nat.pow_mul]
  rw [digit, hbits, alphabet_digit _ (Nat.mod_lt _ (by decide))]
  rfl

theorem digits_word {v : UInt32} {n : Nat} (hv : v.toNat = n) :
    digit v 18 = standard.digitAt n 3 ∧ digit v 12 = standard.digitAt n 2 ∧
      digit v 6 = standard.digitAt n 1 ∧ digit v 0 = standard.digitAt n 0 :=
  ⟨digit_eq hv rfl (by decide), digit_eq hv rfl (by decide), digit_eq hv rfl (by decide),
    digit_eq hv rfl (by decide)⟩

/-! ## The text -/

theorem putGroup_spec {out : Array UInt8} {written : Bytes} (h : Holds out written)
    (hroom : written.length + 4 ≤ out.size) (w x y z : UInt8) :
    Safe (putGroup out written.length w x y z) fun out' =>
      out'.size = out.size ∧ Holds out' (written ++ [w, x, y, z]) := by
  have hsnoc : ∀ (b : Array UInt8) (xs : Bytes) (c : UInt8), Holds b (written ++ xs) →
      written.length + xs.length < b.size →
      Safe (store b (written.length + xs.length) c) fun b' =>
        b'.size = b.size ∧ Holds b' (written ++ (xs ++ [c])) := by
    intro b xs c hb hlt
    have hstore := safe_store hb (by rwa [List.length_append]) c
    rwa [List.length_append, List.append_assoc] at hstore
  refine (hsnoc out [] w (by rwa [List.append_nil]) (by simp; omega)).bind ?_
  rintro out₁ ⟨hsize₁, h₁⟩
  refine (hsnoc out₁ [w] x h₁ (by simp; omega)).bind ?_
  rintro out₂ ⟨hsize₂, h₂⟩
  refine (hsnoc out₂ [w, x] y h₂ (by simp; omega)).bind ?_
  rintro out₃ ⟨hsize₃, h₃⟩
  refine (hsnoc out₃ [w, x, y] z h₃ (by simp; omega)).mono ?_
  rintro out₄ ⟨hsize₄, h₄⟩
  exact ⟨by omega, h₄⟩

section Encode

variable {input : Array UInt8} {data written : Bytes} {out : Array UInt8} {i : Nat}

/-- What the loops read at an index is what stands there in the data. -/
theorem load_cons (hinput : Holds input data) {a : UInt8} {rest : Bytes}
    (h : data.drop i = a :: rest) : load input i = some a ∧ data.drop (i + 1) = rest := by
  have hlt : i < data.length := by
    by_contra hge
    rw [List.drop_eq_nil_of_le (by omega)] at h
    contradiction
  rw [List.drop_eq_getElem_cons hlt] at h
  obtain ⟨hhead, htail⟩ := List.cons.inj h
  rw [hinput.get hlt, List.getElem?_eq_getElem hlt, hhead]
  exact ⟨rfl, htail⟩

/-- The loop writes whole groups and leaves fewer than three bytes. -/
theorem encodeLoop_spec (hinput : Holds input data) (fuel : Nat) (hi : i ≤ data.length)
    (hfuel : data.length - i < fuel) (hout : Holds out written)
    (hroom : written.length + (encode standard (data.drop i)).length < out.size) :
    Safe (encodeLoop input data.length fuel written.length i out) fun r =>
      ∃ written', r.1 = written'.length ∧ data.length - r.2.1 < 3 ∧ r.2.2.size = out.size ∧
        Holds r.2.2 written' ∧ written' ++ encode standard (data.drop r.2.1) =
          written ++ encode standard (data.drop i) := by
  induction fuel generalizing i written out with
  | zero => omega
  | succ fuel ih =>
    rw [encodeLoop]
    split
    · next hgroup =>
      obtain ⟨a, b, c, hdrop⟩ : ∃ a b c, data.drop i = a :: b :: c :: data.drop (i + 3) := by
        rw [List.drop_eq_getElem_cons (by omega), List.drop_eq_getElem_cons (i := i + 1) (by omega),
          List.drop_eq_getElem_cons (i := i + 2) (by omega)]
        exact ⟨_, _, _, rfl⟩
      obtain ⟨ha, hdropb⟩ := load_cons hinput hdrop
      obtain ⟨hb, hdropc⟩ := load_cons hinput hdropb
      obtain ⟨hc, -⟩ := load_cons hinput hdropc
      obtain ⟨h₃, h₂, h₁, h₀⟩ := digits_word (word_toNat a b c)
      rw [hdrop, encode] at hroom ⊢
      simp only [List.length_cons] at hroom
      simp only [ha, hb, hc, Option.bind_eq_bind, Option.bind_some, h₃, h₂, h₁, h₀]
      refine (putGroup_spec hout (by omega) _ _ _ _).bind ?_
      rintro out' ⟨hsize, hout'⟩
      have hnext := @ih _ out' (i + 3) (by omega) (by omega) hout' (by
        rw [hsize, List.length_append]
        simp only [List.length_cons, List.length_nil]
        omega)
      rw [List.length_append] at hnext
      refine hnext.mono ?_
      rintro r ⟨written', ho, hleft, hsize', hheld, hall⟩
      refine ⟨written', ho, hleft, hsize'.trans hsize, hheld, ?_⟩
      rw [hall, List.append_assoc]
      rfl
    · have hleft : data.length - i < 3 := by omega
      exact Safe.of_some ⟨written, rfl, hleft, rfl, hout, rfl⟩

/-- The last bytes are a padded group. -/
theorem encodeTail_spec (hinput : Holds input data) (hleft : data.length - i < 3)
    (hout : Holds out written)
    (hroom : written.length + (encode standard (data.drop i)).length < out.size) :
    Safe (encodeTail input data.length written.length i out) fun r =>
      r.1 = (written ++ encode standard (data.drop i)).length ∧ r.2.size = out.size ∧
        Holds r.2 (written ++ encode standard (data.drop i)) := by
  have hlen : (data.drop i).length = data.length - i := List.length_drop
  rw [encodeTail]
  cases hdrop : data.drop i with
  | nil =>
    rw [hdrop, List.length_nil] at hlen
    rw [if_neg (by omega), if_neg (by omega), encode, List.append_nil]
    exact Safe.of_some ⟨rfl, rfl, hout⟩
  | cons a rest =>
    obtain ⟨ha, hdropb⟩ := load_cons hinput hdrop
    rw [hdrop] at hlen hroom
    cases rest with
    | nil =>
      rw [if_pos (by simpa using hlen.symm), encode]
      have hword : (a.toUInt32 <<< 16).toNat = group a 0 0 := by
        have h := word_toNat a 0 0
        simpa using h
      obtain ⟨h₃, h₂, -⟩ := digits_word hword
      simp only [ha, Option.bind_eq_bind, Option.bind_some, h₃, h₂]
      refine (putGroup_spec hout (by simpa [encode] using hroom.le) _ _ _ _).bind ?_
      rintro out' ⟨hsize, hout'⟩
      exact Safe.of_some ⟨by simp, hsize, hout'⟩
    | cons b rest =>
      obtain rfl : rest = [] := by
        rw [List.length_cons, List.length_cons] at hlen
        exact List.length_eq_zero_iff.mp (by omega)
      obtain ⟨hb, -⟩ := load_cons hinput hdropb
      rw [if_neg (by simp at hlen; omega), if_pos (by simpa using hlen.symm), encode]
      have hword : ((a.toUInt32 <<< 16) ||| (b.toUInt32 <<< 8)).toNat = group a b 0 := by
        have h := word_toNat a b 0
        simpa using h
      obtain ⟨h₃, h₂, h₁, -⟩ := digits_word hword
      simp only [ha, hb, Option.bind_eq_bind, Option.bind_some, h₃, h₂, h₁]
      refine (putGroup_spec hout (by simpa [encode] using hroom.le) _ _ _ _).bind ?_
      rintro out' ⟨hsize, hout'⟩
      exact Safe.of_some ⟨by simp, hsize, hout'⟩

/-- The text and its NUL fill the block that is asked for. -/
theorem base64Encode_spec (hinput : Holds input data) (hsize : out.size = base64Size data.length) :
    Safe (base64Encode input data.length out) fun out' =>
      Holds out' (encode standard data ++ [0]) := by
  have hlen := @length_encode standard data
  rw [base64Size] at hsize
  have hloop := @encodeLoop_spec input data [] out 0 hinput (data.length + 1) (Nat.zero_le _)
    (by omega) (Holds.nil out) (by
      rw [List.drop_zero, hlen, List.length_nil]
      omega)
  rw [base64Encode]
  refine hloop.bind ?_
  rintro ⟨o, j, out₁⟩ ⟨written, ho, hleft, hsize₁, hout₁, hall⟩
  dsimp only at ho hleft hsize₁ hout₁ hall
  rw [List.drop_zero, List.nil_append] at hall
  rw [ho]
  have htotal : written.length + (encode standard (data.drop j)).length < out₁.size := by
    rw [← List.length_append, hall, hlen]
    omega
  refine (encodeTail_spec hinput hleft hout₁ htotal).bind ?_
  rintro ⟨o', out₂⟩ ⟨ho', hsize₂, hout₂⟩
  dsimp only at ho' hsize₂ hout₂ ⊢
  rw [hall] at ho' hout₂
  rw [ho']
  refine (safe_store hout₂ (by omega) 0).mono ?_
  rintro out' ⟨-, hheld⟩
  exact hheld

end Encode

/-! ## The bytes -/

/-- The four bytes of a value, the low one first. -/
def littleEndian (bits : UInt32) : Bytes :=
  (List.range 4).map fun k => UInt8.ofNat (bits.toNat / 256 ^ k)

/-- The vectors whose last index is an `int`. -/
def maxValues : Nat := 2 ^ 29

theorem byteIndex_eq {j k : Nat} (hj : j < maxValues) (hk : k ≤ 3) :
    byteIndex j k = some (j * 4 + k) := by
  rw [maxValues] at hj
  rw [byteIndex, if_pos]
  simp only [INT_MAX]
  omega

theorem byteIndex_none {j k : Nat} (hj : maxValues ≤ j) : byteIndex j k = none := by
  rw [maxValues] at hj
  rw [byteIndex, if_neg]
  simp only [INT_MAX]
  omega

/-- A masked shift is a byte of the value. -/
theorem byte_eq {bits shift : UInt32} {k : Nat} (hshift : shift.toNat = 8 * k) (hk : k ≤ 3) :
    ((bits >>> shift) &&& 0xFF).toUInt8 = UInt8.ofNat (bits.toNat / 256 ^ k) := by
  rw [← UInt8.toNat_inj, UInt32.toNat_toUInt8, UInt8.toNat_ofNat', UInt32.toNat_and,
    UInt32.toNat_shiftRight, hshift, Nat.mod_eq_of_lt (show 8 * k < 32 by omega),
    show (0xFF : UInt32).toNat = 2 ^ 8 - 1 from rfl, Nat.and_two_pow_sub_one_eq_mod,
    Nat.shiftRight_eq_div_pow, Nat.pow_mul, Nat.mod_mod]

theorem length_bytes (values : List UInt32) :
    (values.flatMap littleEndian).length = values.length * 4 := by
  induction values with
  | nil => rfl
  | cons bits rest ih =>
    rw [List.flatMap_cons, List.length_append, ih, List.length_cons]
    simp only [littleEndian, List.length_map, List.length_range]
    omega

theorem storeBits_spec {bytes : Array UInt8} {written : Bytes} (h : Holds bytes written) {j : Nat}
    (hj : written.length = j * 4) (hlt : j < maxValues) (hroom : written.length + 4 ≤ bytes.size)
    (bits : UInt32) : Safe (storeBits bits j bytes) fun bytes' =>
      bytes'.size = bytes.size ∧ Holds bytes' (written ++ littleEndian bits) := by
  have hput := putGroup_spec h hroom (bits &&& 0xFF).toUInt8 ((bits >>> 8) &&& 0xFF).toUInt8
    ((bits >>> 16) &&& 0xFF).toUInt8 ((bits >>> 24) &&& 0xFF).toUInt8
  have hlow : (bits &&& 0xFF).toUInt8 = UInt8.ofNat (bits.toNat / 256 ^ 0) := by
    have hzero := @byte_eq bits 0 0 rfl (by decide)
    rwa [UInt32.shiftRight_zero] at hzero
  rw [hlow, @byte_eq bits 8 1 rfl (by decide), @byte_eq bits 16 2 rfl (by decide),
    @byte_eq bits 24 3 rfl (by decide)] at hput
  rw [putGroup, hj] at hput
  rw [storeBits, hlow, @byte_eq bits 8 1 rfl (by decide), @byte_eq bits 16 2 rfl (by decide),
    @byte_eq bits 24 3 rfl (by decide)]
  simp only [byteIndex_eq hlt (Nat.zero_le 3), byteIndex_eq hlt (show 1 ≤ 3 by decide),
    byteIndex_eq hlt (show 2 ≤ 3 by decide), byteIndex_eq hlt (Nat.le_refl 3),
    Option.bind_eq_bind, Option.bind_some, Nat.add_zero] at hput ⊢
  exact hput

theorem bytesLoop_spec (values : List UInt32) {bytes : Array UInt8} {written : Bytes} {j : Nat}
    (h : Holds bytes written) (hj : written.length = j * 4)
    (hlt : j + values.length ≤ maxValues)
    (hroom : written.length + values.length * 4 ≤ bytes.size) :
    Safe (bytesLoop values j bytes) fun bytes' =>
      Holds bytes' (written ++ values.flatMap littleEndian) := by
  induction values generalizing written bytes j with
  | nil =>
    rw [List.flatMap_nil, List.append_nil]
    exact Safe.of_some h
  | cons bits rest ih =>
    rw [List.length_cons] at hlt hroom
    rw [bytesLoop]
    refine (storeBits_spec h hj (by omega) (by omega) bits).bind ?_
    rintro bytes' ⟨hsize, hheld⟩
    have hfour : (littleEndian bits).length = 4 := rfl
    rw [List.flatMap_cons, ← List.append_assoc]
    apply ih hheld
    · rw [List.length_append, hfour]
      omega
    · omega
    · rw [List.length_append, hfour, hsize]
      omega

/-- From some value on the index overflows. -/
theorem bytesLoop_overflow (values : List UInt32) (bytes : Array UInt8) {j : Nat}
    (h : maxValues < j + values.length) (hne : values ≠ []) : bytesLoop values j bytes = none := by
  induction values generalizing bytes j with
  | nil => contradiction
  | cons bits rest ih =>
    rw [List.length_cons] at h
    rw [bytesLoop]
    by_cases hj : maxValues ≤ j
    · have hnone : storeBits bits j bytes = none := by
        simp only [storeBits, byteIndex_none hj, Option.bind_eq_bind, Option.bind_none]
      rw [hnone]
      rfl
    · have hrest : rest ≠ [] := by
        rintro rfl
        rw [List.length_nil] at h
        omega
      cases hstore : storeBits bits j bytes with
      | none => rfl
      | some bytes' => exact ih bytes' (by omega) hrest

/-! ## What is emitted -/

def Heap.succeeds (heap : Heap) (d : EmbeddingData) : Prop :=
  heap.calloc = true ∧ (heap.malloc.1 (base64Size (d.values.length * 4))).isSome = true ∧
    heap.strcpy = true

/-- A text that decodes to the bytes of the values and fits its block with its NUL. -/
def Carries (s : Bytes) (d : EmbeddingData) : Prop :=
  decode standard s = some (d.values.flatMap littleEndian) ∧
    s.length + 1 ≤ base64Size (d.values.length * 4)

/-- Every access and every index is in range, and the text is added unless an allocation fails. -/
def Emits (heap : Heap) (obj : List (Bytes × Value)) (d : EmbeddingData) : Prop :=
  (¬ heap.succeeds d ∧ addEmbeddingBase64 heap obj d = some obj) ∨
    ∃ s, Carries s d ∧ addEmbeddingBase64 heap obj d = some (obj ++ [(ascii "embedding", .str s)])

theorem emits_of_le (heap : Heap) (obj : List (Bytes × Value)) {d : EmbeddingData}
    (h : d.values.length ≤ maxValues) : Emits heap obj d := by
  have hlen := length_bytes d.values
  obtain ⟨bytes, hrun, hheld⟩ := @bytesLoop_spec d.values (Array.replicate
    (if d.values.length * 4 = 0 then 1 else d.values.length * 4) 0) [] 0 (Holds.nil _) rfl
    (by omega) (by
      rw [List.length_nil, Array.size_replicate]
      split <;> omega)
  rw [List.nil_append] at hheld
  cases hcalloc : heap.calloc with
  | false => exact .inl ⟨by simp [Heap.succeeds, hcalloc], by simp [addEmbeddingBase64, hcalloc]⟩
  | true =>
    cases hmalloc : heap.malloc.1 (base64Size (d.values.length * 4)) with
    | none =>
      refine .inl ⟨by simp [Heap.succeeds, hmalloc], ?_⟩
      simp only [addEmbeddingBase64, hcalloc, hrun, hmalloc, Bool.not_true, Bool.false_eq_true,
        if_false, Option.bind_eq_bind, Option.bind_some]
    | some b64 =>
      have hsize := heap.malloc.2 _ _ hmalloc
      rw [← hlen] at hsize
      obtain ⟨out, hencode, more, hout⟩ := base64Encode_spec hheld hsize
      have htext : cstr out.toList = encode standard (d.values.flatMap littleEndian) := by
        rw [← hout, List.append_assoc, List.singleton_append]
        exact Detok.cstr_zero _ _ (zero_not_mem_encode _)
      have hadd : addEmbeddingBase64 heap obj d = some (if heap.strcpy then obj ++
          [(ascii "embedding", .str (encode standard (d.values.flatMap littleEndian)))]
          else obj) := by
        rw [hlen] at hencode
        simp only [addEmbeddingBase64, hcalloc, hrun, hmalloc, hencode, htext, Bool.not_true,
          Bool.false_eq_true, if_false, Option.bind_eq_bind, Option.bind_some]
      cases hstrcpy : heap.strcpy with
      | false =>
        refine .inl ⟨by simp [Heap.succeeds, hstrcpy], ?_⟩
        rw [hadd, hstrcpy]
        rfl
      | true =>
        refine .inr ⟨_, ⟨decode_encode _, ?_⟩, ?_⟩
        · rw [length_encode, hlen, base64Size]
        · rw [hadd, hstrcpy]
          rfl

/-- A longer vector overflows the index once its bytes are allocated. -/
theorem not_emits_of_lt {heap : Heap} (obj : List (Bytes × Value)) {d : EmbeddingData}
    (hcalloc : heap.calloc = true) (h : maxValues < d.values.length) : ¬ Emits heap obj d := by
  have hne : d.values ≠ [] := by
    intro hnil
    rw [hnil] at h
    contradiction
  have hoverflow := fun bytes => @bytesLoop_overflow d.values bytes 0 (by omega) hne
  have hnone : addEmbeddingBase64 heap obj d = none := by
    simp [addEmbeddingBase64, hcalloc, hoverflow]
  rw [Emits, hnone]
  rintro (⟨-, hsome⟩ | ⟨s, -, hsome⟩)
  · contradiction
  · contradiction

/-- The text decodes to the little-endian bytes of the vector exactly up to 2^29 values, or when
nothing is emitted because the bytes cannot be allocated. -/
theorem embedding_emits_iff (heap : Heap) (obj : List (Bytes × Value)) (d : EmbeddingData) :
    Emits heap obj d ↔ d.values.length ≤ 2 ^ 29 ∨ heap.calloc = false := by
  constructor
  · intro h
    by_contra hnot
    rw [not_or, Nat.not_le, Bool.not_eq_false] at hnot
    exact not_emits_of_lt obj hnot.2 hnot.1 h
  · rintro (h | hcalloc)
    · exact emits_of_le heap obj h
    · exact .inl ⟨by simp [Heap.succeeds, hcalloc], by simp [addEmbeddingBase64, hcalloc]⟩

/-- Every allocation succeeds. -/
def plenty : Heap := ⟨true, ⟨fun n => some (Array.replicate n 0), by simp⟩, true⟩

/-- One value more than the index reaches. -/
theorem long_vector_undefined :
    ¬ ∀ (heap : Heap) (obj : List (Bytes × Value)) (d : EmbeddingData), Emits heap obj d := by
  intro h
  obtain ⟨d, hlong⟩ : ∃ d : EmbeddingData, maxValues < d.values.length := by
    refine ⟨⟨List.replicate (2 ^ 29 + 1) 0, ?_⟩, ?_⟩
    · rw [List.length_replicate]
      decide
    · dsimp only
      rw [List.length_replicate]
      exact Nat.lt_succ_self _
  exact not_emits_of_lt [] rfl hlong (h plenty [] d)

end Mlxd.Embedding
