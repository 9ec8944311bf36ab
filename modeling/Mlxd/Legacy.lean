import Mlxd.Encode

/-!
# The legacy loader

`vocab.json` and `merges.txt` are turned into the document of a tokenizer.json, which
then goes through the JSON loader. Lines of `merges.txt` are trimmed; blank lines and
lines that start with `#` are skipped.
-/
namespace Mlxd.Legacy

open Mlxd.Unicode Mlxd.Json Mlxd.TokLoad

def MLXD_TOK_MAX_FILE : Nat := 256 * 1024 * 1024

/-- A JSON file: its size, and its document when the text parses. -/
structure JsonFile where
  size : Nat
  doc : Option Value

/-- The document of a file within the size cap. -/
def readJson (file : Option JsonFile) : Option Value :=
  match file with
  | none => none
  | some f => if MLXD_TOK_MAX_FILE < f.size then none else f.doc

/-- The bytes of a file within the size cap. -/
def readFile (file : Option Bytes) : Option Bytes :=
  match file with
  | none => none
  | some s => if MLXD_TOK_MAX_FILE < s.length then none else some s

/-! ## merges.txt -/

/-- `strchr` also finds the terminator, so a NUL is trimmed as well. -/
def isTrimmed (c : UInt8) : Bool := c == 0x20 || c == 0x09 || c == 0x0D || c == 0

def trimLeft (s : Bytes) : Bytes := s.dropWhile isTrimmed

def trimRight (s : Bytes) : Bytes := (s.reverse.dropWhile isTrimmed).reverse

/-- The lines of a text; the fuel bounds their number. -/
def splitLinesLoop : Nat → Bytes → List Bytes
  | 0, _ => []
  | fuel + 1, s =>
    if s = [] then []
    else s.takeWhile (· ≠ 0x0A) :: splitLinesLoop fuel ((s.dropWhile (· ≠ 0x0A)).drop 1)

def splitLines (s : Bytes) : List Bytes := splitLinesLoop s.length s

/-- The merge entry of a line; none for blank lines and comments. -/
def mergeEntry (line : Bytes) : Option Value :=
  match trimRight (trimLeft line) with
  | [] => none
  | c :: s => if c = 0x23 then none else some (.str (c :: s))

def mergeEntries (mergesTxt : Bytes) : List Value := (splitLines mergesTxt).filterMap mergeEntry

/-! ## The synthesized document -/

def extraNames : List Bytes := [ascii "<unk>", ascii "<pad>"]

/-- The names that get an added token, in the order of the lists. -/
def knownNames : List Bytes := bosNames ++ eosNames ++ extraNames

def specialEntry (vocabDoc : Value) (name : Bytes) : Option Value :=
  match objGet (some vocabDoc) name with
  | some (.int id) =>
    some (.obj [(ascii "id", .int id), (ascii "content", .str name), (ascii "special", .bool true)])
  | _ => none

def legacyRoot (vocabDoc : Value) (mergesTxt : Bytes) : Value := .obj [
  (ascii "pre_tokenizer", .obj [(ascii "type", .str (ascii "ByteLevel"))]),
  (ascii "model", .obj [(ascii "type", .str (ascii "BPE")), (ascii "vocab", vocabDoc),
    (ascii "merges", .arr (mergeEntries mergesTxt))]),
  (ascii "added_tokens", .arr (knownNames.filterMap (specialEntry vocabDoc)))]

/-- Load from the two files of the legacy format. -/
def tokenizerLoadDirLegacy (vocabJson : Option JsonFile) (mergesTxt : Option Bytes) :
    Option Tokenizer := do
  let vocabDoc ← readJson vocabJson
  let merges ← readFile mergesTxt
  let out ← yyjsonMutWrite (legacyRoot vocabDoc merges)
  tokenizerLoadJson out

/-! ## Written merges files -/

/-- A symbol a merges file can hold. -/
structure MergeSymbol (s : Bytes) : Prop where
  nonempty : s ≠ []
  clean : ∀ c ∈ s, c ≠ 0x20 ∧ c ≠ 0x09 ∧ c ≠ 0x0D ∧ c ≠ 0x0A ∧ c ≠ 0

def pairLine (pair : Bytes × Bytes) : Bytes := pair.1 ++ 0x20 :: pair.2

/-- The text of a merges file: the header lines, then one line a pair. -/
def writeMerges (header : List Bytes) (pairs : List (Bytes × Bytes)) : Bytes :=
  (header ++ pairs.map pairLine).flatMap (· ++ [0x0A])

/-- The left symbol starts like a comment. -/
def startsComment (pair : Bytes × Bytes) : Bool := pair.1.head? == some 0x23

section Lines

theorem splitLinesLoop_write (lines : List Bytes) (h : ∀ l ∈ lines, (0x0A : UInt8) ∉ l) (fuel : Nat)
    (hf : lines.length ≤ fuel) : splitLinesLoop fuel (lines.flatMap (· ++ [0x0A])) = lines := by
  induction lines generalizing fuel with
  | nil => cases fuel <;> rfl
  | cons l lines ih =>
    obtain ⟨fuel, rfl⟩ : ∃ n, fuel = n + 1 := ⟨fuel - 1, by simp at hf; omega⟩
    have hl : ∀ c ∈ l, decide (c ≠ 0x0A) = true := by
      intro c hc
      simp only [decide_eq_true_eq]
      rintro rfl
      exact h l (by simp) hc
    simp only [List.flatMap_cons, List.append_assoc, splitLinesLoop]
    rw [if_neg (by simp), List.takeWhile_append_of_pos hl, List.dropWhile_append_of_pos hl]
    simp only [List.cons_append, List.nil_append, ne_eq, not_true_eq_false, decide_false,
      Bool.false_eq_true, not_false_eq_true, List.takeWhile_cons_of_neg, List.append_nil,
      List.dropWhile_cons_of_neg, List.drop_succ_cons, List.drop_zero]
    rw [ih (fun l hl => h l (by simp [hl])) fuel (by simpa using hf)]

/-- Reading a written file gives its lines back. -/
theorem splitLines_write (lines : List Bytes) (h : ∀ l ∈ lines, (0x0A : UInt8) ∉ l) :
    splitLines (lines.flatMap (· ++ [0x0A])) = lines := by
  refine splitLinesLoop_write lines h _ ?_
  clear h
  induction lines with
  | nil => exact Nat.le_refl 0
  | cons l lines ih =>
    simp only [List.flatMap_cons, List.length_append, List.length_cons, List.length_nil]
    omega

theorem mergeSymbol_byte {c : UInt8}
    (h : c ≠ 0x20 ∧ c ≠ 0x09 ∧ c ≠ 0x0D ∧ c ≠ 0x0A ∧ c ≠ 0) : MergeSymbol [c] where
  nonempty := List.cons_ne_nil _ _
  clean := by
    intro d hd
    rw [List.mem_singleton.mp hd]
    exact h

theorem mergeSymbol_not_trimmed {s : Bytes} (h : MergeSymbol s) :
    ∀ c ∈ s, isTrimmed c = false := by
  intro c hc
  obtain ⟨h1, h2, h3, -, h5⟩ := h.clean c hc
  simp [isTrimmed, h1, h2, h3, h5]

/-- Trimming leaves the line of a pair as it is. -/
theorem trim_pairLine {pair : Bytes × Bytes} (hl : MergeSymbol pair.1) (hr : MergeSymbol pair.2) :
    trimRight (trimLeft (pairLine pair)) = pairLine pair := by
  obtain ⟨l, r⟩ := pair
  have h1 : trimLeft (pairLine (l, r)) = pairLine (l, r) := by
    cases l with
    | nil => exact absurd rfl hl.nonempty
    | cons c l =>
      have := mergeSymbol_not_trimmed hl c (by simp)
      simp only [trimLeft, pairLine, List.cons_append]
      rw [List.dropWhile_cons_of_neg (by simp [this])]
  obtain ⟨s, z, rfl⟩ := (List.eq_nil_or_concat r).resolve_left hr.nonempty
  have hz := mergeSymbol_not_trimmed hr z (by simp)
  have hrev : (pairLine (l, s.concat z)).reverse = z :: (l ++ 0x20 :: s).reverse := by
    simp [pairLine]
  rw [h1, trimRight, hrev, List.dropWhile_cons_of_neg (by simp [hz]), ← hrev, List.reverse_reverse]

theorem mergeEntry_pairLine {pair : Bytes × Bytes} (hl : MergeSymbol pair.1)
    (hr : MergeSymbol pair.2) : mergeEntry (pairLine pair) =
      if startsComment pair then none else some (.str (pairLine pair)) := by
  rw [mergeEntry, trim_pairLine hl hr]
  obtain ⟨l, r⟩ := pair
  cases l with
  | nil => exact absurd rfl hl.nonempty
  | cons c l =>
    simp only [pairLine, startsComment, List.cons_append, List.head?_cons]
    by_cases hc : c = 0x23 <;> simp [hc]

theorem mergeEntry_header (line : Bytes) (h : line.head? = some 0x23) : mergeEntry line = none := by
  obtain ⟨s, rfl⟩ : ∃ s, line = 0x23 :: s := by
    cases line with
    | nil => simp at h
    | cons c s => exact ⟨s, by rw [Option.some.inj h]⟩
  have hl : trimLeft (0x23 :: s) = 0x23 :: s := rfl
  have hr : ∃ s', trimRight (0x23 :: s) = 0x23 :: s' := by
    rw [trimRight, List.reverse_cons, List.dropWhile_append]
    split
    · exact ⟨[], rfl⟩
    · exact ⟨(s.reverse.dropWhile isTrimmed).reverse, by simp⟩
  obtain ⟨s', hs'⟩ := hr
  rw [mergeEntry, hl, hs']
  rfl

/-- A written file is read as its pairs, less those that look like comments. -/
theorem mergeEntries_write (header : List Bytes) (pairs : List (Bytes × Bytes))
    (hh : ∀ l ∈ header, l.head? = some 0x23 ∧ (0x0A : UInt8) ∉ l)
    (hp : ∀ p ∈ pairs, MergeSymbol p.1 ∧ MergeSymbol p.2) :
    mergeEntries (writeMerges header pairs) =
      (pairs.filter fun p => !startsComment p).map fun p => .str (pairLine p) := by
  have hlines : ∀ l ∈ header ++ pairs.map pairLine, (0x0A : UInt8) ∉ l := by
    intro l hl
    rcases List.mem_append.mp hl with hl | hl
    · exact (hh l hl).2
    · obtain ⟨p, hp', rfl⟩ := List.mem_map.mp hl
      simp only [pairLine, List.mem_append, List.mem_cons, not_or]
      exact ⟨fun hc => ((hp p hp').1.clean _ hc).2.2.2.1 rfl, by decide,
        fun hc => ((hp p hp').2.clean _ hc).2.2.2.1 rfl⟩
  have hheader : header.filterMap mergeEntry = [] :=
    List.filterMap_eq_nil_iff.mpr fun l hl => mergeEntry_header l (hh l hl).1
  rw [mergeEntries, writeMerges, splitLines_write _ hlines, List.filterMap_append, hheader,
    List.nil_append]
  clear hlines
  induction pairs with
  | nil => rfl
  | cons p pairs ih =>
    have h := mergeEntry_pairLine (hp p (by simp)).1 (hp p (by simp)).2
    rw [List.map_cons, List.filterMap_cons, h, ih fun q hq => hp q (by simp [hq])]
    cases hc : startsComment p <;> simp [hc]

end Lines

end Mlxd.Legacy
