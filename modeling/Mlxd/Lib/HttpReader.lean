import Mathlib.Data.List.DropRight
import Mathlib.Data.List.TakeWhile
import Mlxd.Lib.Incremental

/-!
# Reading HTTP responses

A client takes one byte after the other: the lines of a head, a blank line, and a body whose length
is in the head or that lasts until the connection is closed. A malformed line, a bare CR or LF and
a second length end the reading.
-/
namespace Mlxd.Lib.HttpReader

open Mlxd.Lib.Incremental

def TAB : UInt8 := 9
def LF : UInt8 := 10
def CR : UInt8 := 13
def SPACE : UInt8 := 32
def COLON : UInt8 := 58

/-! ## Numbers -/

def isDigit (b : UInt8) : Bool := 48 ≤ b && b ≤ 57

/-- A decimal number; there are digits and nothing else. -/
def number (s : List UInt8) : Option Nat :=
  if s ≠ [] ∧ s.all isDigit then some (s.foldl (fun n b => n * 10 + (b.toNat - 48)) 0) else none

def digits (n : Nat) : List UInt8 := (Nat.toDigits 10 n).map fun c => UInt8.ofNat c.toNat

theorem digit_byte : ∀ d < 10, UInt8.ofNat (Nat.digitChar d).toNat = UInt8.ofNat (48 + d) := by
  decide

theorem digits_small {n : Nat} (h : n < 10) : digits n = [UInt8.ofNat (48 + n)] := by
  rw [digits, Nat.toDigits_of_lt_base h, List.map_singleton, digit_byte n h]

theorem digits_step {n : Nat} (h : 10 ≤ n) :
    digits n = digits (n / 10) ++ [UInt8.ofNat (48 + n % 10)] := by
  rw [digits, Nat.toDigits_of_base_le (by decide) h, List.map_append, List.map_singleton,
    digit_byte _ (Nat.mod_lt n (by decide))]
  rfl

theorem digit_isDigit : ∀ d < 10, isDigit (UInt8.ofNat (48 + d)) = true := by decide

theorem digit_value : ∀ d < 10, (UInt8.ofNat (48 + d)).toNat - 48 = d := by decide

theorem digits_ne_nil (n : Nat) : digits n ≠ [] := by
  rw [digits, ne_eq, List.map_eq_nil_iff]
  exact Nat.toDigits_ne_nil

theorem digits_isDigit (n : Nat) : ∀ b ∈ digits n, isDigit b = true := by
  induction n using Nat.strongRecOn with
  | ind n ih =>
    intro b hb
    by_cases hn : n < 10
    · rw [digits_small hn, List.mem_singleton] at hb
      rw [hb]
      exact digit_isDigit n hn
    · rw [digits_step (by omega), List.mem_append, List.mem_singleton] at hb
      rcases hb with hb | rfl
      · exact ih _ (by omega) b hb
      · exact digit_isDigit _ (Nat.mod_lt n (by decide))

theorem digits_value (n : Nat) : (digits n).foldl (fun n b => n * 10 + (b.toNat - 48)) 0 = n := by
  induction n using Nat.strongRecOn with
  | ind n ih =>
    by_cases hn : n < 10
    · rw [digits_small hn, List.foldl_cons, List.foldl_nil, digit_value n hn]
      omega
    · rw [digits_step (by omega), List.foldl_append, ih _ (by omega), List.foldl_cons, List.foldl_nil,
        digit_value _ (Nat.mod_lt n (by decide))]
      omega

/-- The digits of a number are read back. -/
theorem number_digits (n : Nat) : number (digits n) = some n := by
  rw [number, if_pos ⟨digits_ne_nil n, List.all_eq_true.mpr (digits_isDigit n)⟩, digits_value]

theorem digits_status {n : Nat} (hlow : 100 ≤ n) (hhigh : n ≤ 999) : (digits n).length = 3 := by
  rw [digits_step (by omega), digits_step (by omega), digits_small (by omega)]
  rfl

/-! ## Heads -/

def lower (b : UInt8) : UInt8 := if 65 ≤ b && b ≤ 90 then b + 32 else b

def isBlank (b : UInt8) : Bool := b == SPACE || b == TAB

def trim (s : List UInt8) : List UInt8 := (s.dropWhile isBlank).rdropWhile isBlank

structure Head where
  status : Nat
  reason : List UInt8
  fields : List (List UInt8 × List UInt8)
  deriving DecidableEq, Repr

structure Response where
  head : Head
  body : List UInt8
  deriving DecidableEq, Repr

/-- `HTTP/1.1` and a space. -/
def version : List UInt8 := [72, 84, 84, 80, 47, 49, 46, 49, 32]

def parseStatus (start : List UInt8) : Option (Nat × List UInt8) :=
  if start.take 9 = version ∧ start[12]? = some SPACE then
    (number ((start.drop 9).take 3)).map fun status => (status, start.drop 13)
  else none

def parseField (line : List UInt8) : Option (List UInt8 × List UInt8) :=
  let name := line.takeWhile (· ≠ COLON)
  if name ≠ [] ∧ name.all (fun b => !isBlank b) ∧ name.length < line.length then
    some (name, trim (line.drop (name.length + 1)))
  else none

def parseHead : List (List UInt8) → Option Head
  | [] => none
  | first :: lines => do
    let (status, reason) ← parseStatus first
    let fields ← lines.mapM parseField
    some ⟨status, reason, fields⟩

/-- The values of the fields of a name, which is given in lower case. -/
def Head.values (h : Head) (name : List UInt8) : List (List UInt8) :=
  (h.fields.filter fun field => field.1.map lower = name).map Prod.snd

/-- `content-length` -/
def contentLength : List UInt8 := [99, 111, 110, 116, 101, 110, 116, 45, 108, 101, 110, 103, 116, 104]

/-- `transfer-encoding` -/
def transferEncoding : List UInt8 :=
  [116, 114, 97, 110, 115, 102, 101, 114, 45, 101, 110, 99, 111, 100, 105, 110, 103]

inductive Extent where
  | length (n : Nat)
  | untilClose
  deriving DecidableEq, Repr

/-- Where the body ends; some statuses have none. -/
def Head.extent (h : Head) : Option Extent :=
  if h.status / 100 = 1 ∨ h.status = 204 ∨ h.status = 304 then some (.length 0)
  else if h.values transferEncoding ≠ [] then none
  else
    match h.values contentLength with
    | [] => some .untilClose
    | [value] => (number value).map .length
    | _ => none

/-! ## The reader -/

inductive State where
  | head (lines : List (List UInt8)) (line : List UInt8)
  /-- `left` bytes follow behind the next one. -/
  | body (h : Head) (left : Nat) (got : List UInt8)
  | stream (h : Head) (got : List UInt8)

def start : State := .head [] []

def openBody (lines : List (List UInt8)) : Verdict State Response :=
  match parseHead lines with
  | none => .dead
  | some h =>
    match h.extent with
    | some (.length 0) => .done ⟨h, []⟩
    | some (.length (left + 1)) => .going (.body h left [])
    | some .untilClose => .going (.stream h [])
    | none => .dead

def endLine (lines : List (List UInt8)) (line : List UInt8) : Verdict State Response :=
  if CR ∈ line then .dead
  else if line = [] then openBody lines
  else .going (.head (lines ++ [line]) [])

def step : State → UInt8 → Verdict State Response
  | .head lines line, b =>
    if b = LF then if line.getLast? = some CR then endLine lines line.dropLast else .dead
    else .going (.head lines (line ++ [b]))
  | .body h 0 got, b => .done ⟨h, got ++ [b]⟩
  | .body h (left + 1) got, b => .going (.body h left (got ++ [b]))
  | .stream h got, b => .going (.stream h (got ++ [b]))

/-! ## What is written -/

/-- Nothing in the line ends it. -/
def Clean (line : List UInt8) : Prop := CR ∉ line ∧ LF ∉ line

instance (line : List UInt8) : Decidable (Clean line) := inferInstanceAs (Decidable (_ ∧ _))

def statusLine (status : Nat) (reason : List UInt8) : List UInt8 :=
  version ++ digits status ++ [SPACE] ++ reason

def fieldLine (field : List UInt8 × List UInt8) : List UInt8 := field.1 ++ [COLON, SPACE] ++ field.2

/-- The text of a head. -/
def write (h : Head) : List UInt8 :=
  (statusLine h.status h.reason :: h.fields.map fieldLine).flatMap (· ++ [CR, LF]) ++ [CR, LF]

/-- A name can be told from its value. -/
structure Name (name : List UInt8) : Prop where
  ne_nil : name ≠ []
  clean : Clean name
  colon : COLON ∉ name
  blank : name.all (fun b => !isBlank b) = true

instance (name : List UInt8) : Decidable (Name name) :=
  decidable_of_iff (name ≠ [] ∧ Clean name ∧ COLON ∉ name ∧ name.all (fun b => !isBlank b) = true)
    ⟨fun h => ⟨h.1, h.2.1, h.2.2.1, h.2.2.2⟩, fun h => ⟨h.ne_nil, h.clean, h.colon, h.blank⟩⟩

/-- A head that can be written. -/
structure Head.Writable (h : Head) : Prop where
  low : 100 ≤ h.status
  high : h.status ≤ 999
  reason : Clean h.reason
  names : ∀ field ∈ h.fields, Name field.1
  values : ∀ field ∈ h.fields, Clean field.2

/-- What a reader makes of a head: the values without the blanks around them. -/
def Head.trimmed (h : Head) : Head := { h with fields := h.fields.map fun field => (field.1, trim field.2) }

theorem clean_append {s t : List UInt8} : Clean (s ++ t) ↔ Clean s ∧ Clean t := by
  simp only [Clean, List.mem_append, not_or]
  tauto

theorem digits_clean (n : Nat) : Clean (digits n) := by
  constructor
  · intro h
    exact absurd (digits_isDigit n _ h) (by decide)
  · intro h
    exact absurd (digits_isDigit n _ h) (by decide)

theorem statusLine_clean {h : Head} (hw : h.Writable) : Clean (statusLine h.status h.reason) := by
  rw [statusLine, clean_append, clean_append, clean_append]
  exact ⟨⟨⟨by decide, digits_clean _⟩, by decide⟩, hw.reason⟩

theorem fieldLine_clean {field : List UInt8 × List UInt8} (hname : Name field.1)
    (hvalue : Clean field.2) : Clean (fieldLine field) := by
  rw [fieldLine, clean_append, clean_append]
  exact ⟨⟨hname.clean, by decide⟩, hvalue⟩

theorem parseStatus_line {status : Nat} (hlow : 100 ≤ status) (hhigh : status ≤ 999)
    (reason : List UInt8) : parseStatus (statusLine status reason) = some (status, reason) := by
  have hlen := digits_status hlow hhigh
  have hversion : version.length = 9 := rfl
  have hnine : (statusLine status reason).take 9 = version := by
    rw [statusLine, List.append_assoc, List.append_assoc]
    exact List.take_left' hversion
  have hdrop : (statusLine status reason).drop 9 = digits status ++ ([SPACE] ++ reason) := by
    rw [statusLine, List.append_assoc, List.append_assoc]
    exact List.drop_left' hversion
  have hspace : (statusLine status reason)[12]? = some SPACE := by
    rw [statusLine, List.append_assoc, List.getElem?_append_right (by simp [hversion, hlen])]
    simp [hversion, hlen]
  have hreason : (statusLine status reason).drop 13 = reason := by
    rw [statusLine]
    exact List.drop_left' (by simp [hversion, hlen])
  rw [parseStatus, if_pos ⟨hnine, hspace⟩, hdrop, List.take_left' hlen, number_digits, hreason,
    Option.map_some]

theorem parseField_line {field : List UInt8 × List UInt8} (hname : Name field.1) :
    parseField (fieldLine field) = some (field.1, trim field.2) := by
  have htake : (fieldLine field).takeWhile (· ≠ COLON) = field.1 := by
    rw [fieldLine, List.append_assoc, List.takeWhile_append_of_pos]
    · simp
    · intro b hb
      simpa using fun h : b = COLON => hname.colon (h ▸ hb)
  have hdrop : (fieldLine field).drop (field.1.length + 1) = SPACE :: field.2 := by
    simp [fieldLine, List.drop_append]
  have htrim : trim (SPACE :: field.2) = trim field.2 := by
    rw [trim, List.dropWhile_cons_of_pos (by decide), trim]
  simp only [parseField, htake, hdrop, htrim]
  exact if_pos ⟨hname.ne_nil, hname.blank, by simp [fieldLine]⟩

theorem parseHead_lines {h : Head} (hw : h.Writable) :
    parseHead (statusLine h.status h.reason :: h.fields.map fieldLine) = some h.trimmed := by
  have hfields : (h.fields.map fieldLine).mapM parseField =
      some (h.fields.map fun field => (field.1, trim field.2)) := by
    have hnames := hw.names
    generalize h.fields = fields at hnames ⊢
    induction fields with
    | nil => rfl
    | cons field rest ih =>
      rw [List.map_cons, List.mapM_cons, parseField_line (hnames field List.mem_cons_self)]
      rw [ih fun f hf => hnames f (List.mem_cons_of_mem _ hf)]
      rfl
  rw [parseHead, parseStatus_line hw.low hw.high, hfields]
  rfl

/-! ## Reading what is written -/

/-- What is left to read behind a verdict. -/
def resume (v : Verdict State Response) (rest : List UInt8) :
    Verdict State Response × List UInt8 :=
  match v with
  | .going s => run step s rest
  | stopped => (stopped, rest)

theorem run_collect {line : List UInt8} (hline : Clean line) (lines : List (List UInt8))
    (got rest : List UInt8) :
    run step (.head lines got) (line ++ rest) = run step (.head lines (got ++ line)) rest := by
  induction line generalizing got with
  | nil => rw [List.nil_append, List.append_nil]
  | cons b line ih =>
    simp only [Clean, List.mem_cons, not_or] at hline
    have hstep : step (.head lines got) b = .going (.head lines (got ++ [b])) :=
      if_neg (Ne.symm hline.2.1)
    rw [List.cons_append, run, hstep]
    dsimp only
    rw [ih ⟨hline.1.2, hline.2.2⟩, List.append_assoc, List.singleton_append]

theorem run_line {line : List UInt8} (hline : Clean line) (lines : List (List UInt8))
    (rest : List UInt8) :
    run step (.head lines []) (line ++ [CR, LF] ++ rest) = resume (endLine lines line) rest := by
  have hcr : step (.head lines line) CR = .going (.head lines (line ++ [CR])) := by
    rw [step, if_neg (by decide)]
  have hlf : step (.head lines (line ++ [CR])) LF = endLine lines line := by
    rw [step, if_pos rfl, if_pos (by simp), List.dropLast_concat]
  rw [List.append_assoc, run_collect hline, List.nil_append, List.cons_append, run, hcr]
  dsimp only
  rw [List.cons_append, run, hlf]
  cases endLine lines line <;> rfl

theorem run_lines {more : List (List UInt8)} (hmore : ∀ line ∈ more, Clean line ∧ line ≠ [])
    (lines : List (List UInt8)) (rest : List UInt8) :
    run step (.head lines []) (more.flatMap (· ++ [CR, LF]) ++ [CR, LF] ++ rest) =
      resume (openBody (lines ++ more)) rest := by
  induction more generalizing lines with
  | nil =>
    have hclean : Clean ([] : List UInt8) := by decide
    have hblank := run_line hclean lines rest
    rw [endLine, if_neg (by decide), if_pos rfl] at hblank
    rw [List.append_nil]
    exact hblank
  | cons line more ih =>
    obtain ⟨hline, hne⟩ := hmore line List.mem_cons_self
    rw [List.flatMap_cons, List.append_assoc, List.append_assoc, run_line hline, endLine,
      if_neg hline.1, if_neg hne, resume, ← List.append_assoc,
      ih (fun l hl => hmore l (List.mem_cons_of_mem _ hl)), List.append_assoc,
      List.singleton_append]

/-- The reader opens the body behind a head. -/
theorem run_write {h : Head} (hw : h.Writable) (rest : List UInt8) :
    run step start (write h ++ rest) =
      resume (openBody (statusLine h.status h.reason :: h.fields.map fieldLine)) rest := by
  apply run_lines
  intro line hline
  rcases List.mem_cons.mp hline with rfl | hline
  · exact ⟨statusLine_clean hw, by simp [statusLine, version]⟩
  · obtain ⟨field, hfield, rfl⟩ := List.mem_map.mp hline
    exact ⟨fieldLine_clean (hw.names field hfield) (hw.values field hfield), by simp [fieldLine]⟩

theorem run_body (h : Head) {body : List UInt8} {left : Nat} (hleft : body.length = left + 1)
    (got rest : List UInt8) :
    run step (.body h left got) (body ++ rest) = (.done ⟨h, got ++ body⟩, rest) := by
  induction left generalizing body got with
  | zero =>
    obtain ⟨b, rfl⟩ := List.length_eq_one_iff.mp hleft
    rfl
  | succ left ih =>
    obtain ⟨b, body, rfl⟩ := List.exists_cons_of_length_eq_add_one hleft
    rw [List.cons_append, run, step]
    dsimp only
    rw [ih (by simpa using hleft), List.append_assoc, List.singleton_append]

theorem run_stream (h : Head) (got body : List UInt8) :
    run step (.stream h got) body = (.going (.stream h (got ++ body)), []) := by
  induction body generalizing got with
  | nil => rw [List.append_nil]; rfl
  | cons b body ih =>
    rw [run, step]
    dsimp only
    rw [ih, List.append_assoc, List.singleton_append]

/-- A response with its length is read back, whatever follows it. -/
theorem run_response {h : Head} (hw : h.Writable) {body : List UInt8}
    (hextent : h.trimmed.extent = some (.length body.length)) (rest : List UInt8) :
    run step start (write h ++ body ++ rest) = (.done ⟨h.trimmed, body⟩, rest) := by
  rw [List.append_assoc, run_write hw, openBody, parseHead_lines hw]
  dsimp only
  rw [hextent]
  cases hlen : body.length with
  | zero =>
    obtain rfl : body = [] := List.length_eq_zero_iff.mp hlen
    rfl
  | succ left => exact run_body h.trimmed hlen [] rest

/-- A response without a length has everything that follows as its body. -/
theorem run_streamed {h : Head} (hw : h.Writable) (hextent : h.trimmed.extent = some .untilClose)
    (body : List UInt8) :
    run step start (write h ++ body) = (.going (.stream h.trimmed body), []) := by
  rw [run_write hw, openBody, parseHead_lines hw]
  dsimp only
  rw [hextent]
  exact run_stream h.trimmed [] body

end Mlxd.Lib.HttpReader
