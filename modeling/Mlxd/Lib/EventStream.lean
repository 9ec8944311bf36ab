import Mathlib.Data.List.TakeWhile
import Mathlib.Tactic.Common

/-!
# Receiving a server-sent event stream

The receiver reads a byte at a time. A line ends at LF, CR or CRLF; a blank line dispatches the
event, its data lines joined by LF; a comment or an unknown field is ignored; what is pending
when the stream ends is never dispatched.
-/
namespace Mlxd.Lib.EventStream

def LF : UInt8 := 10
def CR : UInt8 := 13
def COLON : UInt8 := 58
def SPACE : UInt8 := 32

/-- A dispatched event; `kind` is empty for the default type. -/
structure Event where
  kind : List UInt8
  data : List UInt8
  lastId : List UInt8
  deriving DecidableEq, Repr

structure Receiver where
  line : List UInt8
  afterCr : Bool
  data : List UInt8
  kind : List UInt8
  lastId : List UInt8
  retry : Option Nat
  events : List Event
  deriving DecidableEq, Repr

def start : Receiver := ⟨[], false, [], [], [], none, []⟩

/-- Dispatch what is buffered; an empty data buffer makes no event. -/
def dispatch (r : Receiver) : Receiver :=
  if r.data = [] then { r with kind := [] }
  else
    let data := if r.data.getLast? = some LF then r.data.dropLast else r.data
    { r with data := [], kind := [], events := r.events ++ [⟨r.kind, data, r.lastId⟩] }

/-- A field with its name and value. -/
def processField (r : Receiver) (name value : List UInt8) : Receiver :=
  if name = [101, 118, 101, 110, 116] then { r with kind := value }
  else if name = [100, 97, 116, 97] then { r with data := r.data ++ value ++ [LF] }
  else if name = [105, 100] then if (0 : UInt8) ∈ value then r else { r with lastId := value }
  else if name = [114, 101, 116, 114, 121] then
    if value ≠ [] ∧ value.all fun b => 48 ≤ b && b ≤ 57 then
      { r with retry := some (value.foldl (fun n b => n * 10 + (b.toNat - 48)) 0) }
    else r
  else r

/-- One space behind the colon is not part of the value. -/
def stripSpace : List UInt8 → List UInt8
  | b :: value => if b = SPACE then value else b :: value
  | [] => []

def processLine (r : Receiver) : Receiver :=
  if r.line = [] then dispatch r
  else if r.line.head? = some COLON then r
  else
    let name := r.line.takeWhile (· ≠ COLON)
    processField r name (stripSpace ((r.line.dropWhile (· ≠ COLON)).drop 1))

def endLine (r : Receiver) : Receiver := { processLine r with line := [], afterCr := false }

/-- One byte of the stream; an LF right after a CR belongs to the same line end. -/
def receive (r : Receiver) (b : UInt8) : Receiver :=
  if b = LF then if r.afterCr then { r with afterCr := false } else endLine r
  else if b = CR then { endLine r with afterCr := true }
  else { r with line := r.line ++ [b], afterCr := false }

/-- A leading byte order mark is not part of the stream. -/
def stripMark : List UInt8 → List UInt8
  | 0xEF :: 0xBB :: 0xBF :: s => s
  | s => s

/-- The events a stream dispatches. -/
def events (s : List UInt8) : List Event := ((stripMark s).foldl receive start).events

/-! ## Reading lines -/

/-- A receiver between two lines. -/
structure Receiver.Fresh (r : Receiver) : Prop where
  line : r.line = []
  afterCr : r.afterCr = false

/-- The bytes of a line are collected until it ends. -/
theorem foldl_receive_line (s : List UInt8) (r : Receiver) (hafter : r.afterCr = false)
    (hs : LF ∉ s ∧ CR ∉ s) : s.foldl receive r = { r with line := r.line ++ s } := by
  induction s generalizing r with
  | nil => simp
  | cons b s ih =>
    simp only [List.mem_cons, not_or] at hs
    have hstep : receive r b = { r with line := r.line ++ [b] } := by
      rw [receive, if_neg (Ne.symm hs.1.1), if_neg (Ne.symm hs.2.1), hafter]
    rw [List.foldl_cons, hstep, ih { r with line := r.line ++ [b] } hafter ⟨hs.1.2, hs.2.2⟩]
    simp

theorem foldl_receive_append (s t : List UInt8) (r : Receiver) :
    (s ++ t).foldl receive r = t.foldl receive (s.foldl receive r) := List.foldl_append

/-- A `data` line with a space behind its colon adds its value and a line feed. -/
theorem receive_data (value : List UInt8) (r : Receiver) (hr : r.Fresh)
    (hvalue : LF ∉ value ∧ CR ∉ value) :
    ([100, 97, 116, 97, COLON, SPACE] ++ value ++ [LF]).foldl receive r =
      { r with data := r.data ++ value ++ [LF] } := by
  have hline : LF ∉ [100, 97, 116, 97, COLON, SPACE] ++ value ∧
      CR ∉ [100, 97, 116, 97, COLON, SPACE] ++ value := by
    refine ⟨?_, ?_⟩
    · rw [List.mem_append, not_or]
      exact ⟨by decide, hvalue.1⟩
    · rw [List.mem_append, not_or]
      exact ⟨by decide, hvalue.2⟩
  rw [foldl_receive_append, foldl_receive_line _ r hr.afterCr hline, List.foldl_cons,
    List.foldl_nil, receive, if_pos rfl, hr.afterCr]
  obtain ⟨line, afterCr, data, kind, lastId, retry, events⟩ := r
  obtain rfl : line = [] := hr.line
  obtain rfl : afterCr = false := hr.afterCr
  rfl

/-- A blank line dispatches the data without its last line feed. -/
theorem receive_blank (data : List UInt8) (r : Receiver) (hr : r.Fresh)
    (hdata : r.data = data ++ [LF]) :
    receive r LF =
      { r with data := [], kind := [], events := r.events ++ [⟨r.kind, data, r.lastId⟩] } := by
  obtain ⟨line, afterCr, data', kind, lastId, retry, events⟩ := r
  obtain rfl : line = [] := hr.line
  obtain rfl : afterCr = false := hr.afterCr
  obtain rfl : data' = data ++ [LF] := hdata
  simp [receive, endLine, processLine, dispatch]

end Mlxd.Lib.EventStream
