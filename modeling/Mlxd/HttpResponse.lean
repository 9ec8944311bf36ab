import Mlxd.Json
import Mlxd.Lib.HttpReader

/-!
# Responses on the wire

The heads that `response.c` prints into a buffer of 512 bytes. A client reads every response back,
with its body, whatever follows it.
-/
namespace Mlxd.Http

open Mlxd.Unicode Mlxd.Json Mlxd.Lib Mlxd.Lib.HttpReader

def httpStatusReason : Int → String
  | 200 => "OK"
  | 204 => "No Content"
  | 400 => "Bad Request"
  | 404 => "Not Found"
  | 405 => "Method Not Allowed"
  | 413 => "Payload Too Large"
  | 500 => "Internal Server Error"
  | 501 => "Not Implemented"
  | 503 => "Service Unavailable"
  | _ => "Unknown"

/-- `%d` -/
def printInt (n : Int) : Bytes := if n < 0 then ascii "-" ++ digits n.natAbs else digits n.natAbs

def crlf : Bytes := ascii "\r\n"

def connection (keepAlive : Bool) : Bytes := ascii (if keepAlive then "keep-alive" else "close")

/-- `snprintf` into a buffer of 512 bytes: the text fits with its NUL or is not used. -/
def printed (text : Bytes) : Option Bytes := if 512 ≤ text.length then none else some text

def httpBuildResponse (status : Int) (contentType : Option Bytes) (body : Bytes) (keepAlive : Bool) :
    Option Bytes := do
  let contentType ← contentType
  if CR ∈ contentType ∨ LF ∈ contentType then none
  else
    let head ← printed (
      ascii "HTTP/1.1 " ++ printInt status ++ ascii " " ++ ascii (httpStatusReason status) ++ crlf ++
      ascii "Content-Type: " ++ contentType ++ crlf ++
      ascii "Content-Length: " ++ digits body.length ++ crlf ++
      ascii "Access-Control-Allow-Origin: *" ++ crlf ++
      ascii "Connection: " ++ connection keepAlive ++ crlf ++
      crlf)
    some (head ++ body)

def httpBuildPreflight (keepAlive : Bool) : Option Bytes :=
  printed (
    ascii "HTTP/1.1 204 No Content" ++ crlf ++
    ascii "Access-Control-Allow-Origin: *" ++ crlf ++
    ascii "Access-Control-Allow-Methods: GET, POST, OPTIONS" ++ crlf ++
    ascii "Access-Control-Allow-Headers: Content-Type, Authorization" ++ crlf ++
    ascii "Content-Length: 0" ++ crlf ++
    ascii "Connection: " ++ connection keepAlive ++ crlf ++
    crlf)

def httpBuildSseHead : Bytes :=
  ascii "HTTP/1.1 200 OK" ++ crlf ++
  ascii "Content-Type: text/event-stream" ++ crlf ++
  ascii "Cache-Control: no-cache" ++ crlf ++
  ascii "Access-Control-Allow-Origin: *" ++ crlf ++
  ascii "Connection: close" ++ crlf ++
  crlf

/-! ## What a client reads -/

def responseHead (status : Nat) (contentType : Bytes) (length : Nat) (keepAlive : Bool) : Head where
  status := status
  reason := ascii (httpStatusReason status)
  fields := [(ascii "Content-Type", contentType), (ascii "Content-Length", digits length),
    (ascii "Access-Control-Allow-Origin", ascii "*"), (ascii "Connection", connection keepAlive)]

/-- The response that a client reads. -/
def response (status : Nat) (contentType body : Bytes) (keepAlive : Bool) : Response :=
  ⟨(responseHead status contentType body.length keepAlive).trimmed, body⟩

def preflightHead (keepAlive : Bool) : Head where
  status := 204
  reason := ascii "No Content"
  fields := [(ascii "Access-Control-Allow-Origin", ascii "*"),
    (ascii "Access-Control-Allow-Methods", ascii "GET, POST, OPTIONS"),
    (ascii "Access-Control-Allow-Headers", ascii "Content-Type, Authorization"),
    (ascii "Content-Length", ascii "0"), (ascii "Connection", connection keepAlive)]

def sseHead : Head where
  status := 200
  reason := ascii "OK"
  fields := [(ascii "Content-Type", ascii "text/event-stream"),
    (ascii "Cache-Control", ascii "no-cache"), (ascii "Access-Control-Allow-Origin", ascii "*"),
    (ascii "Connection", ascii "close")]

/-- Three digits, and a status that has a body. -/
structure Bodied (status : Nat) : Prop where
  low : 200 ≤ status
  high : status ≤ 999
  content : status ≠ 204
  modified : status ≠ 304

instance (status : Nat) : Decidable (Bodied status) :=
  decidable_of_iff (200 ≤ status ∧ status ≤ 999 ∧ status ≠ 204 ∧ status ≠ 304)
    ⟨fun h => ⟨h.1, h.2.1, h.2.2.1, h.2.2.2⟩, fun h => ⟨h.low, h.high, h.content, h.modified⟩⟩

theorem reason_clean (status : Int) : Clean (ascii (httpStatusReason status)) := by
  unfold httpStatusReason
  split <;> decide

theorem connection_clean (keepAlive : Bool) : Clean (connection keepAlive) := by
  cases keepAlive <;> decide

theorem trim_digits (n : Nat) : trim (digits n) = digits n := by
  have hblank : ∀ b ∈ digits n, ¬ isBlank b = true := by
    intro b hb hno
    have hdigit := digits_isDigit n b hb
    simp only [isBlank, isDigit, Bool.or_eq_true, beq_iff_eq] at hno hdigit
    rcases hno with rfl | rfl
    · exact absurd hdigit (by decide)
    · exact absurd hdigit (by decide)
  rw [trim, List.dropWhile_eq_self_iff.mpr fun h => hblank _ (List.getElem_mem h),
    List.rdropWhile_eq_self_iff.mpr fun h => hblank _ (List.getLast_mem h)]

theorem responseHead_writable {status : Nat} (hstatus : Bodied status) {contentType : Bytes}
    (hclean : Clean contentType) (length : Nat) (keepAlive : Bool) :
    (responseHead status contentType length keepAlive).Writable where
  low := by have := hstatus.low; simp only [responseHead]; omega
  high := hstatus.high
  reason := reason_clean status
  names := by
    simp only [responseHead, List.forall_mem_cons]
    exact ⟨by decide, by decide, by decide, by decide, by simp⟩
  values := by
    simp only [responseHead, List.forall_mem_cons]
    exact ⟨hclean, digits_clean length, by decide, connection_clean keepAlive, by simp⟩

theorem responseHead_extent {status : Nat} (hstatus : Bodied status) (contentType : Bytes)
    (length : Nat) (keepAlive : Bool) :
    (responseHead status contentType length keepAlive).trimmed.extent = some (.length length) := by
  obtain ⟨hlow, -, hcontent, hmodified⟩ := hstatus
  have hnone : ¬ ((responseHead status contentType length keepAlive).trimmed.status / 100 = 1 ∨
      (responseHead status contentType length keepAlive).trimmed.status = 204 ∨
      (responseHead status contentType length keepAlive).trimmed.status = 304) := by
    simp only [Head.trimmed, responseHead]
    omega
  have hlength : (responseHead status contentType length keepAlive).trimmed.values contentLength =
      [trim (digits length)] := rfl
  have hencoding : (responseHead status contentType length keepAlive).trimmed.values
      transferEncoding = [] := rfl
  rw [Head.extent, if_neg hnone, if_neg (not_not.mpr hencoding), hlength, trim_digits]
  dsimp only
  rw [number_digits, Option.map_some]

theorem responseHead_text (status : Nat) (contentType : Bytes) (length : Nat) (keepAlive : Bool) :
    write (responseHead status contentType length keepAlive) =
      ascii "HTTP/1.1 " ++ printInt status ++ ascii " " ++ ascii (httpStatusReason status) ++ crlf ++
      ascii "Content-Type: " ++ contentType ++ crlf ++
      ascii "Content-Length: " ++ digits length ++ crlf ++
      ascii "Access-Control-Allow-Origin: *" ++ crlf ++
      ascii "Connection: " ++ connection keepAlive ++ crlf ++
      crlf := by
  have hint : printInt status = digits status := if_neg (by omega)
  have hversion : version = ascii "HTTP/1.1 " := by decide
  have hspace : [SPACE] = ascii " " := by decide
  have hcrlf : [CR, LF] = crlf := by decide
  have hfield : ∀ name label : Bytes, name ++ [COLON, SPACE] = label →
      ∀ value, fieldLine (name, value) = label ++ value := by
    intro name label h value
    rw [fieldLine, h]
  have htype := hfield (ascii "Content-Type") (ascii "Content-Type: ") (by decide)
  have hlen := hfield (ascii "Content-Length") (ascii "Content-Length: ") (by decide)
  have hconn := hfield (ascii "Connection") (ascii "Connection: ") (by decide)
  have horigin : fieldLine (ascii "Access-Control-Allow-Origin", ascii "*") =
      ascii "Access-Control-Allow-Origin: *" := by decide
  simp only [write, responseHead, statusLine, List.map_cons, List.map_nil, List.flatMap_cons,
    List.flatMap_nil, hint, hversion, hspace, hcrlf, htype, hlen, horigin, hconn, List.append_assoc,
    List.nil_append]

/-- What `http_build_response` gives is the text of the head and the body. -/
theorem httpBuildResponse_some {status : Nat} {contentType : Option Bytes} {body wire : Bytes}
    {keepAlive : Bool} (h : httpBuildResponse status contentType body keepAlive = some wire) :
    ∃ value, contentType = some value ∧ Clean value ∧
      wire = write (responseHead status value body.length keepAlive) ++ body := by
  cases contentType with
  | none => cases h
  | some value =>
    simp only [httpBuildResponse, Option.bind_eq_bind, Option.bind_some, ← responseHead_text,
      printed] at h
    split at h
    · cases h
    · next hclean =>
      rw [not_or] at hclean
      split at h
      · cases h
      · rw [Option.bind_some, Option.some.injEq] at h
        exact ⟨value, rfl, hclean, h.symm⟩

/-- A client reads the status, the type and the body of a response, and the connection's fate; the
bytes behind it are left as they are. -/
theorem httpBuildResponse_read {status : Nat} {contentType : Option Bytes} {body wire : Bytes}
    {keepAlive : Bool} (hstatus : Bodied status)
    (h : httpBuildResponse status contentType body keepAlive = some wire) :
    ∃ value, contentType = some value ∧ ∀ rest,
      Incremental.run step start (wire ++ rest) = (.done (response status value body keepAlive), rest) := by
  obtain ⟨value, rfl, hclean, rfl⟩ := httpBuildResponse_some h
  refine ⟨value, rfl, fun rest => ?_⟩
  exact run_response (responseHead_writable hstatus hclean body.length keepAlive)
    (responseHead_extent hstatus value body.length keepAlive) rest

theorem preflightHead_writable (keepAlive : Bool) : (preflightHead keepAlive).Writable where
  low := by simp [preflightHead]
  high := by simp [preflightHead]
  reason := by simp only [preflightHead]; decide
  names := by
    simp only [preflightHead, List.forall_mem_cons]
    exact ⟨by decide, by decide, by decide, by decide, by decide, by simp⟩
  values := by
    simp only [preflightHead, List.forall_mem_cons]
    exact ⟨by decide, by decide, by decide, by decide, connection_clean keepAlive, by simp⟩

theorem httpBuildPreflight_text (keepAlive : Bool) :
    httpBuildPreflight keepAlive = some (write (preflightHead keepAlive)) := by
  cases keepAlive <;> decide +kernel

theorem httpBuildPreflight_read (keepAlive : Bool) : ∃ wire, httpBuildPreflight keepAlive = some wire ∧
    ∀ rest, Incremental.run step start (wire ++ rest) =
      (.done ⟨(preflightHead keepAlive).trimmed, []⟩, rest) := by
  refine ⟨_, httpBuildPreflight_text keepAlive, fun rest => ?_⟩
  have hextent : (preflightHead keepAlive).trimmed.extent = some (.length ([] : Bytes).length) := by
    cases keepAlive <;> decide
  have hread := run_response (preflightHead_writable keepAlive) hextent rest
  rwa [List.append_nil] at hread

theorem sseHead_writable : sseHead.Writable where
  low := by decide
  high := by decide
  reason := by decide
  names := by decide
  values := by decide

theorem httpBuildSseHead_text : httpBuildSseHead = write sseHead := by decide +kernel

/-- Whatever follows the head of a stream is its body. -/
theorem httpBuildSseHead_read (body : Bytes) :
    Incremental.run step start (httpBuildSseHead ++ body) = (.going (.stream sseHead.trimmed body), []) := by
  rw [httpBuildSseHead_text]
  exact run_streamed sseHead_writable rfl body

end Mlxd.Http
