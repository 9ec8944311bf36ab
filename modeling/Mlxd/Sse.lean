import Mlxd.Detok
import Mlxd.Lib.Buffer
import Mlxd.Lib.EventStream

/-!
# Framing of server-sent events

A payload is written as one `data` line for each of its lines and a blank line, into a block
whose size is computed from the line count. A receiver gives every payload back.
-/
namespace Mlxd.Sse

open Mlxd.Unicode Mlxd.Json Mlxd.Lib.Buffer Mlxd.Lib

/-- `malloc`: it may fail, else there are as many bytes as asked for, of unknown content. -/
def Malloc : Type :=
  { malloc : Nat → Option (Array UInt8) // ∀ n block, malloc n = some block → block.size = n }

def dataField : Bytes := ascii "data: "

def newline : UInt8 := 10

/-- The lines of a payload, counted by its line feeds. -/
def lines (data : Bytes) : Nat := data.foldl (fun n b => if b = newline then n + 1 else n) 1

/-- The block for a payload: every line with its field name and line feed, the payload itself,
the blank line and the NUL. -/
def blockSize (data : Bytes) : Nat :=
  if data.length = 0 then 8 + 1 else lines data * 7 + data.length + 2

/-- Write the lines of `p` from `off` on; `none` is a write outside the block. -/
def writeLines : Nat → Bytes → Nat → Array UInt8 → Option (Nat × Array UInt8)
  | 0, _, _, _ => none
  | fuel + 1, p, off, buf => do
    let seg := p.takeWhile (· ≠ newline)
    let buf ← storeSlice buf off dataField
    let off := off + 6
    let buf ← (if 0 < seg.length then storeSlice buf off seg else some buf)
    let off := off + seg.length
    let buf ← store buf off newline
    let off := off + 1
    if seg.length < p.length then writeLines fuel (p.drop (seg.length + 1)) off buf
    else some (off, buf)

/-- The frame of a payload in its block; the outer `none` is a write outside the block and the
inner one a failed allocation. -/
def sseFormat (malloc : Malloc) (data : Bytes) : Option (Option (Array UInt8)) :=
  match malloc.1 (blockSize data) with
  | none => some none
  | some buf =>
    if data.length = 0 then do
      let buf ← storeSlice buf 0 (ascii "data: \n\n")
      let buf ← store buf 8 0
      some (some buf)
    else do
      let (off, buf) ← writeLines (data.length + 1) data 0 buf
      let buf ← store buf off newline
      let buf ← store buf (off + 1) 0
      some (some buf)

def sseDone : Bytes := ascii "data: [DONE]\n\n"

/-! ## The frame -/

/-- The rest of a payload line, and the lines after it. -/
def tailLines : Bytes → Bytes
  | [] => [newline]
  | b :: t => if b = newline then newline :: (dataField ++ tailLines t) else b :: tailLines t

/-- The text of a frame. -/
def frame (data : Bytes) : Bytes := dataField ++ tailLines data ++ [newline]

theorem lines_eq (data : Bytes) : lines data = data.count newline + 1 := by
  have hfold : ∀ n, data.foldl (fun n b => if b = newline then n + 1 else n) n =
      n + data.count newline := by
    induction data with
    | nil => intro n; rfl
    | cons b t ih =>
      intro n
      rw [List.foldl_cons, ih, List.count_cons]
      by_cases hb : b = newline
      · simp only [hb, ↓reduceIte, beq_self_eq_true]
        omega
      · simp [hb]
  rw [lines, hfold, Nat.add_comm]

theorem tailLines_length (data : Bytes) :
    (tailLines data).length = data.length + 1 + 6 * data.count newline := by
  induction data with
  | nil => rfl
  | cons b t ih =>
    rw [tailLines, List.count_cons]
    by_cases hb : b = newline
    · have hfield : dataField.length = 6 := rfl
      simp only [hb, ↓reduceIte, List.length_cons, List.length_append, ih, hfield,
        beq_self_eq_true]
      omega
    · simp only [hb, ↓reduceIte, List.length_cons, ih, beq_iff_eq]
      omega

/-- The first line, and what follows its line feed. -/
theorem tailLines_split (data : Bytes) :
    tailLines data = data.takeWhile (· ≠ newline) ++ newline ::
      (if (data.takeWhile (· ≠ newline)).length < data.length then
        dataField ++ tailLines (data.drop ((data.takeWhile (· ≠ newline)).length + 1))
      else []) := by
  induction data with
  | nil => rfl
  | cons b t ih =>
    by_cases hb : b = newline
    · simp [tailLines, hb]
    · rw [tailLines, if_neg hb, List.takeWhile_cons_of_pos (by simpa using hb)]
      simp only [List.length_cons, List.drop_succ_cons, List.cons_append, Nat.succ_lt_succ_iff]
      rw [← ih]

/-- The frame and its NUL fit the block. -/
theorem frame_fits (data : Bytes) : (frame data).length + 1 ≤ blockSize data := by
  have hfield : dataField.length = 6 := rfl
  simp only [frame, List.length_append, tailLines_length, hfield, List.length_singleton, blockSize,
    lines_eq]
  split
  · rename_i h
    rw [List.length_eq_zero_iff.mp h]
    decide
  · omega

/-! ## The writer -/

/-- From an offset where the block holds `done`, the loop appends the lines of the rest. -/
theorem writeLines_spec (fuel : Nat) (p done : Bytes) (buf : Array UInt8)
    (hfuel : p.length < fuel) (hbuf : Holds buf done)
    (hroom : done.length + (dataField ++ tailLines p).length ≤ buf.size) :
    Safe (writeLines fuel p done.length buf) fun r => r.2.size = buf.size ∧
      r.1 = (done ++ dataField ++ tailLines p).length ∧
      Holds r.2 (done ++ dataField ++ tailLines p) := by
  induction fuel generalizing p done buf with
  | zero => omega
  | succ fuel ih =>
    have hfield : dataField.length = 6 := rfl
    have hsplit := tailLines_split p
    generalize hseg : p.takeWhile (· ≠ newline) = seg at hsplit
    rw [hsplit] at hroom ⊢
    simp only [List.length_append, List.length_cons] at hroom
    rw [writeLines, hseg]
    dsimp only
    refine (safe_storeSlice hbuf dataField (by omega)).bind fun buf1 ⟨hsize1, hbuf1⟩ => ?_
    have hlen1 : done.length + 6 = (done ++ dataField).length := by
      rw [List.length_append, hfield]
    rw [hlen1]
    have hsegment : Safe (if 0 < seg.length then storeSlice buf1 (done ++ dataField).length seg
        else some buf1) fun b => b.size = buf1.size ∧ Holds b (done ++ dataField ++ seg) := by
      split
      · exact safe_storeSlice hbuf1 seg (by simp only [List.length_append]; omega)
      · rename_i hnone
        obtain rfl : seg = [] := List.length_eq_zero_iff.mp (by omega)
        exact Safe.of_some ⟨rfl, by rwa [List.append_nil]⟩
    refine hsegment.bind fun buf2 ⟨hsize2, hbuf2⟩ => ?_
    rw [← List.length_append]
    refine (safe_store hbuf2 (by simp only [List.length_append]; omega) newline).bind
      fun buf3 ⟨hsize3, hbuf3⟩ => ?_
    have hlen3 : (done ++ dataField ++ seg).length + 1 =
        (done ++ dataField ++ seg ++ [newline]).length := by
      simp only [List.length_append, List.length_singleton]
    rw [hlen3]
    have hseglen : seg.length ≤ p.length := hseg ▸ (List.takeWhile_sublist _).length_le
    split
    · rename_i hmore
      rw [if_pos hmore, List.length_append] at hroom
      refine (ih (p.drop (seg.length + 1)) _ buf3 (by simp only [List.length_drop]; omega) hbuf3
        ?_).mono fun r ⟨hsize, hoff, hholds⟩ => ?_
      · simp only [List.length_append, List.length_singleton]
        omega
      · simp only [List.append_assoc, List.singleton_append] at hoff hholds ⊢
        exact ⟨by omega, hoff, hholds⟩
    · rename_i hlast
      refine Safe.of_some ?_
      simp only [List.append_assoc] at hbuf3 ⊢
      exact ⟨by omega, trivial, hbuf3⟩

/-- The writer stays inside the block and leaves the frame and a NUL at its start. -/
theorem sseFormat_spec (malloc : Malloc) (data : Bytes) (block : Array UInt8)
    (hblock : malloc.1 (blockSize data) = some block) :
    ∃ buf, sseFormat malloc data = some (some buf) ∧ Holds buf (frame data ++ [0]) := by
  have hsize := malloc.2 _ _ hblock
  have hfits := frame_fits data
  have hframe : (frame data).length = (dataField ++ tailLines data).length + 1 := by
    rw [frame, List.length_append]
    rfl
  unfold sseFormat
  simp only [hblock]
  split
  · rename_i hempty
    obtain rfl := List.length_eq_zero_iff.mp hempty
    obtain ⟨buf1, he1, hsize1, hbuf1⟩ := safe_storeSlice (Holds.nil block) (frame [])
      (by rw [hsize, List.length_nil]; omega)
    obtain ⟨buf2, he2, -, hbuf2⟩ := safe_store hbuf1
      (by rw [hsize1, hsize, List.nil_append]; omega) 0
    refine ⟨buf2, ?_, hbuf2⟩
    have he1' : storeSlice block 0 (ascii "data: \n\n") = some buf1 := he1
    have he2' : store buf1 8 0 = some buf2 := he2
    simp [he1', he2']
  · obtain ⟨⟨off, buf1⟩, he1, hsize1, hoff, hbuf1⟩ := writeLines_spec (data.length + 1) data [] block
      (Nat.lt_succ_self _) (Holds.nil block) (by rw [hsize, List.length_nil]; omega)
    simp only [List.nil_append] at hsize1 hoff hbuf1
    obtain ⟨buf2, he2, hsize2, hbuf2⟩ := safe_store hbuf1 (by omega) newline
    obtain ⟨buf3, he3, -, hbuf3⟩ := safe_store hbuf2 (by
      rw [List.length_append, List.length_singleton]
      omega) 0
    refine ⟨buf3, ?_, hbuf3⟩
    have he1' : writeLines (data.length + 1) data 0 block = some (off, buf1) := he1
    rw [List.length_append, List.length_singleton, ← hoff] at he3
    rw [← hoff] at he2
    simp [he1', he2, he3]

/-! ## The receiver -/

theorem dataField_eq : dataField = [100, 97, 116, 97, EventStream.COLON, EventStream.SPACE] := by
  decide

/-- A frame read from inside its first line adds the payload to the data, line by line. -/
theorem foldl_tailLines (data seg : Bytes) (r : EventStream.Receiver) (hr : r.Fresh)
    (hseg : EventStream.LF ∉ seg ∧ EventStream.CR ∉ seg) (hdata : EventStream.CR ∉ data) :
    (dataField ++ (seg ++ tailLines data)).foldl EventStream.receive r =
      { r with data := r.data ++ seg ++ data ++ [newline] } := by
  induction data generalizing seg r with
  | nil =>
    have h := EventStream.receive_data seg r hr hseg
    rw [← dataField_eq, List.append_assoc] at h
    rw [tailLines, List.append_nil]
    exact h
  | cons b t ih =>
    simp only [List.mem_cons, not_or] at hdata
    by_cases hb : b = newline
    · have h := EventStream.receive_data seg r hr hseg
      rw [← dataField_eq] at h
      have hnext := ih [] { r with data := r.data ++ seg ++ [EventStream.LF] }
        ⟨hr.line, hr.afterCr⟩ (by simp) hdata.2
      have hsplit : dataField ++ (seg ++ tailLines (b :: t)) =
          (dataField ++ seg ++ [EventStream.LF]) ++ (dataField ++ ([] ++ tailLines t)) := by
        rw [tailLines, if_pos hb]
        simp [newline, EventStream.LF]
      rw [hsplit, EventStream.foldl_receive_append, h, hnext, hb]
      simp [newline, EventStream.LF]
    · have hnext := ih (seg ++ [b]) r hr (by
        simp only [List.mem_append, List.mem_singleton, not_or]
        exact ⟨⟨hseg.1, Ne.symm hb⟩, hseg.2, hdata.1⟩) hdata.2
      rw [tailLines, if_neg hb]
      simpa using hnext

/-- One frame is one event and leaves the receiver between two events. -/
theorem foldl_frame (data : Bytes) (r : EventStream.Receiver) (hr : r.Fresh)
    (hempty : r.data = []) (hdata : EventStream.CR ∉ data) :
    (frame data).foldl EventStream.receive r =
      { r with kind := [], events := r.events ++ [⟨r.kind, data, r.lastId⟩] } := by
  have h := foldl_tailLines data [] r hr (by simp) hdata
  rw [List.nil_append, hempty] at h
  have hblank := EventStream.receive_blank data { r with data := [] ++ [] ++ data ++ [newline] }
    ⟨hr.line, hr.afterCr⟩ rfl
  rw [frame, EventStream.foldl_receive_append, h, List.foldl_cons, List.foldl_nil]
  rw [hempty]
  exact hblank

theorem foldl_frames (payloads : List Bytes) (r : EventStream.Receiver) (hr : r.Fresh)
    (hempty : r.data = []) (hkind : r.kind = []) (h : ∀ data ∈ payloads, EventStream.CR ∉ data) :
    (payloads.flatMap frame).foldl EventStream.receive r =
      { r with events := r.events ++ payloads.map fun data => ⟨[], data, r.lastId⟩ } := by
  induction payloads generalizing r with
  | nil => simp
  | cons data payloads ih =>
    rw [List.flatMap_cons, EventStream.foldl_receive_append,
      foldl_frame data r hr hempty (h data (by simp)), hkind]
    rw [ih { r with kind := [], events := r.events ++ [⟨[], data, r.lastId⟩] }
      ⟨hr.line, hr.afterCr⟩ hempty rfl fun x hx => h x (by simp [hx])]
    simp

/-- The frames of a response give its payloads back, one event each and in order. -/
theorem events_frames (payloads : List Bytes) (h : ∀ data ∈ payloads, EventStream.CR ∉ data) :
    EventStream.events (payloads.flatMap frame) = payloads.map fun data => ⟨[], data, []⟩ := by
  have hmark : EventStream.stripMark (payloads.flatMap frame) = payloads.flatMap frame := by
    cases payloads with
    | nil => rfl
    | cons data payloads =>
      simp only [List.flatMap_cons, frame, dataField_eq, List.cons_append]
      rfl
  rw [EventStream.events, hmark, foldl_frames payloads EventStream.start ⟨rfl, rfl⟩ rfl rfl h]
  rfl

theorem zero_not_mem_frame (data : Bytes) (h : (0 : UInt8) ∉ data) : (0 : UInt8) ∉ frame data := by
  have htail : (0 : UInt8) ∉ tailLines data := by
    induction data with
    | nil => decide
    | cons b t ih =>
      simp only [List.mem_cons, not_or] at h
      have ht := ih h.2
      have hfield : (0 : UInt8) ∉ dataField := by decide
      rw [tailLines]
      split
      · simpa [hfield, ht] using (by decide : (0 : UInt8) ≠ newline)
      · simpa [ht] using h.1
  simp only [frame, List.mem_append, not_or]
  exact ⟨⟨by decide, htail⟩, by decide⟩

/-- No write leaves the block, only a failed allocation makes no frame, and the frame of a payload
without CR and NUL is one event that carries the payload. -/
theorem sse_round_trip (malloc : Malloc) (data : Bytes) :
    (sseFormat malloc data).isSome ∧
    (sseFormat malloc data = some none ↔ malloc.1 (blockSize data) = none) ∧
    ∀ block, sseFormat malloc data = some (some block) →
      EventStream.CR ∉ data → (0 : UInt8) ∉ data →
      EventStream.events (cstr block.toList) = [⟨[], data, []⟩] := by
  cases hblock : malloc.1 (blockSize data) with
  | none =>
    have hnone : sseFormat malloc data = some none := by simp [sseFormat, hblock]
    simp [hnone]
  | some block =>
    obtain ⟨buf, he, rest, hrest⟩ := sseFormat_spec malloc data block hblock
    refine ⟨by rw [he]; rfl, by simp [he], fun block' hb hcr hnul => ?_⟩
    rw [he, Option.some.injEq, Option.some.injEq] at hb
    have hzero := zero_not_mem_frame data hnul
    rw [← hb, ← hrest, List.append_assoc, List.singleton_append, Detok.cstr_zero _ _ hzero]
    have h := events_frames [data] (by simpa using hcr)
    rwa [List.flatMap_singleton] at h

/-- The frame that ends a response is one event too. -/
example : EventStream.events (frame (ascii "a\n") ++ sseDone) =
    [⟨[], ascii "a\n", []⟩, ⟨[], ascii "[DONE]", []⟩] := by
  decide

end Mlxd.Sse
