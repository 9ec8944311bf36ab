import Mlxd.Unicode

/-!
# Resumed downloads

A download is written to a partial file beside its destination. The next attempt asks for the
bytes after it, and a complete answer makes it the destination. The partial file stays a prefix
of the served content exactly as long as no body but the content's own is left in it.
-/
namespace Mlxd.HubDownload

open Mlxd.Unicode

/-! ## The download -/

/-- The destination and the partial file. -/
structure Files where
  dest : Option Bytes
  part : Option Bytes
  deriving DecidableEq, Repr

/-- What one transfer meets: whether the file opens and a handle is made, the status, the body as
it is handed to the write callback, the totals of `Content-Range: bytes */N` headers, whether the
transfer ends well or is stopped by the progress callback, and whether a rename succeeds. -/
structure Transfer where
  opened : Bool
  handle : Bool
  status : Nat
  chunks : List Bytes
  ranges : List Int
  ok : Bool
  aborted : Bool
  renamed : Bool
  deriving DecidableEq, Repr

/-- The part of the callback context the content depends on. -/
structure DlCtx where
  file : Bytes
  resumeBase : Nat
  responseChecked : Bool

/-- A full answer to a resumed request starts the file anew. -/
def dlWriteCb (status : Nat) (ctx : DlCtx) (data : Bytes) : DlCtx :=
  let ctx :=
    if ctx.responseChecked = false ∧ 0 < ctx.resumeBase then
      if status = 200 then { ctx with responseChecked := true, file := [], resumeBase := 0 }
      else { ctx with responseChecked := true }
    else ctx
  { ctx with file := ctx.file ++ data }

def dlHeaderCb (total val : Int) : Int := if 0 < val then val else total

/-- The size of the partial file is where the request resumes. -/
def resumeFrom (f : Files) : Nat := (f.part.getD []).length

/-- The partial file after the body. -/
def received (t : Transfer) (f : Files) : Bytes :=
  (t.chunks.foldl (dlWriteCb t.status) ⟨f.part.getD [], resumeFrom f, false⟩).file

def contentRangeTotal (t : Transfer) : Int := t.ranges.foldl dlHeaderCb (-1)

/-- One transfer; no result stands for the jump back to `retry`. -/
def transferOnce (attempt : Nat) (t : Transfer) (f : Files) : Files × Option Int :=
  if t.opened = false then (f, some (-1))
  else if t.handle = false then ({ f with part := some (f.part.getD []) }, some (-1))
  else
    let file := received t f
    let f := { f with part := some file }
    if t.aborted then (f, some (-1))
    else if t.ok = false then (f, some (-1))
    else if t.status = 416 then
      if 0 < contentRangeTotal t ∧ (file.length : Int) = contentRangeTotal t then
        -- the result of this rename is not looked at
        (if t.renamed then ⟨some file, none⟩ else f, some 0)
      else if attempt = 0 then ({ f with part := none }, none)
      else ({ f with part := none }, some (-1))
    else if t.status < 200 ∨ 300 ≤ t.status then ({ f with part := none }, some (-1))
    else if t.renamed then (⟨some file, none⟩, some 0)
    else (f, some (-1))

/-- At most two transfers; the second only after a range that could not be satisfied. -/
def regDownloadFile (first second : Transfer) (f : Files) : Files × Int :=
  match transferOnce 0 first f with
  | (f, some rc) => (f, rc)
  | (f, none) =>
    match transferOnce 1 second f with
    | (f, some rc) => (f, rc)
    | (f, none) => (f, -1)

/-! ## The server -/

/-- A server of the content `F` that honours ranges answers a request for the bytes from `resume`
on: in full, with exactly the bytes asked for, or that there are none. Any other answer carries
any body. -/
structure Honours (F : Bytes) (resume : Nat) (t : Transfer) : Prop where
  full : t.status = 200 → t.chunks.flatten <+: F ∧ (t.ok = true → t.chunks.flatten = F)
  ranged : t.status = 206 → 0 < resume ∧ resume < F.length ∧ t.chunks.flatten <+: F.drop resume ∧
    (t.ok = true → t.chunks.flatten = F.drop resume)
  unsatisfied : t.status = 416 → 0 < resume ∧ F.length ≤ resume ∧
    (0 < contentRangeTotal t → contentRangeTotal t = F.length)

/-- The transfers of one call are answered by the server. -/
structure Served (F : Bytes) (f : Files) (first second : Transfer) : Prop where
  first : Honours F (resumeFrom f) first
  second : Honours F 0 second

/-- The files after any calls whose transfers meet `cond`, from no partial file on. -/
inductive Reached (cond : Transfer → Prop) (F : Bytes) : Files → Prop where
  | start (dest : Option Bytes) : Reached cond F ⟨dest, none⟩
  | call {f : Files} {first second : Transfer} : Reached cond F f → Served F f first second →
      cond first → cond second → Reached cond F (regDownloadFile first second f).1

/-- No body of another answer than the content's own is left behind: a broken-off answer with
another status has delivered nothing, a completed answer of success is 200 or 206, and the file
that was already complete is renamed. -/
structure Clean (t : Transfer) : Prop where
  broken : t.ok = false ∨ t.aborted = true → t.status = 200 ∨ t.status = 206 ∨
    t.chunks.flatten = []
  success : t.ok = true → 200 ≤ t.status → t.status < 300 → t.status = 200 ∨ t.status = 206
  complete : t.status = 416 → t.renamed = true

/-! ## What a body does to the partial file -/

/-- Once the first bytes are in, the rest is appended. -/
theorem foldl_append (status : Nat) (chunks : List Bytes) (ctx : DlCtx)
    (h : ctx.responseChecked = true ∨ ctx.resumeBase = 0) :
    (chunks.foldl (dlWriteCb status) ctx).file = ctx.file ++ chunks.flatten := by
  induction chunks generalizing ctx with
  | nil => simp
  | cons data chunks ih =>
    have hsame : dlWriteCb status ctx data = { ctx with file := ctx.file ++ data } := by
      rw [dlWriteCb, if_neg (by rcases h with h | h <;> simp [h])]
    rw [List.foldl_cons, hsame, ih { ctx with file := ctx.file ++ data } h, List.flatten_cons,
      List.append_assoc]

/-- Other answers than a full one are appended. -/
theorem received_append {t : Transfer} (f : Files) (h : t.status ≠ 200 ∨ resumeFrom f = 0) :
    received t f = f.part.getD [] ++ t.chunks.flatten := by
  rw [received]
  by_cases h0 : resumeFrom f = 0
  · exact foldl_append _ _ _ (.inr h0)
  · have hne : t.status ≠ 200 := h.resolve_right h0
    cases t.chunks with
    | nil => simp
    | cons data chunks =>
      have hfirst : dlWriteCb t.status ⟨f.part.getD [], resumeFrom f, false⟩ data =
          ⟨f.part.getD [] ++ data, resumeFrom f, true⟩ := by
        rw [dlWriteCb, if_pos ⟨rfl, Nat.pos_of_ne_zero h0⟩, if_neg hne]
      rw [List.foldl_cons, hfirst, foldl_append _ _ _ (.inl rfl), List.flatten_cons,
        List.append_assoc]

/-- A full answer replaces a partial file, as soon as any of it arrives. -/
theorem received_full {t : Transfer} (f : Files) (h : t.status = 200) :
    received t f = t.chunks.flatten ∨ t.chunks = [] ∧ received t f = f.part.getD [] := by
  by_cases h0 : resumeFrom f = 0
  · have hnil : f.part.getD [] = [] := List.length_eq_zero_iff.mp h0
    exact .inl (by rw [received_append f (.inr h0), hnil, List.nil_append])
  · rw [received]
    cases t.chunks with
    | nil => exact .inr ⟨rfl, rfl⟩
    | cons data chunks =>
      have hfirst : dlWriteCb t.status ⟨f.part.getD [], resumeFrom f, false⟩ data =
          ⟨data, 0, true⟩ := by
        rw [dlWriteCb, if_pos ⟨rfl, Nat.pos_of_ne_zero h0⟩, if_pos h]
        rfl
      exact .inl (by rw [List.foldl_cons, hfirst, foldl_append _ _ _ (.inl rfl),
        List.flatten_cons])

/-! ## The partial file stays a prefix -/

/-- The partial file, if there is one, is a prefix of the content. -/
def Partial (F : Bytes) (f : Files) : Prop := f.part.getD [] <+: F

section Step

variable {F : Bytes} {f : Files} {t : Transfer}

theorem append_initial {p rest : Bytes} (hp : p <+: F) (h : rest <+: F.drop p.length) :
    p ++ rest <+: F := by
  obtain ⟨s, rfl⟩ := hp
  rw [List.drop_left] at h
  exact (List.prefix_append_right_inj p).mpr h

/-- The body of a 200 or 206 answer leaves a prefix, and the whole content when it is complete. -/
theorem received_initial (hf : Partial F f) (ht : Honours F (resumeFrom f) t)
    (hs : t.status = 200 ∨ t.status = 206) :
    received t f <+: F ∧ (t.ok = true → received t f = F) := by
  rcases hs with hs | hs
  · obtain ⟨hbegin, hall⟩ := ht.full hs
    rcases received_full f hs with he | ⟨hnil, he⟩
    · rw [he]
      exact ⟨hbegin, hall⟩
    · refine ⟨he ▸ hf, fun hok => ?_⟩
      have hF : F = [] := by rw [← hall hok, hnil, List.flatten_nil]
      subst hF
      exact he ▸ List.prefix_nil.mp hf
  · obtain ⟨-, hlt, hbegin, hall⟩ := ht.ranged hs
    rw [received_append f (.inl (by omega))]
    refine ⟨append_initial hf hbegin, fun hok => ?_⟩
    obtain ⟨s, hs'⟩ := hf
    rw [hall hok, resumeFrom, ← hs', List.drop_left]

/-- A clean transfer keeps the partial file a prefix, and reports success with the content. -/
theorem transferOnce_clean (attempt : Nat) (hf : Partial F f) (ht : Honours F (resumeFrom f) t)
    (hc : Clean t) :
    Partial F (transferOnce attempt t f).1 ∧
      ((transferOnce attempt t f).2 = some 0 → (transferOnce attempt t f).1 = ⟨some F, none⟩) ∧
      ((transferOnce attempt t f).2 = none → (transferOnce attempt t f).1.part = none) := by
  have hnil : ∀ dest, Partial F ⟨dest, none⟩ := fun _ => List.nil_prefix
  rw [transferOnce]
  split
  · exact ⟨hf, by simp, by simp⟩
  split
  · exact ⟨hf, by simp, by simp⟩
  have hbroken : t.ok = false ∨ t.aborted = true → received t f <+: F := fun hb => by
    rcases hc.broken hb with hs | hs | hempty
    · exact (received_initial hf ht (.inl hs)).1
    · exact (received_initial hf ht (.inr hs)).1
    · by_cases hs : t.status = 200
      · exact (received_initial hf ht (.inl hs)).1
      · rw [received_append f (.inl hs), hempty, List.append_nil]
        exact hf
  simp only
  split
  · rename_i habort
    exact ⟨hbroken (.inr habort), by simp, by simp⟩
  split
  · rename_i hok
    exact ⟨hbroken (.inl hok), by simp, by simp⟩
  rename_i hok
  have hok : t.ok = true := by simpa using hok
  split
  · rename_i hs
    obtain ⟨-, hlong, htotal⟩ := ht.unsatisfied hs
    have hwhole : f.part.getD [] = F := hf.eq_of_length_le hlong
    split
    · rename_i hsize
      rw [received_append f (.inl (by omega)), hwhole] at hsize ⊢
      have hbody : t.chunks.flatten = [] := by
        rw [htotal hsize.1, List.length_append] at hsize
        exact List.length_eq_zero_iff.mp (by omega)
      rw [if_pos (hc.complete hs), hbody, List.append_nil]
      exact ⟨hnil _, fun _ => rfl, by simp⟩
    · split
      · exact ⟨hnil _, by simp, fun _ => rfl⟩
      · exact ⟨hnil _, by simp, by simp⟩
  split
  · exact ⟨hnil _, by simp, by simp⟩
  · rename_i hs416 hrange
    have hs := hc.success hok (by omega) (by omega)
    obtain ⟨hbegin, hall⟩ := received_initial hf ht hs
    split
    · exact ⟨hnil _, fun _ => by rw [hall hok], by simp⟩
    · exact ⟨hbegin, by simp, by simp⟩

/-- A call with clean transfers keeps the invariant and succeeds with the content only. -/
theorem download_step {first second : Transfer} (hf : Partial F f) (hs : Served F f first second)
    (h₁ : Clean first) (h₂ : Clean second) :
    Partial F (regDownloadFile first second f).1 ∧
      ((regDownloadFile first second f).2 = 0 →
        (regDownloadFile first second f).1 = ⟨some F, none⟩) := by
  obtain ⟨hpart, hdest, hretry⟩ := transferOnce_clean 0 hf hs.first h₁
  rw [regDownloadFile]
  cases hres : transferOnce 0 first f with
  | mk f' r =>
    rw [hres] at hpart hdest hretry
    cases r with
    | some rc => exact ⟨hpart, fun h => hdest (congrArg some h)⟩
    | none =>
      have hnone : resumeFrom f' = 0 := by
        rw [resumeFrom, hretry rfl, Option.getD_none, List.length_nil]
      obtain ⟨hpart', hdest', -⟩ := transferOnce_clean 1 hpart (hnone ▸ hs.second) h₂
      dsimp only
      cases hres' : transferOnce 1 second f' with
      | mk f'' r' =>
        rw [hres'] at hpart' hdest'
        cases r' with
        | some rc => exact ⟨hpart', fun h => hdest' (congrArg some h)⟩
        | none => exact ⟨hpart', by simp⟩

/-- A transfer that does not succeed leaves the destination alone. -/
theorem transferOnce_dest (attempt : Nat) (t : Transfer) (f : Files)
    (h : (transferOnce attempt t f).2 ≠ some 0) :
    (transferOnce attempt t f).1.dest = f.dest := by
  generalize hr : transferOnce attempt t f = r at h
  rw [transferOnce] at hr
  dsimp only at hr
  repeat' split at hr
  all_goals
    subst hr
    first | rfl | exact absurd rfl h

theorem download_dest (first second : Transfer) (f : Files)
    (h : (regDownloadFile first second f).2 ≠ 0) :
    (regDownloadFile first second f).1.dest = f.dest := by
  have h₁ := transferOnce_dest 0 first f
  revert h
  rw [regDownloadFile]
  cases hres : transferOnce 0 first f with
  | mk f' r =>
    rw [hres] at h₁
    cases r with
    | some rc => exact fun h => h₁ fun he => h (Option.some.inj he)
    | none =>
      have h₂ := transferOnce_dest 1 second f'
      dsimp only
      cases hres' : transferOnce 1 second f' with
      | mk f'' r' =>
        rw [hres'] at h₂
        cases r' with
        | some rc => exact fun h => (h₂ fun he => h (Option.some.inj he)).trans (h₁ (by simp))
        | none => exact fun _ => (h₂ (by simp)).trans (h₁ (by simp))

end Step

theorem reached_part {F : Bytes} {f : Files} (h : Reached Clean F f) : Partial F f := by
  induction h with
  | start dest => exact List.nil_prefix
  | call _ hs h₁ h₂ ih => exact (download_step ih hs h₁ h₂).1

/-- Over clean transfers every call that returns 0 leaves the content. The partial file decides:
a complete ranged answer to it gives the content exactly when it is a prefix. -/
theorem download_resumes (F : Bytes) :
    (∀ f first second, Reached Clean F f → Served F f first second → Clean first → Clean second →
      (regDownloadFile first second f).2 = 0 →
        (regDownloadFile first second f).1.dest = some F) ∧
    ∀ dest p t second, t.status = 206 → Honours F p.length t →
      t.opened = true → t.handle = true → t.ok = true → t.aborted = false → t.renamed = true →
      (regDownloadFile t second ⟨dest, some p⟩).2 = 0 ∧
        ((regDownloadFile t second ⟨dest, some p⟩).1.dest = some F ↔ p <+: F) := by
  refine ⟨fun f first second hr hs h₁ h₂ h0 => ?_, ?_⟩
  · rw [(download_step (reached_part hr) hs h₁ h₂).2 h0]
  intro dest p t second hs ht ho hh hok ha hren
  obtain ⟨-, -, -, hall⟩ := ht.ranged hs
  have hrec : received t ⟨dest, some p⟩ = p ++ F.drop p.length := by
    rw [received_append _ (.inl (by omega)), hall hok, Option.getD_some]
  have hres : regDownloadFile t second ⟨dest, some p⟩ = (⟨some (p ++ F.drop p.length), none⟩, 0) := by
    rw [regDownloadFile, transferOnce, hrec]
    simp [ho, hh, ha, hok, hs, hren]
  rw [hres]
  refine ⟨rfl, ?_⟩
  simp only [Option.some.injEq]
  constructor
  · exact fun he => ⟨_, he⟩
  · rintro ⟨rest, rfl⟩
    rw [List.drop_left]

/-! ## An error body that stays behind -/

/-- A transfer with nothing wrong around it. -/
def plainTransfer (status : Nat) (chunks : List Bytes) (ok : Bool) : Transfer where
  opened := true
  handle := true
  status := status
  chunks := chunks
  ranges := []
  ok := ok
  aborted := false
  renamed := true

/-- Nothing is known of an answer with another status. -/
theorem honours_other (F : Bytes) (resume : Nat) {t : Transfer}
    (h : t.status ≠ 200 ∧ t.status ≠ 206 ∧ t.status ≠ 416) : Honours F resume t :=
  ⟨fun hs => absurd hs h.1, fun hs => absurd hs h.2.1, fun hs => absurd hs h.2.2⟩

theorem plain_other (F : Bytes) (resume : Nat) (chunks : List Bytes) (ok : Bool) :
    Honours F resume (plainTransfer 500 chunks ok) :=
  honours_other F resume ⟨by simp [plainTransfer], by simp [plainTransfer], by simp [plainTransfer]⟩

/-- The rest of four bytes after the first two. -/
theorem served_rest (part : Bytes) (hpart : part.length = 2) (ok : Bool) :
    Served [1, 2, 3, 4] ⟨none, some part⟩ (plainTransfer 206 [[3, 4]] true)
      (plainTransfer 500 [] ok) := by
  refine ⟨?_, plain_other _ _ _ _⟩
  rw [resumeFrom, Option.getD_some, hpart]
  exact ⟨by decide, fun _ => ⟨by decide, by decide, by decide, by decide⟩, by decide⟩

/-- Two bytes of an error answer break off, and the next attempt resumes after them. -/
theorem download_polluted : ¬ ∀ (F : Bytes) f first second, Reached (fun _ => True) F f →
    Served F f first second → (regDownloadFile first second f).2 = 0 →
      (regDownloadFile first second f).1.dest = some F := by
  intro h
  have hfirst : Served [1, 2, 3, 4] ⟨none, none⟩ (plainTransfer 500 [[69, 114]] false)
      (plainTransfer 500 [] true) := ⟨plain_other _ _ _ _, plain_other _ _ _ _⟩
  have hreached : Reached (fun _ => True) [1, 2, 3, 4] _ := .call (.start none) hfirst trivial trivial
  exact absurd (h _ _ _ _ hreached (served_rest [69, 114] rfl true) (by decide)) (by decide)

/-- A broken-off half and the ranged rest give the content. -/
theorem download_resumes_half :
    (regDownloadFile (plainTransfer 206 [[3, 4]] true) (plainTransfer 500 [] true)
      ⟨none, some [1, 2]⟩).1.dest = some [1, 2, 3, 4] := by
  have hclean : Clean (plainTransfer 500 [] true) := ⟨by decide, by decide, by decide⟩
  have hfirst : Served [1, 2, 3, 4] ⟨none, none⟩ (plainTransfer 200 [[1, 2]] false)
      (plainTransfer 500 [] true) := ⟨⟨by decide, by decide, by decide⟩, plain_other _ _ _ _⟩
  have hreached : Reached Clean [1, 2, 3, 4] _ := .call (.start none) hfirst
    ⟨by decide, by decide, by decide⟩ hclean
  exact (download_resumes [1, 2, 3, 4]).1 _ _ _ hreached (served_rest [1, 2] rfl true)
    ⟨by decide, by decide, by decide⟩ hclean (by decide)

end Mlxd.HubDownload
