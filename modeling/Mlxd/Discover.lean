import Mlxd.Resolve

/-!
# Listing the cached models

The listing goes through the own cache and then through the shared hub cache, where a model whose
name is listed already is left out. It names every model by its directory, where a name with a
further separator can be read back as another one, and lists the path that the name read back
resolves to. So a model without a revision resolves to a path exactly when the listing has it
under that name, directories that begin with the separator apart. The entries live in a buffer
that is doubled when it is full.
-/
namespace Mlxd.Discover

open Mlxd.Unicode Mlxd.Json Mlxd.Registry Mlxd.Resolve

/-! ## The listing -/

structure ModelInfo where
  id : Bytes
  path : Bytes
  sizeBytes : Nat
  mtime : Int
  deriving DecidableEq, Repr

/-- The models so far, the capacity that is kept of their buffer and the entries it has room for;
no room stands for no buffer. -/
structure Listing where
  models : List ModelInfo
  cap : Nat
  room : Nat
  deriving DecidableEq, Repr

/-- Write behind the last model; nothing for a write behind the buffer. -/
def Listing.store (l : Listing) (m : ModelInfo) : Option Listing :=
  if l.models.length < l.room then some { l with models := l.models ++ [m] } else none

/-- Double a full buffer and store the model. The capacity is doubled before the buffer is, and
keeps its value when that fails and the model is left out. -/
def Listing.push (grown : Bool) (l : Listing) (m : ModelInfo) : Option Listing :=
  if l.cap ≤ l.models.length then
    if grown then { l with cap := l.cap * 2, room := l.cap * 2 : Listing }.store m
    else some { l with cap := l.cap * 2 }
  else l.store m

section Scan

-- `size` is the size of a regular file, `grown` whether there is memory for a larger buffer when
-- the model at a path is stored
variable (fs : FileSystem) (size : Bytes → Nat) (grown : Bytes → Bool)

/-- The sizes of the regular files of a directory together, and the newest of their times. -/
def scanDirStats (dir : Bytes) : Nat × Int :=
  ((fs.entries dir).getD []).foldl (fun (total, newest) name =>
    if name.head? = some 0x2E then (total, newest)
    else
      let full := regPathJoin dir name
      if fs.regular full then
        ((total + size full) % 2 ^ 64, max newest ((fs.mtime full).getD 0))
      else (total, newest)) (0, 0)

def modelInfo (id path : Bytes) : ModelInfo :=
  ⟨id, path, (scanDirStats fs size path).1, (scanDirStats fs size path).2⟩

/-- One entry of the models directory. -/
def considerModel (modelsDir : Bytes) (l : Listing) (name : Bytes) : Option Listing :=
  if name.head? = some 0x2E then some l
  else
    let full := regPathJoin modelsDir name
    if regDirHasConfigJson fs full then
      match idFromDirname name with
      | none => some l
      | some id => l.push (grown full) (modelInfo fs size id full)
    else some l

/-- The own cache. A listing without a model gives its buffer back. -/
def scanMlxdCache (env : Env) : Option Listing :=
  match regCacheRoot env with
  | none => some ⟨[], 0, 0⟩
  | some root =>
    let modelsDir := regPathJoin root (ascii "models")
    match fs.entries modelsDir with
    | none => some ⟨[], 0, 0⟩
    | some names =>
      if grown modelsDir then do
        let l ← names.foldlM (considerModel fs size grown modelsDir) ⟨[], 8, 8⟩
        return if l.models = [] then ⟨[], 0, 0⟩ else l
      else some ⟨[], 0, 0⟩

def idInList (models : List ModelInfo) (id : Bytes) : Bool := models.any (·.id == id)

/-- Store a model of the hub cache, in a first buffer when there is none. -/
def Listing.pushHub (grown : Bool) (l : Listing) (m : ModelInfo) : Option Listing :=
  if l.room = 0 then
    if grown then { l with cap := 8, room := 8 : Listing }.push grown m else some { l with cap := 8 }
  else l.push grown m

/-- One entry of the hub cache. -/
def considerHubModel (hub : Bytes) (l : Listing) (name : Bytes) : Option Listing :=
  if name.head? = some 0x2E then some l
  else
    match hubIdFromDirname name with
    | none => some l
    | some id =>
      if idInList l.models id then some l
      else
        match regFindLatestSnapshot fs (regPathJoin hub name) with
        | none => some l
        | some snapPath => l.pushHub (grown snapPath) (modelInfo fs size id snapPath)

def scanHubCache (env : Env) (l : Listing) : Option Listing :=
  match regHfHubDir env with
  | none => some l
  | some hub =>
    match fs.entries hub with
    | none => some l
    | some names => names.foldlM (considerHubModel fs size grown hub) l

/-- The capacity after the own cache is the number of its models, or 8 when they are fewer. -/
def handOver (l : Listing) : Listing :=
  if l.room = 0 then { l with cap := 0 } else { l with cap := max 8 l.models.length }

/-- All models; nothing when one is written behind the buffer. -/
def registryDiscover (env : Env) : Option (List ModelInfo) := do
  let l ← scanMlxdCache fs size grown env
  let l ← scanHubCache fs size grown env (handOver l)
  return l.models

end Scan

/-! ## The buffer -/

/-- A buffer as the scans keep it: the capacity is within the room, and no model behind it. -/
structure Sized (l : Listing) : Prop where
  cap_le : l.cap ≤ l.room
  length_le : l.models.length ≤ l.cap

theorem Sized.push {l : Listing} (h : Sized l) (hpos : 0 < l.cap) (m : ModelInfo) :
    ∃ l', l.push true m = some l' ∧ Sized l' ∧ l.cap ≤ l'.cap ∧ l'.models = l.models ++ [m] := by
  obtain ⟨hcap, hlen⟩ := h
  unfold Listing.push Listing.store
  split
  · rw [if_pos rfl, if_pos (show l.models.length < l.cap * 2 by omega)]
    refine ⟨_, rfl, ⟨le_refl _, ?_⟩, Nat.le_mul_of_pos_right _ (by decide), rfl⟩
    rw [List.length_append, List.length_singleton]
    dsimp only
    omega
  · rename_i hroom
    rw [if_pos (show l.models.length < l.room by omega)]
    refine ⟨_, rfl, ⟨hcap, ?_⟩, le_refl _, rfl⟩
    rw [List.length_append, List.length_singleton]
    dsimp only
    omega

/-- A buffer that could not be doubled looks larger than it is: the next model is written behind
it. -/
theorem push_behind {l : Listing} (hfull : l.models.length = l.cap) (hroom : l.room = l.cap)
    (hpos : 0 < l.cap) (lost m : ModelInfo) (grown : Bool) :
    (l.push false lost).bind (fun l => l.push grown m) = none := by
  rw [Listing.push, if_pos (by omega), if_neg (by decide), Option.bind_some, Listing.push,
    if_neg (by dsimp only; omega), Listing.store, if_neg (by dsimp only; omega)]

/-- The buffer of the hub scan: there may be none yet. -/
def Ready (l : Listing) : Prop := Sized l ∧ (l.room = 0 ∨ 0 < l.cap)

theorem Ready.pushHub {l : Listing} (h : Ready l) (m : ModelInfo) :
    ∃ l', l.pushHub true m = some l' ∧ Ready l' ∧ l'.models = l.models ++ [m] := by
  obtain ⟨hsized, hbuf⟩ := h
  have hempty : l.room = 0 → l.models.length = 0 := fun hroom => by
    have := hsized.cap_le
    have := hsized.length_le
    omega
  rw [Listing.pushHub]
  split
  · rename_i hroom
    obtain ⟨l', hpush, hsized', hcap', hmodels⟩ :=
      Sized.push (l := { l with cap := 8, room := 8 }) ⟨le_refl _, by
        rw [hempty hroom]
        exact Nat.zero_le 8⟩ (show 0 < 8 by decide) m
    exact ⟨l', by rw [if_pos rfl, hpush], ⟨hsized', .inr (by dsimp only at hcap'; omega)⟩, hmodels⟩
  · rename_i hroom
    have hpos := hbuf.resolve_left hroom
    obtain ⟨l', hpush, hsized', hcap', hmodels⟩ := hsized.push hpos m
    exact ⟨l', hpush, ⟨hsized', .inr (hpos.trans_le hcap')⟩, hmodels⟩

/-! ## What is found -/

section Scan

variable (fs : FileSystem) (size : Bytes → Nat)

/-- The model of an entry of the models directory. -/
def ownModel (modelsDir name : Bytes) : Option ModelInfo :=
  if name.head? = some 0x2E ∨ regDirHasConfigJson fs (regPathJoin modelsDir name) = false then none
  else (idFromDirname name).map fun id => modelInfo fs size id (regPathJoin modelsDir name)

/-- The model of an entry of the hub cache, as far as its name is not listed yet. -/
def hubModel (hub name : Bytes) : Option ModelInfo :=
  if name.head? = some 0x2E then none
  else (hubIdFromDirname name).bind fun id =>
    (regFindLatestSnapshot fs (regPathJoin hub name)).map (modelInfo fs size id)

theorem considerModel_eq (modelsDir : Bytes) {l : Listing} (h : Sized l) (hpos : 0 < l.cap)
    (name : Bytes) : ∃ l', considerModel fs size (fun _ => true) modelsDir l name = some l' ∧
      Sized l' ∧ l.cap ≤ l'.cap ∧
        l'.models = l.models ++ (ownModel fs size modelsDir name).toList := by
  have hsame : (l.models ++ ([] : List ModelInfo)) = l.models := List.append_nil _
  unfold considerModel ownModel
  split
  · rename_i hdot
    exact ⟨l, rfl, h, le_refl _, by simp [hdot]⟩
  · rename_i hdot
    dsimp only
    cases hconfig : regDirHasConfigJson fs (regPathJoin modelsDir name) with
    | false => exact ⟨l, rfl, h, le_refl _, by simp⟩
    | true =>
      rw [if_pos rfl, if_neg (by simp [hdot])]
      cases idFromDirname name with
      | none => exact ⟨l, rfl, h, le_refl _, hsame.symm⟩
      | some id => exact h.push hpos _

theorem considerModel_run (modelsDir : Bytes) (names : List Bytes) :
    ∀ l : Listing, Sized l → 0 < l.cap →
      ∃ l', names.foldlM (considerModel fs size (fun _ => true) modelsDir) l = some l' ∧
        Sized l' ∧ l.cap ≤ l'.cap ∧
        l'.models = l.models ++ names.filterMap (ownModel fs size modelsDir) := by
  induction names with
  | nil => exact fun l h _ => ⟨l, rfl, h, le_refl _, (List.append_nil _).symm⟩
  | cons name names ih =>
    intro l h hpos
    obtain ⟨l₁, hstep, h₁, hcap₁, hmodels₁⟩ := considerModel_eq fs size modelsDir h hpos name
    obtain ⟨l₂, hrun, h₂, hcap₂, hmodels₂⟩ := ih l₁ h₁ (hpos.trans_le hcap₁)
    refine ⟨l₂, ?_, h₂, hcap₁.trans hcap₂, ?_⟩
    · rw [List.foldlM_cons, hstep]
      exact hrun
    · rw [hmodels₂, hmodels₁, List.append_assoc]
      cases hname : ownModel fs size modelsDir name with
      | none => rw [List.filterMap_cons_none hname, Option.toList_none, List.nil_append]
      | some m => rw [List.filterMap_cons_some hname, Option.toList_some, List.singleton_append]

theorem idInList_iff (models : List ModelInfo) (id : Bytes) :
    idInList models id = true ↔ id ∈ models.map (·.id) := by
  simp [idInList]

theorem considerHubModel_eq (hub : Bytes) {l : Listing} (h : Ready l) (name : Bytes) :
    ∃ l', considerHubModel fs size (fun _ => true) hub l name = some l' ∧ Ready l' ∧
      l'.models = l.models ++
        ((hubModel fs size hub name).filter fun m => !idInList l.models m.id).toList := by
  have hsame : (l.models ++ ([] : List ModelInfo)) = l.models := List.append_nil _
  unfold considerHubModel hubModel
  split
  · exact ⟨l, rfl, h, hsame.symm⟩
  · cases hubIdFromDirname name with
    | none => exact ⟨l, rfl, h, hsame.symm⟩
    | some id =>
      dsimp only
      rw [Option.bind_some]
      cases hsnap : regFindLatestSnapshot fs (regPathJoin hub name) with
      | none =>
        refine ⟨l, ?_, h, hsame.symm⟩
        split <;> rfl
      | some path =>
        rw [Option.map_some, Option.filter_some]
        cases hlisted : idInList l.models id with
        | true =>
          refine ⟨l, rfl, h, ?_⟩
          rw [if_neg (by simp [modelInfo, hlisted])]
          exact hsame.symm
        | false =>
          rw [if_neg (by decide), if_pos (by simp [modelInfo, hlisted])]
          exact h.pushHub _

end Scan

/-! ## Names -/

theorem strstr_front {needle s : Bytes} {i : Nat} (h : strstr needle s = some i) :
    needle <+: s.drop i := by
  induction s generalizing i with
  | nil =>
    rw [strstr] at h
    split at h
    · rename_i hnil
      rw [hnil]
      exact List.nil_prefix
    · contradiction
  | cons b t ih =>
    rw [strstr] at h
    split at h
    · rename_i hhead
      obtain rfl := Option.some.inj h
      exact List.isPrefixOf_iff_prefix.mp hhead
    · obtain ⟨j, hj, rfl⟩ := Option.map_eq_some_iff.mp h
      exact ih hj

/-- A directory is listed by its two parts around the first separator. -/
theorem idFromDirname_spec {dirname id : Bytes} (h : idFromDirname dirname = some id) :
    ∃ org model, org ≠ [] ∧ dirname = modelDirname org model ∧ id = modelId org model := by
  unfold idFromDirname at h
  cases hsep : strstr separator dirname with
  | none => rw [hsep] at h; contradiction
  | some sep =>
    rw [hsep] at h
    dsimp only at h
    split at h
    · contradiction
    · rename_i hsep0
      split at h
      · contradiction
      · obtain ⟨rest, hrest⟩ := strstr_front hsep
        have hlen : sep ≤ dirname.length := by
          by_contra hlt
          rw [List.drop_eq_nil_of_le (by omega)] at hrest
          simp [separator] at hrest
        have hdrop : dirname.drop (sep + 2) = rest := by
          rw [← List.drop_drop, ← hrest]
          rfl
        refine ⟨dirname.take sep, rest, ?_, ?_, ?_⟩
        · intro hnil
          rw [List.take_eq_nil_iff] at hnil
          rcases hnil with h0 | hnil
          · exact hsep0 h0
          · subst hnil
            simp at hlen
            exact hsep0 hlen
        · rw [modelDirname, List.append_assoc, hrest, List.take_append_drop]
        · rw [hdrop, Option.some.injEq] at h
          exact h.symm

theorem takeWhile_free {s : Bytes} {b : UInt8} (h : b ∉ s) : s.takeWhile (· ≠ b) = s := by
  rw [List.takeWhile_eq_self_iff]
  intro c hc
  simp only [ne_eq, decide_eq_true_eq]
  rintro rfl
  exact h hc

theorem modelId_split {orgA modelA orgB modelB : Bytes} (hA : SLASH ∉ orgA) (hB : SLASH ∉ orgB)
    (h : modelId orgA modelA = modelId orgB modelB) : orgA = orgB ∧ modelA = modelB := by
  have hcut : ∀ o m : Bytes, SLASH ∉ o → (modelId o m).takeWhile (· ≠ SLASH) = o := by
    intro o m ho
    rw [modelId, List.append_assoc, List.takeWhile_append_of_pos
      (List.takeWhile_eq_self_iff.mp (takeWhile_free ho))]
    simp
  obtain rfl : orgA = orgB := by rw [← hcut orgA modelA hA, h, hcut orgB modelB hB]
  refine ⟨rfl, ?_⟩
  rwa [modelId, modelId, List.append_cancel_left_eq] at h

theorem idFromDirname_injective {a b id : Bytes} (ha : SLASH ∉ a) (hb : SLASH ∉ b)
    (hida : idFromDirname a = some id) (hidb : idFromDirname b = some id) : a = b := by
  obtain ⟨orgA, modelA, -, rfl, rfl⟩ := idFromDirname_spec hida
  obtain ⟨orgB, modelB, -, rfl, hid⟩ := idFromDirname_spec hidb
  simp only [modelDirname, List.mem_append, not_or] at ha hb
  obtain ⟨rfl, rfl⟩ := modelId_split ha.1.1 hb.1.1 hid
  rfl

theorem hubIdFromDirname_spec {dirname id : Bytes} (h : hubIdFromDirname dirname = some id) :
    ∃ name, dirname = ascii "models--" ++ name ∧ idFromDirname name = some id := by
  unfold hubIdFromDirname at h
  split at h
  · rename_i hprefix
    obtain ⟨rest, rfl⟩ := List.isPrefixOf_iff_prefix.mp hprefix
    exact ⟨rest, rfl, h⟩
  · contradiction

theorem hubIdFromDirname_injective {a b id : Bytes} (ha : SLASH ∉ a) (hb : SLASH ∉ b)
    (hida : hubIdFromDirname a = some id) (hidb : hubIdFromDirname b = some id) : a = b := by
  obtain ⟨nameA, rfl, hnameA⟩ := hubIdFromDirname_spec hida
  obtain ⟨nameB, rfl, hnameB⟩ := hubIdFromDirname_spec hidb
  simp only [List.mem_append, not_or] at ha hb
  rw [idFromDirname_injective ha.2 hb.2 hnameA hnameB]

theorem parseRevision_none {s : Bytes} (h : parseRevision s = some none) : COLON ∉ s := by
  intro hmem
  rw [parseRevision, if_pos hmem] at h
  dsimp only at h
  split at h
  · contradiction
  · split at h <;> simp at h

theorem dropWhile_slash {s : Bytes} (h : SLASH ∈ s) :
    s.dropWhile (· ≠ SLASH) = SLASH :: (s.dropWhile (· ≠ SLASH)).drop 1 := by
  induction s with
  | nil => exact absurd h List.not_mem_nil
  | cons b t ih =>
    by_cases hb : b = SLASH
    · subst hb
      simp
    · have ht : SLASH ∈ t := (List.mem_cons.mp h).resolve_left (Ne.symm hb)
      rw [List.dropWhile_cons_of_pos (by simpa using hb)]
      exact ih ht

/-- An accepted name without a revision is made of its parts, and does not start with a dot. -/
theorem regSpecParse_unrevised {env : Env} {spec org model : Bytes}
    (h : regSpecParse env spec = some (.remote org model none)) :
    spec = modelId org model ∧ SLASH ∉ org ∧ SLASH ∉ model ∧ org.head? ≠ some 0x2E := by
  obtain ⟨horg, -, hcharsOrg, hcharsModel⟩ := regSpecParse_remote h
  have hfree : ∀ s : Bytes, regSpecCharsetOk s = true → SLASH ∉ s := fun s hs hmem =>
    absurd (List.all_eq_true.mp hs _ hmem) (by decide)
  unfold regSpecParse at h
  split at h
  · contradiction
  split at h
  · split at h
    · contradiction
    · split at h
      · contradiction
      · split at h <;> simp at h
  split at h
  · simp at h
  rename_i hlocal
  split at h
  · contradiction
  rename_i hslash
  dsimp only at h
  split at h
  · contradiction
  split at h
  · contradiction
  split at h
  · contradiction
  rename_i revision hrev
  split at h
  · contradiction
  split at h
  · simp only [Option.some.injEq, RegSpec.remote.injEq] at h
    obtain ⟨rfl, rfl, rfl⟩ := h
    refine ⟨?_, hfree _ hcharsOrg, hfree _ hcharsModel, fun hdot => hlocal (.inl ?_)⟩
    · rw [modelId, takeWhile_free (parseRevision_none hrev), List.append_assoc,
        List.singleton_append, ← dropWhile_slash (not_not.mp hslash),
        List.takeWhile_append_dropWhile]
    · cases spec with
      | nil => simp at horg
      | cons b rest =>
        rw [List.takeWhile_cons] at hdot
        split at hdot
        · exact hdot
        · simp at hdot
  · contradiction

/-! ## Both caches -/

/-- A directory lists each of its entries once, by a name without a slash, and whatever can be
reached below a directory is listed there. -/
structure Readable (fs : FileSystem) : Prop where
  nodup : ∀ dir names, fs.entries dir = some names → names.Nodup
  plain : ∀ dir names, fs.entries dir = some names → ∀ name ∈ names, SLASH ∉ name
  listed : ∀ dir name, name ≠ [] → SLASH ∉ name →
    fs.regular (regPathJoin dir name) = true ∨ (fs.entries (regPathJoin dir name)).isSome = true →
    ∃ names, fs.entries dir = some names ∧ name ∈ names

section Discover

variable {fs : FileSystem} {size : Bytes → Nat}

/-- A directory with a model in it is listed in its parent. -/
theorem Readable.model (hfs : Readable fs) {dir name : Bytes} (hne : name ≠ [])
    (hslash : SLASH ∉ name) (h : regDirHasConfigJson fs (regPathJoin dir name) = true) :
    ∃ names, fs.entries dir = some names ∧ name ∈ names := by
  obtain ⟨names, hentries, -⟩ := hfs.listed _ (ascii "config.json") (by decide) (by decide) (.inl h)
  exact hfs.listed dir name hne hslash (.inr (by rw [hentries]; rfl))

theorem Readable.snapshot (hfs : Readable fs) {dir name path : Bytes} (hne : name ≠ [])
    (hslash : SLASH ∉ name) (h : regFindLatestSnapshot fs (regPathJoin dir name) = some path) :
    ∃ names, fs.entries dir = some names ∧ name ∈ names := by
  have hsnaps : (fs.entries (regPathJoin (regPathJoin dir name) (ascii "snapshots"))).isSome := by
    rw [regFindLatestSnapshot] at h
    split at h
    · contradiction
    · rename_i hentries
      rw [hentries]
      rfl
  obtain ⟨names, hentries, -⟩ :=
    hfs.listed _ (ascii "snapshots") (by decide) (by decide) (.inr hsnaps)
  exact hfs.listed dir name hne hslash (.inr (by rw [hentries]; rfl))

theorem ownModel_iff (modelsDir name : Bytes) (m : ModelInfo) :
    ownModel fs size modelsDir name = some m ↔
      name.head? ≠ some 0x2E ∧ regDirHasConfigJson fs (regPathJoin modelsDir name) = true ∧
        idFromDirname name = some m.id ∧
        m = modelInfo fs size m.id (regPathJoin modelsDir name) := by
  unfold ownModel
  split
  · rename_i hskip
    simp only [reduceCtorEq, false_iff]
    rintro ⟨hdot, hconfig, -⟩
    rcases hskip with hskip | hskip
    · exact hdot hskip
    · rw [hconfig] at hskip
      contradiction
  · rename_i hskip
    rw [not_or, Bool.not_eq_false] at hskip
    simp only [Option.map_eq_some_iff, hskip.1, hskip.2, ne_eq, not_false_eq_true, true_and]
    constructor
    · rintro ⟨id, hid, rfl⟩
      exact ⟨hid, rfl⟩
    · rintro ⟨hid, hm⟩
      exact ⟨m.id, hid, hm.symm⟩

theorem hubModel_iff (hub name : Bytes) (m : ModelInfo) :
    hubModel fs size hub name = some m ↔
      name.head? ≠ some 0x2E ∧ hubIdFromDirname name = some m.id ∧
        regFindLatestSnapshot fs (regPathJoin hub name) = some m.path ∧
        m = modelInfo fs size m.id m.path := by
  unfold hubModel
  split
  · rename_i hdot
    simp [hdot]
  · rename_i hdot
    simp only [Option.bind_eq_some_iff, Option.map_eq_some_iff, hdot, ne_eq, not_false_eq_true,
      true_and]
    constructor
    · rintro ⟨id, hid, path, hpath, rfl⟩
      exact ⟨hid, hpath, rfl⟩
    · rintro ⟨hid, hpath, hm⟩
      exact ⟨m.id, hid, m.path, hpath, hm.symm⟩

/-- The models of the own cache have different names. -/
theorem own_nodup {modelsDir : Bytes} {names : List Bytes} (hnodup : names.Nodup)
    (hplain : ∀ name ∈ names, SLASH ∉ name) :
    ((names.filterMap (ownModel fs size modelsDir)).map (·.id)).Nodup := by
  induction names with
  | nil => exact List.nodup_nil
  | cons name names ih =>
    obtain ⟨hfirst, hrest⟩ := List.nodup_cons.mp hnodup
    have ih := ih hrest fun n hn => hplain n (List.mem_cons_of_mem _ hn)
    cases hname : ownModel fs size modelsDir name with
    | none => rwa [List.filterMap_cons_none hname]
    | some m =>
      rw [List.filterMap_cons_some hname, List.map_cons, List.nodup_cons]
      refine ⟨fun hmem => ?_, ih⟩
      obtain ⟨m', hm', hid⟩ := List.mem_map.mp hmem
      obtain ⟨name', hname', hown⟩ := List.mem_filterMap.mp hm'
      obtain ⟨-, -, hid₁, -⟩ := (ownModel_iff _ _ _).mp hname
      obtain ⟨-, -, hid₂, -⟩ := (ownModel_iff _ _ _).mp hown
      rw [hid] at hid₂
      obtain rfl := idFromDirname_injective (hplain name List.mem_cons_self)
        (hplain name' (List.mem_cons_of_mem _ hname')) hid₁ hid₂
      exact hfirst hname'

variable (fs size) in
/-- The hub scan adds the models whose names are not listed, each under a name of its own. -/
theorem considerHubModel_run (hub : Bytes) (names : List Bytes) :
    names.Nodup → (∀ name ∈ names, SLASH ∉ name) → ∀ l : Listing, Ready l →
      (l.models.map (·.id)).Nodup →
      ∃ l', names.foldlM (considerHubModel fs size (fun _ => true) hub) l = some l' ∧
        (l'.models.map (·.id)).Nodup ∧
        ∀ m, m ∈ l'.models ↔ m ∈ l.models ∨
          ∃ name ∈ names, hubModel fs size hub name = some m ∧ m.id ∉ l.models.map (·.id) := by
  induction names with
  | nil =>
    intro _ _ l _ hids
    exact ⟨l, rfl, hids, fun m => by simp⟩
  | cons name names ih =>
    intro hnodup hplain l h hids
    obtain ⟨hfirst, hrest⟩ := List.nodup_cons.mp hnodup
    have hplain' : ∀ n ∈ names, SLASH ∉ n := fun n hn => hplain n (List.mem_cons_of_mem _ hn)
    obtain ⟨l₁, hstep, h₁, hmodels⟩ := considerHubModel_eq fs size hub h name
    -- the models of two entries have different names
    have hdiffer : ∀ name' ∈ names, ∀ m m', hubModel fs size hub name = some m →
        hubModel fs size hub name' = some m' → m'.id ≠ m.id := by
      intro name' hname' m m' hm hm' hid
      obtain ⟨-, hid₁, -, -⟩ := (hubModel_iff _ _ _).mp hm
      obtain ⟨-, hid₂, -, -⟩ := (hubModel_iff _ _ _).mp hm'
      rw [hid] at hid₂
      obtain rfl := hubIdFromDirname_injective (hplain name List.mem_cons_self)
        (hplain' name' hname') hid₁ hid₂
      exact hfirst hname'
    cases hadded : (hubModel fs size hub name).filter fun m => !idInList l.models m.id with
    | none =>
      rw [hadded, Option.toList_none, List.append_nil] at hmodels
      obtain ⟨l₂, hrun, hids₂, hmem⟩ := ih hrest hplain' l₁ h₁ (hmodels ▸ hids)
      refine ⟨l₂, by rw [List.foldlM_cons, hstep]; exact hrun, hids₂, fun m => ?_⟩
      rw [hmem, hmodels]
      constructor
      · rintro (hm | ⟨name', hname', hm⟩)
        · exact .inl hm
        · exact .inr ⟨name', List.mem_cons_of_mem _ hname', hm⟩
      · rintro (hm | ⟨name', hname', hm, hnew⟩)
        · exact .inl hm
        · rcases List.mem_cons.mp hname' with rfl | hname'
          · rw [hm, Option.filter_eq_none_iff] at hadded
            have hold := hadded m rfl
            rw [Bool.not_eq_true', Bool.not_eq_false, idInList_iff] at hold
            exact absurd hold hnew
          · exact .inr ⟨name', hname', hm, hnew⟩
    | some new =>
      rw [hadded, Option.toList_some] at hmodels
      obtain ⟨hnew, hunlisted⟩ := Option.filter_eq_some_iff.mp hadded
      rw [Bool.not_eq_true', ← Bool.not_eq_true, idInList_iff] at hunlisted
      have hids₁ : (l₁.models.map (·.id)).Nodup := by
        rw [hmodels, List.map_append, List.nodup_append]
        refine ⟨hids, by simp, fun a ha b hb => ?_⟩
        rintro rfl
        obtain rfl := List.mem_singleton.mp hb
        exact hunlisted ha
      obtain ⟨l₂, hrun, hids₂, hmem⟩ := ih hrest hplain' l₁ h₁ hids₁
      refine ⟨l₂, by rw [List.foldlM_cons, hstep]; exact hrun, hids₂, fun m => ?_⟩
      rw [hmem, hmodels, List.map_append]
      simp only [List.mem_append, List.map_cons, List.map_nil, List.mem_singleton, not_or]
      constructor
      · rintro ((hm | rfl) | ⟨name', hname', hm, hold, -⟩)
        · exact .inl hm
        · exact .inr ⟨name, List.mem_cons_self, hnew, hunlisted⟩
        · exact .inr ⟨name', List.mem_cons_of_mem _ hname', hm, hold⟩
      · rintro (hm | ⟨name', hname', hm, hold⟩)
        · exact .inl (.inl hm)
        · rcases List.mem_cons.mp hname' with rfl | hname'
          · exact .inl (.inr (Option.some.inj (hm.symm.trans hnew)))
          · exact .inr ⟨name', hname', hm, hold, hdiffer name' hname' new m hnew hm⟩

/-- The models of the own cache, in the order of its directory. -/
def ownModels (fs : FileSystem) (size : Bytes → Nat) (env : Env) : List ModelInfo :=
  match regCacheRoot env with
  | none => []
  | some root =>
    let modelsDir := regPathJoin root (ascii "models")
    ((fs.entries modelsDir).getD []).filterMap (ownModel fs size modelsDir)

variable (fs size) in
theorem scanMlxdCache_spec (env : Env) : ∃ l, scanMlxdCache fs size (fun _ => true) env = some l ∧
    Ready (handOver l) ∧ (handOver l).models = ownModels fs size env := by
  have hnone : Ready (handOver ⟨[], 0, 0⟩) := ⟨⟨le_refl _, le_refl _⟩, .inl rfl⟩
  unfold scanMlxdCache ownModels
  cases regCacheRoot env with
  | none => exact ⟨_, rfl, hnone, rfl⟩
  | some root =>
    dsimp only
    cases fs.entries (regPathJoin root (ascii "models")) with
    | none => exact ⟨_, rfl, hnone, rfl⟩
    | some names =>
      obtain ⟨l, hrun, hsized, hcap, hmodels⟩ := considerModel_run fs size
        (regPathJoin root (ascii "models")) names ⟨[], 8, 8⟩ ⟨le_refl _, Nat.zero_le 8⟩
        (show 0 < 8 by decide)
      dsimp only at hcap
      rw [List.nil_append] at hmodels
      simp only [if_pos, hrun, Option.bind_eq_bind, Option.bind_some, Option.pure_def,
        Option.some.injEq, exists_eq_left', Option.getD_some]
      split
      · rename_i hempty
        exact ⟨hnone, by rw [← hmodels, hempty]; rfl⟩
      · have hroom := hsized.cap_le
        have hlen := hsized.length_le
        rw [handOver, if_neg (by omega)]
        exact ⟨⟨⟨by dsimp only; omega, by dsimp only; omega⟩, .inr (by dsimp only; omega)⟩, hmodels⟩

theorem mem_ownModels {env : Env} (m : ModelInfo) : m ∈ ownModels fs size env ↔
    ∃ root names name, regCacheRoot env = some root ∧
      fs.entries (regPathJoin root (ascii "models")) = some names ∧ name ∈ names ∧
      ownModel fs size (regPathJoin root (ascii "models")) name = some m := by
  unfold ownModels
  cases regCacheRoot env with
  | none => simp
  | some root =>
    simp only [Option.some.injEq]
    constructor
    · intro hm
      obtain ⟨name, hname, hown⟩ := List.mem_filterMap.mp hm
      cases hentries : fs.entries (regPathJoin root (ascii "models")) with
      | none => simp [hentries] at hname
      | some names => exact ⟨root, names, name, rfl, hentries, by simpa [hentries] using hname, hown⟩
    · rintro ⟨_, names, name, rfl, hentries, hname, hown⟩
      exact List.mem_filterMap.mpr ⟨name, by rwa [hentries], hown⟩

variable (size) in
theorem ownModels_nodup (hfs : Readable fs) (env : Env) :
    ((ownModels fs size env).map (·.id)).Nodup := by
  unfold ownModels
  cases regCacheRoot env with
  | none => exact List.nodup_nil
  | some root =>
    dsimp only
    cases hentries : fs.entries (regPathJoin root (ascii "models")) with
    | none => exact List.nodup_nil
    | some names => exact own_nodup (hfs.nodup _ _ hentries) (hfs.plain _ _ hentries)

variable (size) in
/-- The listing: the models of the own cache, and those of the hub cache under other names. -/
theorem registryDiscover_spec (hfs : Readable fs) (env : Env) :
    ∃ models, registryDiscover fs size (fun _ => true) env = some models ∧
      (models.map (·.id)).Nodup ∧ ∀ m, m ∈ models ↔ m ∈ ownModels fs size env ∨
        ∃ hub names name, regHfHubDir env = some hub ∧ fs.entries hub = some names ∧
          name ∈ names ∧ hubModel fs size hub name = some m ∧
          m.id ∉ (ownModels fs size env).map (·.id) := by
  obtain ⟨l, hown, hready, hmodels⟩ := scanMlxdCache_spec fs size env
  have hids := ownModels_nodup size hfs env
  rw [← hmodels] at hids ⊢
  simp only [registryDiscover, hown, Option.bind_eq_bind, Option.bind_some, Option.pure_def,
    scanHubCache]
  cases hhub : regHfHubDir env with
  | none => exact ⟨_, rfl, hids, by simp⟩
  | some hub =>
    dsimp only
    cases hentries : fs.entries hub with
    | none => exact ⟨_, rfl, hids, by simp [hentries]⟩
    | some names =>
      obtain ⟨l', hrun, hids', hmem⟩ := considerHubModel_run fs size hub names
        (hfs.nodup _ _ hentries) (hfs.plain _ _ hentries) (handOver l) hready hids
      refine ⟨l'.models, by simp only [hrun, Option.bind_some], hids', fun m => ?_⟩
      rw [hmem]
      simp [hentries]

/-! ## Listing and resolving -/

theorem strstr_le {needle s : Bytes} {i : Nat} (hneedle : needle ≠ []) (h : needle <+: s.drop i) :
    ∃ j ≤ i, strstr needle s = some j := by
  induction s generalizing i with
  | nil =>
    rw [List.drop_nil, List.prefix_nil] at h
    exact absurd h hneedle
  | cons b t ih =>
    rw [strstr]
    split
    · exact ⟨0, Nat.zero_le i, rfl⟩
    · rename_i hhead
      cases i with
      | zero => exact absurd (List.isPrefixOf_iff_prefix.mpr h) hhead
      | succ i =>
        obtain ⟨j, hj, hfound⟩ := ih h
        exact ⟨j + 1, Nat.succ_le_succ hj, by rw [hfound]; rfl⟩

/-- The directory of a model is listed unless it begins with the separator. -/
theorem idFromDirname_isSome {org model : Bytes} (hmodel : model ≠ [])
    (hsep : ¬ separator <+: modelDirname org model) :
    ∃ id, idFromDirname (modelDirname org model) = some id := by
  have hinside : separator <+: (modelDirname org model).drop org.length := by
    rw [modelDirname, List.append_assoc, List.drop_left]
    exact List.prefix_append _ _
  obtain ⟨sep, hle, hfound⟩ := strstr_le (by decide) hinside
  have hpos : sep ≠ 0 := by
    rintro rfl
    exact hsep (strstr_front hfound)
  have hlen := List.length_pos_iff.mpr hmodel
  have hrest : (modelDirname org model).drop (sep + 2) ≠ [] := by
    rw [ne_eq, List.drop_eq_nil_iff, modelDirname, List.length_append, List.length_append,
      show separator.length = 2 from rfl]
    omega
  rw [idFromDirname, hfound]
  dsimp only
  rw [if_neg hpos, if_neg hrest]
  exact ⟨_, rfl⟩

theorem regModelCacheDir_eq (env : Env) (org model : Bytes) : regModelCacheDir env org model =
    (regCacheRoot env).map fun root =>
      regPathJoin (regPathJoin root (ascii "models")) (modelDirname org model) := by
  simp only [regModelCacheDir, regPathJoin, List.append_assoc]
  rfl

/-- Without a revision the own directory is taken when it has a model, else the newest snapshot of
the hub. -/
theorem registryResolve_unrevised {env : Env} {spec org model : Bytes}
    (h : regSpecParse env spec = some (.remote org model none)) (dir : Bytes) :
    registryResolve env fs spec = some dir ↔
      (regModelCacheDir env org model = some dir ∧ regDirHasConfigJson fs dir = true) ∨
      (∀ own, regModelCacheDir env org model = some own → regDirHasConfigJson fs own = false) ∧
        ∃ hub, regHfHubDir env = some hub ∧
          regFindLatestSnapshot fs (regPathJoin hub (hubDirname org model)) = some dir := by
  unfold registryResolve
  simp only [h]
  cases hown : (regModelCacheDir env org model).filter (regDirHasConfigJson fs) with
  | some own =>
    obtain ⟨hdir, hconfig⟩ := Option.filter_eq_some_iff.mp hown
    simp only [hdir, Option.some.injEq, forall_eq', hconfig, Bool.true_eq_false, false_and,
      or_false]
    constructor
    · rintro rfl
      exact ⟨rfl, hconfig⟩
    · exact fun h => h.1
  | none =>
    rw [Option.filter_eq_none_iff] at hown
    have hno : ∀ own, regModelCacheDir env org model = some own →
        regDirHasConfigJson fs own = false := fun own hdir => Bool.eq_false_iff.mpr (hown own hdir)
    have hnot : ¬ (regModelCacheDir env org model = some dir ∧ regDirHasConfigJson fs dir = true) :=
      fun hdir => hown dir hdir.1 hdir.2
    simp only [hnot, false_or, and_iff_right hno, resolveHubFallback, hubModelDir,
      Option.bind_eq_some_iff, Option.map_eq_some_iff, exists_exists_and_eq_and]

/-- The own cache lists the models of the directory its names resolve to. -/
theorem mem_own_iff (hfs : Readable fs) {env : Env} {org model id : Bytes}
    (hslash : SLASH ∉ modelDirname org model) (hdot : (modelDirname org model).head? ≠ some 0x2E)
    (hid : idFromDirname (modelDirname org model) = some id) (dir : Bytes) :
    (regModelCacheDir env org model = some dir ∧ regDirHasConfigJson fs dir = true) ↔
      ∃ m ∈ ownModels fs size env, m.id = id ∧ m.path = dir := by
  rw [regModelCacheDir_eq]
  constructor
  · rintro ⟨hdir, hconfig⟩
    obtain ⟨root, hroot, rfl⟩ := Option.map_eq_some_iff.mp hdir
    have hne : modelDirname org model ≠ [] := by simp [modelDirname, separator]
    obtain ⟨names, hentries, hname⟩ := hfs.model hne hslash hconfig
    exact ⟨modelInfo fs size id _, (mem_ownModels _).mpr ⟨root, names, _, hroot, hentries, hname,
      (ownModel_iff _ _ _).mpr ⟨hdot, hconfig, hid, rfl⟩⟩, rfl, rfl⟩
  · rintro ⟨m, hm, rfl, rfl⟩
    obtain ⟨root, names, name, hroot, hentries, hname, hown⟩ := (mem_ownModels _).mp hm
    obtain ⟨-, hconfig, hid', hmodel⟩ := (ownModel_iff _ _ _).mp hown
    obtain rfl := idFromDirname_injective hslash (hfs.plain _ _ hentries _ hname) hid hid'
    rw [hmodel]
    exact ⟨by rw [hroot]; rfl, hconfig⟩

theorem hub_iff (hfs : Readable fs) {hub org model id : Bytes}
    (hslash : SLASH ∉ modelDirname org model)
    (hid : idFromDirname (modelDirname org model) = some id) (dir : Bytes) :
    regFindLatestSnapshot fs (regPathJoin hub (hubDirname org model)) = some dir ↔
      ∃ m names name, fs.entries hub = some names ∧ name ∈ names ∧
        hubModel fs size hub name = some m ∧ m.id = id ∧ m.path = dir := by
  have hhubId : hubIdFromDirname (hubDirname org model) = some id := by
    rw [hubIdFromDirname_eq, hid]
  have hhubSlash : SLASH ∉ hubDirname org model := by
    rw [hubDirname, List.mem_append, not_or]
    exact ⟨by decide, hslash⟩
  constructor
  · intro hsnap
    obtain ⟨names, hentries, hname⟩ := hfs.snapshot (by simp [hubDirname, ascii]) hhubSlash hsnap
    exact ⟨modelInfo fs size id dir, names, _, hentries, hname,
      (hubModel_iff _ _ _).mpr ⟨by simp [hubDirname, ascii], hhubId, hsnap, rfl⟩, rfl, rfl⟩
  · rintro ⟨m, names, name, hentries, hname, hm, rfl, rfl⟩
    obtain ⟨-, hid', hsnap, -⟩ := (hubModel_iff _ _ _).mp hm
    obtain rfl := hubIdFromDirname_injective hhubSlash (hfs.plain _ _ hentries _ hname) hhubId hid'
    exact hsnap

end Discover

/-! ## A small disk -/

/-- The own cache has `o/m`, the hub has a snapshot of `o/m` and of `p/q`. -/
def cacheTable : List (Bytes × List Bytes) :=
  [(ascii "c/models", [ascii "o--m"]), (ascii "c", [ascii "models"]),
    (ascii "c/models/o--m", [ascii "config.json"]),
    (ascii "h", [ascii "models--p--q", ascii "models--o--m"]),
    (ascii "h/models--p--q", [ascii "snapshots"]),
    (ascii "h/models--o--m", [ascii "snapshots"]),
    (ascii "h/models--p--q/snapshots", [ascii "s"]),
    (ascii "h/models--o--m/snapshots", [ascii "t"]),
    (ascii "h/models--p--q/snapshots/s", [ascii "config.json"]),
    (ascii "h/models--o--m/snapshots/t", [ascii "config.json"])]

def cacheFiles : List Bytes :=
  [ascii "c/models/o--m/config.json", ascii "h/models--p--q/snapshots/s/config.json",
    ascii "h/models--o--m/snapshots/t/config.json"]

def cacheDisk : FileSystem where
  regular path := cacheFiles.contains path
  entries path := cacheTable.lookup path
  mtime _ := some 0
  document _ := none
  text _ := none

theorem regPathJoin_split {dir name dir' name' : Bytes} (hname : SLASH ∉ name)
    (hname' : SLASH ∉ name') (h : regPathJoin dir name = regPathJoin dir' name') :
    dir = dir' ∧ name = name' := by
  have hrev : modelId name.reverse dir.reverse = modelId name'.reverse dir'.reverse := by
    have := congrArg List.reverse h
    simpa [regPathJoin, modelId] using this
  obtain ⟨hn, hd⟩ := modelId_split (by simpa using hname) (by simpa using hname') hrev
  exact ⟨List.reverse_injective hd, List.reverse_injective hn⟩

theorem cacheTable_of_entries {dir : Bytes} {names : List Bytes}
    (h : cacheDisk.entries dir = some names) : (dir, names) ∈ cacheTable := by
  obtain ⟨before, after, htable, -⟩ := List.lookup_eq_some_iff.mp h
  rw [htable]
  simp

/-- Every path of the disk with a slash in it is an entry of a directory of the disk. -/
theorem cacheDisk_paths : ∀ path, cacheDisk.regular path = true ∨
    (cacheDisk.entries path).isSome = true → SLASH ∈ path →
    ∃ dir names name, cacheDisk.entries dir = some names ∧ name ∈ names ∧ SLASH ∉ name ∧
      path = regPathJoin dir name := by
  have hcheck : ∀ path ∈ cacheFiles ++ cacheTable.map (·.1),
      SLASH ∈ path → ∃ e ∈ cacheTable, ∃ name ∈ e.2, cacheDisk.entries e.1 = some e.2 ∧
        SLASH ∉ name ∧ path = regPathJoin e.1 name := by decide +kernel
  intro path hpath hslash
  have hmem : path ∈ cacheFiles ++ cacheTable.map (·.1) := by
    rw [List.mem_append]
    cases hpath with
    | inl hfile => exact .inl (List.contains_iff_mem.mp hfile)
    | inr hdir =>
      obtain ⟨names, hnames⟩ := Option.isSome_iff_exists.mp hdir
      exact .inr (List.mem_map.mpr ⟨_, cacheTable_of_entries hnames, rfl⟩)
  obtain ⟨e, -, name, hname, hentries, hfree, rfl⟩ := hcheck path hmem hslash
  exact ⟨e.1, e.2, name, hentries, hname, hfree, rfl⟩

theorem cacheDisk_readable : Readable cacheDisk := by
  refine ⟨fun dir names h => ?_, fun dir names h => ?_, fun dir name _ hname hbelow => ?_⟩
  · have hcheck : ∀ e ∈ cacheTable, e.2.Nodup := by decide +kernel
    exact hcheck _ (cacheTable_of_entries h)
  · have hcheck : ∀ e ∈ cacheTable, ∀ name ∈ e.2, SLASH ∉ name := by decide +kernel
    exact hcheck _ (cacheTable_of_entries h)
  · obtain ⟨dir', names, name', hentries, hmem, hfree, hpath⟩ :=
      cacheDisk_paths _ hbelow (by simp [regPathJoin])
    obtain ⟨rfl, rfl⟩ := regPathJoin_split hname hfree hpath
    exact ⟨names, hentries, hmem⟩

end Mlxd.Discover
