import Mathlib.Data.List.Infix
import Mlxd.HubDownload
import Mlxd.Json

/-!
# Pulling a model

A pull downloads the planned files of a commit into the cache directory and then records the
commit. Files that are there already are kept unless another commit is recorded. What an
unfinished pull leaves behind is of its own commit, and nothing records that.
-/
namespace Mlxd.HubPull

open Mlxd.Unicode Mlxd.HubDownload
open Mlxd.Json (ascii)

/-! ## The plan -/

def EXACT_FILES : List Bytes :=
  ["config.json", "tokenizer.json", "tokenizer_config.json", "generation_config.json",
    "special_tokens_map.json", "chat_template.jinja", "chat_template.json", "tokenizer.model",
    "vocab.json", "merges.txt"].map ascii

def hasSuffix (s suffix : Bytes) : Bool := suffix.isSuffixOf s

def regFileWanted (rfilename : Bytes) : Bool :=
  EXACT_FILES.contains rfilename || hasSuffix rfilename (ascii ".safetensors") ||
    hasSuffix rfilename (ascii ".safetensors.index.json")

/-- Not empty, not absolute, without `..` and without a backslash. -/
def regRfilenameSafe (rfilename : Bytes) : Bool :=
  !rfilename.isEmpty && rfilename.head? != some 0x2F && !decide (ascii ".." <:+: rfilename) &&
    !rfilename.contains 0x5C

/-- The file names of the model info that are downloaded, in its order. -/
def regParseFilePlan (siblings : List Bytes) : List Bytes :=
  siblings.filter fun name => regRfilenameSafe name && regFileWanted name

/-! ## The pull -/

/-- The content of `.mlxd-meta.json`. -/
structure Meta where
  revision : Bytes
  commit : Option Bytes
  deriving DecidableEq, Repr

/-- The cache directory of a model. A record that cannot be read is none. -/
structure Cache where
  files : Bytes → Files
  record : Option Meta

def Cache.put (cache : Cache) (name : Bytes) (f : Files) : Cache :=
  { cache with files := fun other => if other = name then f else cache.files other }

@[simp] theorem Cache.put_same (cache : Cache) (name : Bytes) (f : Files) :
    (cache.put name f).files name = f := if_pos rfl

theorem Cache.put_other (cache : Cache) {name other : Bytes} (f : Files) (h : other ≠ name) :
    (cache.put name f).files other = cache.files other := if_neg h

@[simp] theorem Cache.put_record (cache : Cache) (name : Bytes) (f : Files) :
    (cache.put name f).record = cache.record := rfl

/-- The model info of the revision that is pulled. -/
structure Info where
  siblings : List Bytes
  sha : Option Bytes

/-- How the record is written: well, not at all, or cut short so that it cannot be read; or the
process ends before. -/
inductive MetaWrite where
  | written | failed | garbled | killed
  deriving DecidableEq, Repr

/-- What one pull meets. `fetch` gives the transfers for the file at a position of the plan, from
what is there of it; nothing stands for a pull that ends at this file, interrupted or failing. -/
structure Pull where
  revision : Bytes
  info : Option Info
  dirs : Bool
  fetch : Nat → Files → Option (Transfer × Transfer)
  record : MetaWrite

/-- Another commit than the one to pull is recorded; without a commit, another revision. -/
def forceRedownload (cache : Cache) (revision : Bytes) (sha : Option Bytes) : Bool :=
  match sha with
  | some (b :: rest) =>
    match cache.record.bind (·.commit) with
    | some cached => cached != b :: rest
    | none => false
  | _ =>
    match cache.record.map (·.revision) with
    | some cached => cached != revision
    | none => false

/-- A regular file that is not empty. -/
def present (f : Files) : Bool := 0 < (f.dest.getD []).length

/-- Download the files of the plan from position `i` on; false for a pull that ends before. -/
def pullFiles (fetch : Nat → Files → Option (Transfer × Transfer)) (force : Bool) :
    List Bytes → Nat → Cache → Cache × Bool
  | [], _, cache => (cache, true)
  | name :: rest, i, cache =>
    if force = false ∧ present (cache.files name) then pullFiles fetch force rest (i + 1) cache
    else
      match fetch i (cache.files name) with
      | none => (cache, false)
      | some (first, second) =>
        let r := regDownloadFile first second (cache.files name)
        if r.2 ≠ 0 then (cache.put name r.1, false)
        else pullFiles fetch force rest (i + 1) (cache.put name r.1)

/-- The result of `write_meta_json` is not looked at: only an ended process returns no path. -/
def writeMetaJson (how : MetaWrite) (revision : Bytes) (sha : Option Bytes) (cache : Cache) :
    Cache × Bool :=
  match how with
  | .written => ({ cache with record := some ⟨revision, sha⟩ }, true)
  | .failed => (cache, true)
  | .garbled => ({ cache with record := none }, true)
  | .killed => (cache, false)

/-- The cache after the pull, and whether it returned the path of the directory. -/
def registryPull (p : Pull) (cache : Cache) : Cache × Bool :=
  match p.info with
  | none => (cache, false)
  | some info =>
    let plan := regParseFilePlan info.siblings
    if plan = [] then (cache, false)
    else if p.dirs = false then (cache, false)
    else
      match pullFiles p.fetch (forceRedownload cache p.revision info.sha) plan 0 cache with
      | (cache, false) => (cache, false)
      | (cache, true) => writeMetaJson p.record p.revision info.sha cache

/-! ## The hub and runs -/

/-- The hub serves the same files for a commit at all times. -/
structure Hub where
  siblings : Bytes → List Bytes
  content : Bytes → Bytes → Bytes

def Hub.plan (hub : Hub) (commit : Bytes) : List Bytes := regParseFilePlan (hub.siblings commit)

/-- The branch is at `commit` for the whole pull: the model info and the files are its. -/
structure At (hub : Hub) (commit : Bytes) (p : Pull) : Prop where
  sha : commit ≠ []
  info : ∀ info, p.info = some info → info = ⟨hub.siblings commit, some commit⟩
  served : ∀ i name, (hub.plan commit)[i]? = some name → ∀ f first second,
    p.fetch i f = some (first, second) → Served (hub.content commit name) f first second

/-- The caches after any pulls that meet `cond`, from an empty directory on, with the commit of
the last pull that changed something and did not return, if none has returned since. -/
inductive Pulled (hub : Hub) (cond : Option Bytes → Bytes → Pull → Prop) :
    Cache → Option Bytes → Prop where
  | start : Pulled hub cond ⟨fun _ => ⟨none, none⟩, none⟩ none
  | returned {cache : Cache} {pending : Option Bytes} {commit : Bytes} {p : Pull} :
      Pulled hub cond cache pending → At hub commit p → cond pending commit p →
      (registryPull p cache).2 = true → Pulled hub cond (registryPull p cache).1 none
  | unchanged {cache : Cache} {pending : Option Bytes} {commit : Bytes} {p : Pull} :
      Pulled hub cond cache pending → At hub commit p → cond pending commit p →
      (registryPull p cache).2 = false → (registryPull p cache).1 = cache →
      Pulled hub cond cache pending
  | unfinished {cache : Cache} {pending : Option Bytes} {commit : Bytes} {p : Pull} :
      Pulled hub cond cache pending → At hub commit p → cond pending commit p →
      (registryPull p cache).2 = false → Pulled hub cond (registryPull p cache).1 (some commit)

/-- Every file of the plan is the one of the recorded commit. -/
def Consistent (hub : Hub) (cache : Cache) (plan : List Bytes) : Prop :=
  ∃ m commit, cache.record = some m ∧ m.commit = some commit ∧
    ∀ name ∈ plan, (cache.files name).dest = some (hub.content commit name)

/-- An unfinished pull is followed by pulls of the same commit until one returns, no transfer
leaves another body behind, and the record is written unless the process ends before. -/
structure Calm (pending : Option Bytes) (commit : Bytes) (p : Pull) : Prop where
  same : ∀ c, pending = some c → c = commit
  clean : ∀ i f first second, p.fetch i f = some (first, second) → Clean first ∧ Clean second
  record : p.record = .written ∨ p.record = .killed

/-! ## What pulls of one commit leave behind -/

section Own

variable {hub : Hub} {commit : Bytes}

/-- The file is complete and nothing else of it is there. -/
def Done (hub : Hub) (commit : Bytes) (cache : Cache) (name : Bytes) : Prop :=
  cache.files name = ⟨some (hub.content commit name), none⟩

/-- What is left in the directory is of `commit`: every partial file, and unless everything is
downloaded again every file that is present. -/
structure Own (hub : Hub) (commit : Bytes) (force : Bool) (cache : Cache) : Prop where
  planned : ∀ name, (cache.files name).part ≠ none → name ∈ hub.plan commit
  part : ∀ name, Partial (hub.content commit name) (cache.files name)
  kept : force = false → ∀ name ∈ hub.plan commit, present (cache.files name) →
    Done hub commit cache name

theorem force_iff (hcommit : commit ≠ []) (cache : Cache) (revision : Bytes) :
    forceRedownload cache revision (some commit) = true ↔
      ∃ cached, cache.record.bind (·.commit) = some cached ∧ cached ≠ commit := by
  cases commit with
  | nil => exact absurd rfl hcommit
  | cons b rest =>
    rw [forceRedownload]
    cases cache.record.bind (·.commit) with
    | none => simp
    | some cached => simp

/-- A clean download of a planned file leaves the directory to the commit. -/
theorem download_own {force : Bool} {cache : Cache} {name : Bytes} {first second : Transfer}
    (hown : Own hub commit force cache) (hname : name ∈ hub.plan commit)
    (hskip : ¬ (force = false ∧ present (cache.files name) = true))
    (hs : Served (hub.content commit name) (cache.files name) first second)
    (hc : Clean first ∧ Clean second) :
    let r := regDownloadFile first second (cache.files name)
    Own hub commit force (cache.put name r.1) ∧
      (r.2 = 0 → Done hub commit (cache.put name r.1) name) := by
  obtain ⟨hpart, hdone⟩ := download_step (hown.part name) hs hc.1 hc.2
  have hdest := download_dest first second (cache.files name)
  dsimp only
  generalize regDownloadFile first second (cache.files name) = r at hpart hdone hdest ⊢
  have hthis : r.2 = 0 → Done hub commit (cache.put name r.1) name := fun h0 => by
    rw [Done, Cache.put_same]
    exact hdone h0
  refine ⟨⟨fun other h => ?_, fun other => ?_, fun hforce other hmem h => ?_⟩, hthis⟩
  · by_cases he : other = name
    · exact he ▸ hname
    · rw [cache.put_other r.1 he] at h
      exact hown.planned other h
  · by_cases he : other = name
    · subst he
      rw [Cache.put_same]
      exact hpart
    · rw [cache.put_other r.1 he]
      exact hown.part other
  · by_cases he : other = name
    · subst he
      rw [Cache.put_same] at h
      refine hthis ?_
      by_contra hne
      rw [present, hdest hne] at h
      exact hskip ⟨hforce, h⟩
    · rw [cache.put_other r.1 he] at h
      rw [Done, cache.put_other r.1 he]
      exact hown.kept hforce other hmem h

/-- The loop over the plan leaves the directory to the commit, and completes every file it
passes. -/
theorem pullFiles_own {p : Pull} (hat : At hub commit p)
    (hclean : ∀ i f first second, p.fetch i f = some (first, second) → Clean first ∧ Clean second)
    (force : Bool) (rest : List Bytes) (i : Nat) (hrest : (hub.plan commit).drop i = rest)
    {cache : Cache} (hown : Own hub commit force cache) :
    let r := pullFiles p.fetch force rest i cache
    Own hub commit force r.1 ∧ r.1.record = cache.record ∧
      (r.2 = true → (∀ name ∈ rest, Done hub commit r.1 name) ∧
        ∀ name, Done hub commit cache name → Done hub commit r.1 name) := by
  induction rest generalizing i cache with
  | nil => exact ⟨hown, rfl, fun _ => ⟨by simp, fun _ h => h⟩⟩
  | cons name rest ih =>
    have hname : name ∈ hub.plan commit := List.mem_of_mem_drop (hrest ▸ List.mem_cons_self)
    have hnext : (hub.plan commit).drop (i + 1) = rest := by
      rw [← List.drop_drop, hrest, List.drop_one, List.tail_cons]
    have hget : (hub.plan commit)[i]? = some name := by
      rw [← List.head?_drop, hrest, List.head?_cons]
    rw [pullFiles]
    by_cases hskip : force = false ∧ present (cache.files name) = true
    · rw [if_pos hskip]
      obtain ⟨hown', hrec, hall⟩ := ih (i + 1) hnext hown
      refine ⟨hown', hrec, fun ht => ⟨fun other hmem => ?_, (hall ht).2⟩⟩
      rcases List.mem_cons.mp hmem with rfl | hmem
      · exact (hall ht).2 _ (hown.kept hskip.1 _ hname hskip.2)
      · exact (hall ht).1 _ hmem
    · rw [if_neg hskip]
      cases hfetch : p.fetch i (cache.files name) with
      | none => exact ⟨hown, rfl, by simp⟩
      | some pair =>
        obtain ⟨first, second⟩ := pair
        obtain ⟨hown', hdone⟩ := download_own hown hname hskip
          (hat.served i name hget _ _ _ hfetch) (hclean _ _ _ _ hfetch)
        dsimp only at hown' hdone ⊢
        generalize hr : regDownloadFile first second (cache.files name) = r at hown' hdone ⊢
        by_cases h0 : r.2 = 0
        · rw [if_neg (by simp [h0])]
          obtain ⟨hown'', hrec, hall⟩ := ih (i + 1) hnext hown'
          refine ⟨hown'', hrec, fun ht => ⟨fun other hmem => ?_, fun other ho => ?_⟩⟩
          · rcases List.mem_cons.mp hmem with rfl | hmem
            · exact (hall ht).2 _ (hdone h0)
            · exact (hall ht).1 _ hmem
          · refine (hall ht).2 other ?_
            by_cases he : other = name
            · exact he ▸ hdone h0
            · rw [Done, cache.put_other r.1 he]
              exact ho
        · rw [if_pos h0]
          exact ⟨hown', rfl, by simp⟩

end Own

/-! ## Every run -/

/-- The directory belongs to the pulls that have not returned; after one that has, no partial
file is left and the recorded commit's files are complete. -/
structure Inv (hub : Hub) (cache : Cache) (pending : Option Bytes) : Prop where
  own : ∀ commit, commit ≠ [] → (∀ c, pending = some c → c = commit) → ∀ revision,
    Own hub commit (forceRedownload cache revision (some commit)) cache
  settled : pending = none → ∀ name, (cache.files name).part = none

section Run

variable {hub : Hub} {commit : Bytes} {cache : Cache} {pending : Option Bytes} {p : Pull}

/-- With every planned file complete, the recorded commit is the whole directory. -/
theorem recorded_inv {force : Bool} (hown : Own hub commit force cache)
    (hdone : ∀ name ∈ hub.plan commit, Done hub commit cache name) (revision : Bytes) :
    Inv hub { cache with record := some ⟨revision, some commit⟩ } none := by
  have hnone : ∀ name, (cache.files name).part = none := by
    intro name
    by_contra hne
    exact absurd (congrArg Files.part (hdone name (hown.planned name hne))) hne
  refine ⟨fun c hc _ asked => ?_, fun _ name => hnone name⟩
  refine ⟨fun name hne => absurd (hnone name) hne, fun name => ?_, fun hforce name hmem _ => ?_⟩
  · rw [Partial, hnone]
    exact List.nil_prefix
  · have hne := mt (force_iff hc _ asked).mpr (by rw [hforce]; decide)
    simp only [Option.bind_some, Option.some.injEq, exists_eq_left', not_not] at hne
    exact hne ▸ hdone name (hne ▸ hmem)

/-- A calm pull leaves the directory to its commit; when it returns, the record is right. -/
theorem pull_step (hinv : Inv hub cache pending) (hat : At hub commit p)
    (hcalm : Calm pending commit p) :
    ((registryPull p cache).2 = true → Inv hub (registryPull p cache).1 none ∧
      Consistent hub (registryPull p cache).1 (hub.plan commit)) ∧
    ((registryPull p cache).2 = false → Inv hub (registryPull p cache).1 (some commit)) := by
  have hown := hinv.own commit hat.sha hcalm.same
  -- a directory that belongs to the commit is all an unfinished pull needs
  have hunfinished : ∀ cache', cache'.record = cache.record →
      Own hub commit (forceRedownload cache p.revision (some commit)) cache' →
      Inv hub cache' (some commit) := by
    intro cache' hrec hown'
    refine ⟨fun c hc hsame revision => ?_, by simp⟩
    obtain rfl := hsame commit rfl
    have hforce : forceRedownload cache' revision (some commit) =
        forceRedownload cache p.revision (some commit) := by
      rw [Bool.eq_iff_iff, force_iff hat.sha, force_iff hat.sha, hrec]
    rw [hforce]
    exact hown'
  rw [registryPull]
  cases hinfo : p.info with
  | none => exact ⟨by simp, fun _ => hunfinished cache rfl (hown _)⟩
  | some info =>
    obtain rfl := hat.info info hinfo
    dsimp only
    rw [← Hub.plan]
    split
    · exact ⟨by simp, fun _ => hunfinished cache rfl (hown _)⟩
    split
    · exact ⟨by simp, fun _ => hunfinished cache rfl (hown _)⟩
    obtain ⟨hown', hrec, hall⟩ := pullFiles_own hat hcalm.clean
      (forceRedownload cache p.revision (some commit)) (hub.plan commit) 0 rfl (hown p.revision)
    generalize pullFiles p.fetch (forceRedownload cache p.revision (some commit)) (hub.plan commit)
      0 cache = r at hown' hrec hall ⊢
    obtain ⟨cache', ok⟩ := r
    cases ok with
    | false => exact ⟨by simp, fun _ => hunfinished cache' hrec hown'⟩
    | true =>
      have hdone := (hall rfl).1
      dsimp only
      rcases hcalm.record with hw | hw
      · rw [hw, writeMetaJson]
        refine ⟨fun _ => ⟨recorded_inv hown' hdone _, _, commit, rfl, rfl, fun name hmem => ?_⟩,
          by simp⟩
        exact congrArg Files.dest (hdone name hmem)
      · rw [hw, writeMetaJson]
        exact ⟨by simp, fun _ => hunfinished cache' hrec hown'⟩

theorem pulled_inv (h : Pulled hub Calm cache pending) : Inv hub cache pending := by
  induction h with
  | start =>
    exact ⟨fun _ _ _ _ => ⟨fun _ h => absurd rfl h, fun _ => List.nil_prefix,
      fun _ _ _ h => absurd h Bool.false_ne_true⟩, fun _ _ => rfl⟩
  | returned _ hat hcalm hret ih => exact ((pull_step ih hat hcalm).1 hret).1
  | unchanged _ _ _ _ _ ih => exact ih
  | unfinished _ hat hcalm hret ih => exact (pull_step ih hat hcalm).2 hret

end Run

/-- Over calm pulls every returned directory holds the files of the commit it records. -/
theorem pull_consistent (hub : Hub) (cache : Cache) (pending : Option Bytes) (commit : Bytes)
    (p : Pull) (h : Pulled hub Calm cache pending) (hat : At hub commit p)
    (hcalm : Calm pending commit p) (hret : (registryPull p cache).2 = true) :
    Consistent hub (registryPull p cache).1 (hub.plan commit) :=
  ((pull_step (pulled_inv h) hat hcalm).1 hret).2

/-! ## Two files of a model -/

/-- Two files, both with the commit as their content. -/
def twoFiles : Hub where
  siblings := fun _ => [ascii "config.json", ascii "README.md", ascii "tokenizer.json"]
  content := fun commit _ => commit

/-- A pull in which the first `n` files come in one go and the pull ends at the next. -/
def pullOf (commit : Bytes) (n : Nat) : Pull where
  revision := ascii "main"
  info := some ⟨twoFiles.siblings commit, some commit⟩
  dirs := true
  fetch := fun i _ =>
    if i < n then some (plainTransfer 200 [commit] true, plainTransfer 500 [] true) else none
  record := .written

def emptyCache : Cache := ⟨fun _ => ⟨none, none⟩, none⟩

theorem pullOf_fetch {commit : Bytes} {n i : Nat} {f : Files} {first second : Transfer}
    (h : (pullOf commit n).fetch i f = some (first, second)) :
    first = plainTransfer 200 [commit] true ∧ second = plainTransfer 500 [] true := by
  simp only [pullOf] at h
  split at h
  · simp only [Option.some.injEq, Prod.mk.injEq] at h
    exact ⟨h.1.symm, h.2.symm⟩
  · contradiction

theorem pullOf_at {commit : Bytes} (h : commit ≠ []) (n : Nat) :
    At twoFiles commit (pullOf commit n) := by
  refine ⟨h, fun info hinfo => (Option.some.inj hinfo).symm, fun i name _ f first second hf => ?_⟩
  obtain ⟨rfl, rfl⟩ := pullOf_fetch hf
  refine ⟨⟨fun _ => ?_, fun hs => absurd hs (by simp [plainTransfer]),
    fun hs => absurd hs (by simp [plainTransfer])⟩, plain_other _ _ _ _⟩
  simp [plainTransfer, twoFiles]

/-- The branch moves after a pull that ended at the second file: the next one keeps the first
file and records the new commit for both. -/
theorem pull_mixed : ¬ ∀ hub cache pending commit p, Pulled hub (fun _ _ _ => True) cache pending →
    At hub commit p → (registryPull p cache).2 = true →
      Consistent hub (registryPull p cache).1 (hub.plan commit) := by
  intro h
  have hfirst : Pulled twoFiles (fun _ _ _ => True) (registryPull (pullOf [1] 1) emptyCache).1
      (some [1]) :=
    .unfinished .start (pullOf_at (by decide) 1) trivial (by decide +kernel)
  obtain ⟨m, commit, hrec, hcommit, hfiles⟩ := h _ _ _ [2] (pullOf [2] 2) hfirst
    (pullOf_at (by decide) 2) (by decide +kernel)
  have hrecorded : (registryPull (pullOf [2] 2) (registryPull (pullOf [1] 1) emptyCache).1).1.record =
      some ⟨ascii "main", some [2]⟩ := by decide +kernel
  have hkept : ((registryPull (pullOf [2] 2)
      (registryPull (pullOf [1] 1) emptyCache).1).1.files (ascii "config.json")).dest =
      some [1] := by decide +kernel
  obtain rfl := Option.some.inj (hrecorded.symm.trans hrec)
  obtain rfl := Option.some.inj hcommit
  have hnew := hfiles (ascii "config.json") (by decide +kernel)
  exact absurd (hkept.symm.trans hnew) (by decide)

/-- The same pull, repeated until it returns, is calm. -/
theorem pull_consistent_again : Consistent twoFiles
    (registryPull (pullOf [1] 2) (registryPull (pullOf [1] 1) emptyCache).1).1
    (twoFiles.plan [1]) := by
  have hcalm : ∀ n pending, (∀ c, pending = some c → c = [1]) → Calm pending [1] (pullOf [1] n) :=
    fun n pending hp => ⟨hp, fun i f first second hf => by
      obtain ⟨rfl, rfl⟩ := pullOf_fetch hf
      exact ⟨⟨by decide, by decide, by decide⟩, ⟨by decide, by decide, by decide⟩⟩, .inl rfl⟩
  have hfirst : Pulled twoFiles Calm (registryPull (pullOf [1] 1) emptyCache).1 (some [1]) :=
    .unfinished .start (pullOf_at (by decide) 1) (hcalm 1 none (by simp)) (by decide +kernel)
  exact pull_consistent twoFiles _ _ _ _ hfirst (pullOf_at (by decide) 2)
    (hcalm 2 _ (fun c hc => (Option.some.inj hc).symm)) (by decide +kernel)

end Mlxd.HubPull
