import Mlxd.Registry

/-!
# Resolving a specifier

A model is looked up in the own cache, where its record must name the revision asked for, and
then in the shared hub cache, where the newest snapshot is taken whatever was asked for. So a
revision is kept exactly when the own entry is of it, or no snapshot stands in for another one.
-/
namespace Mlxd.Resolve

open Mlxd.Unicode Mlxd.Json Mlxd.Registry

/-! ## The file system -/

/-- What the calls of the registry see of the disk: the regular files, the entries of the
directories that can be opened in the order they are read, the modification times of what can be
examined, and the contents of files as documents and as texts. -/
structure FileSystem where
  regular : Bytes → Bool
  entries : Bytes → Option (List Bytes)
  mtime : Bytes → Option Int
  document : Bytes → Option Value
  text : Bytes → Option Bytes

def regDirHasConfigJson (fs : FileSystem) (dir : Bytes) : Bool :=
  fs.regular (regPathJoin dir (ascii "config.json"))

/-- The revision recorded in a directory. -/
def regMetaReadRevision (fs : FileSystem) (dir : Bytes) : Option Bytes :=
  (getStr (objGet (fs.document (regPathJoin dir (ascii ".mlxd-meta.json"))) (ascii "revision"))).map
    cstr

/-! ## Snapshots -/

/-- The best snapshot so far and its time. -/
abbrev Best := Option (Bytes × Int)

/-- One entry of the snapshots directory. -/
def considerSnapshot (fs : FileSystem) (snapDir : Bytes) (best : Best) (name : Bytes) : Best :=
  if name.head? = some 0x2E then best
  else
    let full := regPathJoin snapDir name
    if regDirHasConfigJson fs full then
      match fs.mtime full with
      | none => best
      | some mtime =>
        match best with
        | none => some (full, mtime)
        | some (_, bestTime) => if bestTime < mtime then some (full, mtime) else best
    else best

def regFindLatestSnapshot (fs : FileSystem) (modelDir : Bytes) : Option Bytes :=
  let snapDir := regPathJoin modelDir (ascii "snapshots")
  match fs.entries snapDir with
  | none => none
  | some names => (names.foldl (considerSnapshot fs snapDir) none).map (·.1)

/-! ## Resolution -/

/-- The directory of a model in the shared hub cache. -/
def hubModelDir (env : Env) (org model : Bytes) : Option Bytes :=
  (regHfHubDir env).map fun hub => regPathJoin hub (hubDirname org model)

def resolveHubFallback (env : Env) (fs : FileSystem) (org model : Bytes) : Option Bytes :=
  (hubModelDir env org model).bind (regFindLatestSnapshot fs)

def registryResolve (env : Env) (fs : FileSystem) (specifier : Bytes) : Option Bytes :=
  match regSpecParse env specifier with
  | none => none
  | some (.localPath path) => if regDirHasConfigJson fs path then some path else none
  | some (.remote org model revision) =>
    let dir := (regModelCacheDir env org model).filter (regDirHasConfigJson fs)
    let dir := match revision with
      | none => dir
      | some revision => dir.filter fun dir => regMetaReadRevision fs dir = some revision
    match dir with
    | some dir => some dir
    | none => resolveHubFallback env fs org model

/-! ## What a directory holds -/

/-- The hub snapshot a revision refers to: the one named by the reference of that name, or the
one of that very commit. -/
def RefersTo (env : Env) (fs : FileSystem) (org model revision dir : Bytes) : Prop :=
  ∃ modelDir commit, hubModelDir env org model = some modelDir ∧
    dir = regPathJoin (regPathJoin modelDir (ascii "snapshots")) commit ∧
    (fs.text (regPathJoin (regPathJoin modelDir (ascii "refs")) revision) = some commit ∨
      commit = revision)

/-- A directory is recorded as holding a revision by its own record or by the hub. -/
def Recorded (env : Env) (fs : FileSystem) (org model revision dir : Bytes) : Prop :=
  regMetaReadRevision fs dir = some revision ∨ RefersTo env fs org model revision dir

/-- An entry of the snapshots directory that can be served. -/
def Usable (fs : FileSystem) (snapDir name : Bytes) (mtime : Int) : Prop :=
  name.head? ≠ some 0x2E ∧ regDirHasConfigJson fs (regPathJoin snapDir name) = true ∧
    fs.mtime (regPathJoin snapDir name) = some mtime

/-- The first of the newest usable snapshots in the order of the directory. -/
def Newest (fs : FileSystem) (modelDir dir : Bytes) : Prop :=
  let snapDir := regPathJoin modelDir (ascii "snapshots")
  ∃ before name after mtime, fs.entries snapDir = some (before ++ name :: after) ∧
    dir = regPathJoin snapDir name ∧ Usable fs snapDir name mtime ∧
    (∀ n ∈ before, ∀ t, Usable fs snapDir n t → t < mtime) ∧
    ∀ n ∈ after, ∀ t, Usable fs snapDir n t → t ≤ mtime

/-! ## The newest snapshot -/

section Snapshots

variable (fs : FileSystem) (snapDir : Bytes)

theorem considerSnapshot_usable {name : Bytes} {mtime : Int} (h : Usable fs snapDir name mtime)
    (best : Best) : considerSnapshot fs snapDir best name =
      match best with
      | none => some (regPathJoin snapDir name, mtime)
      | some (_, bestTime) => if bestTime < mtime then some (regPathJoin snapDir name, mtime) else best := by
  obtain ⟨hdot, hconfig, htime⟩ := h
  simp only [considerSnapshot, if_neg hdot, hconfig, ↓reduceIte, htime]

theorem considerSnapshot_unusable {name : Bytes} (h : ¬ ∃ mtime, Usable fs snapDir name mtime)
    (best : Best) : considerSnapshot fs snapDir best name = best := by
  unfold considerSnapshot
  split
  · rfl
  · rename_i hdot
    dsimp only
    split
    · rename_i hconfig
      split
      · rfl
      · rename_i mtime htime
        exact absurd ⟨mtime, hdot, hconfig, htime⟩ h
    · rfl

/-- What the scan of some entries has found. -/
def Found (names : List Bytes) : Best → Prop
  | none => ∀ n ∈ names, ∀ t, ¬ Usable fs snapDir n t
  | some (dir, mtime) => ∃ before name after, names = before ++ name :: after ∧
      dir = regPathJoin snapDir name ∧ Usable fs snapDir name mtime ∧
      (∀ n ∈ before, ∀ t, Usable fs snapDir n t → t < mtime) ∧
      ∀ n ∈ after, ∀ t, Usable fs snapDir n t → t ≤ mtime

theorem foldl_found (names : List Bytes) :
    Found fs snapDir names (names.foldl (considerSnapshot fs snapDir) none) := by
  induction names using List.reverseRecOn with
  | nil => simp [Found]
  | append_singleton names name ih =>
    rw [List.foldl_append, List.foldl_cons, List.foldl_nil]
    generalize names.foldl (considerSnapshot fs snapDir) none = best at ih
    by_cases husable : ∃ mtime, Usable fs snapDir name mtime
    · obtain ⟨mtime, husable⟩ := husable
      have hself : ∀ t, Usable fs snapDir name t → t = mtime := fun t ht =>
        Option.some.inj (ht.2.2.symm.trans husable.2.2)
      rw [considerSnapshot_usable fs snapDir husable]
      cases best with
      | none => exact ⟨names, name, [], rfl, rfl, husable, fun n hn t ht => absurd ht (ih n hn t), by simp⟩
      | some best =>
        obtain ⟨dir, bestTime⟩ := best
        obtain ⟨before, first, after, rfl, hdir, hfirst, hbefore, hafter⟩ := ih
        dsimp only
        split
        · rename_i hnewer
          refine ⟨_, name, [], rfl, rfl, husable, fun n hn t ht => ?_, by simp⟩
          rcases List.mem_append.mp hn with hn | hn
          · exact Int.lt_trans (hbefore n hn t ht) hnewer
          · rcases List.mem_cons.mp hn with rfl | hn
            · rwa [Option.some.inj (ht.2.2.symm.trans hfirst.2.2)]
            · exact Int.lt_of_le_of_lt (hafter n hn t ht) hnewer
        · rename_i holder
          refine ⟨before, first, after ++ [name], by simp, hdir, hfirst, hbefore, fun n hn t ht => ?_⟩
          rcases List.mem_append.mp hn with hn | hn
          · exact hafter n hn t ht
          · obtain rfl := List.mem_singleton.mp hn
            rw [hself t ht]
            omega
    · rw [considerSnapshot_unusable fs snapDir husable]
      have hno : ∀ t, ¬ Usable fs snapDir name t := fun t ht => husable ⟨t, ht⟩
      cases best with
      | none =>
        intro n hn t ht
        rcases List.mem_append.mp hn with hn | hn
        · exact ih n hn t ht
        · exact hno t (List.mem_singleton.mp hn ▸ ht)
      | some best =>
        obtain ⟨dir, bestTime⟩ := best
        obtain ⟨before, first, after, rfl, hdir, hfirst, hbefore, hafter⟩ := ih
        refine ⟨before, first, after ++ [name], by simp, hdir, hfirst, hbefore, fun n hn t ht => ?_⟩
        rcases List.mem_append.mp hn with hn | hn
        · exact hafter n hn t ht
        · exact absurd (List.mem_singleton.mp hn ▸ ht) (hno t)

/-- Of two entries that are both first among the newest, neither stands before the other. -/
theorem first_newest_unique {before before' after after' : List Bytes} {name name' : Bytes}
    {t t' : Int} (hsplit : before ++ name :: after = before' ++ name' :: after')
    (h : Usable fs snapDir name t) (h' : Usable fs snapDir name' t')
    (hafter : ∀ n ∈ after, ∀ u, Usable fs snapDir n u → u ≤ t)
    (hbefore' : ∀ n ∈ before', ∀ u, Usable fs snapDir n u → u < t') :
    before'.length ≤ before.length := by
  by_contra hlt
  rcases List.append_eq_append_iff.mp hsplit with ⟨mid, rfl, htail⟩ | ⟨mid, rfl, -⟩
  · cases mid with
    | nil => simp at hlt
    | cons x mid =>
      obtain ⟨rfl, rfl⟩ := List.cons.inj htail
      have hold := hbefore' name (by simp) t h
      have hnew := hafter name' (by simp) t' h'
      omega
  · simp at hlt

end Snapshots

/-- The scan finds the first of the newest usable snapshots, when there is any. -/
theorem regFindLatestSnapshot_iff (fs : FileSystem) (modelDir dir : Bytes) :
    regFindLatestSnapshot fs modelDir = some dir ↔ Newest fs modelDir dir := by
  unfold regFindLatestSnapshot Newest
  dsimp only
  cases hentries : fs.entries (regPathJoin modelDir (ascii "snapshots")) with
  | none => simp
  | some names =>
    have hfound := foldl_found fs (regPathJoin modelDir (ascii "snapshots")) names
    dsimp only
    generalize names.foldl (considerSnapshot fs (regPathJoin modelDir (ascii "snapshots"))) none =
      best at hfound
    simp only [Option.some.injEq]
    cases best with
    | none =>
      simp only [Option.map_none, reduceCtorEq, false_iff]
      rintro ⟨before, name, after, t, rfl, -, husable, -⟩
      exact hfound name (by simp) t husable
    | some best =>
      obtain ⟨dir', time⟩ := best
      obtain ⟨before, name, after, hnames, hdir, husable, hbefore, hafter⟩ := hfound
      simp only [Option.map_some, Option.some.injEq]
      constructor
      · rintro rfl
        exact ⟨before, name, after, time, hnames, hdir, husable, hbefore, hafter⟩
      · rintro ⟨before', name', after', t', hnames', rfl, husable', hbefore', hafter'⟩
        have hsplit := hnames.symm.trans hnames'
        have hle := first_newest_unique fs _ hsplit husable husable' hafter hbefore'
        have hge := first_newest_unique fs _ hsplit.symm husable' husable hafter' hbefore
        have hrest := (List.append_inj hsplit (Nat.le_antisymm hge hle)).2
        rw [hdir, (List.cons.inj hrest).1]

/-! ## Revisions -/

/-- The own cache entry is complete and its record names the revision. -/
def Own (env : Env) (fs : FileSystem) (org model revision : Bytes) : Prop :=
  ∃ dir, regModelCacheDir env org model = some dir ∧ regDirHasConfigJson fs dir = true ∧
    regMetaReadRevision fs dir = some revision

theorem registryResolve_remote {env : Env} {fs : FileSystem} {specifier org model revision : Bytes}
    (hspec : regSpecParse env specifier = some (.remote org model (some revision))) (dir : Bytes) :
    registryResolve env fs specifier = some dir ↔
      (regModelCacheDir env org model = some dir ∧ regDirHasConfigJson fs dir = true ∧
        regMetaReadRevision fs dir = some revision) ∨
      ¬ Own env fs org model revision ∧
        ∃ modelDir, hubModelDir env org model = some modelDir ∧ Newest fs modelDir dir := by
  unfold registryResolve
  simp only [hspec]
  cases hown : ((regModelCacheDir env org model).filter (regDirHasConfigJson fs)).filter
      fun dir => regMetaReadRevision fs dir = some revision with
  | some own =>
    have hfilter := hown
    simp only [Option.filter_eq_some_iff, decide_eq_true_eq] at hfilter
    obtain ⟨⟨hdir, hconfig⟩, hrev⟩ := hfilter
    have hholds : Own env fs org model revision := ⟨own, hdir, hconfig, hrev⟩
    simp only [Option.some.injEq, hholds, not_true_eq_false, false_and, or_false]
    constructor
    · rintro rfl
      exact ⟨hdir, hconfig, hrev⟩
    · rintro ⟨hdir', -, -⟩
      exact Option.some.inj (hdir.symm.trans hdir')
  | none =>
    have hno : ¬ Own env fs org model revision := by
      rintro ⟨own, hdir, hconfig, hrev⟩
      simp [hdir, Option.filter, hconfig, hrev] at hown
    have hnot : ¬ (regModelCacheDir env org model = some dir ∧ regDirHasConfigJson fs dir = true ∧
        regMetaReadRevision fs dir = some revision) := fun h => hno ⟨dir, h⟩
    simp only [hnot, hno, not_false_eq_true, true_and, false_or, resolveHubFallback,
      Option.bind_eq_some_iff, regFindLatestSnapshot_iff]

/-- What is resolved for a revision is recorded as holding it exactly when the own entry is of
that revision or the newest snapshot, if there is one, is recorded as holding it. -/
theorem resolve_faithful_iff (env : Env) (fs : FileSystem) (specifier org model revision : Bytes)
    (hspec : regSpecParse env specifier = some (.remote org model (some revision))) :
    (∀ dir, registryResolve env fs specifier = some dir →
        Recorded env fs org model revision dir) ↔
      Own env fs org model revision ∨
      ∀ modelDir dir, hubModelDir env org model = some modelDir → Newest fs modelDir dir →
        Recorded env fs org model revision dir := by
  simp only [registryResolve_remote hspec]
  constructor
  · intro h
    by_cases hown : Own env fs org model revision
    · exact .inl hown
    · exact .inr fun modelDir dir hhub hnewest => h dir (.inr ⟨hown, modelDir, hhub, hnewest⟩)
  · rintro h dir (⟨-, -, hrev⟩ | ⟨hown, modelDir, hhub, hnewest⟩)
    · exact .inl hrev
    · exact (h.resolve_left hown) modelDir dir hhub hnewest

/-- Both caches where the environment puts them. -/
def diskEnv : Env := ⟨some (ascii "c"), some (ascii "h"), none, none⟩

/-- The own cache holds `o/m` at `v1`; the hub holds the snapshot `s` for `main`. -/
def staleDisk : FileSystem where
  regular path := path = ascii "c/models/o--m/config.json" ||
    path = ascii "h/models--o--m/snapshots/s/config.json"
  entries path :=
    if path = ascii "h/models--o--m/snapshots" then
      some [ascii ".", ascii "..", ascii "s"]
    else none
  mtime _ := some 0
  document path :=
    if path = ascii "c/models/o--m/.mlxd-meta.json" then
      some (.obj [(ascii "revision", .str (ascii "v1"))])
    else none
  text path :=
    if path = ascii "h/models--o--m/refs/main" then
      some (ascii "s")
    else none

theorem resolve_faithful_iff_own :
    registryResolve diskEnv staleDisk (ascii "o/m:v1") = some (ascii "c/models/o--m") ∧
      Recorded diskEnv staleDisk (ascii "o") (ascii "m") (ascii "v1") (ascii "c/models/o--m") :=
  have hresolve : registryResolve diskEnv staleDisk (ascii "o/m:v1") =
      some (ascii "c/models/o--m") := by decide +kernel
  ⟨hresolve, (resolve_faithful_iff diskEnv staleDisk (ascii "o/m:v1") (ascii "o") (ascii "m")
    (ascii "v1") (by decide +kernel)).mpr (.inl ⟨ascii "c/models/o--m", by decide +kernel⟩) _
    hresolve⟩

/-- Asked for `v2`, the resolution hands out the snapshot of `main`. -/
theorem resolve_other_revision : ¬ ∀ env fs specifier org model revision,
    regSpecParse env specifier = some (.remote org model (some revision)) →
    ∀ dir, registryResolve env fs specifier = some dir →
      Recorded env fs org model revision dir := by
  intro h
  have hrec := h diskEnv staleDisk (ascii "o/m:v2") (ascii "o") (ascii "m") (ascii "v2")
    (by decide +kernel) (ascii "h/models--o--m/snapshots/s")
    (by decide +kernel)
  rcases hrec with hmeta | ⟨modelDir, commit, hhub, hdir, href⟩
  · exact absurd hmeta (by decide +kernel)
  · have hmodel : hubModelDir diskEnv (ascii "o") (ascii "m") =
        some (ascii "h/models--o--m") := by decide +kernel
    obtain rfl := Option.some.inj (hhub.symm.trans hmodel)
    have hdir' : ascii "h/models--o--m/snapshots/" ++ ascii "s" =
        ascii "h/models--o--m/snapshots/" ++ commit := hdir
    have hcommit : commit = ascii "s" := (List.append_cancel_left hdir').symm
    rw [hcommit] at href
    exact absurd href (by decide +kernel)

end Mlxd.Resolve
