import Mathlib.Data.List.Infix
import Mlxd.Json

/-!
# Model names and their cache directories

A model is named `org/name`, with an optional revision behind a colon, or by a local path. Its
directory in the cache is `org--name`, in the shared hub cache `models--org--name`. The listing
reads the name back from the first `--`, which is the separator unless the organisation ends
with a hyphen.
-/
namespace Mlxd.Registry

open Mlxd.Unicode
open Mlxd.Json (ascii)

/-! ## The environment and paths -/

/-- The environment variables the registry reads. -/
structure Env where
  mlxdCacheDir : Option Bytes
  mlxdHfHubDir : Option Bytes
  hfHome : Option Bytes
  home : Option Bytes

def SLASH : UInt8 := 0x2F
def COLON : UInt8 := 0x3A
def DASH : UInt8 := 0x2D

def regPathJoin (dir name : Bytes) : Bytes := dir ++ [SLASH] ++ name

/-- A variable that is set and not empty. -/
def nonempty (v : Option Bytes) : Option Bytes := v.filter (· ≠ [])

def regCacheRoot (env : Env) : Option Bytes :=
  match nonempty env.mlxdCacheDir with
  | some dir => some dir
  | none => env.home.map (· ++ ascii "/.cache/mlxd")

def regHfHubDir (env : Env) : Option Bytes :=
  match nonempty env.mlxdHfHubDir with
  | some dir => some dir
  | none =>
    match nonempty env.hfHome with
    | some dir => some (regPathJoin dir (ascii "hub"))
    | none => env.home.map fun home => regPathJoin home (ascii ".cache/huggingface/hub")

/-! ## Specifiers -/

/-- A parsed specifier: a model of the hub or a local path. -/
inductive RegSpec where
  | remote (org model : Bytes) (revision : Option Bytes)
  | localPath (path : Bytes)
  deriving DecidableEq, Repr

def regSpecCharOk (c : UInt8) : Bool :=
  (0x41 ≤ c && c ≤ 0x5A) || (0x61 ≤ c && c ≤ 0x7A) || (0x30 ≤ c && c ≤ 0x39) ||
    c == 0x2E || c == 0x5F || c == DASH

def regSpecCharsetOk (s : Bytes) : Bool := s.all regSpecCharOk

/-- The text behind the first colon: no revision, an unacceptable one (`none`), or that one. -/
def parseRevision (afterSlash : Bytes) : Option (Option Bytes) :=
  if COLON ∈ afterSlash then
    let rev := (afterSlash.dropWhile (· ≠ COLON)).drop 1
    if rev = [] then none
    else if regSpecCharsetOk rev then some (some rev)
    else none
  else some none

def regSpecParse (env : Env) (spec : Bytes) : Option RegSpec :=
  if spec = [] then none
  else if spec.head? = some 0x7E then
    if 1 < spec.length ∧ spec[1]? ≠ some SLASH then none
    else
      match nonempty env.home with
      | none => none
      | some home =>
        if spec.length = 1 then some (.localPath home)
        else some (.localPath (regPathJoin home (spec.drop 2)))
  else if spec.head? = some 0x2E ∨ spec.head? = some SLASH then some (.localPath spec)
  else if SLASH ∉ spec then none
  else
    let org := spec.takeWhile (· ≠ SLASH)
    let afterSlash := (spec.dropWhile (· ≠ SLASH)).drop 1
    if org = [] then none
    else if SLASH ∈ afterSlash then none
    else
      match parseRevision afterSlash with
      | none => none
      | some revision =>
        let model := afterSlash.takeWhile (· ≠ COLON)
        if model = [] then none
        else if regSpecCharsetOk org && regSpecCharsetOk model then
          some (.remote org model revision)
        else none

/-! ## Directories -/

def separator : Bytes := [DASH, DASH]

/-- The directory of a model inside the models directory. -/
def modelDirname (org model : Bytes) : Bytes := org ++ separator ++ model

def regModelCacheDir (env : Env) (org model : Bytes) : Option Bytes :=
  (regCacheRoot env).map fun root => root ++ ascii "/models/" ++ modelDirname org model

/-- The directory of a model inside the shared hub cache. -/
def hubDirname (org model : Bytes) : Bytes := ascii "models--" ++ modelDirname org model

/-- The position of the first occurrence. -/
def strstr (needle : Bytes) : Bytes → Option Nat
  | [] => if needle = [] then some 0 else none
  | b :: t =>
    if needle.isPrefixOf (b :: t) then some 0 else (strstr needle t).map (· + 1)

def idFromDirname (dirname : Bytes) : Option Bytes :=
  match strstr separator dirname with
  | none => none
  | some sep =>
    if sep = 0 then none
    else if dirname.drop (sep + 2) = [] then none
    else some (dirname.take sep ++ [SLASH] ++ dirname.drop (sep + 2))

def hubIdFromDirname (dirname : Bytes) : Option Bytes :=
  if (ascii "models--").isPrefixOf dirname then idFromDirname (dirname.drop 8) else none

/-- The name a model is listed by. -/
def modelId (org model : Bytes) : Bytes := org ++ [SLASH] ++ model

/-! ## The first separator -/

/-- A word is found at the first position where it stands. -/
theorem strstr_of_first {needle s : Bytes} {i : Nat} (hn : needle ≠ []) (hi : needle <+: s.drop i)
    (hfirst : ∀ j < i, ¬ needle <+: s.drop j) : strstr needle s = some i := by
  induction s generalizing i with
  | nil =>
    rw [List.drop_nil, List.prefix_nil] at hi
    exact absurd hi hn
  | cons b t ih =>
    rw [strstr]
    cases i with
    | zero => exact if_pos (List.isPrefixOf_iff_prefix.mpr hi)
    | succ i =>
      have hhead : ¬ needle <+: b :: t := hfirst 0 (Nat.zero_lt_succ i)
      rw [if_neg (by simpa using hhead),
        ih hi fun j hj => by simpa using hfirst (j + 1) (Nat.succ_lt_succ hj)]
      rfl

/-- The organisation contains no separator; ending with a hyphen it forms one with the
separator behind it. -/
def EndsWithDash (org : Bytes) : Prop := [DASH] <:+ org

instance (org : Bytes) : Decidable (EndsWithDash org) := inferInstanceAs (Decidable ([DASH] <:+ org))

theorem prefix_append_cases {a b : UInt8} {s t : Bytes} (h : [a, b] <+: s ++ t) (hs : s ≠ []) :
    [a, b] <+: s ∨ s = [a] ∧ [b] <+: t := by
  match s, hs with
  | [x], _ =>
    obtain ⟨rfl, ht⟩ := List.cons_prefix_cons.mp h
    exact .inr ⟨rfl, ht⟩
  | x :: y :: s, _ =>
    simp only [List.cons_append, List.cons_prefix_cons] at h
    exact .inl (by simp [h.1, h.2.1])

/-- Before its end, an organisation without a separator starts one only at a last hyphen. -/
theorem separator_inside {org rest : Bytes} (horg : ¬ separator <:+: org) {j : Nat}
    (hj : j < org.length) (h : separator <+: org.drop j ++ rest) : EndsWithDash org := by
  have hne : org.drop j ≠ [] := by simpa [List.drop_eq_nil_iff] using hj
  rcases prefix_append_cases h hne with hin | ⟨hlast, -⟩
  · exact absurd (hin.isInfix.trans (List.drop_suffix j org).isInfix) horg
  · have hsuffix := List.drop_suffix j org
    rwa [hlast] at hsuffix

theorem strstr_dirname {org model : Bytes} (horg : ¬ separator <:+: org)
    (hdash : ¬ EndsWithDash org) : strstr separator (modelDirname org model) = some org.length := by
  refine strstr_of_first (by decide) ?_ fun j hj hc => ?_
  · rw [modelDirname, List.append_assoc, List.drop_left]
    exact List.prefix_append _ _
  · rw [modelDirname, List.append_assoc, List.drop_append_of_le_length (Nat.le_of_lt hj)] at hc
    exact hdash (separator_inside horg hj hc)

/-- The last hyphen of the organisation is taken for the start of the separator. -/
theorem strstr_dirname_dash {org model : Bytes} (horg : ¬ separator <:+: org ++ [DASH]) :
    strstr separator (modelDirname (org ++ [DASH]) model) = some org.length := by
  have hsplit : modelDirname (org ++ [DASH]) model = org ++ (separator ++ ([DASH] ++ model)) := by
    simp [modelDirname, separator]
  rw [hsplit]
  refine strstr_of_first (by decide) ?_ fun j hj hc => ?_
  · rw [List.drop_left]
    exact List.prefix_append _ _
  · rw [List.drop_append_of_le_length (Nat.le_of_lt hj)] at hc
    have horg' : ¬ separator <:+: org := fun h => horg (h.trans (List.prefix_append _ _).isInfix)
    obtain ⟨o, rfl⟩ := separator_inside horg' hj hc
    exact horg ⟨o, [], by simp [separator]⟩

/-! ## Naming and listing -/

/-- What the listing makes of a model's directory: its name, unless the organisation ends with a
hyphen. -/
theorem idFromDirname_iff {org model : Bytes} (horg : ¬ separator <:+: org) (hne : org ≠ [])
    (hmodel : model ≠ []) :
    idFromDirname (modelDirname org model) = some (modelId org model) ↔ ¬ EndsWithDash org := by
  have hlen : separator.length = 2 := rfl
  constructor
  · rintro h ⟨o, rfl⟩
    rw [idFromDirname, strstr_dirname_dash horg] at h
    have hsplit : modelDirname (o ++ [DASH]) model = o ++ (separator ++ ([DASH] ++ model)) := by
      simp [modelDirname, separator]
    have hdrop : (modelDirname (o ++ [DASH]) model).drop (o.length + 2) = [DASH] ++ model := by
      rw [hsplit, ← hlen, ← List.append_assoc, ← List.length_append, List.drop_left]
    have htake : (modelDirname (o ++ [DASH]) model).take o.length = o := by
      rw [hsplit, List.take_left]
    simp only [hdrop, htake] at h
    split at h
    · contradiction
    · rw [if_neg (by simp), Option.some.injEq, modelId, List.append_assoc, List.append_assoc,
        List.append_assoc, List.append_cancel_left_eq] at h
      exact absurd (List.cons.inj h).1 (by decide)
  · intro hdash
    have hdrop : (modelDirname org model).drop (org.length + 2) = model := by
      rw [modelDirname, ← hlen, ← List.length_append, List.drop_left]
    have htake : (modelDirname org model).take org.length = org := by
      rw [modelDirname, List.append_assoc, List.take_left]
    rw [idFromDirname, strstr_dirname horg hdash]
    simp only [hdrop, htake]
    rw [if_neg (by simpa using hne), if_neg hmodel]
    rfl

theorem hubIdFromDirname_eq (org model : Bytes) :
    hubIdFromDirname (hubDirname org model) = idFromDirname (modelDirname org model) := by
  rw [hubIdFromDirname, hubDirname, if_pos (List.isPrefixOf_iff_prefix.mpr (List.prefix_append _ _))]
  rfl

/-- The parts of an accepted name are not empty. -/
theorem regSpecParse_remote {env : Env} {spec org model : Bytes} {revision : Option Bytes}
    (h : regSpecParse env spec = some (.remote org model revision)) :
    org ≠ [] ∧ model ≠ [] ∧ regSpecCharsetOk org = true ∧ regSpecCharsetOk model = true := by
  unfold regSpecParse at h
  split at h
  · contradiction
  · split at h
    · split at h
      · contradiction
      · split at h
        · contradiction
        · split at h <;> simp at h
    · split at h
      · simp at h
      · split at h
        · contradiction
        · dsimp only at h
          split at h
          · contradiction
          · split at h
            · contradiction
            · split at h
              · contradiction
              · split at h
                · contradiction
                · split at h
                  · rename_i horg _ _ _ _ hmodel hchars
                    simp only [Option.some.injEq, RegSpec.remote.injEq] at h
                    obtain ⟨rfl, rfl, -⟩ := h
                    rw [Bool.and_eq_true] at hchars
                    exact ⟨horg, hmodel, hchars.1, hchars.2⟩
                  · contradiction

theorem modelId_injective {org model org' model' : Bytes} (horg : regSpecCharsetOk org = true)
    (horg' : regSpecCharsetOk org' = true) (h : modelId org model = modelId org' model') :
    org = org' ∧ model = model' := by
  have hfree : ∀ o : Bytes, regSpecCharsetOk o = true → ∀ b ∈ o, b ≠ SLASH := by
    rintro o ho b hb rfl
    exact absurd (List.all_eq_true.mp ho _ hb) (by decide)
  have hcut : ∀ o m : Bytes, regSpecCharsetOk o = true →
      (modelId o m).takeWhile (· ≠ SLASH) = o := by
    intro o m ho
    rw [modelId, List.append_assoc, List.takeWhile_append_of_pos (by simpa using hfree o ho)]
    simp
  obtain rfl : org = org' := by rw [← hcut org model horg, h, hcut org' model' horg']
  refine ⟨rfl, ?_⟩
  rwa [modelId, modelId, List.append_cancel_left_eq] at h

section Names

variable {env : Env} {specA specB orgA modelA orgB modelB : Bytes} {revA revB : Option Bytes}

/-- Two models share a directory only when one of the organisations ends with a hyphen. -/
theorem modelDirname_injective (hA : ¬ separator <:+: orgA) (hB : ¬ separator <:+: orgB)
    (hdashA : ¬ EndsWithDash orgA) (hdashB : ¬ EndsWithDash orgB)
    (h : modelDirname orgA modelA = modelDirname orgB modelB) : orgA = orgB ∧ modelA = modelB := by
  have hlen := congrArg (strstr separator) h
  rw [strstr_dirname hA hdashA, strstr_dirname hB hdashB, Option.some.injEq] at hlen
  simp only [modelDirname, List.append_assoc] at h
  obtain ⟨rfl, hrest⟩ := List.append_inj h hlen
  exact ⟨rfl, by rwa [List.append_cancel_left_eq] at hrest⟩

/-- The directories of two accepted models are told apart and read back exactly when neither
organisation ends with a hyphen. -/
theorem names_faithful_iff (hA : regSpecParse env specA = some (.remote orgA modelA revA))
    (hB : regSpecParse env specB = some (.remote orgB modelB revB))
    (hsepA : ¬ separator <:+: orgA ∧ ¬ separator <:+: modelA)
    (hsepB : ¬ separator <:+: orgB ∧ ¬ separator <:+: modelB) :
    (modelId orgA modelA ≠ modelId orgB modelB →
        modelDirname orgA modelA ≠ modelDirname orgB modelB ∧
        ∀ dir, regModelCacheDir env orgA modelA = some dir →
          regModelCacheDir env orgB modelB ≠ some dir) ∧
      (idFromDirname (modelDirname orgA modelA) = some (modelId orgA modelA) ∧
        hubIdFromDirname (hubDirname orgA modelA) = some (modelId orgA modelA)) ∧
      (idFromDirname (modelDirname orgB modelB) = some (modelId orgB modelB) ∧
        hubIdFromDirname (hubDirname orgB modelB) = some (modelId orgB modelB)) ↔
    ¬ EndsWithDash orgA ∧ ¬ EndsWithDash orgB := by
  obtain ⟨horgA, hmodelA, hcharsA, -⟩ := regSpecParse_remote hA
  obtain ⟨horgB, hmodelB, hcharsB, -⟩ := regSpecParse_remote hB
  simp only [hubIdFromDirname_eq, and_self, idFromDirname_iff hsepA.1 horgA hmodelA,
    idFromDirname_iff hsepB.1 horgB hmodelB]
  refine ⟨fun h => h.2, fun h => ⟨fun hne => ?_, h⟩⟩
  have hdir : modelDirname orgA modelA ≠ modelDirname orgB modelB := fun heq => by
    obtain ⟨rfl, rfl⟩ := modelDirname_injective hsepA.1 hsepB.1 h.1 h.2 heq
    exact hne rfl
  refine ⟨hdir, fun dir hdirA hdirB => ?_⟩
  obtain ⟨root, hroot, rfl⟩ := Option.map_eq_some_iff.mp hdirA
  obtain ⟨root', hroot', heq⟩ := Option.map_eq_some_iff.mp hdirB
  obtain rfl : root = root' := Option.some.inj (hroot.symm.trans hroot')
  exact hdir (List.append_cancel_left heq).symm

end Names

def homeEnv : Env := ⟨none, none, none, some (ascii "/root")⟩

/-- Two models that only the place of a hyphen tells apart. -/
theorem names_faithful_iff_hyphen :
    (regSpecParse homeEnv (ascii "a/b-c") = some (.remote (ascii "a") (ascii "b-c") none) ∧
      regSpecParse homeEnv (ascii "a-b/c") = some (.remote (ascii "a-b") (ascii "c") none)) ∧
    modelDirname (ascii "a") (ascii "b-c") ≠ modelDirname (ascii "a-b") (ascii "c") ∧
    idFromDirname (modelDirname (ascii "a") (ascii "b-c")) = some (ascii "a/b-c") ∧
    idFromDirname (modelDirname (ascii "a-b") (ascii "c")) = some (ascii "a-b/c") := by
  have hA : regSpecParse homeEnv (ascii "a/b-c") =
      some (.remote (ascii "a") (ascii "b-c") none) := by decide
  have hB : regSpecParse homeEnv (ascii "a-b/c") =
      some (.remote (ascii "a-b") (ascii "c") none) := by decide
  have hfaithful := (names_faithful_iff hA hB (by decide) (by decide)).mpr (by decide)
  exact ⟨⟨hA, hB⟩, (hfaithful.1 (by decide)).1, hfaithful.2.1.1, hfaithful.2.2.1⟩

/-- Two accepted models with one directory, which is listed under one of their names. -/
theorem names_collide : ¬ ∀ env specA specB orgA modelA orgB modelB revA revB,
    regSpecParse env specA = some (.remote orgA modelA revA) →
    regSpecParse env specB = some (.remote orgB modelB revB) →
    ¬ separator <:+: orgA ∧ ¬ separator <:+: modelA →
    ¬ separator <:+: orgB ∧ ¬ separator <:+: modelB →
    (modelId orgA modelA ≠ modelId orgB modelB →
      ∀ dir, regModelCacheDir env orgA modelA = some dir →
        regModelCacheDir env orgB modelB ≠ some dir) ∧
      idFromDirname (modelDirname orgA modelA) = some (modelId orgA modelA) := by
  intro h
  have hdirs := (h homeEnv (ascii "a-/b") (ascii "a/-b") (ascii "a-") (ascii "b") (ascii "a")
    (ascii "-b") none none (by decide) (by decide) (by decide) (by decide)).1 (by decide)
  exact hdirs _ rfl (by decide)

end Mlxd.Registry
