import Mlxd.ForwardRun
import Mlxd.WeightsLoad

/-!
# The directories that load

What the files of a directory and the map merged from them have to be, with nothing said of the
order in which a map is iterated.
-/
namespace Mlxd.WeightsLoad

open Mlxd.Unicode Mlxd.Json Mlxd.Registry Mlxd.Resolve Mlxd.Model

/-! ## The files of a directory -/

/-- The names an index gives. -/
def Names (members : List (Bytes × Value)) (name : Bytes) : Prop :=
  ∃ m ∈ members, (getStr (some m.2)).map cstr = some name

/-- The names of the tensor files, and whether the index gives them. -/
inductive Listed (fs : FileSystem) (dir : Bytes) : List Bytes → Bool → Prop
  | index {members : List (Bytes × Value)} {names : List Bytes}
      (present : fs.mtime (indexPath dir) ≠ none)
      (map : weightMap fs dir = some (.obj members))
      (named : ∀ name, name ∈ names ↔ Names members name)
      (safe : ∀ name ∈ names, indexFileOk name = true) (once : names.Nodup)
      (nonempty : names ≠ []) :
      Listed fs dir names true
  | single (absent : fs.mtime (indexPath dir) = none)
      (regular : fs.regular (pathJoin dir (ascii "model.safetensors")) = true) :
      Listed fs dir [ascii "model.safetensors"] false
  | glob {entries names : List Bytes} (absent : fs.mtime (indexPath dir) = none)
      (irregular : fs.regular (pathJoin dir (ascii "model.safetensors")) = false)
      (opened : fs.entries dir = some entries)
      (found : names = entries.filter fun name => tensorFile name && fs.regular (pathJoin dir name))
      (nonempty : names ≠ []) : Listed fs dir names false

/-- The paths of the files in the order they are merged. -/
def sortedPaths (dir : Bytes) (names : List Bytes) : List Bytes :=
  (names.map (pathJoin dir)).mergeSort cmpStr

/-- The order of the entries does not survive sorting. -/
theorem mergeSort_congr {a b : List Bytes} (h : a.Perm b) :
    a.mergeSort cmpStr = b.mergeSort cmpStr := by
  have htrans : ∀ x y z : Bytes, cmpStr x y = true → cmpStr y z = true → cmpStr x z = true := by
    intro x y z hxy hyz
    rw [cmpStr, decide_eq_true_iff] at *
    exact List.le_trans hxy hyz
  have htotal : ∀ x y : Bytes, (cmpStr x y || cmpStr y x) = true := by
    intro x y
    rw [Bool.or_eq_true, cmpStr, cmpStr, decide_eq_true_iff, decide_eq_true_iff]
    exact List.le_total x y
  apply List.Perm.eq_of_pairwise _ (List.pairwise_mergeSort htrans htotal a)
    (List.pairwise_mergeSort htrans htotal b)
    ((List.mergeSort_perm a _).trans (h.trans (List.mergeSort_perm b _).symm))
  intro x y _ _ hxy hyx
  rw [cmpStr, decide_eq_true_iff] at hxy hyx
  exact List.le_antisymm hxy hyx

section Listing

variable {fs : FileSystem} {dir : Bytes}

theorem basename_pathJoin {name : Bytes} (h : SLASH ∉ name) : basename (pathJoin dir name) = name := by
  have hstop : (pathJoin dir name).reverse.takeWhile (· ≠ SLASH) = name.reverse := by
    rw [pathJoin, List.reverse_append, List.reverse_cons, List.append_assoc, List.takeWhile_append_of_pos]
    · simp
    · intro c hc
      rw [decide_eq_true_iff]
      rintro rfl
      exact h (List.mem_reverse.mp hc)
  rw [basename, hstop, List.reverse_reverse]

theorem indexFileOk_slash {name : Bytes} (h : indexFileOk name = true) : SLASH ∉ name := by
  simp only [indexFileOk, Bool.and_eq_true, Bool.not_eq_true', List.contains_eq_mem,
    decide_eq_false_iff_not] at h
  exact h.1.2

theorem names_cons {m : Bytes × Value} {rest : List (Bytes × Value)} {name : Bytes} :
    Names (m :: rest) name ↔ (getStr (some m.2)).map cstr = some name ∨ Names rest name := by
  simp only [Names, List.mem_cons, exists_eq_or_imp]

theorem any_basename {before : List Bytes} (hsafe : ∀ name ∈ before, indexFileOk name = true)
    (name : Bytes) :
    ((before.map (pathJoin dir)).any fun f => basename f == name) = true ↔ name ∈ before := by
  rw [List.any_map, List.any_eq_true]
  constructor
  · rintro ⟨n, hn, heq⟩
    rw [Function.comp_apply, basename_pathJoin (indexFileOk_slash (hsafe n hn)), beq_iff_eq] at heq
    rwa [← heq]
  · intro hn
    refine ⟨name, hn, ?_⟩
    rw [Function.comp_apply, basename_pathJoin (indexFileOk_slash (hsafe name hn)), beq_self_eq_true]

/-- The files found so far and those the rest of the index adds. -/
theorem indexFiles_safe (members : List (Bytes × Value))
    (hall : ∀ name, Names members name → indexFileOk name = true) :
    ∀ before : List Bytes, (∀ name ∈ before, indexFileOk name = true) → before.Nodup →
      ∃ names : List Bytes,
        indexFiles dir members (before.map (pathJoin dir)) = .ok (names.map (pathJoin dir)) ∧
          names.Nodup ∧ ∀ name, name ∈ names ↔ name ∈ before ∨ Names members name := by
  induction members with
  | nil =>
    intro before _ hnodup
    exact ⟨before, rfl, hnodup, fun name => by simp [Names]⟩
  | cons m rest ih =>
    intro before hsafe hnodup
    have hrest := ih fun name hname => hall name (names_cons.mpr (.inr hname))
    obtain ⟨key, val⟩ := m
    rw [indexFiles]
    cases hval : (getStr (some val)).map cstr with
    | none =>
      obtain ⟨names, hrun, hn, hmem⟩ := hrest before hsafe hnodup
      refine ⟨names, hrun, hn, fun name => ?_⟩
      simp [hmem, names_cons, hval]
    | some fname =>
      have hok : indexFileOk fname = true := hall fname (names_cons.mpr (.inl hval))
      by_cases hin : fname ∈ before
      · obtain ⟨names, hrun, hn, hmem⟩ := hrest before hsafe hnodup
        refine ⟨names, ?_, hn, fun name => ?_⟩
        · simp only [hok, not_true, ↓reduceIte, (any_basename hsafe fname).mpr hin, hrun]
        · simp only [hmem, names_cons, hval, Option.some.injEq]
          constructor
          · rintro (h | h)
            · exact .inl h
            · exact .inr (.inr h)
          · rintro (h | rfl | h)
            · exact .inl h
            · exact .inl hin
            · exact .inr h
      · have hany : ((before.map (pathJoin dir)).any fun f => basename f == fname) = false :=
          Bool.eq_false_iff.mpr (mt (any_basename hsafe fname).mp hin)
        obtain ⟨names, hrun, hn, hmem⟩ := hrest (before ++ [fname])
          (by simpa [or_imp, forall_and] using ⟨hsafe, hok⟩)
          (by simpa [List.nodup_append] using ⟨hnodup, fun a ha hne => hin (hne ▸ ha)⟩)
        rw [List.map_append, List.map_singleton] at hrun
        refine ⟨names, ?_, hn, fun name => ?_⟩
        · simp only [hok, not_true, ↓reduceIte, hany, Bool.false_eq_true, hrun]
        · simp only [hmem, names_cons, hval, Option.some.injEq, List.mem_append, List.mem_singleton,
            or_assoc, eq_comm]

/-- One name that is not allowed spoils the index. -/
theorem indexFiles_bad (members : List (Bytes × Value)) {name : Bytes}
    (hname : Names members name) (hbad : ¬ indexFileOk name = true) (files : List Bytes) :
    indexFiles dir members files = .error (-2) := by
  induction members generalizing files with
  | nil => simp [Names] at hname
  | cons m rest ih =>
    obtain ⟨key, val⟩ := m
    rw [indexFiles]
    cases hval : (getStr (some val)).map cstr with
    | none => exact ih ((names_cons.mp hname).resolve_left (by simp [hval])) files
    | some fname =>
      dsimp only
      split
      · rfl
      · rename_i hok
        have hne : ¬ (getStr (some val)).map cstr = some name := by
          rw [hval]
          rintro ⟨⟩
          exact hok hbad
        have hrest := ih ((names_cons.mp hname).resolve_left hne)
        split
        · exact hrest files
        · exact hrest _

/-- The index names allowed files only, or it is refused. -/
theorem indexFiles_cases (dir : Bytes) (members : List (Bytes × Value)) :
    (∃ names : List Bytes, indexFiles dir members [] = .ok (names.map (pathJoin dir)) ∧
      names.Nodup ∧ (∀ name, name ∈ names ↔ Names members name) ∧
        ∀ name ∈ names, indexFileOk name = true) ∨
      indexFiles dir members [] = .error (-2) ∧
        ∃ name, Names members name ∧ ¬ indexFileOk name = true := by
  by_cases hall : ∀ name, Names members name → indexFileOk name = true
  · obtain ⟨names, hfiles, hnodup, hmem⟩ := indexFiles_safe members hall []
      (fun _ hn => absurd hn List.not_mem_nil) List.nodup_nil
    have hnamed : ∀ name, name ∈ names ↔ Names members name := by simpa using hmem
    exact .inl ⟨names, hfiles, hnodup, hnamed, fun n hn => hall n ((hnamed n).mp hn)⟩
  · push Not at hall
    obtain ⟨name, hname, hbad⟩ := hall
    exact .inr ⟨indexFiles_bad members hname hbad [], name, hname, hbad⟩

theorem shardsFromIndex_absent (h : fs.mtime (indexPath dir) = none) :
    shardsFromIndex fs dir = .error 1 := if_pos h

theorem shardsFromIndex_members {members : List (Bytes × Value)}
    (hpresent : fs.mtime (indexPath dir) ≠ none)
    (hmap : weightMap fs dir = some (.obj members)) : shardsFromIndex fs dir =
      (indexFiles dir members [] >>= fun files =>
        if files = [] then .error (-2) else .ok (files.mergeSort cmpStr)) := by
  rw [shardsFromIndex, if_neg hpresent, hmap]

theorem shardsFromIndex_invalid (hpresent : fs.mtime (indexPath dir) ≠ none)
    (hmap : ∀ members, weightMap fs dir ≠ some (.obj members)) :
    shardsFromIndex fs dir = .error (-2) := by
  rw [shardsFromIndex, if_neg hpresent]
  split
  · rename_i members hmembers
    exact absurd hmembers (hmap members)
  · rfl

/-- An index that is there gives the listed files, or is refused when none are listed. -/
theorem shardsFromIndex_present (hpresent : fs.mtime (indexPath dir) ≠ none) :
    (∃ names, Listed fs dir names true ∧ shardsFromIndex fs dir = .ok (sortedPaths dir names)) ∨
      shardsFromIndex fs dir = .error (-2) ∧ ∀ names, ¬ Listed fs dir names true := by
  by_cases hmap : ∃ members, weightMap fs dir = some (.obj members)
  · obtain ⟨members, hmap⟩ := hmap
    rw [shardsFromIndex_members hpresent hmap]
    obtain ⟨names, hfiles, hnodup, hnamed, hsafe⟩ | ⟨herror, name, hname, hbad⟩ :=
      indexFiles_cases dir members
    · rw [hfiles]
      by_cases hne : names = []
      · subst hne
        refine .inr ⟨rfl, fun names hlisted => ?_⟩
        cases hlisted with
        | index _ hmap' hnamed' _ _ hne' =>
          obtain rfl := Value.obj.inj (Option.some.inj (hmap.symm.trans hmap'))
          obtain ⟨n, hn⟩ := List.exists_mem_of_ne_nil _ hne'
          exact absurd ((hnamed n).mpr ((hnamed' n).mp hn)) List.not_mem_nil
      · refine .inl ⟨names, .index hpresent hmap hnamed hsafe hnodup hne, ?_⟩
        simp only [bind, Except.bind, List.map_eq_nil_iff, hne, ↓reduceIte, sortedPaths]
    · rw [herror]
      refine .inr ⟨rfl, fun names hlisted => ?_⟩
      cases hlisted with
      | index _ hmap' hnamed' hsafe' =>
        obtain rfl := Value.obj.inj (Option.some.inj (hmap.symm.trans hmap'))
        exact hbad (hsafe' name ((hnamed' name).mpr hname))
  · push Not at hmap
    refine .inr ⟨shardsFromIndex_invalid hpresent hmap, fun names hlisted => ?_⟩
    cases hlisted with
    | index _ hmap' => exact hmap _ hmap'

/-- The names of an index make one list of paths, whatever their order. -/
theorem listed_index_unique {names names' : List Bytes} (h : Listed fs dir names true)
    (h' : Listed fs dir names' true) : sortedPaths dir names = sortedPaths dir names' := by
  cases h with
  | index _ hmap hnamed _ honce _ =>
    cases h' with
    | index _ hmap' hnamed' _ honce' _ =>
      obtain rfl := Value.obj.inj (Option.some.inj (hmap.symm.trans hmap'))
      have hperm : names.Perm names' := by
        rw [List.perm_ext_iff_of_nodup honce honce']
        exact fun name => (hnamed name).trans (hnamed' name).symm
      exact mergeSort_congr (hperm.map (pathJoin dir))

theorem shardsGlob_eq (fs : FileSystem) (dir : Bytes) : shardsGlob fs dir =
    match fs.entries dir with
    | none => .error (-1)
    | some entries =>
      let names := entries.filter fun name => tensorFile name && fs.regular (pathJoin dir name)
      if names = [] then .error (-1) else .ok (sortedPaths dir names) := by
  rw [shardsGlob]
  cases fs.entries dir with
  | none => rfl
  | some entries =>
    have hfiles : ((entries.filter tensorFile).map (pathJoin dir)).filter fs.regular =
        (entries.filter fun name => tensorFile name && fs.regular (pathJoin dir name)).map
          (pathJoin dir) := by
      rw [List.filter_map, List.filter_filter]
      exact congrArg _ (List.filter_congr fun name _ => Bool.and_comm _ _)
    simp only [hfiles, List.map_eq_nil_iff, sortedPaths]

theorem sortedPaths_singleton (name : Bytes) : sortedPaths dir [name] = [pathJoin dir name] :=
  List.mergeSort_singleton _

/-- What the enumeration finds are the listed files, sorted. -/
theorem enumerate_ok (paths : List Bytes) (fromIndex : Bool) :
    weightsEnumerateShards fs dir = .ok (paths, fromIndex) ↔
      ∃ names, Listed fs dir names fromIndex ∧ paths = sortedPaths dir names := by
  by_cases habsent : fs.mtime (indexPath dir) = none
  · rw [weightsEnumerateShards, shardsFromIndex_absent habsent, shardsSingle, shardsGlob_eq]
    simp only [show ¬ (1 : Int) = -2 by decide, ↓reduceIte]
    cases hsingle : fs.regular (pathJoin dir (ascii "model.safetensors")) with
    | true =>
      simp only [↓reduceIte, Except.ok.injEq, Prod.mk.injEq]
      constructor
      · rintro ⟨rfl, rfl⟩
        exact ⟨_, .single habsent hsingle, (sortedPaths_singleton _).symm⟩
      · rintro ⟨names, hlisted, rfl⟩
        cases hlisted with
        | index hpresent => exact absurd habsent hpresent
        | single => exact ⟨(sortedPaths_singleton _).symm, rfl⟩
        | glob _ hirregular => exact absurd (hsingle.symm.trans hirregular) (by decide)
    | false =>
      simp only [Bool.false_eq_true, ↓reduceIte]
      constructor
      · intro h
        cases hopened : fs.entries dir with
        | none =>
          rw [hopened] at h
          contradiction
        | some entries =>
          rw [hopened] at h
          dsimp only at h
          split_ifs at h with hne
          obtain ⟨rfl, rfl⟩ := Prod.mk.inj (Except.ok.inj h)
          exact ⟨_, .glob habsent hsingle hopened rfl hne, rfl⟩
      · rintro ⟨names, hlisted, rfl⟩
        cases hlisted with
        | index hpresent => exact absurd habsent hpresent
        | single _ hregular => exact absurd (hsingle.symm.trans hregular) (by decide)
        | glob _ _ hopened hfound hne =>
          subst hfound
          simp only [hopened, hne, ↓reduceIte]
  · have hfalse : ∀ names, Listed fs dir names fromIndex → fromIndex = true := by
      intro names hlisted
      cases hlisted with
      | index => rfl
      | single h => exact absurd h habsent
      | glob h => exact absurd h habsent
    rw [weightsEnumerateShards]
    obtain ⟨found, hfound, hrun⟩ | ⟨hrun, hnone⟩ := shardsFromIndex_present habsent
    · rw [hrun]
      simp only [Except.ok.injEq, Prod.mk.injEq]
      constructor
      · rintro ⟨rfl, rfl⟩
        exact ⟨found, hfound, rfl⟩
      · rintro ⟨names, hlisted, rfl⟩
        obtain rfl := hfalse names hlisted
        exact ⟨listed_index_unique hfound hlisted, rfl⟩
    · rw [hrun]
      simp only [↓reduceIte, reduceCtorEq, false_iff]
      rintro ⟨names, hlisted, rfl⟩
      obtain rfl := hfalse names hlisted
      exact hnone names hlisted

end Listing

/-! ## The merged map -/

section Merging

variable {W : Type} {L : Loader W}

def Has (merged : Params W) (key : Bytes) : Prop := key ∈ merged.map Prod.fst

instance (merged : Params W) (key : Bytes) : Decidable (Has merged key) :=
  inferInstanceAs (Decidable (_ ∈ _))

theorem mapHasKey_iff (merged : Params W) (key : Bytes) :
    mapHasKey merged key = true ↔ Has merged key := by
  rw [mapHasKey, List.lookup_isSome_iff, Has, List.mem_map]
  constructor
  · rintro ⟨e, he, hkey⟩
    exact ⟨e, he, (beq_iff_eq.mp hkey).symm⟩
  · rintro ⟨e, he, rfl⟩
    exact ⟨e, he, beq_self_eq_true _⟩

theorem has_lookup {merged : Params W} {key : Bytes} :
    Has merged key ↔ ∃ t, merged.lookup key = some t := by
  rw [← mapHasKey_iff, mapHasKey, Option.isSome_iff_exists]

/-- What the files hold, one after the other. -/
def contents (L : Loader W) (paths : List Bytes) : Params W := paths.flatMap fun path => (L.read path).getD []

/-- Every key comes once, and every insertion succeeds. -/
structure Disjoint (L : Loader W) (merged : Params W) : Prop where
  once : (merged.map Prod.fst).Nodup
  inserted : ∀ e ∈ merged, L.inserts e.1 = true

theorem Disjoint.left {a b : Params W} (h : Disjoint L (a ++ b)) : Disjoint L a := by
  have honce := h.once
  rw [List.map_append, List.nodup_append] at honce
  exact ⟨honce.1, fun e he => h.inserted e (List.mem_append_left _ he)⟩

theorem disjoint_snoc {dst : Params W} {key : Bytes} {val : Tensor W} :
    Disjoint L (dst ++ [(key, val)]) ↔ Disjoint L dst ∧ ¬ Has dst key ∧ L.inserts key = true := by
  constructor
  · intro h
    have honce := h.once
    rw [List.map_append, List.nodup_append] at honce
    have hnot : ¬ Has dst key := fun hin => honce.2.2 key hin key List.mem_cons_self rfl
    exact ⟨h.left, hnot, h.inserted (key, val) (by simp)⟩
  · rintro ⟨hdst, hnot, hins⟩
    constructor
    · rw [List.map_append, List.nodup_append]
      refine ⟨hdst.once, List.pairwise_singleton _ _, fun a ha b hb => ?_⟩
      obtain rfl := List.mem_singleton.mp hb
      rintro rfl
      exact hnot ha
    · intro e he
      rcases List.mem_append.mp he with he | he
      · exact hdst.inserted e he
      · rw [List.mem_singleton.mp he]
        exact hins

theorem mergeMap_ok (src : Params W) : ∀ dst merged : Params W, Disjoint L dst →
    (mergeMap L dst src = .ok merged ↔ merged = dst ++ src ∧ Disjoint L merged) := by
  induction src with
  | nil =>
    intro dst merged hdst
    rw [mergeMap, List.append_nil, Except.ok.injEq, eq_comm]
    constructor
    · rintro rfl
      exact ⟨rfl, hdst⟩
    · exact fun h => h.1
  | cons e rest ih =>
    obtain ⟨key, val⟩ := e
    intro dst merged hdst
    have hnext : dst ++ (key, val) :: rest = dst ++ [(key, val)] ++ rest := by simp
    by_cases hok : ¬ Has dst key ∧ L.inserts key = true
    · have hlookup : (dst.lookup key).isSome = false :=
        Bool.eq_false_iff.mpr (mt (mapHasKey_iff dst key).mp hok.1)
      rw [hnext, mergeMap]
      simp only [hlookup, hok.2, Bool.false_eq_true, not_true, ↓reduceIte]
      exact ih _ _ (disjoint_snoc.mpr ⟨hdst, hok⟩)
    · constructor
      · intro h
        rw [mergeMap] at h
        split_ifs at h with hin hins
        exact absurd ⟨fun hhas => hin ((mapHasKey_iff dst key).mpr hhas), hins⟩ hok
      · rintro ⟨rfl, hdisjoint⟩
        rw [hnext] at hdisjoint
        exact absurd (disjoint_snoc.mp hdisjoint.left).2 hok

/-- The files can be read. -/
def Readable (L : Loader W) (paths : List Bytes) : Prop :=
  ∀ path ∈ paths, L.fs.regular path = true ∧ (L.read path).isSome

theorem mergeShards_ok (paths : List Bytes) : ∀ before merged : Params W, Disjoint L before →
    (mergeShards L before paths = .ok merged ↔
      Readable L paths ∧ merged = before ++ contents L paths ∧ Disjoint L merged) := by
  induction paths with
  | nil =>
    intro before merged hbefore
    simp only [mergeShards, Except.ok.injEq, Readable, contents, List.flatMap_nil, List.append_nil]
    constructor
    · rintro rfl
      exact ⟨fun _ h => absurd h List.not_mem_nil, rfl, hbefore⟩
    · exact fun h => h.2.1.symm
  | cons path rest ih =>
    intro before merged hbefore
    have hreadable : Readable L (path :: rest) ↔
        L.fs.regular path = true ∧ (L.read path).isSome ∧ Readable L rest := by
      simp only [Readable, List.mem_cons, forall_eq_or_imp, and_assoc]
    rw [mergeShards, hreadable]
    by_cases hregular : L.fs.regular path = true
    · cases hread : L.read path with
      | none => simp [hregular]
      | some params =>
        have hcontents : contents L (path :: rest) = params ++ contents L rest := by
          simp [contents, hread]
        have hmerge := fun m => mergeMap_ok params before m hbefore
        simp only [hregular, not_true, ↓reduceIte, Option.isSome_some, true_and]
        rw [hcontents, ← List.append_assoc]
        cases hrun : mergeMap L before params with
        | error rc =>
          have hspoilt : ∀ m, ¬ (m = before ++ params ∧ Disjoint L m) := by
            intro m hm
            have hok := (hmerge m).mpr hm
            rw [hrun] at hok
            contradiction
          cases rc <;> simp only [reduceCtorEq, false_iff] <;> rintro ⟨-, rfl, hdisjoint⟩ <;>
            exact hspoilt _ ⟨rfl, hdisjoint.left⟩
        | ok next =>
          obtain ⟨rfl, hnext⟩ := (hmerge next).mp hrun
          exact ih _ _ hnext
    · simp [hregular]

end Merging

/-! ## Validation -/

theorem bind_ok {ε α β : Type} {m : Except ε α} {f : α → Except ε β} {b : β} :
    (m >>= f) = .ok b ↔ ∃ a, m = .ok a ∧ f a = .ok b := by
  cases m with
  | error e => simp [bind, Except.bind]
  | ok a => simp [bind, Except.bind]

/-- A check in front of the rest. -/
theorem check_ok {ε β : Type} {m : Except ε Unit} {next : Except ε β} {b : β} :
    (m >>= fun _ => next) = .ok b ↔ m = .ok () ∧ next = .ok b := by
  rw [bind_ok]
  exact ⟨fun ⟨_, h⟩ => h, fun h => ⟨(), h⟩⟩

theorem forM_ok {ε α : Type} {check : α → Except ε Unit} (l : List α) :
    l.forM check = .ok () ↔ ∀ a ∈ l, check a = .ok () := by
  induction l with
  | nil => simp [pure, Except.pure]
  | cons a rest ih =>
    rw [List.forM, check_ok, ih]
    simp only [List.mem_cons, forall_eq_or_imp]

/-- A tensor of the expected set, with its scales and biases when it is quantized. -/
def Supplied (merged : TensorMap) (quantBits : Int) (e : WeightExpected) : Prop :=
  (∃ dt, merged e.key = some dt ∧ dtypeIsFloating dt = true) ∨
    ((e.kind = .embed ∨ e.kind = .matmul) ∧ merged e.key = some .uint32 ∧ 0 < quantBits ∧
      (∃ dt, merged (dotScales e.name) = some dt ∧ dtypeIsFloating dt = true) ∧
      ∃ dt, merged (dotBiases e.name) = some dt ∧ dtypeIsFloating dt = true)

theorem validateFloat_ok (merged : TensorMap) (what : String) (name : Bytes) :
    validateFloat merged what name = .ok () ↔
      ∃ dt, merged name = some dt ∧ dtypeIsFloating dt = true := by
  rw [validateFloat]
  cases merged name with
  | none => simp
  | some dt => cases hdt : dtypeIsFloating dt <;> simp [hdt]

theorem validateQuantized_ok (merged : TensorMap) (base : Bytes) :
    validateQuantized merged base = .ok () ↔
      (∃ dt, merged (dotScales base) = some dt ∧ dtypeIsFloating dt = true) ∧
        ∃ dt, merged (dotBiases base) = some dt ∧ dtypeIsFloating dt = true := by
  rw [validateQuantized, ← dotScales, ← dotBiases]
  cases merged (dotScales base) with
  | none => simp
  | some sdt =>
    cases merged (dotBiases base) with
    | none => simp
    | some bdt =>
      cases hs : dtypeIsFloating sdt <;> cases hb : dtypeIsFloating bdt <;> simp [hs, hb]

theorem validateOne_ok (merged : TensorMap) (cfg : ModelConfig) (e : WeightExpected) :
    validateOne merged cfg e = .ok () ↔ Supplied merged cfg.quantBits e := by
  obtain ⟨name, kind⟩ := e
  have hweight : ∀ k : WeightKind, k = .embed ∨ k = .matmul →
      (validateOne merged cfg ⟨name, k⟩ = .ok () ↔ Supplied merged cfg.quantBits ⟨name, k⟩) := by
    intro k hk
    have hkey : WeightExpected.key ⟨name, k⟩ = dotWeight name := by
      rcases hk with rfl | rfl <;> rfl
    have hone : validateOne merged cfg ⟨name, k⟩ =
        validateOne merged cfg ⟨name, .matmul⟩ := by
      rcases hk with rfl | rfl <;> rfl
    rw [Supplied, hkey, hone, validateOne]
    dsimp only
    cases hdt : merged (dotWeight name) with
    | none => simp
    | some dt =>
      by_cases hu : dt = .uint32
      · subst hu
        by_cases hbits : cfg.quantBits ≤ 0
        · simp [hbits, dtypeIsFloating, Int.not_lt.mpr hbits]
        · simp [hbits, dtypeIsFloating, validateQuantized_ok, hk, Int.not_le.mp hbits]
      · cases hf : dtypeIsFloating dt <;> cases dt <;> simp_all [dtypeIsFloating]
  cases kind with
  | embed => exact hweight _ (.inl rfl)
  | matmul => exact hweight _ (.inr rfl)
  | norm => simp [validateOne, validateFloat_ok, Supplied, WeightExpected.key]
  | bias => simp [validateOne, validateFloat_ok, Supplied, WeightExpected.key]
  | bare => simp [validateOne, validateFloat_ok, Supplied, WeightExpected.key]

theorem validateExpected_ok (merged : TensorMap) (cfg : ModelConfig)
    (expected : List WeightExpected) :
    weightsValidateExpected merged cfg expected = .ok () ↔
      ∀ e ∈ expected, Supplied merged cfg.quantBits e := by
  induction expected with
  | nil => simp [weightsValidateExpected]
  | cons e rest ih =>
    rw [weightsValidateExpected, check_ok, validateOne_ok, ih]
    simp only [List.mem_cons, forall_eq_or_imp]

/-- What triplets are looked for by. -/
def Stem (base : Bytes) : Prop := base ≠ [] ∧ base.length < NAME_SIZE

theorem tripletBase_iff {suffix key base : Bytes} (hsuffix : suffix.length = 7) :
    tripletBase suffix key = some base ↔ key = base ++ suffix ∧ Stem base := by
  rw [tripletBase]
  constructor
  · intro h
    split_ifs at h with hkey
    obtain ⟨hlong, hend, hfits⟩ := hkey
    obtain rfl := Option.some.inj h
    refine ⟨?_, ?_, ?_⟩
    · rw [← hend, List.take_append_drop]
    · intro hnil
      have hlen := congrArg List.length hnil
      rw [List.length_take, List.length_nil] at hlen
      omega
    · rw [List.length_take]
      omega
  · rintro ⟨rfl, hne, hfits⟩
    have hpos := List.length_pos_iff.mpr hne
    rw [List.length_append, hsuffix, Nat.add_sub_cancel, List.drop_left, List.take_left,
      if_pos ⟨by omega, rfl, hfits⟩]

section Validation

variable {W : Type} {L : Loader W} {merged : Params W} {cfg : ModelConfig}

/-- With quantization every scaled weight is of packed integers. -/
def Packed (merged : Params W) (base : Bytes) : Prop :=
  Has merged (dotScales base) → ∀ t, merged.lookup (dotWeight base) = some t → t.dtype = .uint32

/-- What validation asks of the map. -/
structure Complete (L : Loader W) (dir : Bytes) (cfg : ModelConfig) (fromIndex : Bool)
    (merged : Params W) : Prop where
  declared : fromIndex = true → L.keysRead = true →
    ∀ members, weightMap L.fs dir = some (.obj members) → ∀ m ∈ members, Has merged (cstr m.1)
  layers : ∀ i < cfg.numHiddenLayers,
    ∃ key, Has merged key ∧ tensorText cfg (some i) [] <+: key
  embed : 0 < cfg.numHiddenLayers → Has merged (tensorText cfg none (ascii "embed_tokens.weight"))
  packed : 0 < cfg.quantBits → ∀ base, Stem base → Packed merged base
  quantized : 0 < cfg.quantBits →
    ∃ base, Stem base ∧ Has merged (dotScales base) ∧ Has merged (dotWeight base)
  triplets : ∀ base, Stem base → Has merged (dotScales base) ∨ Has merged (dotBiases base) →
    Has merged (dotWeight base) ∧ Has merged (dotScales base) ∧ Has merged (dotBiases base)
  expected : ∀ e ∈ weightsExpectedNames cfg, Supplied (dtypes merged) cfg.quantBits e

theorem mem_order {e : Bytes × Tensor W} : e ∈ L.order merged ↔ e ∈ merged :=
  (L.order_perm merged).mem_iff

theorem mapHasPrefix_iff (stem : Bytes) :
    mapHasPrefix L merged stem = true ↔ ∃ key, Has merged key ∧ stem <+: key := by
  rw [mapHasPrefix, List.any_eq_true]
  simp only [mem_order, List.isPrefixOf_iff_prefix, Has, List.mem_map]
  constructor
  · rintro ⟨e, he, hstem⟩
    exact ⟨e.1, ⟨e, he, rfl⟩, hstem⟩
  · rintro ⟨key, ⟨e, he, rfl⟩, hstem⟩
    exact ⟨e, he, hstem⟩

theorem checkDeclared_ok (key : Bytes) :
    checkDeclared merged key = .ok () ↔ Has merged key := by
  rw [checkDeclared, ← mapHasKey_iff]
  split <;> simp_all

theorem checkLayer_ok {i : Nat} (hi : i < cfg.numHiddenLayers) :
    checkLayer L merged cfg i = .ok () ↔
      ∃ key, Has merged key ∧ tensorText cfg (some i) [] <+: key := by
  have hfits : (tensorText cfg (some i) []).length + 7 < NAME_SIZE :=
    tensorText_fits (inLayers_some hi) (Nat.zero_le _)
  rw [checkLayer, if_neg (by omega), ← mapHasPrefix_iff (L := L)]
  split <;> simp_all

theorem checkEmbed_ok : checkEmbed merged cfg = .ok () ↔
    (0 < cfg.numHiddenLayers → Has merged (tensorText cfg none (ascii "embed_tokens.weight"))) := by
  have hfits : (tensorText cfg none (ascii "embed_tokens.weight")).length + 7 < NAME_SIZE :=
    tensorText_fits (inLayers_none cfg) (by decide)
  rw [checkEmbed, ← mapHasKey_iff]
  by_cases hzero : cfg.numHiddenLayers = 0
  · simp [hzero]
  · rw [if_neg (by omega)]
    split <;> simp_all [Nat.pos_iff_ne_zero]

/-- An entry that has scales before a weight. -/
def Scaled (merged : Params W) (key base : Bytes) : Prop :=
  tripletBase (ascii ".scales") key = some base ∧ Has merged (dotWeight base)

theorem quantScan_ok (l : Params W) : ∀ found result : Bool,
    quantScan merged l found = .ok result ↔
      (∀ e ∈ l, ∀ base, tripletBase (ascii ".scales") e.1 = some base →
        ∀ t, merged.lookup (dotWeight base) = some t → t.dtype = .uint32) ∧
      (result = true ↔ found = true ∨ ∃ e ∈ l, ∃ base, Scaled merged e.1 base) := by
  induction l with
  | nil =>
    intro found result
    cases found <;> cases result <;> simp [quantScan]
  | cons e rest ih =>
    obtain ⟨key, t⟩ := e
    intro found result
    simp only [List.mem_cons, forall_eq_or_imp, exists_eq_or_imp, Scaled, has_lookup]
    rw [quantScan]
    cases hbase : tripletBase (ascii ".scales") key with
    | none => simp [ih, Scaled, has_lookup]
    | some base =>
      dsimp only
      cases hweight : merged.lookup (dotWeight base) with
      | none => simp [ih, Scaled, has_lookup, hweight]
      | some t =>
        by_cases hu : t.dtype = .uint32
        · simp [ih, Scaled, has_lookup, hweight, hu]
        · simp [hweight, hu]

theorem tripletBase_scales {key base : Bytes} :
    tripletBase (ascii ".scales") key = some base ↔ key = dotScales base ∧ Stem base :=
  tripletBase_iff (by decide)

theorem tripletBase_biases {key base : Bytes} :
    tripletBase (ascii ".biases") key = some base ↔ key = dotBiases base ∧ Stem base :=
  tripletBase_iff (by decide)

theorem exists_key {p : Bytes → Prop} :
    (∃ e ∈ L.order merged, p e.1) ↔ ∃ key, Has merged key ∧ p key := by
  simp only [mem_order, Has, List.mem_map]
  constructor
  · rintro ⟨e, he, hp⟩
    exact ⟨e.1, ⟨e, he, rfl⟩, hp⟩
  · rintro ⟨key, ⟨e, he, rfl⟩, hp⟩
    exact ⟨e, he, hp⟩

theorem forall_key {p : Bytes → Prop} :
    (∀ e ∈ L.order merged, p e.1) ↔ ∀ key, Has merged key → p key := by
  simp only [mem_order, Has, List.mem_map]
  constructor
  · rintro h key ⟨e, he, rfl⟩
    exact h e he
  · exact fun h e he => h e.1 ⟨e, he, rfl⟩

theorem checkQuantized_ok : checkQuantized L merged cfg = .ok () ↔
    (0 < cfg.quantBits → (∀ base, Stem base → Packed merged base) ∧
      ∃ base, Stem base ∧ Has merged (dotScales base) ∧ Has merged (dotWeight base)) := by
  have hpacked : (∀ e ∈ L.order merged, ∀ base, tripletBase (ascii ".scales") e.1 = some base →
      ∀ t, merged.lookup (dotWeight base) = some t → t.dtype = .uint32) ↔
      ∀ base, Stem base → Packed merged base := by
    rw [forall_key (p := fun key => ∀ base, tripletBase (ascii ".scales") key = some base →
      ∀ t, merged.lookup (dotWeight base) = some t → t.dtype = .uint32)]
    simp only [tripletBase_scales]
    constructor
    · exact fun h base hstem hscales => h _ hscales base ⟨rfl, hstem⟩
    · rintro h key hkey base ⟨rfl, hstem⟩
      exact h base hstem hkey
  have hfound : (∃ e ∈ L.order merged, ∃ base, Scaled merged e.1 base) ↔
      ∃ base, Stem base ∧ Has merged (dotScales base) ∧ Has merged (dotWeight base) := by
    rw [exists_key (p := fun key => ∃ base, Scaled merged key base)]
    simp only [Scaled, tripletBase_scales]
    constructor
    · rintro ⟨key, hkey, base, ⟨rfl, hstem⟩, hweight⟩
      exact ⟨base, hstem, hkey, hweight⟩
    · rintro ⟨base, hstem, hscales, hweight⟩
      exact ⟨_, hscales, base, ⟨rfl, hstem⟩, hweight⟩
  rw [checkQuantized]
  by_cases hbits : cfg.quantBits ≤ 0
  · simp [hbits, Int.not_lt.mpr hbits]
  · rw [if_neg hbits, bind_ok, ← hpacked, ← hfound]
    simp only [quantScan_ok, Bool.false_eq_true, false_or]
    constructor
    · rintro ⟨found, ⟨hall, hiff⟩, hlast⟩ -
      cases found with
      | true => exact ⟨hall, hiff.mp rfl⟩
      | false => exact absurd hlast (by simp)
    · intro h
      obtain ⟨hall, hsome⟩ := h (Int.not_le.mp hbits)
      exact ⟨true, ⟨hall, ⟨fun _ => hsome, fun _ => rfl⟩⟩, rfl⟩

theorem checkSiblings_ok (suffix other base : Bytes) :
    checkSiblings merged suffix other base = .ok () ↔
      Has merged (dotWeight base) ∧ Has merged (base ++ other) := by
  rw [checkSiblings, ← mapHasKey_iff, ← mapHasKey_iff]
  split_ifs <;> simp_all

theorem checkOrphan_ok (key : Bytes) : checkOrphan merged key = .ok () ↔
    (∀ base, key = dotScales base ∧ Stem base →
      Has merged (dotWeight base) ∧ Has merged (dotBiases base)) ∧
    ∀ base, key = dotBiases base ∧ Stem base →
      Has merged (dotWeight base) ∧ Has merged (dotScales base) := by
  simp only [← tripletBase_scales, ← tripletBase_biases]
  rw [checkOrphan]
  cases hs : tripletBase (ascii ".scales") key with
  | some base =>
    have hb : ∀ base, tripletBase (ascii ".biases") key ≠ some base := by
      intro base' hb
      have hkey := (tripletBase_scales.mp hs).1
      rw [(tripletBase_biases.mp hb).1] at hkey
      exact absurd (List.append_inj_right' hkey (by decide)) (by decide)
    simp [checkSiblings_ok, hb, dotBiases]
  | none =>
    cases hb : tripletBase (ascii ".biases") key with
    | some base => simp [checkSiblings_ok, dotScales]
    | none => simp

theorem triplets_iff : (∀ e ∈ L.order merged, checkOrphan merged e.1 = .ok ()) ↔
    ∀ base, Stem base → Has merged (dotScales base) ∨ Has merged (dotBiases base) →
      Has merged (dotWeight base) ∧ Has merged (dotScales base) ∧ Has merged (dotBiases base) := by
  rw [forall_key (p := fun key => checkOrphan merged key = .ok ())]
  simp only [checkOrphan_ok]
  constructor
  · rintro h base hstem (hs | hb)
    · obtain ⟨hweight, hbiases⟩ := (h _ hs).1 base ⟨rfl, hstem⟩
      exact ⟨hweight, hs, hbiases⟩
    · obtain ⟨hweight, hscales⟩ := (h _ hb).2 base ⟨rfl, hstem⟩
      exact ⟨hweight, hscales, hb⟩
  · intro h key hkey
    constructor
    · rintro base ⟨rfl, hstem⟩
      obtain ⟨hweight, -, hbiases⟩ := h base hstem (.inl hkey)
      exact ⟨hweight, hbiases⟩
    · rintro base ⟨rfl, hstem⟩
      obtain ⟨hweight, hscales, -⟩ := h base hstem (.inr hkey)
      exact ⟨hweight, hscales⟩

theorem checkExpected_ok : checkExpected merged cfg = .ok () ↔
    ∀ e ∈ weightsExpectedNames cfg, Supplied (dtypes merged) cfg.quantBits e := by
  rw [checkExpected, ← validateExpected_ok]
  split <;> simp_all

/-- The keys of an index that is not read are not asked for. -/
theorem indexKeys_forall (dir : Bytes) (fromIndex : Bool) (p : Bytes → Prop) :
    (∀ key ∈ (if fromIndex then readIndexKeys L dir else none).getD [], p key) ↔
      (fromIndex = true → L.keysRead = true →
        ∀ members, weightMap L.fs dir = some (.obj members) → ∀ m ∈ members, p (cstr m.1)) := by
  cases fromIndex with
  | false => simp
  | true =>
    rw [if_pos rfl, readIndexKeys]
    split
    · rename_i members hmap
      cases L.keysRead with
      | false => simp
      | true => simp only [↓reduceIte, Option.getD_some, List.forall_mem_map, hmap, Option.some.injEq,
          Value.obj.injEq, forall_eq', forall_const]
    · rename_i hmap
      simp only [Option.getD_none, List.not_mem_nil, IsEmpty.forall_iff, implies_true, true_iff]
      exact fun _ _ members hmembers => absurd hmembers (hmap members)

theorem weightsValidate_ok (dir : Bytes) (fromIndex : Bool) :
    weightsValidate L merged cfg (if fromIndex then readIndexKeys L dir else none) = .ok () ↔
      Complete L dir cfg fromIndex merged := by
  have hlayers : (∀ i ∈ List.range cfg.numHiddenLayers, checkLayer L merged cfg i = .ok ()) ↔
      ∀ i < cfg.numHiddenLayers, ∃ key, Has merged key ∧ tensorText cfg (some i) [] <+: key := by
    simp only [List.mem_range]
    exact forall_congr' fun i => forall_congr' fun hi => checkLayer_ok hi
  rw [weightsValidate]
  simp only [check_ok, forM_ok, checkDeclared_ok, checkEmbed_ok, checkQuantized_ok, checkExpected_ok,
    indexKeys_forall, hlayers, triplets_iff]
  constructor
  · rintro ⟨hdeclared, hlayers, hembed, hquant, htriplets, hexpected⟩
    exact ⟨hdeclared, hlayers, hembed, fun h => (hquant h).1, fun h => (hquant h).2, htriplets,
      hexpected⟩
  · rintro ⟨hdeclared, hlayers, hembed, hpacked, hquantized, htriplets, hexpected⟩
    exact ⟨hdeclared, hlayers, hembed, fun h => ⟨hpacked h, hquantized h⟩, htriplets, hexpected⟩

end Validation

/-! ## The load -/

section Load

variable {W : Type} (L : Loader W) (dir : Bytes) (cfg : ModelConfig)

theorem mapStats_eq (params : Params W) :
    mapStats L params = (params.length, (params.map fun e => e.2.bytes).sum) := by
  have hfold : ∀ (l : Params W) (acc : Nat × Nat),
      l.foldl (fun acc e => (acc.1 + 1, acc.2 + e.2.bytes)) acc =
        (acc.1 + l.length, acc.2 + (l.map fun e => e.2.bytes).sum) := by
    intro l
    induction l with
    | nil => simp
    | cons e rest ih =>
      intro acc
      rw [List.foldl_cons, ih, List.length_cons, List.map_cons, List.sum_cons, Nat.add_assoc,
        Nat.add_assoc, Nat.add_comm 1]
  rw [mapStats, hfold, Nat.zero_add, Nat.zero_add, (L.order_perm params).length_eq,
    ((L.order_perm params).map _).sum_nat]

/-- A directory with a sound set of files, and what is loaded from it. -/
structure Accepted (names : List Bytes) (fromIndex : Bool) (w : Weights W) : Prop where
  implemented : deepseekLabel cfg.family = none
  listed : Listed L.fs dir names fromIndex
  readable : Readable L (sortedPaths dir names)
  merged : w.params = contents L (sortedPaths dir names)
  disjoint : Disjoint L w.params
  complete : Complete L dir cfg fromIndex w.params
  count : w.count = w.params.length
  totalBytes : w.totalBytes = (w.params.map fun e => e.2.bytes).sum

theorem disjoint_nil : Disjoint L [] := ⟨List.nodup_nil, fun _ h => absurd h List.not_mem_nil⟩

theorem weightsLoad_ok (w : Weights W) :
    weightsLoad L dir cfg = .ok w ↔ ∃ names fromIndex, Accepted L dir cfg names fromIndex w := by
  rw [weightsLoad]
  cases himpl : deepseekLabel cfg.family with
  | some label =>
    simp only [reduceCtorEq, false_iff]
    rintro ⟨names, fromIndex, haccepted⟩
    rw [haccepted.implemented] at himpl
    contradiction
  | none =>
    constructor
    · intro h
      cases henum : weightsEnumerateShards L.fs dir with
      | error rc =>
        rw [henum] at h
        contradiction
      | ok found =>
        obtain ⟨paths, fromIndex⟩ := found
        obtain ⟨names, hlisted, rfl⟩ := (enumerate_ok paths fromIndex).mp henum
        simp only [henum, bind_ok] at h
        obtain ⟨merged, hmerge, ⟨⟩, hvalid, hw⟩ := h
        obtain ⟨hreadable, hcontents, hdisjoint⟩ :=
          (mergeShards_ok _ _ _ (disjoint_nil L)).mp hmerge
        obtain rfl := Except.ok.inj hw
        rw [mapStats_eq]
        exact ⟨names, fromIndex, himpl, hlisted, hreadable, hcontents, hdisjoint,
          (weightsValidate_ok dir fromIndex).mp hvalid, rfl, rfl⟩
    · rintro ⟨names, fromIndex, haccepted⟩
      obtain ⟨merged, count, totalBytes⟩ := w
      have henum := (enumerate_ok _ _).mpr ⟨names, haccepted.listed, rfl⟩
      have hmerge := (mergeShards_ok _ [] merged (disjoint_nil L)).mpr
        ⟨haccepted.readable, haccepted.merged, haccepted.disjoint⟩
      have hvalid := (weightsValidate_ok dir fromIndex).mpr haccepted.complete
      have hstats : mapStats L merged = (count, totalBytes) := by
        rw [mapStats_eq]
        exact Prod.ext haccepted.count.symm haccepted.totalBytes.symm
      simp only [henum, bind_ok]
      exact ⟨merged, hmerge, (), hvalid, by rw [hstats]; rfl⟩

/-- A directory loads exactly when it is accepted, and in whatever order maps are iterated the same
weights come out. -/
theorem weightsLoad_iff (w : Weights W) :
    (weightsLoad L dir cfg = .ok w ↔ ∃ names fromIndex, Accepted L dir cfg names fromIndex w) ∧
      ∀ (order : Params W → Params W) (hperm : ∀ params, (order params).Perm params),
        weightsLoad { L with order := order, order_perm := hperm } dir cfg = .ok w ↔
          weightsLoad L dir cfg = .ok w := by
  refine ⟨weightsLoad_ok L dir cfg w, fun order hperm => ?_⟩
  rw [weightsLoad_ok, weightsLoad_ok]
  have hsame : ∀ names fromIndex,
      Accepted { L with order := order, order_perm := hperm } dir cfg names fromIndex w ↔
        Accepted L dir cfg names fromIndex w := by
    intro names fromIndex
    constructor
    · rintro ⟨himpl, hlisted, hreadable, hmerged, ⟨honce, hins⟩, hcomplete, hcount, hbytes⟩
      exact ⟨himpl, hlisted, hreadable, hmerged, ⟨honce, hins⟩,
        ⟨hcomplete.1, hcomplete.2, hcomplete.3, hcomplete.4, hcomplete.5, hcomplete.6, hcomplete.7⟩,
        hcount, hbytes⟩
    · rintro ⟨himpl, hlisted, hreadable, hmerged, ⟨honce, hins⟩, hcomplete, hcount, hbytes⟩
      exact ⟨himpl, hlisted, hreadable, hmerged, ⟨honce, hins⟩,
        ⟨hcomplete.1, hcomplete.2, hcomplete.3, hcomplete.4, hcomplete.5, hcomplete.6, hcomplete.7⟩,
        hcount, hbytes⟩
  simp only [hsame]

/-! ## Looking a triplet up -/

section Lookup

open Mlxd.Lib Mlxd.Forward Mlxd.KvCache

variable {L dir cfg} {M : Mlx} {em : EngineModel M W} {w : Weights W}

/-- The model holds the loaded tensors. -/
def Holds (em : EngineModel M W) (w : Weights W) : Prop :=
  ∀ name, em.weights name = (w.params.lookup name).map (·.array)

theorem holds_some {name : Bytes} {t : Tensor W} (hem : Holds em w)
    (h : w.params.lookup name = some t) : em.weights name = some t.array := by
  rw [hem, h, Option.map_some]

theorem holds_none {name : Bytes} (hem : Holds em w) (h : ¬ Has w.params name) :
    em.weights name = none := by
  have hlookup : w.params.lookup name = none := by
    rw [Option.eq_none_iff_forall_ne_some]
    exact fun t ht => h (has_lookup.mpr ⟨t, ht⟩)
  rw [hem, hlookup, Option.map_none]

theorem weightsGetTriplet_none {base : Bytes} (o : Outcomes) (hem : Holds em w)
    (h : ¬ Has w.params (dotWeight base)) : weightsGetTriplet em base o = none := by
  rw [weightsGetTriplet]
  split
  · rfl
  · simp only [weightsGet, holds_none hem h]
    rfl

section Found

variable {base : Bytes} {t : Tensor W} (o : Outcomes) (hem : Holds em w)
  (hfits : (dotWeight base).length < NAME_SIZE) (hweight : w.params.lookup (dotWeight base) = some t)

include hem hfits hweight

theorem weightsGetTriplet_packed {scales biases : W}
    (hscales : em.weights (dotScales base) = some scales)
    (hbiases : em.weights (dotBiases base) = some biases) :
    weightsGetTriplet em base o = some (⟨t.array, scales, biases, true⟩, o) := by
  rw [dotScales] at hscales
  rw [dotBiases] at hbiases
  rw [weightsGetTriplet, if_neg (Nat.not_le.mpr hfits)]
  simp only [weightsGet, holds_some hem hweight, hscales, hbiases]
  rfl

theorem weightsGetTriplet_plain (hscales : em.weights (dotScales base) = none)
    (hbiases : em.weights (dotBiases base) = none) :
    weightsGetTriplet em base o = some (⟨t.array, em.ops.null, em.ops.null, false⟩, o) := by
  rw [dotScales] at hscales
  rw [dotBiases] at hbiases
  rw [weightsGetTriplet, if_neg (Nat.not_le.mpr hfits)]
  simp only [weightsGet, holds_some hem hweight, hscales, hbiases]
  rfl

/-- With the scales and the biases both there or both not there the lookup tells which. -/
theorem weightsGetTriplet_some
    (hboth : Has w.params (dotScales base) ↔ Has w.params (dotBiases base)) :
    ∃ tri, weightsGetTriplet em base o = some (tri, o) ∧ tri.weight = t.array ∧
      (tri.quantized = true ↔ Has w.params (dotScales base)) := by
  by_cases hscales : Has w.params (dotScales base)
  · obtain ⟨s, hs⟩ := has_lookup.mp hscales
    obtain ⟨b, hb⟩ := has_lookup.mp (hboth.mp hscales)
    rw [weightsGetTriplet_packed o hem hfits hweight (holds_some hem hs) (holds_some hem hb)]
    exact ⟨_, rfl, rfl, fun _ => hscales, fun _ => rfl⟩
  · rw [weightsGetTriplet_plain o hem hfits hweight (holds_none hem hscales)
      (holds_none hem (mt hboth.mpr hscales))]
    exact ⟨_, rfl, rfl, fun h => Bool.noConfusion h, fun h => absurd h hscales⟩

end Found

/-- Over loaded weights a triplet is found exactly when its weight is there, and what is found is
packed or float as the configuration has it. -/
theorem loaded_triplet (hload : weightsLoad L dir cfg = .ok w) (hem : Holds em w) {base : Bytes}
    (hne : base ≠ []) (hfits : (dotWeight base).length < NAME_SIZE) (o : Outcomes) :
    ((weightsGetTriplet em base o).isSome ↔ Has w.params (dotWeight base)) ∧
    ∀ tri o', weightsGetTriplet em base o = some (tri, o') →
      ∃ t, w.params.lookup (dotWeight base) = some t ∧ tri.weight = t.array ∧
        (tri.quantized = true ↔ Has w.params (dotScales base)) ∧
        (0 < cfg.quantBits → tri.quantized = true → t.dtype = .uint32) ∧
        ∀ kind, kind = .embed ∨ kind = .matmul → ⟨base, kind⟩ ∈ weightsExpectedNames cfg →
          tri.quantized = false → dtypeIsFloating t.dtype = true := by
  obtain ⟨names, fromIndex, haccepted⟩ := (weightsLoad_ok L dir cfg w).mp hload
  obtain ⟨-, -, -, hpacked, -, htriplets, hexpected⟩ := haccepted.complete
  have hstem : Stem base := by
    rw [dotWeight, List.length_append] at hfits
    exact ⟨hne, by omega⟩
  have hboth : Has w.params (dotScales base) ↔ Has w.params (dotBiases base) :=
    ⟨fun h => (htriplets base hstem (.inl h)).2.2, fun h => (htriplets base hstem (.inr h)).2.1⟩
  by_cases hweight : Has w.params (dotWeight base)
  · obtain ⟨t, ht⟩ := has_lookup.mp hweight
    obtain ⟨found, hrun, hfound, hquantized⟩ := weightsGetTriplet_some o hem hfits ht hboth
    rw [hrun]
    refine ⟨⟨fun _ => hweight, fun _ => rfl⟩, fun tri o' h => ?_⟩
    obtain ⟨rfl, rfl⟩ := Prod.mk.inj (Option.some.inj h)
    refine ⟨t, ht, hfound, hquantized, fun hbits hq => ?_, fun kind hkind hin hplain => ?_⟩
    · exact hpacked hbits base hstem (hquantized.mp hq) t ht
    · have hkey : WeightExpected.key ⟨base, kind⟩ = dotWeight base := by
        rcases hkind with rfl | rfl <;> rfl
      have hdt : dtypes w.params (dotWeight base) = some t.dtype := by rw [dtypes, ht, Option.map_some]
      rcases hexpected _ hin with ⟨dt, hdt', hfloat⟩ | ⟨-, -, -, ⟨dt, hscales, -⟩, -⟩
      · rw [hkey, hdt] at hdt'
        rwa [Option.some.inj hdt']
      · have hhas : Has w.params (dotScales base) := by
          obtain ⟨s, hs, -⟩ := Option.map_eq_some_iff.mp hscales
          exact has_lookup.mpr ⟨s, hs⟩
        rw [hquantized.mpr hhas] at hplain
        contradiction
  · rw [weightsGetTriplet_none o hem hweight]
    exact ⟨⟨fun h => Bool.noConfusion h, fun h => absurd h hweight⟩, fun tri o' h => by contradiction⟩

/-! ### One quantized embedding -/

def packedConfig : ModelConfig :=
  { oneLayerGemma4 false with
    numHiddenLayers := 0, family := .qwen2, quantBits := 4, layers_le := by decide }

/-- One file with a triplet. -/
def packedLoader : Loader Unit where
  fs :=
    { regular := fun path => path == pathJoin (ascii "m") (ascii "model.safetensors"),
      entries := fun _ => none, mtime := fun _ => none, document := fun _ => none,
      text := fun _ => none }
  read _ := some [(dotScales (ascii "e"), ⟨.bfloat16, 2, ()⟩), (dotWeight (ascii "e"), ⟨.uint32, 8, ()⟩),
    (dotBiases (ascii "e"), ⟨.bfloat16, 2, ()⟩)]
  inserts _ := true
  order := id
  order_perm _ := .refl _
  keysRead := true

def packedWeights : Weights Unit := ⟨(packedLoader.read []).getD [], 3, 12⟩

def packedModel : EngineModel fnMlx Unit :=
  { smallModel with weights := fun name => (packedWeights.params.lookup name).map (·.array) }

/-- The embedding is found with its scales. -/
theorem loaded_triplet_packed :
    weightsLoad packedLoader (ascii "m") packedConfig = .ok packedWeights ∧
      ∃ tri o, weightsGetTriplet packedModel (ascii "e") (fun _ => true) = some (tri, o) ∧
        tri.quantized = true := by
  have hload : weightsLoad packedLoader (ascii "m") packedConfig = .ok packedWeights := rfl
  have hem : Holds packedModel packedWeights := fun _ => rfl
  obtain ⟨hfound, htri⟩ := loaded_triplet hload hem (show ascii "e" ≠ [] by decide) (by decide)
    fun _ => true
  obtain ⟨⟨tri, o⟩, hrun⟩ := Option.isSome_iff_exists.mp (hfound.mpr (by decide))
  obtain ⟨t, -, -, hquantized, -⟩ := htri tri o hrun
  exact ⟨hload, tri, o, hrun, hquantized.mpr (by decide)⟩

end Lookup

end Load

end Mlxd.WeightsLoad
