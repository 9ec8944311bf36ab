import Mathlib.Algebra.Order.Field.Basic
import Mathlib.Algebra.Field.Rat
import Mathlib.Algebra.Order.Ring.Rat
import Mathlib.Data.List.Sort
import Mlxd.Lib.ArgPartition

/-!
# Group-limited expert routing

One token's logits select the experts with the greatest biased scores in the best groups. The
other groups are masked with zero, so an expert of a kept group whose biased score is not positive
does not win over them. The partial sorts are those of the array library, in any order it may
leave.
-/
namespace Mlxd.MoeRoute

open Mlxd.Lib

structure RouteParams (R : Type) where
  topK : Nat
  nGroup : Nat
  topkGroup : Nat
  routedScalingFactor : R
  normTopkProb : Bool

/-- The parameter checks for `E` experts. -/
def RouteParams.accepted {R : Type} (p : RouteParams R) (E : Nat) : Prop :=
  1 ≤ p.topK ∧ 1 ≤ p.nGroup ∧ 1 ≤ p.topkGroup ∧ p.topkGroup ≤ p.nGroup ∧ p.topK ≤ E ∧
    E % p.nGroup = 0 ∧ ¬ (1 < p.nGroup ∧ E / p.nGroup < 2)

instance {R : Type} (p : RouteParams R) (E : Nat) : Decidable (p.accepted E) :=
  inferInstanceAs (Decidable (_ ∧ _))

/-- The experts of a token and their weights. -/
structure Routed (R : Type) where
  inds : List Nat
  scores : List R
  deriving DecidableEq, Repr

/-- What the two partial sorts return: of the groups and of the experts. -/
structure Sorts where
  groups : List Nat
  experts : List Nat

section Route

variable {R : Type} [Field R] [LinearOrder R]

/-- The scores by which experts are selected. -/
def scoresSel (sigmoid : R → R) (logits bias : Nat → R) (e : Nat) : R := sigmoid (logits e) + bias e

/-- The sum of the two greatest scores of a group. -/
def groupScore (sel : Nat → R) (perGroup g : Nat) : R :=
  ((((List.range perGroup).map fun j => sel (g * perGroup + j)).insertionSort (· ≥ ·)).take 2).sum

def kDrop (p : RouteParams R) : Nat := p.nGroup - p.topkGroup

/-- The groups that are masked: the first of the partition by score, if any are dropped. -/
def dropped (p : RouteParams R) (sorts : Sorts) : List Nat :=
  if 1 < p.nGroup ∧ 0 < kDrop p then sorts.groups.take (kDrop p) else []

/-- The scores of the selection, those of the dropped groups replaced by zero. -/
def masked (p : RouteParams R) (E : Nat) (sel : Nat → R) (sorts : Sorts) (e : Nat) : R :=
  if e / (E / p.nGroup) ∈ dropped p sorts then 0 else sel e

/-- The experts are the first of a partition by the negated scores; their weights are the scores
without the bias, normalised and scaled. -/
def fwdMoeRouteDeepseek (sigmoid : R → R) (logits : Nat → R) (E : Nat) (p : RouteParams R)
    (sorts : Sorts) : Option (Routed R) :=
  if p.accepted E then
    let inds := sorts.experts.take p.topK
    let topW := inds.map fun e => sigmoid (logits e)
    let scores := if 1 < p.topK ∧ p.normTopkProb then topW.map (· / topW.sum) else topW
    some ⟨inds, scores.map (· * p.routedScalingFactor)⟩
  else none

/-- The partial sorts do what they are documented to. -/
def Sorted (p : RouteParams R) (E : Nat) (sel : Nat → R) (sorts : Sorts) : Prop :=
  (1 < p.nGroup → 0 < kDrop p →
    ArgPartition (groupScore sel (E / p.nGroup)) p.nGroup (kDrop p - 1) sorts.groups) ∧
  ArgPartition (fun e => -masked p E sel sorts e) E (p.topK - 1) sorts.experts

instance (p : RouteParams R) (E : Nat) (sel : Nat → R) (sorts : Sorts) :
    Decidable (Sorted p E sel sorts) := inferInstanceAs (Decidable (_ ∧ _))

/-- The groups that are not dropped. -/
def kept (p : RouteParams R) (sorts : Sorts) : Finset Nat :=
  (Finset.range p.nGroup).filter fun g => g ∉ dropped p sorts

/-- A choice of the best groups: no other group has a greater score. -/
def BestGroups (p : RouteParams R) (E : Nat) (sel : Nat → R) (K : Finset Nat) : Prop :=
  K ⊆ Finset.range p.nGroup ∧ K.card = p.topkGroup ∧ ∀ g ∈ K, ∀ g' < p.nGroup, g' ∉ K →
    groupScore sel (E / p.nGroup) g' ≤ groupScore sel (E / p.nGroup) g

/-- The experts are distinct, of the best groups, and the best of these. -/
structure GroupLimited (p : RouteParams R) (E : Nat) (sel : Nat → R) (K : Finset Nat)
    (inds : List Nat) : Prop where
  nodup : inds.Nodup
  length : inds.length = p.topK
  best : BestGroups p E sel K
  inside : ∀ e ∈ inds, e < E ∧ e / (E / p.nGroup) ∈ K
  greatest : ∀ e < E, e / (E / p.nGroup) ∈ K → e ∉ inds → ∀ c ∈ inds, sel e ≤ sel c

/-- The experts of some groups with a positive score. -/
def positive (p : RouteParams R) (E : Nat) (sel : Nat → R) (K : Finset Nat) : Finset Nat :=
  (Finset.range E).filter fun e => e / (E / p.nGroup) ∈ K ∧ 0 < sel e

variable {p : RouteParams R} {E : Nat} {sel : Nat → R} {sorts : Sorts}

/-! ## Groups -/

omit [Field R] [LinearOrder R] in
theorem group_lt (hp : p.accepted E) {e : Nat} (he : e < E) : e / (E / p.nGroup) < p.nGroup := by
  obtain ⟨-, hgroup, -, -, -, hmod, -⟩ := hp
  have hE : E / p.nGroup * p.nGroup = E := Nat.div_mul_cancel (Nat.dvd_of_mod_eq_zero hmod)
  refine Nat.div_lt_of_lt_mul ?_
  rwa [hE]

omit [Field R] [LinearOrder R] in
theorem mem_kept {g : Nat} : g ∈ kept p sorts ↔ g < p.nGroup ∧ g ∉ dropped p sorts := by
  rw [kept, Finset.mem_filter, Finset.mem_range]

omit [LinearOrder R] in
theorem masked_kept {e : Nat} (he : e / (E / p.nGroup) ∈ kept p sorts) :
    masked p E sel sorts e = sel e := if_neg (mem_kept.mp he).2

omit [LinearOrder R] in
theorem masked_dropped {e : Nat} (hp : p.accepted E) (hlt : e < E)
    (he : e / (E / p.nGroup) ∉ kept p sorts) : masked p E sel sorts e = 0 := by
  refine if_pos ?_
  by_contra hno
  exact he (mem_kept.mpr ⟨group_lt hp hlt, hno⟩)

/-- Dropping the front of the partition keeps a choice of the best groups. -/
theorem kept_best (hp : p.accepted E) (h : Sorted p E sel sorts) :
    BestGroups p E sel (kept p sorts) := by
  have hsub : kept p sorts ⊆ Finset.range p.nGroup := Finset.filter_subset _ _
  obtain ⟨-, hgroup, hone, hle, -, -, -⟩ := hp
  by_cases hdrop : 1 < p.nGroup ∧ 0 < kDrop p
  · have hpart := h.1 hdrop.1 hdrop.2
    have hk : kDrop p - 1 < p.nGroup := by
      unfold kDrop at hdrop ⊢
      omega
    have hfront : ∀ g, g ∈ dropped p sorts ↔ g ∈ ArgPartition.front sorts.groups (kDrop p - 1) := by
      intro g
      rw [dropped, if_pos hdrop, ArgPartition.front, List.mem_toFinset, Nat.sub_add_cancel hdrop.2]
    have heq : kept p sorts =
        Finset.range p.nGroup \ ArgPartition.front sorts.groups (kDrop p - 1) := by
      ext g
      rw [mem_kept, hfront, Finset.mem_sdiff, Finset.mem_range]
    refine ⟨hsub, ?_, fun g hg g' hg' hnot => ?_⟩
    · rw [heq, Finset.card_sdiff_of_subset hpart.front_subset, Finset.card_range,
        hpart.front_card hk]
      unfold kDrop
      unfold kDrop at hdrop
      omega
    · have hg'drop : g' ∈ ArgPartition.front sorts.groups (kDrop p - 1) := by
        rw [← hfront]
        by_contra hno
        exact hnot (mem_kept.mpr ⟨hg', hno⟩)
      rw [mem_kept, hfront] at hg
      exact hpart.front_le hk hg'drop hg.1 hg.2
  · have hall : kept p sorts = Finset.range p.nGroup := by
      ext g
      rw [mem_kept, dropped, if_neg hdrop, Finset.mem_range]
      simp
    rw [hall]
    refine ⟨Finset.Subset.refl _, ?_, fun g _ g' hg' hnot => ?_⟩
    · rw [Finset.card_range]
      unfold kDrop at hdrop
      omega
    · exact absurd (Finset.mem_range.mpr hg') hnot

/-! ## Experts -/

omit [Field R] [LinearOrder R] in
theorem mem_chosen (hp : p.accepted E) {e : Nat} :
    e ∈ sorts.experts.take p.topK ↔ e ∈ ArgPartition.front sorts.experts (p.topK - 1) := by
  have hone := hp.1
  rw [ArgPartition.front, List.mem_toFinset, Nat.sub_add_cancel hone]

theorem chosen_lt (h : Sorted p E sel sorts) {c : Nat} (hc : c ∈ sorts.experts.take p.topK) :
    c < E := (h.2.mem_iff c).mp (List.mem_of_mem_take hc)

variable [IsStrictOrderedRing R]

/-- No expert that is left out has a greater masked score. -/
theorem chosen_greatest (hp : p.accepted E) (h : Sorted p E sel sorts) {c e : Nat}
    (hc : c ∈ sorts.experts.take p.topK) (he : e < E) (hnot : e ∉ sorts.experts.take p.topK) :
    masked p E sel sorts e ≤ masked p E sel sorts c := by
  rw [mem_chosen hp] at hc hnot
  have hk : p.topK - 1 < E := by
    obtain ⟨hone, -, -, -, hE, -, -⟩ := hp
    omega
  exact neg_le_neg_iff.mp (h.2.front_le hk hc he hnot)

/-- With enough positive experts in the kept groups, zero does not win. -/
theorem chosen_inside (hp : p.accepted E) (h : Sorted p E sel sorts)
    (hpos : p.topK ≤ (positive p E sel (kept p sorts)).card) {c : Nat}
    (hc : c ∈ sorts.experts.take p.topK) : c / (E / p.nGroup) ∈ kept p sorts := by
  by_contra hout
  have hsub : positive p E sel (kept p sorts) ⊆ (sorts.experts.take p.topK).toFinset.erase c := by
    intro e he
    rw [positive, Finset.mem_filter, Finset.mem_range] at he
    obtain ⟨hlt, hgroup, hsel⟩ := he
    rw [Finset.mem_erase, List.mem_toFinset]
    constructor
    · intro hec
      exact hout (hec ▸ hgroup)
    · by_contra hnot
      have hle := chosen_greatest hp h hc hlt hnot
      rw [masked_kept hgroup, masked_dropped hp (chosen_lt h hc) hout] at hle
      exact absurd hsel (not_lt.mpr hle)
  have hcard := Finset.card_le_card hsub
  have hlen : (sorts.experts.take p.topK).toFinset.card ≤ p.topK :=
    le_trans (List.toFinset_card_le _) (List.length_take_le _ _)
  have hone := hp.1
  rw [Finset.card_erase_of_mem (List.mem_toFinset.mpr hc)] at hcard
  omega

/-- When no chosen expert is outside, the choice is the one within the kept groups. -/
theorem limited_of_inside (hp : p.accepted E) (h : Sorted p E sel sorts)
    (hin : ∀ c ∈ sorts.experts.take p.topK, c / (E / p.nGroup) ∈ kept p sorts) :
    GroupLimited p E sel (kept p sorts) (sorts.experts.take p.topK) where
  nodup := h.2.nodup.sublist (List.take_sublist _ _)
  length := by
    obtain ⟨-, -, -, -, hE, -, -⟩ := hp
    rw [List.length_take, h.2.length, Nat.min_eq_left hE]
  best := kept_best hp h
  inside := fun c hc => ⟨chosen_lt h hc, hin c hc⟩
  greatest := by
    intro e he hgroup hnot c hc
    have hle := chosen_greatest hp h hc he hnot
    rwa [masked_kept hgroup, masked_kept (hin c hc)] at hle

/-! ## Masked experts that win -/

omit [IsStrictOrderedRing R] in
/-- Every choice of the best groups is kept after some partition. -/
theorem exists_groups (hp : p.accepted E) (hne : p.nGroup ≠ p.topkGroup) {K : Finset Nat}
    (hK : BestGroups p E sel K) :
    ∃ groups, ArgPartition (groupScore sel (E / p.nGroup)) p.nGroup (kDrop p - 1) groups ∧
      ∀ experts, kept p ⟨groups, experts⟩ = K := by
  obtain ⟨-, -, hone, hle, -, -, -⟩ := hp
  obtain ⟨hsub, hcard, hbest⟩ := hK
  have hdrop : 1 < p.nGroup ∧ 0 < kDrop p := by
    unfold kDrop
    omega
  have hleast : Least (groupScore sel (E / p.nGroup)) p.nGroup (Finset.range p.nGroup \ K) := by
    constructor
    · exact Finset.sdiff_subset
    · intro a ha b hb hnot
      rw [Finset.mem_sdiff, Finset.mem_range] at ha
      rw [Finset.mem_sdiff, Finset.mem_range, not_and, not_not] at hnot
      exact hbest b (hnot hb) a ha.1 ha.2
  have hsize : (Finset.range p.nGroup \ K).card = kDrop p - 1 + 1 := by
    rw [Finset.card_sdiff_of_subset hsub, Finset.card_range, hcard, Nat.sub_add_cancel hdrop.2, kDrop]
  obtain ⟨groups, hpart, hfront⟩ := exists_argPartition hleast hsize
  refine ⟨groups, hpart, fun experts => ?_⟩
  ext g
  have hmem : g ∈ groups.take (kDrop p) ↔ g < p.nGroup ∧ g ∉ K := by
    rw [← Finset.mem_range, ← Finset.mem_sdiff, ← hfront, ArgPartition.front, List.mem_toFinset,
      Nat.sub_add_cancel hdrop.2]
  rw [mem_kept, dropped, if_pos hdrop, hmem, not_and, not_not]
  constructor
  · rintro ⟨hlt, hin⟩
    exact hin hlt
  · intro hg
    exact ⟨Finset.mem_range.mp (hsub hg), fun _ => hg⟩

/-- With too few positive experts in the best groups, some partition brings in a masked one. -/
theorem exists_outside (hp : p.accepted E) (hne : p.nGroup ≠ p.topkGroup) {K : Finset Nat}
    (hK : BestGroups p E sel K) (hfew : (positive p E sel K).card < p.topK) :
    ∃ sorts, Sorted p E sel sorts ∧ kept p sorts = K ∧
      ∃ c ∈ sorts.experts.take p.topK, c / (E / p.nGroup) ∉ K := by
  obtain ⟨groups, hpart, hkept⟩ := exists_groups hp hne hK
  obtain ⟨hone, hgroup, htg, hle, htop, hmod, hsize⟩ := hp
  have hE : E / p.nGroup * p.nGroup = E := Nat.div_mul_cancel (Nat.dvd_of_mod_eq_zero hmod)
  have hper : 0 < E / p.nGroup := by omega
  obtain ⟨g, hg, hgK⟩ : ∃ g ∈ Finset.range p.nGroup, g ∉ K := by
    refine Finset.exists_mem_notMem_of_card_lt_card ?_
    rw [hK.2.1, Finset.card_range]
    omega
  have hlt : g * (E / p.nGroup) < E := by
    have hmul := Nat.mul_lt_mul_of_pos_right (Finset.mem_range.mp hg) hper
    rwa [Nat.mul_comm p.nGroup, hE] at hmul
  have hdiv : g * (E / p.nGroup) / (E / p.nGroup) = g := Nat.mul_div_cancel _ hper
  have hleast : Least (fun e => -masked p E sel ⟨groups, []⟩ e) E
      (insert (g * (E / p.nGroup)) (positive p E sel K)) := by
    constructor
    · exact Finset.insert_subset (Finset.mem_range.mpr hlt) (Finset.filter_subset _ _)
    · intro a ha b hb hnot
      have hzero : 0 ≤ masked p E sel ⟨groups, []⟩ a := by
        rcases Finset.mem_insert.mp ha with rfl | ha
        · rw [masked_dropped ⟨hone, hgroup, htg, hle, htop, hmod, hsize⟩ hlt (by rwa [hkept, hdiv])]
        · rw [positive, Finset.mem_filter] at ha
          rw [masked_kept (by rw [hkept]; exact ha.2.1)]
          exact ha.2.2.le
      have hother : masked p E sel ⟨groups, []⟩ b ≤ 0 := by
        by_cases hb' : b / (E / p.nGroup) ∈ K
        · rw [masked_kept (by rwa [hkept])]
          by_contra hpos
          refine hnot (Finset.mem_insert_of_mem ?_)
          exact Finset.mem_filter.mpr ⟨Finset.mem_range.mpr hb, hb', not_le.mp hpos⟩
        · rw [masked_dropped ⟨hone, hgroup, htg, hle, htop, hmod, hsize⟩ hb (by rwa [hkept])]
      exact neg_le_neg (hother.trans hzero)
  obtain ⟨D, hsub, hD, hcard⟩ := hleast.extend (le_trans (Finset.card_insert_le _ _) hfew) htop
  obtain ⟨experts, hexp, hfront⟩ := @exists_argPartition R _ _ E (p.topK - 1) D hD (by omega)
  refine ⟨⟨groups, experts⟩, ⟨fun _ _ => hpart, hexp⟩, hkept _, g * (E / p.nGroup), ?_, ?_⟩
  · rw [mem_chosen ⟨hone, hgroup, htg, hle, htop, hmod, hsize⟩, hfront]
    exact hsub (Finset.mem_insert_self _ _)
  · rwa [hdiv]

/-! ## The routing -/

/-- The chosen experts are always the best of the best groups exactly when no group is dropped or
every choice of the best groups has enough experts with a positive biased score. -/
theorem routes_limited_iff (sigmoid : R → R) (logits bias : Nat → R) (hp : p.accepted E) :
    (∀ sorts, Sorted p E (scoresSel sigmoid logits bias) sorts →
      ∀ routed, fwdMoeRouteDeepseek sigmoid logits E p sorts = some routed →
        GroupLimited p E (scoresSel sigmoid logits bias) (kept p sorts) routed.inds) ↔
    (p.nGroup = p.topkGroup ∨ ∀ K, BestGroups p E (scoresSel sigmoid logits bias) K →
      p.topK ≤ (positive p E (scoresSel sigmoid logits bias) K).card) := by
  constructor
  · intro hall
    by_contra hno
    rw [not_or, not_forall] at hno
    obtain ⟨hne, K, hK⟩ := hno
    rw [Classical.not_imp, not_le] at hK
    obtain ⟨sorts, hsorted, hkept, c, hc, hout⟩ := exists_outside hp hne hK.1 hK.2
    have hlim := hall sorts hsorted _ (if_pos hp)
    exact hout (hkept ▸ (hlim.inside c hc).2)
  · intro hcond sorts hsorted routed hrouted
    rw [fwdMoeRouteDeepseek, if_pos hp, Option.some.injEq] at hrouted
    subst hrouted
    refine limited_of_inside hp hsorted fun c hc => ?_
    rcases hcond with heq | hpos
    · have hnone : kDrop p = 0 := by rw [kDrop, heq, Nat.sub_self]
      rw [mem_kept, dropped, hnone]
      exact ⟨group_lt hp (chosen_lt hsorted hc), by simp⟩
    · exact chosen_inside hp hsorted (hpos _ (kept_best hp hsorted)) hc

end Route

/-! ## Two groups of two experts -/

def twoOfTwo : RouteParams ℚ := ⟨2, 2, 1, 1, false⟩

/-- The first group scores best by one expert; the others are biased below zero. -/
def lowBias (e : Nat) : ℚ := if e = 0 then 1 else -1

/-- With high biases in the first group its two experts are chosen. -/
theorem routes_limited_iff_high : twoOfTwo.accepted 4 ∧
    GroupLimited twoOfTwo 4 (scoresSel (fun _ => 1 / 2) (fun _ => 0) fun e => if e < 2 then 1 else -1)
      (kept twoOfTwo ⟨[1, 0], [0, 1, 2, 3]⟩) [0, 1] := by
  have hbest : ∀ K, BestGroups twoOfTwo 4
      (scoresSel (fun _ => 1 / 2) (fun _ => 0) fun e => if e < 2 then 1 else -1) K → K = {0} := by
    intro K hK
    obtain ⟨g, rfl⟩ := Finset.card_eq_one.mp hK.2.1
    have hg : g < 2 := Finset.mem_range.mp (hK.1 (Finset.mem_singleton_self g))
    have hle := hK.2.2 g (Finset.mem_singleton_self g) 0 (by decide)
    match g, hg with
    | 0, _ => rfl
    | 1, _ => exact absurd (hle (by decide)) (by decide +kernel)
  have hall := (routes_limited_iff (fun _ => 1 / 2) (fun _ => 0) (fun e => if e < 2 then 1 else -1)
    (by decide : twoOfTwo.accepted 4)).mpr
    (.inr fun K hK => by
      rw [hbest K hK]
      decide +kernel)
  exact ⟨by decide, hall ⟨[1, 0], [0, 1, 2, 3]⟩ (by decide +kernel) _ rfl⟩

/-- An expert of the dropped group, masked with zero, wins over one of the kept group. -/
theorem masked_expert_chosen : twoOfTwo.accepted 4 ∧ twoOfTwo.topK ≤ twoOfTwo.topkGroup * 2 ∧
    Sorted twoOfTwo 4 (scoresSel (fun _ => 1 / 2) (fun _ => 0) lowBias) ⟨[1, 0], [0, 2, 3, 1]⟩ ∧
    fwdMoeRouteDeepseek (fun _ => 1 / 2) (fun _ => 0) 4 twoOfTwo ⟨[1, 0], [0, 2, 3, 1]⟩ =
      some ⟨[0, 2], [1 / 2, 1 / 2]⟩ ∧
    ¬ GroupLimited twoOfTwo 4 (scoresSel (fun _ => 1 / 2) (fun _ => 0) lowBias)
      (kept twoOfTwo ⟨[1, 0], [0, 2, 3, 1]⟩) [0, 2] := by
  refine ⟨by decide, by decide, by decide +kernel, by decide +kernel, ?_⟩
  intro h
  exact absurd (h.inside 2 (by decide)).2 (by decide)

end Mlxd.MoeRoute
