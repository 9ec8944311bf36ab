import Mathlib.Algebra.BigOperators.Field
import Mathlib.Analysis.SpecialFunctions.Log.Basic
import Mathlib.Data.EReal.Operations
import Mlxd.Lib.Leading

/-!
# Sampling filters

The logits, divided by the temperature, pass three filters that mask with minus infinity: the first
by rank, the second by the mass of the upper end of the sorted order, the third by a ratio to the
greatest probability. In exact arithmetic each keeps what is at least a cutoff, and no cutoff
exceeds the maximum.
-/
namespace Mlxd.Sampler

open Mlxd.Lib

noncomputable section

structure SamplingParams where
  temperature : ℝ
  topP : ℝ
  topK : ℤ
  minP : ℝ

def samplingParamsValidate (p : SamplingParams) : Except String Unit :=
  if p.temperature < 0 then .error "temperature must be >= 0"
  else if p.topP < 0 ∨ 1 < p.topP then .error "top_p must be in [0, 1]"
  else if p.minP < 0 ∨ 1 < p.minP then .error "min_p must be in [0, 1]"
  else if p.topK < -1 then .error "top_k must be >= -1"
  else .ok ()

/-! ## Operations of the array library -/

section Operations

variable {n k : Nat}

def sortAxis (l : Fin n → EReal) : Fin n → EReal := l ∘ Tuple.sort l

/-- The `k` greatest values. -/
def topkAxis (l : Fin n → EReal) (k : Nat) (h : k ≤ n) (i : Fin k) : EReal :=
  sortAxis l ⟨n - k + i, by omega⟩

def minAxis (l : Fin k → EReal) : EReal := ⨅ i, l i

def maxAxis (l : Fin k → EReal) : EReal := ⨆ i, l i

/-- The exponential, of minus infinity zero. -/
def expo (x : EReal) : ℝ := if x = ⊥ then 0 else Real.exp x.toReal

def softmaxAxis (l : Fin n → EReal) (i : Fin n) : ℝ := expo (l i) / ∑ j, expo (l j)

/-- The sums up to and including each position. -/
def cumsum (q : Fin n → ℝ) (i : Fin n) : ℝ := ∑ j ∈ Finset.Iic i, q j

open Classical in
def maskNegInf (mask : Fin n → Prop) (l : Fin n → EReal) (i : Fin n) : EReal :=
  if mask i then l i else ⊥

end Operations

/-! ## The filters -/

section Filters

variable {n : Nat}

def samplerApplyTopK (l : Fin n → EReal) (k : ℤ) : Fin n → EReal :=
  if h : k ≤ 0 ∨ (n : ℤ) ≤ k then l
  else
    let cutoff := minAxis (topkAxis l k.toNat (by omega))
    maskNegInf (fun i => cutoff ≤ l i) l

open Classical in
/-- The cutoff is the least sorted value whose sum from below exceeds `1 - p`, and at most the
maximum. -/
def samplerApplyTopP (l : Fin n → EReal) (p : ℝ) : Fin n → EReal :=
  if 1 ≤ p then l
  else if p ≤ 0 then maskNegInf (fun i => maxAxis l ≤ l i) l
  else
    let sorted := sortAxis l
    let sums := cumsum (softmaxAxis sorted)
    let nucleusLogits : Fin n → EReal := fun i => if 1 - p < sums i then sorted i else ⊤
    let clamped := min (minAxis nucleusLogits) (maxAxis l)
    maskNegInf (fun i => clamped ≤ l i) l

def samplerApplyMinP (l : Fin n → EReal) (mp : ℝ) : Fin n → EReal :=
  if mp ≤ 0 then l else maskNegInf (fun i => maxAxis l + (Real.log mp : EReal) ≤ l i) l

/-! ## The sampler -/

def computeRawLogProbs (logits : Fin n → ℝ) (i : Fin n) : ℝ :=
  logits i - Real.log (∑ j, Real.exp (logits j))

/-- The library's choice of a token: one with the greatest logit, and a random one whose probability
is not zero. -/
structure Draws (n : Nat) where
  argmax : (Fin n → ℝ) → Fin n
  argmax_max : ∀ (l : Fin n → ℝ) (i : Fin n), l i ≤ l (argmax l)
  categorical : (Fin n → EReal) → Fin n
  categorical_kept : ∀ l : Fin n → EReal, (∃ i, l i ≠ ⊥) → l (categorical l) ≠ ⊥

def scaled (sp : SamplingParams) (logits : Fin n → ℝ) (i : Fin n) : ℝ :=
  if sp.temperature ≠ 1 then logits i / sp.temperature else logits i

def afterTopK (sp : SamplingParams) (logits : Fin n → ℝ) : Fin n → EReal :=
  if 0 < sp.topK then samplerApplyTopK (fun i => scaled sp logits i) sp.topK
  else fun i => scaled sp logits i

def afterTopP (sp : SamplingParams) (logits : Fin n → ℝ) : Fin n → EReal :=
  if sp.topP < 1 then samplerApplyTopP (afterTopK sp logits) sp.topP else afterTopK sp logits

def afterMinP (sp : SamplingParams) (logits : Fin n → ℝ) : Fin n → EReal :=
  if 0 < sp.minP then samplerApplyMinP (afterTopP sp logits) sp.minP else afterTopP sp logits

/-- The token and, if wanted, its log-probability before temperature and filters. -/
def samplerSampleLazy (draws : Draws n) (logits : Fin n → ℝ) (sp : SamplingParams)
    (wantLogprob : Bool) : Fin n × Option ℝ :=
  let tok := if sp.temperature < 1 / 100 then draws.argmax logits
    else draws.categorical (afterMinP sp logits)
  (tok, if wantLogprob then some (computeRawLogProbs logits tok) else none)

/-! ## What is kept -/

/-- The kept values are the given ones, with each come the greater ones, and one is the greatest. -/
structure Filtered (given : Fin n → ℝ) (l : Fin n → EReal) : Prop where
  value : ∀ i, l i ≠ ⊥ → l i = given i
  upward : ∀ i j, l i ≠ ⊥ → given i < given j → l j ≠ ⊥
  argmax : ∃ a, l a ≠ ⊥ ∧ ∀ j, given j ≤ given a

/-- With each come the tokens of greater logits, and one of them is of the greatest. -/
structure KeptSet (logits : Fin n → ℝ) (l : Fin n → EReal) : Prop where
  upward : ∀ i j, l i ≠ ⊥ → logits i < logits j → l j ≠ ⊥
  argmax : ∃ a, l a ≠ ⊥ ∧ ∀ j, logits j ≤ logits a

/-- The `k` greatest and those equal to the least of them; all when `k` is not positive. -/
def KeepsTopK (given l : Fin n → EReal) (k : ℤ) : Prop :=
  (0 < k → ∃ T : Finset (Fin n), T.card = min k.toNat n ∧ Leading given T ∧
    ∀ i, l i ≠ ⊥ ↔ WithTies given T i) ∧
  (k ≤ 0 → ∀ i, l i ≠ ⊥)

/-- A shortest leading set whose probability reaches `p` and those equal to its least. -/
def KeepsTopP (given l : Fin n → EReal) (p : ℝ) : Prop :=
  ∃ T, Shortest given (softmaxAxis given) p T ∧ ∀ i, l i ≠ ⊥ ↔ WithTies given T i

/-- The tokens not yet masked whose probability is at least `mp` times every other's. -/
def KeepsMinP (given l : Fin n → EReal) (mp : ℝ) : Prop :=
  ∀ i, l i ≠ ⊥ ↔ given i ≠ ⊥ ∧ ∀ j, mp * softmaxAxis given j ≤ softmaxAxis given i

variable {given : Fin n → ℝ} {l : Fin n → EReal}

theorem maskNegInf_ne {mask : Fin n → Prop} {i : Fin n} :
    maskNegInf mask l i ≠ ⊥ ↔ mask i ∧ l i ≠ ⊥ := by
  rw [maskNegInf]
  split
  · next h => simp [h]
  · next h => simp [h]

theorem Filtered.max (h : Filtered given l) {a : Fin n} (ha : l a ≠ ⊥)
    (hmax : ∀ j, given j ≤ given a) (i : Fin n) : l i ≤ l a := by
  by_cases hi : l i = ⊥
  · rw [hi]
    exact bot_le
  · rw [h.value i hi, h.value a ha]
    exact EReal.coe_le_coe_iff.mpr (hmax i)

theorem Filtered.maxAxis_eq (h : Filtered given l) {a : Fin n} (ha : l a ≠ ⊥)
    (hmax : ∀ j, given j ≤ given a) : maxAxis l = l a :=
  le_antisymm (iSup_le (h.max ha hmax)) (le_iSup l a)

/-- A cutoff that does not exceed the maximum keeps the properties of what is kept. -/
theorem Filtered.mask (h : Filtered given l) {cutoff : EReal} (hcut : cutoff ≤ maxAxis l) :
    Filtered given (maskNegInf (fun i => cutoff ≤ l i) l) := by
  have hvalue : ∀ i, maskNegInf (fun i => cutoff ≤ l i) l i ≠ ⊥ →
      maskNegInf (fun i => cutoff ≤ l i) l i = l i := by
    intro i hi
    exact if_pos (maskNegInf_ne.mp hi).1
  constructor
  · intro i hi
    rw [hvalue i hi]
    exact h.value i (maskNegInf_ne.mp hi).2
  · intro i j hi hij
    obtain ⟨hle, hne⟩ := maskNegInf_ne.mp hi
    have hj := h.upward i j hne hij
    refine maskNegInf_ne.mpr ⟨le_trans hle ?_, hj⟩
    rw [h.value i hne, h.value j hj]
    exact EReal.coe_le_coe_iff.mpr hij.le
  · obtain ⟨a, ha, hmax⟩ := h.argmax
    exact ⟨a, maskNegInf_ne.mpr ⟨h.maxAxis_eq ha hmax ▸ hcut, ha⟩, hmax⟩

/-! ## The filter by rank -/

theorem minAxis_topk {k : Nat} (h : k ≤ n) (hk : 0 < k) (l : Fin n → EReal) :
    minAxis (topkAxis l k h) = l (Tuple.sort l ⟨n - k, by omega⟩) := by
  apply le_antisymm
  · exact iInf_le (topkAxis l k h) ⟨0, hk⟩
  · apply le_iInf
    intro i
    exact Tuple.monotone_sort l (Fin.mk_le_mk.mpr (Nat.le_add_right _ _))

theorem samplerApplyTopK_filtered (h : Filtered given l) (k : ℤ) :
    Filtered given (samplerApplyTopK l k) := by
  rw [samplerApplyTopK]
  split
  · exact h
  · next hk =>
    apply h.mask
    rw [minAxis_topk _ (by omega)]
    exact le_iSup l _

theorem samplerApplyTopK_keeps (hall : ∀ i, l i ≠ ⊥) {k : ℤ} (hk : 0 < k) :
    ∃ T : Finset (Fin n), T.card = min k.toNat n ∧ Leading l T ∧
      ∀ i, samplerApplyTopK l k i ≠ ⊥ ↔ WithTies l T i := by
  by_cases hn : (n : ℤ) ≤ k
  · refine ⟨Finset.univ, ?_, fun _ _ b hb => absurd (Finset.mem_univ b) hb, fun i => ?_⟩
    · rw [Finset.card_univ, Fintype.card_fin]
      omega
    · rw [samplerApplyTopK, dif_pos (.inr hn)]
      exact ⟨fun _ => ⟨i, Finset.mem_univ i, le_refl _⟩, fun _ => hall i⟩
  · have hcond : ¬ (k ≤ 0 ∨ (n : ℤ) ≤ k) := by omega
    refine ⟨atPositions l (Finset.Ici ⟨n - k.toNat, by omega⟩), ?_, ?_, fun i => ?_⟩
    · rw [card_atPositions, Fin.card_Ici]
      change n - (n - k.toNat) = _
      omega
    · apply atPositions_leading
      intro a ha b hab
      exact Finset.mem_Ici.mpr (le_trans (Finset.mem_Ici.mp ha) hab)
    · rw [samplerApplyTopK, dif_neg hcond, maskNegInf_ne, withTies_upper,
        minAxis_topk _ (by omega)]
      exact and_iff_left (hall i)

/-! ## Probabilities -/

theorem expo_nonneg (x : EReal) : 0 ≤ expo x := by
  rw [expo]
  split
  · exact le_refl 0
  · exact (Real.exp_pos _).le

theorem expo_pos {x : EReal} (hx : x ≠ ⊥) : 0 < expo x := by
  rw [expo, if_neg hx]
  exact Real.exp_pos _

theorem expo_mono {x y : EReal} (hy : y ≠ ⊤) (hxy : x ≤ y) : expo x ≤ expo y := by
  by_cases hx : x = ⊥
  · rw [expo, if_pos hx]
    exact expo_nonneg y
  · have hbot : y ≠ ⊥ := fun hb => hx (le_bot_iff.mp (hb ▸ hxy))
    rw [expo, if_neg hx, expo, if_neg hbot]
    exact Real.exp_le_exp.mpr (EReal.toReal_le_toReal hxy hx hy)

theorem Filtered.ne_top (h : Filtered given l) (i : Fin n) : l i ≠ ⊤ := by
  by_cases hi : l i = ⊥
  · rw [hi]
    exact bot_ne_top
  · rw [h.value i hi]
    exact EReal.coe_ne_top _

theorem Filtered.total_pos (h : Filtered given l) : 0 < ∑ j, expo (l j) := by
  obtain ⟨a, ha, -⟩ := h.argmax
  exact Finset.sum_pos' (fun i _ => expo_nonneg _) ⟨a, Finset.mem_univ a, expo_pos ha⟩

theorem softmaxAxis_nonneg (l : Fin n → EReal) (i : Fin n) : 0 ≤ softmaxAxis l i :=
  div_nonneg (expo_nonneg _) (Finset.sum_nonneg fun _ _ => expo_nonneg _)

theorem Filtered.softmax_pos (h : Filtered given l) {i : Fin n} (hi : l i ≠ ⊥) :
    0 < softmaxAxis l i := div_pos (expo_pos hi) h.total_pos

theorem softmax_masked {i : Fin n} (hi : l i = ⊥) : softmaxAxis l i = 0 := by
  rw [softmaxAxis, expo, if_pos hi, zero_div]

theorem Filtered.softmax_sum (h : Filtered given l) : ∑ i, softmaxAxis l i = 1 := by
  have hdiv := (Finset.sum_div Finset.univ (fun i => expo (l i)) (∑ j, expo (l j))).symm
  exact hdiv.trans (div_self h.total_pos.ne')

theorem Filtered.softmax_mono (h : Filtered given l) (a b : Fin n) (hab : l a ≤ l b) :
    softmaxAxis l a ≤ softmaxAxis l b :=
  div_le_div_of_nonneg_right (expo_mono (h.ne_top b) hab) h.total_pos.le

theorem softmax_sorted (l : Fin n → EReal) (i : Fin n) :
    softmaxAxis (sortAxis l) i = softmaxAxis l (Tuple.sort l i) := by
  have htotal : ∑ j, expo (sortAxis l j) = ∑ j, expo (l j) :=
    Equiv.sum_comp (Tuple.sort l) fun j => expo (l j)
  rw [softmaxAxis, htotal]
  rfl

/-! ## The filter by mass -/

/-- The position of the cutoff: the first whose sum from below exceeds `1 - p`. -/
theorem exists_cutoff (h : Filtered given l) {p : ℝ} (hp : 0 < p) :
    ∃ m, 1 - p < cumsum (softmaxAxis (sortAxis l)) m ∧
      ∀ i, 1 - p < cumsum (softmaxAxis (sortAxis l)) i → m ≤ i := by
  have hlast : ∃ i, 1 - p < cumsum (softmaxAxis (sortAxis l)) i := by
    obtain ⟨a, -, -⟩ := h.argmax
    have hn : 0 < n := a.pos
    refine ⟨⟨n - 1, by omega⟩, ?_⟩
    have hall : Finset.Iic (⟨n - 1, by omega⟩ : Fin n) = Finset.univ := by
      ext i
      simp only [Finset.mem_Iic, Finset.mem_univ, iff_true, Fin.le_def]
      omega
    have htotal : ∑ i, softmaxAxis (sortAxis l) i = 1 := by
      simp only [softmax_sorted]
      rw [Equiv.sum_comp (Tuple.sort l) (softmaxAxis l), h.softmax_sum]
    rw [cumsum, hall, htotal]
    linarith
  classical
  obtain ⟨i, hi⟩ := hlast
  obtain ⟨m, hm, hmin⟩ := Finset.exists_min_image
    (Finset.univ.filter fun i => 1 - p < cumsum (softmaxAxis (sortAxis l)) i) id
    ⟨i, Finset.mem_filter.mpr ⟨Finset.mem_univ i, hi⟩⟩
  refine ⟨m, (Finset.mem_filter.mp hm).2, fun j hj => ?_⟩
  exact hmin j (Finset.mem_filter.mpr ⟨Finset.mem_univ j, hj⟩)

/-- The masses from a position on and below it. -/
theorem sum_split (h : Filtered given l) (P : Finset (Fin n)) :
    ∑ i ∈ P, softmaxAxis l (Tuple.sort l i) + ∑ i ∈ Pᶜ, softmaxAxis l (Tuple.sort l i) = 1 := by
  rw [Finset.sum_add_sum_compl, Equiv.sum_comp (Tuple.sort l) (softmaxAxis l), h.softmax_sum]

theorem cumsum_sorted (l : Fin n → EReal) (m : Fin n) :
    cumsum (softmaxAxis (sortAxis l)) m = ∑ i ∈ Finset.Iic m, softmaxAxis l (Tuple.sort l i) := by
  rw [cumsum]
  simp only [softmax_sorted]

/-- The positions from the cutoff on carry a shortest mass that reaches `p`. -/
theorem shortest_cutoff (h : Filtered given l) {p : ℝ} (hp1 : p < 1) {m : Fin n}
    (hm : 1 - p < cumsum (softmaxAxis (sortAxis l)) m)
    (hmin : ∀ i, 1 - p < cumsum (softmaxAxis (sortAxis l)) i → m ≤ i) :
    Shortest l (softmaxAxis l) p (atPositions l (Finset.Ici m)) := by
  apply shortest_upper h.softmax_mono (softmaxAxis_nonneg l)
  · have hcompl : (Finset.Iic m)ᶜ = Finset.Ioi m := by
      ext i
      simp only [Finset.mem_compl, Finset.mem_Iic, Finset.mem_Ioi, not_le]
    have hsplit := sum_split h (Finset.Iic m)
    rw [hcompl] at hsplit
    rw [cumsum_sorted] at hm
    linarith
  · have hcompl : (Finset.Iio m)ᶜ = Finset.Ici m := by
      ext i
      simp only [Finset.mem_compl, Finset.mem_Iio, Finset.mem_Ici, not_lt]
    have hbelow : ∑ i ∈ Finset.Iio m, softmaxAxis l (Tuple.sort l i) ≤ 1 - p := by
      by_cases hzero : m.val = 0
      · have hempty : Finset.Iio m = ∅ := by
          ext i
          simp only [Finset.mem_Iio, Finset.notMem_empty, iff_false, Fin.lt_def]
          omega
        rw [hempty, Finset.sum_empty]
        linarith
      · have hpred : Finset.Iio m = Finset.Iic (⟨m - 1, by omega⟩ : Fin n) := by
          ext i
          simp only [Finset.mem_Iio, Finset.mem_Iic, Fin.lt_def, Fin.le_def]
          omega
        rw [hpred, ← cumsum_sorted]
        by_contra hlt
        have hle := Fin.le_def.mp (hmin _ (not_le.mp hlt))
        simp only at hle
        omega
    have hsplit := sum_split h (Finset.Iio m)
    rw [hcompl] at hsplit
    linarith

/-- A masked value does not carry the sum over `1 - p`. -/
theorem cutoff_ne_bot {p : ℝ} (hp1 : p < 1) {m : Fin n}
    (hm : 1 - p < cumsum (softmaxAxis (sortAxis l)) m) : sortAxis l m ≠ ⊥ := by
  intro hbot
  have hzero : cumsum (softmaxAxis (sortAxis l)) m = 0 := by
    apply Finset.sum_eq_zero
    intro i hi
    apply softmax_masked
    have hle : sortAxis l i ≤ sortAxis l m := Tuple.monotone_sort l (Finset.mem_Iic.mp hi)
    exact le_bot_iff.mp (hbot ▸ hle)
  linarith

open Classical in
/-- The least logit in the nucleus is the one at the cutoff's position, and the clamp keeps it. -/
theorem clamped_eq {q : Fin n → ℝ} {bound : ℝ} {m : Fin n} (hm : bound < q m)
    (hmin : ∀ i, bound < q i → m ≤ i) :
    min (minAxis fun i => if bound < q i then sortAxis l i else ⊤) (maxAxis l) = sortAxis l m := by
  have hleast : (minAxis fun i => if bound < q i then sortAxis l i else ⊤) = sortAxis l m := by
    apply le_antisymm
    · have hle := iInf_le (fun i => if bound < q i then sortAxis l i else ⊤) m
      rwa [if_pos hm] at hle
    · apply le_iInf
      intro i
      dsimp only
      split
      · next hi => exact Tuple.monotone_sort l (hmin i hi)
      · exact le_top
  rw [hleast]
  exact min_eq_left (le_iSup l _)

theorem samplerApplyTopP_filtered (h : Filtered given l) (p : ℝ) :
    Filtered given (samplerApplyTopP l p) := by
  rw [samplerApplyTopP]
  split
  · exact h
  · split
    · exact h.mask (le_refl _)
    · exact h.mask (min_le_right _ _)

/-- All that is not masked carries the whole mass. -/
theorem shortest_unmasked [DecidablePred fun i => l i ≠ ⊥] (h : Filtered given l) :
    Shortest l (softmaxAxis l) 1 (Finset.univ.filter fun i => l i ≠ ⊥) := by
  constructor
  · obtain ⟨a, ha, -⟩ := h.argmax
    exact ⟨a, Finset.mem_filter.mpr ⟨Finset.mem_univ a, ha⟩⟩
  · intro a _ b hb
    rw [Finset.mem_filter, not_and, not_not] at hb
    rw [hb (Finset.mem_univ b)]
    exact bot_le
  · rw [← h.softmax_sum]
    apply le_of_eq
    symm
    apply Finset.sum_subset (Finset.subset_univ _)
    intro i _ hi
    rw [Finset.mem_filter, not_and, not_not] at hi
    exact softmax_masked (hi (Finset.mem_univ i))
  · intro T' _ _ hreach
    apply Finset.card_le_card
    intro i hi
    by_contra hnot
    have hpos := h.softmax_pos (Finset.mem_filter.mp hi).2
    have hsub : ∑ j ∈ insert i T', softmaxAxis l j ≤ ∑ j, softmaxAxis l j :=
      Finset.sum_le_sum_of_subset_of_nonneg (Finset.subset_univ _)
        fun j _ _ => softmaxAxis_nonneg l j
    rw [Finset.sum_insert hnot, h.softmax_sum] at hsub
    linarith

theorem shortest_argmax (h : Filtered given l) {a : Fin n} (ha : l a ≠ ⊥)
    (hmax : ∀ j, given j ≤ given a) : Shortest l (softmaxAxis l) 0 {a} := by
  constructor
  · exact ⟨a, Finset.mem_singleton_self a⟩
  · intro t ht b _
    rw [Finset.mem_singleton.mp ht]
    exact h.max ha hmax b
  · exact Finset.sum_nonneg fun i _ => softmaxAxis_nonneg l i
  · intro T' hne _ _
    exact Finset.card_pos.mpr hne

theorem samplerApplyTopP_keeps (h : Filtered given l) {p : ℝ} (hp : 0 ≤ p) (hp1 : p ≤ 1) :
    KeepsTopP l (samplerApplyTopP l p) p := by
  rw [KeepsTopP, samplerApplyTopP]
  rcases hp1.eq_or_lt with rfl | hlt
  · classical
    rw [if_pos (le_refl _)]
    refine ⟨_, shortest_unmasked h, fun i => ?_⟩
    constructor
    · intro hi
      exact ⟨i, Finset.mem_filter.mpr ⟨Finset.mem_univ i, hi⟩, le_refl _⟩
    · rintro ⟨t, ht, hle⟩ hbot
      exact (Finset.mem_filter.mp ht).2 (le_bot_iff.mp (hbot ▸ hle))
  · rw [if_neg (not_le.mpr hlt)]
    rcases hp.eq_or_lt with rfl | hpos
    · obtain ⟨a, ha, hmax⟩ := h.argmax
      rw [if_pos (le_refl _)]
      refine ⟨{a}, shortest_argmax h ha hmax, fun i => ?_⟩
      rw [maskNegInf_ne, h.maxAxis_eq ha hmax]
      constructor
      · rintro ⟨hle, -⟩
        exact ⟨a, Finset.mem_singleton_self a, hle⟩
      · rintro ⟨t, ht, hle⟩
        rw [Finset.mem_singleton.mp ht] at hle
        exact ⟨hle, fun hbot => ha (le_bot_iff.mp (hbot ▸ hle))⟩
    · obtain ⟨m, hm, hmin⟩ := exists_cutoff h hpos
      rw [if_neg (not_le.mpr hpos)]
      refine ⟨_, shortest_cutoff h hlt hm hmin, fun i => ?_⟩
      simp only [clamped_eq hm hmin]
      rw [maskNegInf_ne, withTies_upper]
      refine and_iff_left_of_imp fun hle hbot => cutoff_ne_bot hlt hm ?_
      exact le_bot_iff.mp (hbot ▸ hle)

/-! ## The filter by ratio -/

theorem samplerApplyMinP_filtered (h : Filtered given l) {mp : ℝ} (hmp1 : mp ≤ 1) :
    Filtered given (samplerApplyMinP l mp) := by
  rw [samplerApplyMinP]
  split
  · exact h
  · next hmp =>
    apply h.mask
    have hlog : (Real.log mp : EReal) ≤ 0 := by
      rw [← EReal.coe_zero, EReal.coe_le_coe_iff]
      exact Real.log_nonpos (not_le.mp hmp).le hmp1
    calc maxAxis l + (Real.log mp : EReal) ≤ maxAxis l + 0 := add_le_add_right hlog _
      _ = maxAxis l := add_zero _

/-- The threshold on logits is the ratio of the probabilities. -/
theorem minP_threshold (h : Filtered given l) {mp : ℝ} (hmp : 0 < mp) {a : Fin n} (ha : l a ≠ ⊥)
    (hmax : ∀ j, given j ≤ given a) {i : Fin n} (hi : l i ≠ ⊥) :
    maxAxis l + (Real.log mp : EReal) ≤ l i ↔ mp * softmaxAxis l a ≤ softmaxAxis l i := by
  have hexpo : ∀ j, l j ≠ ⊥ → expo (l j) = Real.exp (given j) := by
    intro j hj
    rw [expo, if_neg hj, h.value j hj, EReal.toReal_coe]
  rw [h.maxAxis_eq ha hmax, h.value a ha, h.value i hi, ← EReal.coe_add, EReal.coe_le_coe_iff,
    softmaxAxis, softmaxAxis, ← mul_div_assoc, div_le_div_iff_of_pos_right h.total_pos, hexpo a ha,
    hexpo i hi, ← Real.exp_le_exp, Real.exp_add, Real.exp_log hmp, mul_comm]

theorem samplerApplyMinP_keeps (h : Filtered given l) {mp : ℝ} (hmp : 0 ≤ mp) :
    KeepsMinP l (samplerApplyMinP l mp) mp := by
  intro i
  rw [samplerApplyMinP]
  rcases hmp.eq_or_lt with rfl | hpos
  · rw [if_pos (le_refl _)]
    refine (and_iff_left fun j => ?_).symm
    rw [zero_mul]
    exact softmaxAxis_nonneg l i
  · obtain ⟨a, ha, hmax⟩ := h.argmax
    rw [if_neg (not_le.mpr hpos), maskNegInf_ne, and_comm]
    refine and_congr_right fun hi => ?_
    rw [minP_threshold h hpos ha hmax hi]
    constructor
    · intro hratio j
      exact le_trans (mul_le_mul_of_nonneg_left (h.softmax_mono j a (h.max ha hmax j)) hpos.le) hratio
    · intro hall
      exact hall a

/-! ## The composition -/

theorem validate_ok {sp : SamplingParams} (h : samplingParamsValidate sp = .ok ()) :
    (0 ≤ sp.topP ∧ sp.topP ≤ 1) ∧ 0 ≤ sp.minP ∧ sp.minP ≤ 1 := by
  rw [samplingParamsValidate] at h
  split at h
  · cases h
  · split at h
    · cases h
    · next htop =>
      split at h
      · cases h
      · next hmin =>
        rw [not_or, not_lt, not_lt] at htop hmin
        exact ⟨htop, hmin⟩

variable {sp : SamplingParams} {logits : Fin n → ℝ}

theorem scaled_le (ht : 0 < sp.temperature) (i j : Fin n) :
    scaled sp logits i ≤ scaled sp logits j ↔ logits i ≤ logits j := by
  unfold scaled
  split
  · exact div_le_div_iff_of_pos_right ht
  · exact Iff.rfl

/-- A disabled filter returns its input, as the filter itself does on such a parameter. -/
theorem afterTopK_eq : afterTopK sp logits = samplerApplyTopK (fun i => scaled sp logits i) sp.topK := by
  rw [afterTopK]
  split
  · rfl
  · next hk => rw [samplerApplyTopK, dif_pos (.inl (not_lt.mp hk))]

theorem afterTopP_eq : afterTopP sp logits = samplerApplyTopP (afterTopK sp logits) sp.topP := by
  rw [afterTopP]
  split
  · rfl
  · next hp => rw [samplerApplyTopP, if_pos (not_lt.mp hp)]

theorem afterMinP_eq : afterMinP sp logits = samplerApplyMinP (afterTopP sp logits) sp.minP := by
  rw [afterMinP]
  split
  · rfl
  · next hmp => rw [samplerApplyMinP, if_pos (not_lt.mp hmp)]

theorem filtered_scaled [NeZero n] (given : Fin n → ℝ) :
    Filtered given fun i => (given i : EReal) where
  value := fun _ _ => rfl
  upward := fun _ _ _ _ => EReal.coe_ne_bot _
  argmax := by
    obtain ⟨a, ha⟩ := Finite.exists_max given
    exact ⟨a, EReal.coe_ne_bot _, ha⟩

theorem afterTopK_filtered [NeZero n] : Filtered (scaled sp logits) (afterTopK sp logits) := by
  rw [afterTopK_eq]
  exact samplerApplyTopK_filtered (filtered_scaled _) _

theorem afterTopP_filtered [NeZero n] : Filtered (scaled sp logits) (afterTopP sp logits) := by
  rw [afterTopP_eq]
  exact samplerApplyTopP_filtered afterTopK_filtered _

theorem afterMinP_filtered [NeZero n] (hmp1 : sp.minP ≤ 1) :
    Filtered (scaled sp logits) (afterMinP sp logits) := by
  rw [afterMinP_eq]
  exact samplerApplyMinP_filtered afterTopP_filtered hmp1

/-- A positive temperature keeps the order of the logits. -/
theorem Filtered.keptSet (ht : 0 < sp.temperature) (h : Filtered (scaled sp logits) l) :
    KeptSet logits l where
  upward := by
    intro i j hi hij
    refine h.upward i j hi ?_
    rw [← not_le, scaled_le ht, not_le]
    exact hij
  argmax := by
    obtain ⟨a, ha, hmax⟩ := h.argmax
    exact ⟨a, ha, fun j => (scaled_le ht j a).mp (hmax j)⟩

theorem afterTopK_keeps :
    KeepsTopK (fun i => scaled sp logits i) (afterTopK sp logits) sp.topK := by
  constructor
  · intro hk
    rw [afterTopK_eq]
    exact samplerApplyTopK_keeps (fun _ => EReal.coe_ne_bot _) hk
  · intro hk i
    rw [afterTopK, if_neg (not_lt.mpr hk)]
    exact EReal.coe_ne_bot _

/-- Below the greedy temperature the token has the greatest logit; otherwise each filter keeps, of
what the filters before it left, the set it is meant to, and the token is of the last set. -/
theorem sampler_filters [NeZero n] (draws : Draws n) (logits : Fin n → ℝ) {sp : SamplingParams}
    (hvalid : samplingParamsValidate sp = .ok ()) (wantLogprob : Bool) :
    (sp.temperature < 1 / 100 →
      ∀ i, logits i ≤ logits (samplerSampleLazy draws logits sp wantLogprob).1) ∧
    (1 / 100 ≤ sp.temperature →
      (KeptSet logits (afterTopK sp logits) ∧ KeptSet logits (afterTopP sp logits) ∧
        KeptSet logits (afterMinP sp logits)) ∧
      KeepsTopK (fun i => scaled sp logits i) (afterTopK sp logits) sp.topK ∧
      KeepsTopP (afterTopK sp logits) (afterTopP sp logits) sp.topP ∧
      KeepsMinP (afterTopP sp logits) (afterMinP sp logits) sp.minP ∧
      afterMinP sp logits (samplerSampleLazy draws logits sp wantLogprob).1 ≠ ⊥) := by
  obtain ⟨⟨hp, hp1⟩, hmp, hmp1⟩ := validate_ok hvalid
  constructor
  · intro hgreedy i
    simp only [samplerSampleLazy, if_pos hgreedy]
    exact draws.argmax_max logits i
  · intro htemp
    have ht : 0 < sp.temperature := lt_of_lt_of_le (by norm_num) htemp
    refine ⟨⟨afterTopK_filtered.keptSet ht, afterTopP_filtered.keptSet ht,
      (afterMinP_filtered hmp1).keptSet ht⟩, afterTopK_keeps, ?_, ?_, ?_⟩
    · rw [afterTopP_eq]
      exact samplerApplyTopP_keeps afterTopK_filtered hp hp1
    · rw [afterMinP_eq]
      exact samplerApplyMinP_keeps afterTopP_filtered hmp
    · simp only [samplerSampleLazy, if_neg (not_lt.mpr htemp)]
      have hfiltered : Filtered (scaled sp logits) (afterMinP sp logits) := afterMinP_filtered hmp1
      obtain ⟨a, ha, -⟩ := hfiltered.argmax
      exact draws.categorical_kept _ ⟨a, ha⟩

end Filters

/-! ## Three tokens -/

open Classical in
/-- The first greatest of three tokens, and the first that is not masked. -/
def firstOfThree : Draws 3 where
  argmax := fun l => if l 0 < l 1 then (if l 1 < l 2 then 2 else 1) else if l 0 < l 2 then 2 else 0
  argmax_max := by
    intro l i
    split_ifs <;> fin_cases i <;> simp only [Fin.zero_eta, Fin.mk_one, Fin.reduceFinMk] <;> linarith
  categorical := fun l => if l 0 ≠ ⊥ then 0 else if l 1 ≠ ⊥ then 1 else 2
  categorical_kept := by
    rintro l ⟨i, hi⟩
    split_ifs with h0 h1
    · exact h0
    · exact h1
    · fin_cases i
      · exact absurd hi h0
      · exact absurd hi h1
      · exact hi

/-- Two tokens pass the count, and the probabilities of both are looked at. -/
def topTwo : SamplingParams := ⟨1, 9 / 10, 2, 1 / 4⟩

theorem sampler_filters_three : samplingParamsValidate topTwo = .ok () ∧
    (KeptSet ![0, 1, 2] (afterTopK topTwo ![0, 1, 2]) ∧
      KeptSet ![0, 1, 2] (afterTopP topTwo ![0, 1, 2]) ∧
      KeptSet ![0, 1, 2] (afterMinP topTwo ![0, 1, 2])) ∧
    KeepsTopK (fun i => scaled topTwo ![0, 1, 2] i) (afterTopK topTwo ![0, 1, 2]) 2 ∧
    KeepsTopP (afterTopK topTwo ![0, 1, 2]) (afterTopP topTwo ![0, 1, 2]) (9 / 10) ∧
    KeepsMinP (afterTopP topTwo ![0, 1, 2]) (afterMinP topTwo ![0, 1, 2]) (1 / 4) ∧
    afterMinP topTwo ![0, 1, 2] (samplerSampleLazy firstOfThree ![0, 1, 2] topTwo true).1 ≠ ⊥ := by
  have hvalid : samplingParamsValidate topTwo = .ok () := by
    norm_num [samplingParamsValidate, topTwo]
  exact ⟨hvalid, (sampler_filters firstOfThree ![0, 1, 2] hvalid true).2 (by norm_num [topTwo])⟩

end

end Mlxd.Sampler
