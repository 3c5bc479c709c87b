import NowpConsensus.Validation.ConnectBlock
import Mathlib.Algebra.BigOperators.Intervals

/-!
# The subsidy schedule

`GetBlockReward(height, params)` (`validation.cpp`): a premine at height 1, ten coins a block up
to height 1440, then 188 coins halved every `nSubsidyHalvingInterval` blocks, and nothing from
the 128th halving on. The halving is a right shift of the 64-bit subsidy by the number of
halvings, which C++ leaves undefined for counts of 64 and more; the model shifts the integer
(`GetBlockReward`), which gives zero there, as every shift by 28 or more does.

* `GetBlockReward_succ_lt_iff`: past the first 1440 blocks, the reward drops from one height to
  the next exactly at the first 28 halvings;
* `GetBlockReward_antitone`: past the first 1440 blocks the reward never increases;
* `GetBlockReward_sum_le_MAX_MONEY`: on the main network the rewards of all heights add up to
  less than `MAX_MONEY`;
* `GetBlockReward_x86_increases`: the halving counts 64 to 127 are reached at heights an `int`
  holds, and on x86-64, whose shift instruction takes the count modulo 64, the reward returns to
  188 coins at the 64th halving.
-/

namespace NowpConsensus

/-! ## The shifted subsidy -/

/-- `188 * COIN` as a natural number, the form the shift lemmas take. -/
theorem subsidy_eq_natCast : (188 * COIN : CAmount) = ((188000000 : Nat) : Int) := by decide

/-- The shifted subsidy is `188 * COIN / 2 ^ k`. -/
theorem subsidy_shiftRight (k : Nat) :
    (188 * COIN : CAmount) >>> k = ((188000000 / 2 ^ k : Nat) : Int) := by
  rw [subsidy_eq_natCast, ← Int.natCast_shiftRight, Nat.shiftRight_eq_div_pow]

/-- The shifted subsidy is positive up to the 27th halving. -/
theorem subsidy_shiftRight_pos_iff (k : Nat) : 0 < 188000000 / 2 ^ k ↔ k ≤ 27 := by
  rw [Nat.div_pos_iff]
  constructor
  · rintro ⟨-, hk⟩
    by_contra hlt
    have : 2 ^ 28 ≤ 2 ^ k := Nat.pow_le_pow_right two_pos (by omega)
    omega
  · intro hk
    have : 2 ^ k ≤ 2 ^ 27 := Nat.pow_le_pow_right two_pos hk
    exact ⟨Nat.two_pow_pos k, by omega⟩

/-- One more halving halves the subsidy strictly as long as it is not zero. -/
theorem subsidy_shift_succ_lt_iff (k : Nat) :
    (188 * COIN : CAmount) >>> (k + 1) < (188 * COIN : CAmount) >>> k ↔ k ≤ 27 := by
  rw [subsidy_shiftRight, subsidy_shiftRight, Int.ofNat_lt, pow_succ, ← Nat.div_div_eq_div_mul]
  have := subsidy_shiftRight_pos_iff k
  omega

/-- More halvings never give more. -/
theorem subsidy_shift_antitone {k l : Nat} (hkl : k ≤ l) :
    (188 * COIN : CAmount) >>> l ≤ (188 * COIN : CAmount) >>> k := by
  rw [subsidy_shiftRight, subsidy_shiftRight, Int.ofNat_le]
  exact Nat.div_le_div_left (Nat.pow_le_pow_right two_pos hkl) (Nat.two_pow_pos k)

/-! ## The reward by height -/

/-- Past the first 1440 blocks the reward is the subsidy shifted by the number of halvings. -/
theorem GetBlockReward_of_lt {height : Int} {params : Params} (hheight : 1440 < height) :
    GetBlockReward height params =
      (188 * COIN : CAmount) >>> (height / params.nSubsidyHalvingInterval).toNat := by
  have htdiv : height.tdiv params.nSubsidyHalvingInterval =
      height / params.nSubsidyHalvingInterval := by
    rw [Int.tdiv_eq_ediv, if_pos (Or.inl (by omega)), add_zero]
  unfold GetBlockReward
  rw [if_neg (by omega), if_neg (by omega), htdiv]
  dsimp only
  split_ifs with h128
  · have hzero : 188000000 / 2 ^ (height / params.nSubsidyHalvingInterval).toNat = 0 :=
      Nat.div_eq_of_lt (lt_of_lt_of_le (by decide)
        (Nat.pow_le_pow_right two_pos (show 128 ≤ _ by omega)))
    rw [subsidy_shiftRight, hzero, Nat.cast_zero]
  · rfl

theorem GetBlockReward_nonneg (height : Int) (params : Params) :
    0 ≤ GetBlockReward height params := by
  unfold GetBlockReward
  dsimp only
  split_ifs
  · decide
  · decide
  · exact le_refl 0
  · rw [subsidy_shiftRight]
    exact Int.natCast_nonneg _

/-- **The reward drops from one height to the next exactly at a halving**, up to the 28th. -/
theorem GetBlockReward_succ_lt_iff {height : Int} {params : Params} (hheight : 1440 < height)
    (hI : 0 < params.nSubsidyHalvingInterval) :
    GetBlockReward (height + 1) params < GetBlockReward height params ↔
      (height + 1) % params.nSubsidyHalvingInterval = 0 ∧
        (height + 1) / params.nSubsidyHalvingInterval ≤ 28 := by
  rw [GetBlockReward_of_lt (by omega), GetBlockReward_of_lt hheight]
  generalize params.nSubsidyHalvingInterval = I at hI ⊢
  have hq : 0 ≤ height / I := Int.ediv_nonneg (by omega) hI.le
  have hr := Int.emod_nonneg height hI.ne'
  have hr' := Int.emod_lt_of_pos height hI
  have hdecomp := Int.mul_ediv_add_emod height I
  by_cases hlast : height % I + 1 = I
  · obtain ⟨hdiv, hmod⟩ := (Int.ediv_emod_unique hI).2
      (⟨by rw [mul_add, mul_one]; omega, le_refl 0, hI⟩ :
        0 + I * (height / I + 1) = height + 1 ∧ 0 ≤ (0 : Int) ∧ (0 : Int) < I)
    rw [hdiv, hmod, show (height / I + 1).toNat = (height / I).toNat + 1 by omega,
      subsidy_shift_succ_lt_iff]
    omega
  · obtain ⟨hdiv, hmod⟩ := (Int.ediv_emod_unique hI).2
      (⟨by omega, by omega, by omega⟩ :
        (height % I + 1) + I * (height / I) = height + 1 ∧ 0 ≤ height % I + 1 ∧
          height % I + 1 < I)
    rw [hdiv, hmod]
    simp only [lt_self_iff_false, false_iff, not_and]
    omega

/-- **Past the first 1440 blocks the reward never increases.** -/
theorem GetBlockReward_antitone {h₁ h₂ : Int} {params : Params} (h₁_gt : 1440 < h₁)
    (h₁₂ : h₁ ≤ h₂) (hI : 0 < params.nSubsidyHalvingInterval) :
    GetBlockReward h₂ params ≤ GetBlockReward h₁ params := by
  rw [GetBlockReward_of_lt h₁_gt, GetBlockReward_of_lt (by omega)]
  apply subsidy_shift_antitone
  have := Int.ediv_le_ediv hI h₁₂
  omega

/-! ## The total on the main network

The reward is constant over each halving period, so the total is the premine, the first 1440
blocks, the rest of the first period, and one period at each of the 27 halvings that leave a
positive reward. -/

section Total

open Finset

theorem mainConsensus_nSubsidyHalvingInterval :
    mainConsensus.nSubsidyHalvingInterval = 525600 := rfl

/-- On the main network the reward is the same at every height of a halving period. -/
theorem GetBlockReward_main_of_mem {k h : Nat} (hh : h ∈ Ico (k * 525600) ((k + 1) * 525600))
    (hk : 1441 ≤ h) : GetBlockReward h mainConsensus = (188 * COIN : CAmount) >>> k := by
  rw [mem_Ico] at hh
  rw [GetBlockReward_of_lt (by omega), mainConsensus_nSubsidyHalvingInterval]
  congr 1
  omega

/-- A halving period after the first adds one period's worth of its reward. -/
theorem sum_GetBlockReward_period {k : Nat} (hk : 1 ≤ k) :
    ∑ h ∈ Ico (k * 525600) ((k + 1) * 525600), GetBlockReward h mainConsensus =
      525600 * ((188 * COIN : CAmount) >>> k) := by
  rw [sum_congr rfl fun h hh => GetBlockReward_main_of_mem hh
    (by rw [mem_Ico] at hh; omega), sum_const, Nat.card_Ico, nsmul_eq_mul,
    show (k + 1) * 525600 - k * 525600 = 525600 by omega]
  rfl

/-- The first halving period: the premine, 1440 blocks of ten coins and then 188 coins. -/
theorem sum_GetBlockReward_first :
    ∑ h ∈ range 525600, GetBlockReward h mainConsensus =
      10 * COIN + 12600000 * COIN + 1439 * (10 * COIN) + 524159 * (188 * COIN) := by
  have hbegin : ∑ h ∈ range 2, GetBlockReward h mainConsensus = 10 * COIN + 12600000 * COIN := by
    simp only [sum_range_succ, sum_range_zero, zero_add]
    decide
  have hearly : ∑ h ∈ Ico (2 : Nat) 1441, GetBlockReward h mainConsensus = 1439 * (10 * COIN) := by
    rw [sum_congr rfl fun h hh => ?_, sum_const, Nat.card_Ico, nsmul_eq_mul]
    · rfl
    · rw [mem_Ico] at hh
      unfold GetBlockReward
      rw [if_neg (by omega), if_pos (by omega)]
  have hlate : ∑ h ∈ Ico (1441 : Nat) 525600, GetBlockReward h mainConsensus =
      524159 * (188 * COIN) := by
    rw [sum_congr rfl fun h hh => ?_, sum_const, Nat.card_Ico, nsmul_eq_mul]
    · rfl
    · have := @GetBlockReward_main_of_mem 0 h (by simpa using (mem_Ico.1 hh).2) (mem_Ico.1 hh).1
      rwa [Int.shiftRight_zero] at this
  rw [← sum_range_add_sum_Ico _ (show 1441 ≤ 525600 by omega),
    ← sum_range_add_sum_Ico _ (show 2 ≤ 1441 by omega), hbegin, hearly, hlate]

/-- The first `k` periods: the first, and one period at each later halving. -/
theorem sum_GetBlockReward_periods {k : Nat} (hk : 1 ≤ k) :
    ∑ h ∈ range (k * 525600), GetBlockReward h mainConsensus =
      ∑ h ∈ range 525600, GetBlockReward h mainConsensus +
        ∑ j ∈ Ico 1 k, 525600 * ((188 * COIN : CAmount) >>> j) := by
  induction k, hk using Nat.le_induction with
  | base => simp
  | succ k hk ih =>
    rw [← sum_range_add_sum_Ico _ (show k * 525600 ≤ (k + 1) * 525600 by omega), ih,
      sum_GetBlockReward_period hk, sum_Ico_succ_top hk, add_assoc]

/-- From the 28th halving on, the reward is zero. -/
theorem GetBlockReward_main_eq_zero {h : Nat} (hh : 28 * 525600 ≤ h) :
    GetBlockReward h mainConsensus = 0 := by
  rw [GetBlockReward_of_lt (by omega), subsidy_shiftRight, mainConsensus_nSubsidyHalvingInterval]
  have hzero : 188000000 / 2 ^ ((h : Int) / 525600).toNat = 0 :=
    Nat.eq_zero_of_not_pos fun hp =>
      (by omega : ¬ ((h : Int) / 525600).toNat ≤ 27) ((subsidy_shiftRight_pos_iff _).1 hp)
  rw [hzero, Nat.cast_zero]

/-- **The rewards of all heights add up to less than `MAX_MONEY`** on the main network: every
partial sum is bounded. -/
theorem GetBlockReward_sum_le_MAX_MONEY (N : Nat) :
    ∑ h ∈ range N, GetBlockReward h mainConsensus ≤ MAX_MONEY := by
  -- past the 28th halving nothing is added, so every partial sum is below the one up to there
  have hmono : ∑ h ∈ range N, GetBlockReward h mainConsensus ≤
      ∑ h ∈ range (N + 28 * 525600), GetBlockReward h mainConsensus :=
    sum_le_sum_of_subset_of_nonneg (range_subset_range.2 (by omega))
      fun h _ _ => GetBlockReward_nonneg _ _
  have htail : ∑ h ∈ Ico (28 * 525600) (N + 28 * 525600), GetBlockReward h mainConsensus = 0 :=
    sum_eq_zero fun h hh => GetBlockReward_main_eq_zero (mem_Ico.1 hh).1
  rw [← sum_range_add_sum_Ico _ (show 28 * 525600 ≤ N + 28 * 525600 by omega), htail, add_zero,
    sum_GetBlockReward_periods (show 1 ≤ 28 by omega), sum_GetBlockReward_first] at hmono
  refine hmono.trans ?_
  decide +kernel

end Total

/-! ## The shift of 64 and more -/

/-- `GetBlockReward` as the compiled code computes it on x86-64: the `sar` instruction shifts a
64-bit register by its count modulo 64, so the shift by 64 to 127 halvings, undefined in C++,
shifts by the count less 64. -/
def GetBlockReward.x86 (height : Int) (params : Params) : CAmount :=
  if height = 1 then 12600000 * COIN
  else if height ≤ 1440 then 10 * COIN
  else
    let halvings := height.tdiv params.nSubsidyHalvingInterval
    if halvings ≥ 128 then 0 else (188 * COIN) >>> (halvings % 64).toNat

/-- Below 64 halvings the compiled code computes the model's reward. -/
theorem GetBlockReward.x86_eq {height : Int} {params : Params}
    (hI : 0 < params.nSubsidyHalvingInterval)
    (h64 : height.tdiv params.nSubsidyHalvingInterval < 64) :
    GetBlockReward.x86 height params = GetBlockReward height params := by
  unfold GetBlockReward.x86 GetBlockReward
  split_ifs with h₁ h₂
  · rfl
  · rfl
  · dsimp only
    have hnonneg : 0 ≤ height.tdiv params.nSubsidyHalvingInterval :=
      Int.tdiv_nonneg (by omega) hI.le
    rw [Int.emod_eq_of_lt hnonneg (by omega)]

/-- **The 64th halving is reached, and on x86-64 it brings the reward back to 188 coins.** On
the main network the height `64 * nSubsidyHalvingInterval` is an `int`, past the first 1440
blocks, and at the 64th halving; one block before, the reward is zero as in the model, and at it
the compiled code pays 188 coins where the model pays nothing. -/
theorem GetBlockReward_x86_increases :
    (33638400 : Int) = 64 * mainConsensus.nSubsidyHalvingInterval ∧ (33638400 : Int) < 2 ^ 31 ∧
      (33638399 : Int).tdiv mainConsensus.nSubsidyHalvingInterval = 63 ∧
      (33638400 : Int).tdiv mainConsensus.nSubsidyHalvingInterval = 64 ∧
      GetBlockReward.x86 33638399 mainConsensus = 0 ∧
      GetBlockReward 33638399 mainConsensus = 0 ∧
      GetBlockReward.x86 33638400 mainConsensus = 188 * COIN ∧
      GetBlockReward 33638400 mainConsensus = 0 := by
  decide +kernel

end NowpConsensus
