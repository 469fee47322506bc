/-
# Mempool.Reward -- the reward of a block above the median weight (`mempool.go`, `reward.go`)

A block of weight `w` above the median `m` is paid `R * (1 - (w / m - 1) ^ 2)`, that is
`R * w * (2 * m - w) / m / m`.  The repository computes this twice, and both functions leave
out the factor `w`: the reward falls to about `R / m` with the first byte above the median.
-/
import P2PoolObserver.Mempool.Pick
import P2PoolObserver.Monero.Block

namespace P2PoolObserver

variable {R m w : UInt64}

/-! ## The source -/

def getBaseReward (alreadyGeneratedCounts : UInt64) : UInt64 :=
  let result := (~~~alreadyGeneratedCounts) >>> 19
  if result < tailEmissionReward then tailEmissionReward else result

def fullRewardZone (version : UInt8) : UInt64 :=
  if version < 2 then 20000
  else if version < 5 then 60000
  else 300000

/-- `uint128.From64(baseReward).Mul64(2*medianWeight - weight).Div64(medianWeight).Div64(medianWeight).Lo`;
`none` is the panic of a product above 128 bits. -/
def penalisedReward [Uint128Package] (baseReward medianWeight weight : UInt64) : Option UInt64 :=
  (Uint128Package.mul64 (.difficultyFrom64 baseReward) (2 * medianWeight - weight)).map fun product =>
    ((product.div64 medianWeight).div64 medianWeight).lo

def MainBlock.getBlockReward [Uint128Package] (medianWeight currentBlockWeight alreadyGeneratedCoins : UInt64)
    (version : UInt8) : Option UInt64 :=
  let target : UInt64 := if version < 2 then 60 else 120
  let targetMinutes := target / 60
  let emissionSpeedFactor := 20 - (targetMinutes - 1)
  let subsidy := (0xFFFFFFFFFFFFFFFF - alreadyGeneratedCoins) >>> emissionSpeedFactor
  let baseReward := if subsidy < 300000000000 * targetMinutes then 300000000000 * targetMinutes else subsidy
  -- make it soft
  let medianWeight := if medianWeight < fullRewardZone version then fullRewardZone version else medianWeight
  if currentBlockWeight ≤ medianWeight then some baseReward
  else if currentBlockWeight > 2 * medianWeight then some 0
  else penalisedReward baseReward medianWeight currentBlockWeight

/-! ## The penalty -/

def quadraticReward (R m w : Nat) : Nat := if w ≤ m then R else R * w * (2 * m - w) / m / m

theorem dropsWeight_iff {R m w : Nat} (positive : 0 < m) (above : m < w) :
    R * (2 * m - w) / m / m = R * w * (2 * m - w) / m / m ↔ R * w * (2 * m - w) < m * m := by
  have square : 0 < m * m := Nat.mul_pos positive positive
  have factor : R * w * (2 * m - w) = R * (2 * m - w) * w := by ring
  rw [Nat.div_div_eq_div_mul, Nat.div_div_eq_div_mul, factor]
  generalize R * (2 * m - w) = x
  have twice : 2 * x ≤ x * w := by
    rw [Nat.mul_comm 2]
    exact Nat.mul_le_mul_left x (by omega)
  constructor
  · intro same
    by_contra large
    have paid : 1 ≤ x * w / (m * m) := (Nat.one_le_div_iff square).mpr (Nat.not_lt.mp large)
    have low := Nat.div_mul_le_self x (m * m)
    have high := Nat.lt_mul_div_succ (x * w) square
    rw [same] at low
    -- a reward `q` of at least one would have `2 * q * m ^ 2 ≤ 2 * x < (q + 1) * m ^ 2`
    generalize x * w / (m * m) = q at paid low high
    have more : (q + 1) * (m * m) ≤ 2 * (q * (m * m)) := by
      rw [← Nat.mul_assoc 2 q]
      exact Nat.mul_le_mul_right (m * m) (by omega)
    rw [Nat.mul_comm (m * m)] at high
    omega
  · intro small
    rw [Nat.div_eq_of_lt small, Nat.div_eq_of_lt (by omega)]

theorem dropsWeight_step_iff {R m : Nat} (positive : 0 < m) :
    R ≤ R * (2 * m - (m + 1)) / m / m + R / (m * m) + 1 ↔ m = 1 ∨ R ≤ 1 := by
  rw [Nat.div_div_eq_div_mul]
  constructor
  · intro step
    by_contra other
    obtain ⟨large, more⟩ : 2 ≤ m ∧ 2 ≤ R := by omega
    have square : 0 < m * m := Nat.mul_pos positive positive
    have sum : R * (2 * m - (m + 1)) / (m * m) + R / (m * m) ≤ R / m := by
      rw [← Nat.div_div_eq_div_mul, ← Nat.div_div_eq_div_mul]
      have parts : R * (2 * m - (m + 1)) + R = R * m := by
        obtain ⟨m, rfl⟩ : ∃ n, m = n + 1 := ⟨m - 1, by omega⟩
        rw [show 2 * (m + 1) - (m + 1 + 1) = m by omega]
        ring
      refine Nat.div_add_div_le_add_div.trans (Nat.div_le_div_right ?_)
      refine Nat.div_add_div_le_add_div.trans ?_
      rw [parts, Nat.mul_div_cancel _ positive]
    have half : R / m ≤ R / 2 := Nat.div_le_div_left large (by omega)
    -- a reward of two is left, of which nothing is paid
    obtain rfl : R = 2 := by omega
    have four : 2 * 2 ≤ m * m := Nat.mul_le_mul large large
    have none : 2 / (m * m) = 0 := Nat.div_eq_of_lt (by omega)
    have low : 2 * (2 * m - (m + 1)) / (m * m) = 0 := by
      refine Nat.div_eq_of_lt (Nat.lt_of_lt_of_le ?_ (Nat.mul_le_mul_right m large))
      omega
    omega
  · rintro (rfl | small)
    · simp
    · exact Nat.le_add_left_of_le small

/-! ## What the functions pay -/

def paidReward (R m w : Nat) : Nat := if w ≤ m then R else R * (2 * m - w) / m / m

theorem paidReward_le (R m w : Nat) : paidReward R m w ≤ R := by
  unfold paidReward
  split_ifs with low
  · exact Nat.le_refl R
  · rw [Nat.div_div_eq_div_mul]
    rcases Nat.eq_zero_or_pos m with rfl | positive
    · simp
    · refine Nat.div_le_of_le_mul ?_
      rw [Nat.mul_comm (m * m)]
      refine Nat.mul_le_mul_left R ?_
      calc 2 * m - w ≤ m := by omega
        _ ≤ m * m := Nat.le_mul_of_pos_left m positive

theorem paidReward_antitone (R m : Nat) {w w' : Nat} (le : w ≤ w') : paidReward R m w' ≤ paidReward R m w := by
  by_cases low : w ≤ m
  · rw [show paidReward R m w = R from if_pos low]
    exact paidReward_le R m w'
  · rw [paidReward, paidReward, if_neg low, if_neg (by omega)]
    exact Nat.div_le_div_right (Nat.div_le_div_right (Nat.mul_le_mul_left R (by omega)))

theorem toNat_twice (fits : 2 * m.toNat < 2 ^ 64) : (2 * m).toNat = 2 * m.toNat := by
  rw [UInt64.toNat_mul]
  exact Nat.mod_eq_of_lt fits

theorem toNat_twice_sub (fits : 2 * m.toNat < 2 ^ 64) (le : w.toNat ≤ 2 * m.toNat) :
    (2 * m - w).toNat = 2 * m.toNat - w.toNat := by
  have twice := toNat_twice fits
  rw [UInt64.toNat_sub_of_le _ _ (UInt64.le_iff_toNat_le.mpr (by rw [twice]; exact le)), twice]

theorem Difficulty.lo_eq_ofNat (d : Difficulty) : d.lo = UInt64.ofNat d.toNat := by
  have small := d.lo.toNat_lt
  apply UInt64.toNat_inj.mp
  rw [UInt64.toNat_ofNat', Difficulty.toNat]
  omega

theorem getBlockReward_sub_fees (f : UInt64) (fits : 2 * m.toNat < 2 ^ 64)
    (le : w.toNat ≤ 2 * m.toNat) : (getBlockReward R m f w - f).toNat = paidReward R.toNat m.toNat w.toNat := by
  have twice := toNat_twice_sub fits le
  rw [UInt64.mul_comm] at twice
  have bounded := paidReward_le R.toNat m.toNat w.toNat
  have small := R.toNat_lt
  unfold getBlockReward paidReward at *
  simp only [UInt64.le_iff_toNat_le]
  split_ifs at bounded ⊢ with low beyond
  · rw [UInt64.add_sub_cancel]
  · rw [gt_iff_lt, UInt64.lt_iff_toNat_lt, UInt64.mul_comm, toNat_twice fits] at beyond
    exact absurd le (Nat.not_le.mpr beyond)
  · rw [UInt64.add_sub_cancel, UInt64.toNat_ofNat', twice]
    exact Nat.mod_eq_of_lt (Nat.lt_of_le_of_lt bounded small)

theorem penalisedReward_eq [Uint128Package] (positive : 0 < m.toNat)
    (fits : 2 * m.toNat < 2 ^ 64) (above : m.toNat < w.toNat) (le : w.toNat ≤ 2 * m.toNat) :
    penalisedReward R m w = some (UInt64.ofNat (paidReward R.toNat m.toNat w.toNat)) := by
  have nonzero : m ≠ 0 := by
    rintro rfl
    exact absurd positive (by decide)
  have bounded : R.toNat * (2 * m.toNat - w.toNat) < 2 ^ 128 := by
    calc R.toNat * (2 * m.toNat - w.toNat) < 2 ^ 64 * 2 ^ 64 :=
          Nat.mul_lt_mul'' R.toNat_lt (by omega)
      _ = 2 ^ 128 := by norm_num
  have product : (Difficulty.ofNat (R.toNat * (2 * m.toNat - w.toNat))).toNat =
      R.toNat * (2 * m.toNat - w.toNat) := by
    rw [Difficulty.toNat_ofNat, Nat.mod_eq_of_lt bounded]
  rw [penalisedReward, Uint128Package.mul64_eq, Difficulty.toNat_difficultyFrom64, toNat_twice_sub fits le,
    if_pos bounded, Option.map_some, paidReward, if_neg (by omega), Difficulty.lo_eq_ofNat,
    Difficulty.toNat_div64 nonzero, Difficulty.toNat_div64 nonzero, product]

theorem MainBlock.getBlockReward_eq [Uint128Package] (g : UInt64) {version : UInt8}
    (recent : 5 ≤ version) (zone : 300000 ≤ m) (fits : 2 * m.toNat < 2 ^ 64) (le : w.toNat ≤ 2 * m.toNat) :
    MainBlock.getBlockReward m w g version =
      some (UInt64.ofNat (paidReward (getBaseReward g).toNat m.toNat w.toNat)) := by
  have second : ¬ version < 2 := by
    rw [UInt8.not_lt]
    exact UInt8.le_trans (by decide) recent
  have soft : ¬ m < 300000 := UInt64.not_lt.mpr zone
  have positive : 0 < m.toNat := Nat.lt_of_lt_of_le (by decide) (UInt64.le_iff_toNat_le.mp zone)
  have complement : 0xFFFFFFFFFFFFFFFF - g = ~~~g := by
    rw [UInt64.not_eq_neg_sub]
    grind
  have base : (if (0xFFFFFFFFFFFFFFFF - g) >>> (20 - (120 / 60 - 1)) < (300000000000 * (120 / 60) : UInt64) then
      (300000000000 * (120 / 60) : UInt64) else (0xFFFFFFFFFFFFFFFF - g) >>> (20 - (120 / 60 - 1))) = getBaseReward g := by
    rw [complement]
    rfl
  have zoneEq : fullRewardZone version = 300000 := by
    rw [fullRewardZone, if_neg second, if_neg (UInt8.not_lt.mpr recent)]
  unfold MainBlock.getBlockReward
  simp only [if_neg second, zoneEq, if_neg soft, base]
  simp only [UInt64.le_iff_toNat_le, gt_iff_lt, UInt64.lt_iff_toNat_lt, toNat_twice fits]
  split_ifs with low beyond
  · rw [paidReward, if_pos low, UInt64.ofNat_toNat]
  · omega
  · exact penalisedReward_eq positive fits (Nat.not_le.mp low) le

/-! ## The two functions together -/

/-- The reward at a weight: the value, that no larger weight is paid more, and, at the median, that
the next weight is paid the same up to rounding. -/
structure RewardAt (reward : UInt64 → Option Nat) (R m w : UInt64) : Prop where
  value : reward w = some (quadraticReward R.toNat m.toNat w.toNat)
  nonIncreasing : ∀ w', w ≤ w' → w'.toNat ≤ 2 * m.toNat →
    ∃ now later, reward w = some now ∧ reward w' = some later ∧ later ≤ now
  continuous : w = m → ∃ next, reward (m + 1) = some next ∧
    R.toNat ≤ next + R.toNat / (m.toNat * m.toNat) + 1

theorem toNat_succ_median (fits : 2 * m.toNat < 2 ^ 64) (positive : 1 ≤ m) : (m + 1).toNat = m.toNat + 1 := by
  have above : 1 ≤ m.toNat := UInt64.le_iff_toNat_le.mp positive
  rw [UInt64.toNat_add]
  exact Nat.mod_eq_of_lt (by change m.toNat + 1 < _; omega)

def PenaltyExact (R m w : Nat) : Prop :=
  w < m ∨ (w = m ∧ (m = 1 ∨ R ≤ 1)) ∨ (m < w ∧ R * w * (2 * m - w) < m * m)

instance (R m w : Nat) : Decidable (PenaltyExact R m w) := inferInstanceAs (Decidable (_ ∨ _))

theorem rewardAt_iff_of_paid {reward : UInt64 → Option Nat} (positive : 1 ≤ m)
    (fits : 2 * m.toNat < 2 ^ 64) (le : w.toNat ≤ 2 * m.toNat)
    (paid : ∀ w : UInt64, w.toNat ≤ 2 * m.toNat → reward w = some (paidReward R.toNat m.toNat w.toNat)) :
    RewardAt reward R m w ↔ PenaltyExact R.toNat m.toNat w.toNat := by
  have above : 0 < m.toNat := UInt64.le_iff_toNat_le.mp positive
  have next := toNat_succ_median fits positive
  have value : reward w = some (quadraticReward R.toNat m.toNat w.toNat) ↔
      w.toNat ≤ m.toNat ∨ (m.toNat < w.toNat ∧
        R.toNat * w.toNat * (2 * m.toNat - w.toNat) < m.toNat * m.toNat) := by
    rw [paid w le, Option.some.injEq, paidReward, quadraticReward]
    by_cases low : w.toNat ≤ m.toNat
    · rw [if_pos low, if_pos low]
      exact iff_of_true rfl (.inl low)
    · rw [if_neg low, if_neg low, dropsWeight_iff above (Nat.not_le.mp low)]
      exact ⟨fun small => .inr ⟨Nat.not_le.mp low, small⟩, fun other => other.elim (absurd · low) And.right⟩
  have continuous : (∃ next, reward (m + 1) = some next ∧
      R.toNat ≤ next + R.toNat / (m.toNat * m.toNat) + 1) ↔ m.toNat = 1 ∨ R.toNat ≤ 1 := by
    rw [paid (m + 1) (by omega), next, paidReward, if_neg (by omega), ← dropsWeight_step_iff above]
    simp
  constructor
  · intro holds
    rcases value.mp holds.value with low | high
    · rcases Nat.lt_or_eq_of_le low with less | same
      · exact .inl less
      · exact .inr (.inl ⟨same, continuous.mp (holds.continuous (UInt64.toNat_inj.mp same))⟩)
    · exact .inr (.inr high)
  · intro exact_
    refine ⟨value.mpr ?_, fun w' more le' => ?_, ?_⟩
    · rcases exact_ with less | ⟨same, -⟩ | high
      · exact .inl less.le
      · exact .inl same.le
      · exact .inr high
    · exact ⟨_, _, paid w le, paid w' le', paidReward_antitone _ _ (UInt64.le_iff_toNat_le.mp more)⟩
    · rintro rfl
      refine continuous.mpr ?_
      rcases exact_ with less | ⟨-, few⟩ | ⟨more, -⟩
      · exact absurd less (Nat.lt_irrefl _)
      · exact few
      · exact absurd more (Nat.lt_irrefl _)

/-- At a weight up to twice the median, either function pays the reward with Monero's penalty exactly
below the median, and above it where that is nothing.  `GetBaseReward` pays more than one, so that
`block.GetBlockReward` always fails at the median. -/
theorem rewardAt_iff [Uint128Package] (R m f w : UInt64) (positive : 1 ≤ m) (fits : 2 * m.toNat < 2 ^ 64)
    (le : w.toNat ≤ 2 * m.toNat) :
    (RewardAt (fun w => some (getBlockReward R m f w - f).toNat) R m w ↔
        PenaltyExact R.toNat m.toNat w.toNat) ∧
      ∀ (g : UInt64) (version : UInt8), 5 ≤ version → 300000 ≤ m →
        (RewardAt (fun w => (MainBlock.getBlockReward m w g version).map UInt64.toNat) (getBaseReward g) m w ↔
          PenaltyExact (getBaseReward g).toNat m.toNat w.toNat) := by
  refine ⟨rewardAt_iff_of_paid positive fits le fun w le => ?_, fun g version recent zone => ?_⟩
  · rw [getBlockReward_sub_fees f fits le]
  · refine rewardAt_iff_of_paid positive fits le fun w le => ?_
    have small := (getBaseReward g).toNat_lt
    have bounded := paidReward_le (getBaseReward g).toNat m.toNat w.toNat
    rw [MainBlock.getBlockReward_eq g recent zone fits le, Option.map_some, UInt64.toNat_ofNat',
      Nat.mod_eq_of_lt (Nat.lt_of_le_of_lt bounded small)]

/-- A block below the median is paid in full. -/
theorem rewardAt_below :
    RewardAt (fun w => some (getBlockReward 600000000000 300000 7 w - 7).toNat) 600000000000 300000 200000 ∧
      RewardAt (fun w => (@MainBlock.getBlockReward .exact 300000 w 0xFFFFFFFFFFFFFFFF 16).map UInt64.toNat)
        (getBaseReward 0xFFFFFFFFFFFFFFFF) 300000 200000 := by
  have both := @rewardAt_iff .exact 600000000000 300000 7 200000 (by decide) (by decide) (by decide)
  exact ⟨both.1.mpr (by decide), (both.2 0xFFFFFFFFFFFFFFFF 16 (by decide) (by decide)).mpr (by decide)⟩

/-- One byte above the median, both functions pay 1999993 of 600000000000, where the penalty leaves
599999999993. -/
theorem rewardAt_above_fails :
    getBlockReward 600000000000 300000 0 300001 = 1999993 ∧
      @MainBlock.getBlockReward .exact 300000 300001 0xFFFFFFFFFFFFFFFF 16 = some 1999993 ∧
      quadraticReward 600000000000 300000 300001 = 599999999993 ∧
      ¬ RewardAt (fun w => some (getBlockReward 600000000000 300000 0 w - 0).toNat) 600000000000 300000 300001 ∧
      ¬ RewardAt (fun w => (@MainBlock.getBlockReward .exact 300000 w 0xFFFFFFFFFFFFFFFF 16).map UInt64.toNat)
        (getBaseReward 0xFFFFFFFFFFFFFFFF) 300000 300001 := by
  refine ⟨by decide +kernel, by decide +kernel, by decide +kernel, fun holds => ?_, fun holds => ?_⟩
  · exact absurd holds.value (by decide +kernel)
  · exact absurd holds.value (by decide +kernel)

end P2PoolObserver
