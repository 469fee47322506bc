/-
# Sidechain.DifficultySpec -- what `NextDifficulty` computes

The two quickselects yield the order statistics of the timestamps (`timestampBounds_eq`), both of
which occur in the window, so that the scan for least and greatest cumulative difficulty finds
them (`difficultyRange_spec`).  With a divisor that is not zero, the checked 128-bit operations
leave one way to fail: the product with the target block time (`nextDifficulty_of_divisor`).
-/
import P2PoolObserver.Sidechain.NextDifficulty
import P2PoolObserver.Utils.QuickSelect
import Mathlib.Order.Bounds.Basic

namespace P2PoolObserver

open Lib
open scoped P2PoolObserver.Lib.Word

/-! ## The window's bounds -/

theorem timestampBounds_eq {timestamps : List UInt64} (nonempty : timestamps ≠ []) :
    timestampBounds timestamps = (orderStat timestamps (lowIndex timestamps.length),
      orderStat timestamps (upperIndex timestamps.length)) := by
  have some := List.length_pos_iff.mpr nonempty
  have low : lowIndex timestamps.length < timestamps.length := by
    simp only [lowIndex, cutSize]
    omega
  have high : upperIndex timestamps.length < timestamps.length := by
    simp only [upperIndex, cutSize]
    omega
  obtain ⟨perm, lower⟩ := nthElementSlice_spec low
  obtain ⟨-, upper⟩ := nthElementSlice_spec (by rwa [perm.length_eq] :
    upperIndex timestamps.length < (nthElementSlice timestamps (lowIndex timestamps.length)).length)
  rw [orderStat_perm perm] at upper
  simp only [timestampBounds, lower, upper]

theorem lowIndex_le_upperIndex {n : Nat} (pos : 0 < n) : lowIndex n ≤ upperIndex n := by
  simp only [lowIndex, upperIndex, cutSize]
  omega

theorem toNat_deltaIndex {n : Nat} (pos : 0 < n) (word : n < 2 ^ 64) :
    (deltaIndex n).toNat = max 1 (n + 1 - 2 * cutSize n) := by
  have size : cutSize n = (n + 9) / 10 := rfl
  have low : lowIndex n = cutSize n - 1 := rfl
  have upper : upperIndex n = n - cutSize n := rfl
  rw [deltaIndex]
  split_ifs with above
  · rw [UInt64.toNat_ofNat', Nat.mod_eq_of_lt (by omega)]
    omega
  · rw [UInt64.toNat_one]
    omega

/-! ## The divisor -/

/-- The divisor is at least the number of blocks exactly if the sum does not wrap: a
wrapped sum is below any upper bound, and the difference is then less than what was added. -/
theorem deltaIndex_le_deltaTimestamp_iff {deltaIndex lower upper : UInt64} (order : lower ≤ upper) :
    deltaIndex ≤ deltaTimestamp deltaIndex lower upper ↔ lower.toNat + deltaIndex.toNat < 2 ^ 64 := by
  have bounds := And.intro lower.toNat_lt (And.intro upper.toNat_lt deltaIndex.toNat_lt)
  rw [UInt64.le_iff_toNat_le] at order
  have difference : (upper - lower).toNat = upper.toNat - lower.toNat :=
    UInt64.toNat_sub_of_le _ _ (UInt64.le_iff_toNat_le.mpr order)
  by_cases fits : lower.toNat + deltaIndex.toNat < 2 ^ 64
  · have sum : (lower + deltaIndex).toNat = lower.toNat + deltaIndex.toNat := by
      rw [UInt64.toNat_add, Nat.mod_eq_of_lt fits]
    simp only [fits, iff_true, deltaTimestamp, gt_iff_lt, UInt64.lt_iff_toNat_lt, sum]
    split_ifs with above
    · rw [UInt64.le_iff_toNat_le, difference]
      omega
    · exact UInt64.le_refl _
  · have sum : (lower + deltaIndex).toNat = lower.toNat + deltaIndex.toNat - 2 ^ 64 := by
      rw [UInt64.toNat_add]
      omega
    have above : upper > lower + deltaIndex := by
      rw [gt_iff_lt, UInt64.lt_iff_toNat_lt, sum]
      omega
    rw [deltaTimestamp, if_pos above, UInt64.le_iff_toNat_le, difference]
    omega

theorem toNat_deltaTimestamp {deltaIndex lower upper : UInt64}
    (fits : lower.toNat + deltaIndex.toNat < 2 ^ 64) :
    (deltaTimestamp deltaIndex lower upper).toNat =
      if upper.toNat > lower.toNat + deltaIndex.toNat then upper.toNat - lower.toNat
      else deltaIndex.toNat := by
  have sum : (lower + deltaIndex).toNat = lower.toNat + deltaIndex.toNat := by
    rw [UInt64.toNat_add, Nat.mod_eq_of_lt fits]
  simp only [deltaTimestamp, gt_iff_lt, UInt64.lt_iff_toNat_lt, sum]
  split_ifs with above
  · refine UInt64.toNat_sub_of_le _ _ (UInt64.le_iff_toNat_le.mpr ?_)
    omega
  · rfl

/-! ## The least and the greatest difficulty -/

def difficultiesWithin (lower upper : UInt64) (data : List DifficultyData) : Set ℕ :=
  {d | ∃ entry ∈ data, (lower ≤ entry.timestamp ∧ entry.timestamp ≤ upper) ∧
    entry.cumulativeDifficulty.toNat = d}

theorem difficultiesWithin_perm {lower upper : UInt64} {data data' : List DifficultyData}
    (perm : data'.Perm data) : difficultiesWithin lower upper data' = difficultiesWithin lower upper data := by
  simp only [difficultiesWithin, perm.mem_iff]

theorem isLeast_insert_min {a e x : ℕ} {S : Set ℕ} (least : IsLeast (insert (min a e) S) x) :
    IsLeast (insert a (insert e S)) x := by
  simp only [IsLeast, Set.mem_insert_iff, lowerBounds_insert, Set.mem_inter_iff, Set.mem_Iic, le_min_iff]
    at least ⊢
  obtain ⟨rfl | mem, ⟨belowA, belowE⟩, below⟩ := least
  · exact ⟨(min_choice a e).imp id .inl, belowA, belowE, below⟩
  · exact ⟨.inr (.inr mem), belowA, belowE, below⟩

theorem isGreatest_insert_max {a e x : ℕ} {S : Set ℕ} (greatest : IsGreatest (insert (max a e) S) x) :
    IsGreatest (insert a (insert e S)) x := by
  simp only [IsGreatest, Set.mem_insert_iff, upperBounds_insert, Set.mem_inter_iff, Set.mem_Ici, max_le_iff]
    at greatest ⊢
  obtain ⟨rfl | mem, ⟨aboveA, aboveE⟩, above⟩ := greatest
  · exact ⟨(max_choice a e).imp id .inl, aboveA, aboveE, above⟩
  · exact ⟨.inr (.inr mem), aboveA, aboveE, above⟩

def difficultyScan (lower upper : UInt64) (range : Difficulty × Difficulty) (entry : DifficultyData) :
    Difficulty × Difficulty :=
  if lower ≤ entry.timestamp ∧ entry.timestamp ≤ upper then
    (if range.1.cmp entry.cumulativeDifficulty = .gt then entry.cumulativeDifficulty else range.1,
      if range.2.cmp entry.cumulativeDifficulty = .lt then entry.cumulativeDifficulty else range.2)
  else range

theorem toNat_difficultyScan (lower upper : UInt64) (range : Difficulty × Difficulty) (entry : DifficultyData) :
    ((difficultyScan lower upper range entry).1.toNat, (difficultyScan lower upper range entry).2.toNat) =
      if lower ≤ entry.timestamp ∧ entry.timestamp ≤ upper then
        (min range.1.toNat entry.cumulativeDifficulty.toNat, max range.2.toNat entry.cumulativeDifficulty.toNat)
      else (range.1.toNat, range.2.toNat) := by
  unfold difficultyScan
  by_cases inside : lower ≤ entry.timestamp ∧ entry.timestamp ≤ upper
  · rw [if_pos inside, if_pos inside]
    simp only [Difficulty.cmp_eq_gt_iff, Difficulty.cmp_eq_lt_iff, Prod.mk.injEq]
    constructor
    · split_ifs <;> omega
    · split_ifs <;> omega
  · rw [if_neg inside, if_neg inside]

theorem difficultyScan_spec (lower upper : UInt64) (data : List DifficultyData)
    (range : Difficulty × Difficulty) : IsLeast (insert range.1.toNat (difficultiesWithin lower upper data))
      (data.foldl (difficultyScan lower upper) range).1.toNat ∧
    IsGreatest (insert range.2.toNat (difficultiesWithin lower upper data))
      (data.foldl (difficultyScan lower upper) range).2.toNat := by
  induction data generalizing range with
  | nil => simp [difficultiesWithin, IsLeast, IsGreatest, lowerBounds, upperBounds]
  | cons entry rest ih =>
    obtain ⟨least, greatest⟩ := ih (difficultyScan lower upper range entry)
    have values := toNat_difficultyScan lower upper range entry
    rw [List.foldl_cons]
    by_cases inside : lower ≤ entry.timestamp ∧ entry.timestamp ≤ upper
    · have members : difficultiesWithin lower upper (entry :: rest) =
          insert entry.cumulativeDifficulty.toNat (difficultiesWithin lower upper rest) := by
        ext d
        simp [difficultiesWithin, inside, eq_comm]
      rw [if_pos inside, Prod.mk.injEq] at values
      rw [values.1] at least
      rw [values.2] at greatest
      rw [members]
      exact ⟨isLeast_insert_min least, isGreatest_insert_max greatest⟩
    · have members : difficultiesWithin lower upper (entry :: rest) =
          difficultiesWithin lower upper rest := by
        ext d
        simp [difficultiesWithin, inside]
      rw [if_neg inside, Prod.mk.injEq] at values
      rw [values.1] at least
      rw [values.2] at greatest
      rw [members]
      exact ⟨least, greatest⟩

theorem difficultyRange_eq (lower upper : UInt64) (data : List DifficultyData) :
    difficultyRange lower upper data =
      data.foldl (difficultyScan lower upper) (Difficulty.maxDifficulty, Difficulty.zeroDifficulty) := rfl

theorem difficultyRange_spec {lower upper : UInt64} {data : List DifficultyData}
    (nonempty : (difficultiesWithin lower upper data).Nonempty) :
    IsLeast (difficultiesWithin lower upper data) (difficultyRange lower upper data).1.toNat ∧
      IsGreatest (difficultiesWithin lower upper data) (difficultyRange lower upper data).2.toNat := by
  obtain ⟨least, greatest⟩ := difficultyScan_spec lower upper data
    (Difficulty.maxDifficulty, Difficulty.zeroDifficulty)
  rw [← difficultyRange_eq, Difficulty.toNat_maxDifficulty] at least
  rw [← difficultyRange_eq, Difficulty.toNat_zeroDifficulty] at greatest
  obtain ⟨d, mem⟩ := nonempty
  have low := least.2 (.inr mem)
  have high := greatest.2 (.inr mem)
  have bound : d ≤ 2 ^ 128 - 1 := by
    obtain ⟨entry, -, -, rfl⟩ := mem
    have := entry.cumulativeDifficulty.toNat_lt
    omega
  refine ⟨⟨?_, fun e inside => least.2 (.inr inside)⟩, ⟨?_, fun e inside => greatest.2 (.inr inside)⟩⟩
  · rcases least.1 with start | inside
    · rwa [start, show 2 ^ 128 - 1 = d by omega]
    · exact inside
  · rcases greatest.1 with start | inside
    · rwa [start, show 0 = d by omega]
    · exact inside

theorem difficultyRange_perm {lower upper : UInt64} {data data' : List DifficultyData}
    (perm : data'.Perm data) : difficultyRange lower upper data' = difficultyRange lower upper data := by
  have one := difficultyScan_spec lower upper data (Difficulty.maxDifficulty, Difficulty.zeroDifficulty)
  have other := difficultyScan_spec lower upper data' (Difficulty.maxDifficulty, Difficulty.zeroDifficulty)
  rw [difficultiesWithin_perm perm] at other
  exact Prod.ext (Difficulty.toNat_inj.mp (other.1.unique one.1))
    (Difficulty.toNat_inj.mp (other.2.unique one.2))

/-! ## The window -/

section Window

variable {timestamps : List UInt64} {data : List DifficultyData}

/-- The lower and upper bound of the window, whichever way its timestamps are ordered. -/
def lowerTimestamp (data : List DifficultyData) : UInt64 :=
  orderStat (data.map DifficultyData.timestamp) (lowIndex data.length)

def upperTimestamp (data : List DifficultyData) : UInt64 :=
  orderStat (data.map DifficultyData.timestamp) (upperIndex data.length)

theorem timestampBounds_window (nonempty : data ≠ [])
    (order : timestamps.Perm (data.map DifficultyData.timestamp)) :
    timestampBounds timestamps = (lowerTimestamp data, upperTimestamp data) := by
  have times : timestamps ≠ [] := by
    rintro rfl
    exact nonempty (List.map_eq_nil_iff.mp order.symm.eq_nil)
  have length : timestamps.length = data.length := by rw [order.length_eq, List.length_map]
  rw [timestampBounds_eq times, length, orderStat_perm order, orderStat_perm order]
  rfl

theorem lowIndex_lt_length (nonempty : data ≠ []) :
    lowIndex data.length < (data.map DifficultyData.timestamp).length := by
  have pos := List.length_pos_iff.mpr nonempty
  rw [List.length_map]
  simp only [lowIndex, cutSize]
  omega

theorem exists_lowerTimestamp (nonempty : data ≠ []) : ∃ entry ∈ data, entry.timestamp = lowerTimestamp data :=
  List.mem_map.mp (orderStat_mem (lowIndex_lt_length nonempty))

theorem lowerTimestamp_le (nonempty : data ≠ []) : lowerTimestamp data ≤ upperTimestamp data := by
  have pos := List.length_pos_iff.mpr nonempty
  refine orderStat_mono (lowIndex_le_upperIndex pos) ?_
  rw [List.length_map]
  simp only [upperIndex, cutSize]
  omega

theorem difficultiesWithin_nonempty (nonempty : data ≠ []) :
    (difficultiesWithin (lowerTimestamp data) (upperTimestamp data) data).Nonempty := by
  obtain ⟨entry, inData, timestamp⟩ := exists_lowerTimestamp nonempty
  exact ⟨_, entry, inData, by rw [timestamp]; exact ⟨le_rfl, lowerTimestamp_le nonempty⟩, rfl⟩

theorem divisor_ne_zero (nonempty : data ≠ []) (word : data.length < 2 ^ 64)
    (fits : (lowerTimestamp data).toNat + (deltaIndex data.length).toNat < 2 ^ 64) :
    deltaTimestamp (deltaIndex data.length) (lowerTimestamp data) (upperTimestamp data) ≠ 0 := by
  have atLeast := (deltaIndex_le_deltaTimestamp_iff (lowerTimestamp_le nonempty)).mpr fits
  have index := toNat_deltaIndex (List.length_pos_iff.mpr nonempty) word
  intro zero
  rw [zero, UInt64.le_iff_toNat_le, index, UInt64.toNat_zero] at atLeast
  omega

end Window

/-! ## The result -/

section Result

variable [Uint128Package] (consensus : Consensus) {timestamps : List UInt64} {data : List DifficultyData}

theorem nextDifficulty_of_divisor {lower upper : UInt64} {greatest least : ℕ}
    (bounds : timestampBounds timestamps = (lower, upper))
    (isGreatest : IsGreatest (difficultiesWithin lower upper data) greatest)
    (isLeast : IsLeast (difficultiesWithin lower upper data) least)
    (divisor : deltaTimestamp (deltaIndex timestamps.length) lower upper ≠ 0) :
    (2 ^ 128 ≤ (greatest - least) * consensus.targetBlockTime.toNat →
      nextDifficulty consensus timestamps data = .error "panic in NextDifficulty, wrap occured?: overflow") ∧
    ((greatest - least) * consensus.targetBlockTime.toNat < 2 ^ 128 →
      ∃ difficulty, nextDifficulty consensus timestamps data = .ok difficulty ∧
        difficulty.toNat = max consensus.minimumDifficulty.toNat
          ((greatest - least) * consensus.targetBlockTime.toNat /
            (deltaTimestamp (deltaIndex timestamps.length) lower upper).toNat)) := by
  obtain ⟨foundLeast, foundGreatest⟩ := difficultyRange_spec ⟨_, isLeast.1⟩
  have atLeast := foundLeast.unique isLeast
  have atGreatest := foundGreatest.unique isGreatest
  have le : least ≤ greatest := isLeast.2 isGreatest.1
  have below : greatest < 2 ^ 128 := by
    rw [← atGreatest]
    exact Difficulty.toNat_lt _
  have delta : (Difficulty.ofNat (greatest - least)).toNat = greatest - least := by
    rw [Difficulty.toNat_ofNat, Nat.mod_eq_of_lt (by omega)]
  simp only [nextDifficulty, bounds, Uint128Package.sub_eq, atLeast, atGreatest, if_pos le,
    Uint128Package.mul64_eq, delta]
  constructor
  · intro overflow
    rw [if_neg (Nat.not_lt.mpr overflow)]
  · intro fits
    rw [if_pos fits]
    simp only [if_neg divisor]
    have quotient := Difficulty.toNat_div64 divisor
      (Difficulty.ofNat ((greatest - least) * consensus.targetBlockTime.toNat))
    rw [Difficulty.toNat_ofNat, Nat.mod_eq_of_lt fits] at quotient
    split_ifs with low
    · rw [Difficulty.cmp64_eq_lt_iff, quotient] at low
      exact ⟨_, rfl, by rw [Difficulty.toNat_difficultyFrom64, max_eq_left low.le]⟩
    · rw [Difficulty.cmp64_eq_lt_iff, quotient, not_lt] at low
      exact ⟨_, rfl, by rw [quotient, max_eq_right low]⟩

theorem nextDifficulty_perm {timestamps' : List UInt64} {data' : List DifficultyData}
    (nonempty : timestamps ≠ []) (times : timestamps'.Perm timestamps) (entries : data'.Perm data) :
    nextDifficulty consensus timestamps' data' = nextDifficulty consensus timestamps data := by
  have nonempty' : timestamps' ≠ [] := fun empty => nonempty (by simpa [empty] using times)
  have bounds : timestampBounds timestamps' = timestampBounds timestamps := by
    rw [timestampBounds_eq nonempty', timestampBounds_eq nonempty, times.length_eq,
      orderStat_perm times, orderStat_perm times]
  simp only [nextDifficulty, bounds, times.length_eq, difficultyRange_perm entries]

def ProductOverflows (data : List DifficultyData) : Prop :=
  ∃ M m, IsGreatest (difficultiesWithin (lowerTimestamp data) (upperTimestamp data) data) M ∧
    IsLeast (difficultiesWithin (lowerTimestamp data) (upperTimestamp data) data) m ∧
    2 ^ 128 ≤ (M - m) * consensus.targetBlockTime.toNat

/-- `NextDifficulty` on a window whose timestamps leave room for its length.  The `k`-th
smallest timestamp is `orderStat` at index `k - 1`. -/
theorem nextDifficulty_spec (timestamps : List UInt64) (data : List DifficultyData) (nonempty : data ≠ [])
    (order : timestamps.Perm (data.map DifficultyData.timestamp))
    (small : ∀ entry ∈ data, entry.timestamp.toNat + data.length < 2 ^ 64) :
    let n := data.length
    let cut := (n + 9) / 10
    let lo := orderStat (data.map DifficultyData.timestamp) (cut - 1)
    let hi := orderStat (data.map DifficultyData.timestamp) (n - cut)
    let di := max 1 (n + 1 - 2 * cut)
    let dt := if hi.toNat > lo.toNat + di then hi.toNat - lo.toNat else di
    (∃ M m, IsGreatest (difficultiesWithin lo hi data) M ∧ IsLeast (difficultiesWithin lo hi data) m ∧
      ((∃ message, nextDifficulty consensus timestamps data = .error message) ↔
        2 ^ 128 ≤ (M - m) * consensus.targetBlockTime.toNat) ∧
      ((M - m) * consensus.targetBlockTime.toNat < 2 ^ 128 →
        ∃ difficulty, nextDifficulty consensus timestamps data = .ok difficulty ∧
          difficulty.toNat =
            max consensus.minimumDifficulty.toNat ((M - m) * consensus.targetBlockTime.toNat / dt))) ∧
    nextDifficulty consensus timestamps data ≠ .error "panic in NextDifficulty, wrap occured?: underflow" ∧
    ∀ timestamps' data', timestamps'.Perm (data'.map DifficultyData.timestamp) → data'.Perm data →
      nextDifficulty consensus timestamps' data' = nextDifficulty consensus timestamps data := by
  intro n cut lo hi di dt
  have pos : 0 < n := List.length_pos_iff.mpr nonempty
  have length : timestamps.length = n := by rw [order.length_eq, List.length_map]
  obtain ⟨entry, inData, lowest⟩ := exists_lowerTimestamp nonempty
  have room : lo.toNat + n < 2 ^ 64 := by
    have := small entry inData
    rwa [lowest] at this
  have index : (deltaIndex n).toNat = di := toNat_deltaIndex pos (by omega)
  have fits : lo.toNat + (deltaIndex n).toNat < 2 ^ 64 := by
    rw [index]
    omega
  have divisor : (deltaTimestamp (deltaIndex n) lo hi).toNat = dt := by
    rw [toNat_deltaTimestamp fits, index]
  obtain ⟨isLeast, isGreatest⟩ := difficultyRange_spec (difficultiesWithin_nonempty nonempty)
  obtain ⟨overflow, result⟩ := nextDifficulty_of_divisor consensus
    (timestampBounds_window nonempty order) isGreatest isLeast
    (by rw [length]; exact divisor_ne_zero nonempty (by omega) fits)
  rw [length, show lowerTimestamp data = lo from rfl, show upperTimestamp data = hi from rfl, divisor] at result
  refine ⟨⟨_, _, isGreatest, isLeast, ⟨?_, fun exceeds => ⟨_, overflow exceeds⟩⟩, result⟩, ?_, ?_⟩
  · rintro ⟨message, failed⟩
    by_contra low
    obtain ⟨difficulty, ok, -⟩ := result (Nat.not_le.mp low)
    rw [ok] at failed
    cases failed
  · intro underflow
    by_cases low : 2 ^ 128 ≤ ((difficultyRange lo hi data).2.toNat - (difficultyRange lo hi data).1.toNat) *
        consensus.targetBlockTime.toNat
    · have := (overflow low).symm.trans underflow
      simp at this
    · obtain ⟨difficulty, ok, -⟩ := result (Nat.not_le.mp low)
      rw [ok] at underflow
      cases underflow
  · intro timestamps' data' order' perm
    have times : timestamps ≠ [] := List.length_pos_iff.mp (by rw [length]; exact pos)
    exact nextDifficulty_perm consensus times
      (order'.trans ((perm.map DifficultyData.timestamp).trans order.symm)) perm

/-- The divisor is at least the number of blocks, and only the product can fail, exactly
where the lower timestamp bound leaves room for the number of blocks.  A slice's length is
an `int`. -/
theorem deltaIndex_le_divisor_iff (timestamps : List UInt64) (data : List DifficultyData)
    (nonempty : data ≠ []) (order : timestamps.Perm (data.map DifficultyData.timestamp))
    (int : data.length < 2 ^ 63) :
    (1 ≤ deltaIndex timestamps.length ∧
      deltaIndex timestamps.length ≤ deltaTimestamp (deltaIndex timestamps.length)
        (timestampBounds timestamps).1 (timestampBounds timestamps).2 ∧
      ∀ message, nextDifficulty consensus timestamps data = .error message →
        ProductOverflows consensus data) ↔
    (lowerTimestamp data).toNat + (deltaIndex data.length).toNat < 2 ^ 64 := by
  have length : timestamps.length = data.length := by rw [order.length_eq, List.length_map]
  have bounds := timestampBounds_window nonempty order
  have guarded : deltaIndex data.length ≤ deltaTimestamp (deltaIndex data.length) (lowerTimestamp data)
      (upperTimestamp data) ↔ (lowerTimestamp data).toNat + (deltaIndex data.length).toNat < 2 ^ 64 :=
    deltaIndex_le_deltaTimestamp_iff (lowerTimestamp_le nonempty)
  have index := toNat_deltaIndex (List.length_pos_iff.mpr nonempty) (by omega : data.length < 2 ^ 64)
  rw [bounds, length]
  constructor
  · rintro ⟨-, atLeast, -⟩
    exact guarded.mp atLeast
  · intro fits
    refine ⟨?_, guarded.mpr fits, fun message failed => ?_⟩
    · rw [UInt64.le_iff_toNat_le, index, UInt64.toNat_one]
      omega
    · obtain ⟨isLeast, isGreatest⟩ := difficultyRange_spec (difficultiesWithin_nonempty nonempty)
      obtain ⟨-, result⟩ := nextDifficulty_of_divisor consensus bounds isGreatest isLeast
        (by rw [length]; exact divisor_ne_zero nonempty (by omega) fits)
      refine ⟨_, _, isGreatest, isLeast, ?_⟩
      by_contra low
      obtain ⟨difficulty, ok, -⟩ := result (Nat.not_le.mp low)
      rw [ok] at failed
      cases failed

end Result

/-- Two blocks and an uncle, collected in two orders. -/
theorem nextDifficulty_spec_reordered :
    @nextDifficulty .exact consensusMini [30, 10, 20] [⟨⟨900000, 0⟩, 20⟩, ⟨⟨500000, 0⟩, 10⟩, ⟨⟨700000, 0⟩, 30⟩] =
      .ok ⟨200000, 0⟩ ∧
    @nextDifficulty .exact consensusMini [10, 20, 30] [⟨⟨500000, 0⟩, 10⟩, ⟨⟨700000, 0⟩, 30⟩, ⟨⟨900000, 0⟩, 20⟩] =
      .ok ⟨200000, 0⟩ := by
  have run : @nextDifficulty .exact consensusMini [30, 10, 20]
      [⟨⟨900000, 0⟩, 20⟩, ⟨⟨500000, 0⟩, 10⟩, ⟨⟨700000, 0⟩, 30⟩] = .ok ⟨200000, 0⟩ := by decide +kernel
  obtain ⟨-, -, reordered⟩ := @nextDifficulty_spec .exact consensusMini [30, 10, 20]
    [⟨⟨900000, 0⟩, 20⟩, ⟨⟨500000, 0⟩, 10⟩, ⟨⟨700000, 0⟩, 30⟩] (by decide) (by decide) (by decide)
  exact ⟨run, (reordered _ _ (by decide) (by decide)).trans run⟩

/-- Two blocks at the last second of the 64-bit clock: the guard's sum wraps to zero, the
divisor is zero, and the window has no difficulty although nothing overflows. -/
theorem divisor_wraps :
    deltaTimestamp (deltaIndex 2) (timestampBounds [2 ^ 64 - 1, 2 ^ 64 - 1]).1
        (timestampBounds [2 ^ 64 - 1, 2 ^ 64 - 1]).2 < deltaIndex 2 ∧
    @nextDifficulty .exact consensusMini [2 ^ 64 - 1, 2 ^ 64 - 1]
        [⟨⟨1, 0⟩, 2 ^ 64 - 1⟩, ⟨⟨2, 0⟩, 2 ^ 64 - 1⟩] =
      .error "panic in NextDifficulty, wrap occured?: runtime error: integer divide by zero" ∧
    ¬ ProductOverflows consensusMini [⟨⟨1, 0⟩, 2 ^ 64 - 1⟩, ⟨⟨2, 0⟩, 2 ^ 64 - 1⟩] := by
  refine ⟨by decide +kernel, by decide +kernel, ?_⟩
  rintro ⟨M, m, ⟨⟨entry, mem, -, rfl⟩, -⟩, -, overflow⟩
  have small : entry.cumulativeDifficulty.toNat ≤ 2 := by
    simp only [List.mem_cons, List.not_mem_nil, or_false] at mem
    rcases mem with rfl | rfl <;> decide
  have time : consensusMini.targetBlockTime.toNat = 10 := rfl
  rw [time] at overflow
  omega

/-- Two blocks ten seconds apart. -/
theorem deltaIndex_le_divisor_pair :
    1 ≤ deltaIndex 2 ∧ deltaIndex 2 ≤ deltaTimestamp (deltaIndex 2) (timestampBounds [20, 10]).1
      (timestampBounds [20, 10]).2 ∧
    ∀ message, @nextDifficulty .exact consensusMini [20, 10] [⟨⟨1, 0⟩, 10⟩, ⟨⟨2, 0⟩, 20⟩] = .error message →
      ProductOverflows consensusMini [⟨⟨1, 0⟩, 10⟩, ⟨⟨2, 0⟩, 20⟩] :=
  (@deltaIndex_le_divisor_iff .exact consensusMini [20, 10] [⟨⟨1, 0⟩, 10⟩, ⟨⟨2, 0⟩, 20⟩] (by decide)
    (by decide) (by decide)).mpr (by decide +kernel)

end P2PoolObserver
