/-
# Sidechain.SplitReward -- rewards are exact and proportional

`SplitReward` computes with wrapping words.  The differences telescope, so that its final check
compares the reward with the last cumulative part (`foldl_splitRewardLoop`); that part is the
reward exactly when the product of total weight and reward fits in 128 bits
(`cumulativePart_total_iff`).
-/
import P2PoolObserver.Sidechain.Shares
import P2PoolObserver.Lib.Split

namespace P2PoolObserver

open Lib

namespace Shares

def weights (shares : Shares) : List Nat := shares.map fun share => share.weight.toNat

theorem weights_cons (share : Share) (rest : List Share) :
    weights (share :: rest) = share.weight.toNat :: weights rest := rfl

def totalWeight (shares : Shares) : Difficulty :=
  shares.foldl (fun total share => total.add share.weight) Difficulty.zeroDifficulty

theorem toNat_totalWeight {shares : Shares} (fits : shares.weights.sum < 2 ^ 128) :
    shares.totalWeight.toNat = shares.weights.sum := by
  rw [totalWeight, Difficulty.toNat_foldl_add Share.weight, Difficulty.toNat_zeroDifficulty, Nat.zero_add]
  exact Nat.mod_eq_of_lt fits

end Shares

theorem Difficulty.toNat_lo (d : Difficulty) : d.lo.toNat = d.toNat % 2 ^ 64 := by
  have bound := d.lo.toNat_lt
  simp only [Difficulty.toNat]
  omega

section Rewards

variable [Uint128Package] {reward : UInt64} {totalWeight : Difficulty}

/-! ## The final check -/

def cumulativePart (reward : UInt64) (totalWeight w : Difficulty) : UInt64 :=
  ((w.mul64 reward).div totalWeight).lo

def lastGiven (reward : UInt64) (totalWeight : Difficulty) : Difficulty → UInt64 → Shares → UInt64
  | _, given, [] => given
  | w, _, share :: rest => lastGiven reward totalWeight (w.add share.weight)
      (cumulativePart reward totalWeight (w.add share.weight)) rest

theorem foldl_splitRewardLoop : ∀ (w : Difficulty) (given : UInt64) (shares : Shares) (sum : UInt64),
    (splitRewardLoop reward totalWeight w given shares).foldl (· + ·) sum =
      sum + (lastGiven reward totalWeight w given shares - given)
  | _, given, [], sum => by
    simp [splitRewardLoop, lastGiven]
  | w, given, share :: rest, sum => by
    rw [splitRewardLoop, List.foldl_cons, foldl_splitRewardLoop, lastGiven, cumulativePart]
    generalize (((w.add share.weight).mul64 reward).div totalWeight).lo = next
    generalize lastGiven reward totalWeight (w.add share.weight) next rest = last
    grind

theorem lastGiven_eq : ∀ (w : Difficulty) (given : UInt64) (shares : Shares), shares ≠ [] →
    lastGiven reward totalWeight w given shares = cumulativePart reward totalWeight
      (shares.foldl (fun d share => d.add share.weight) w)
  | _, _, [], nonempty => absurd rfl nonempty
  | _, _, [_], _ => rfl
  | w, _, share :: next :: rest, _ =>
    lastGiven_eq (w.add share.weight) (cumulativePart reward totalWeight (w.add share.weight))
      (next :: rest) (List.cons_ne_nil _ _)

theorem cumulativePart_total_iff (pos : 0 < totalWeight.toNat) :
    cumulativePart reward totalWeight totalWeight = reward ↔ totalWeight.toNat * reward.toNat < 2 ^ 128 := by
  have small := reward.toNat_lt
  have quotient : (cumulativePart reward totalWeight totalWeight).toNat =
      totalWeight.toNat * reward.toNat % 2 ^ 128 / totalWeight.toNat % 2 ^ 64 := by
    rw [cumulativePart, Difficulty.toNat_lo, Difficulty.toNat_div pos.ne', Difficulty.toNat_mul64]
  rw [← UInt64.toNat_inj, quotient]
  constructor
  · intro whole
    by_contra wraps
    -- a wrapped product is smaller by at least `2 ^ 128`, which is more than the divisor
    have less : totalWeight.toNat * reward.toNat % 2 ^ 128 / totalWeight.toNat < reward.toNat := by
      rw [Nat.div_lt_iff_lt_mul pos, Nat.mul_comm reward.toNat]
      exact Nat.lt_of_lt_of_le (Nat.mod_lt _ (by norm_num)) (Nat.not_lt.mp wraps)
    rw [Nat.mod_eq_of_lt (less.trans small)] at whole
    omega
  · intro fits
    rw [Nat.mod_eq_of_lt fits, Nat.mul_div_cancel_left _ pos, Nat.mod_eq_of_lt small]

/-! ## The loop without wrapping -/

theorem toNat_cumulativePart {w : Difficulty} (pos : 0 < totalWeight.toNat)
    (fits : totalWeight.toNat * reward.toNat < 2 ^ 128) (le : w.toNat ≤ totalWeight.toNat) :
    (cumulativePart reward totalWeight w).toNat = portion reward.toNat totalWeight.toNat w.toNat := by
  have product : w.toNat * reward.toNat < 2 ^ 128 :=
    Nat.lt_of_le_of_lt (Nat.mul_le_mul_right _ le) fits
  have part : portion reward.toNat totalWeight.toNat w.toNat < 2 ^ 64 :=
    Nat.lt_of_le_of_lt (portion_le pos le) reward.toNat_lt
  rw [cumulativePart, Difficulty.toNat_lo, Difficulty.toNat_div pos.ne', Difficulty.toNat_mul64,
    Nat.mod_eq_of_lt product]
  exact Nat.mod_eq_of_lt part

theorem toNat_splitRewardLoop (pos : 0 < totalWeight.toNat)
    (fits : totalWeight.toNat * reward.toNat < 2 ^ 128) (w : Difficulty) (given : UInt64) (shares : Shares)
    (before : given.toNat = portion reward.toNat totalWeight.toNat w.toNat)
    (bound : w.toNat + shares.weights.sum ≤ totalWeight.toNat) :
    (splitRewardLoop reward totalWeight w given shares).map UInt64.toNat =
      cumulativeSplit reward.toNat totalWeight.toNat w.toNat shares.weights := by
  induction shares generalizing w given with
  | nil => rfl
  | cons share rest ih =>
    rw [Shares.weights_cons, List.sum_cons] at bound
    have sum : (w.add share.weight).toNat = w.toNat + share.weight.toNat := by
      refine Difficulty.toNat_add_of_lt (Nat.lt_of_le_of_lt ?_ totalWeight.toNat_lt)
      omega
    have part : (cumulativePart reward totalWeight (w.add share.weight)).toNat =
        portion reward.toNat totalWeight.toNat (w.toNat + share.weight.toNat) := by
      rw [toNat_cumulativePart pos fits, sum]
      omega
    have later := ih (w.add share.weight) (cumulativePart reward totalWeight (w.add share.weight))
      (by rw [part, sum]) (by rw [sum]; omega)
    have grows : given ≤ cumulativePart reward totalWeight (w.add share.weight) := by
      rw [UInt64.le_iff_toNat_le, before, part]
      exact portion_mono (Nat.le_add_right _ _)
    rw [splitRewardLoop, List.map_cons, Shares.weights_cons, cumulativeSplit, ← sum, ← later]
    congr 1
    rw [sum, ← part, ← before]
    exact UInt64.toNat_sub_of_le _ _ grows

theorem splitReward_eq (shares : Shares) : splitReward reward shares =
    if shares.totalWeight.toNat = 0 then none
    else if cumulativePart reward shares.totalWeight shares.totalWeight ≠ reward then none
    else some (splitRewardLoop reward shares.totalWeight Difficulty.zeroDifficulty 0 shares) := by
  unfold splitReward
  dsimp only
  rw [show shares.foldl (fun total share => total.add share.weight) Difficulty.zeroDifficulty =
    shares.totalWeight from rfl]
  by_cases none : shares.totalWeight.toNat = 0
  · rw [if_pos ((Difficulty.equals64_iff _ _).mpr none), if_pos none]
  · have nonempty : shares ≠ [] := by
      rintro rfl
      exact none rfl
    rw [if_neg (fun zero => none ((Difficulty.equals64_iff _ _).mp zero)), if_neg none,
      foldl_splitRewardLoop, lastGiven_eq _ _ _ nonempty, UInt64.sub_zero, UInt64.zero_add]
    rfl

/-- The rewards are exact and proportional. -/
theorem splitReward_proportional (reward : UInt64) (shares : Shares)
    (fits : shares.weights.sum < 2 ^ 128) :
    ((splitReward reward shares).isSome = true ↔
      0 < shares.weights.sum ∧ shares.weights.sum * reward.toNat < 2 ^ 128) ∧
    ∀ rewards, splitReward reward shares = some rewards →
      ∃ length : rewards.length = shares.length,
        (∀ i (bound : i < shares.length),
          rewards[i].toNat + (shares.weights.take i).sum * reward.toNat / shares.weights.sum =
            (shares.weights.take (i + 1)).sum * reward.toNat / shares.weights.sum ∧
          |(rewards[i].toNat : ℚ) - (shares[i].weight.toNat : ℚ) * reward.toNat / shares.weights.sum| < 1 ∧
          (shares[i].weight.toNat = 0 → rewards[i] = 0)) ∧
        (rewards.map UInt64.toNat).sum = reward.toNat := by
  have total := Shares.toNat_totalWeight fits
  have check : (splitReward reward shares).isSome = true ↔
      0 < shares.weights.sum ∧ shares.weights.sum * reward.toNat < 2 ^ 128 := by
    rw [splitReward_eq, total]
    by_cases pos : 0 < shares.weights.sum
    · have whole : cumulativePart reward shares.totalWeight shares.totalWeight = reward ↔
          shares.totalWeight.toNat * reward.toNat < 2 ^ 128 :=
        cumulativePart_total_iff (by rwa [total])
      rw [total] at whole
      rw [if_neg pos.ne', ← whole]
      split_ifs with differs
      · simp [differs]
      · simpa [pos] using differs
    · rw [if_pos (by omega)]
      simp [pos]
  refine ⟨check, fun rewards split => ?_⟩
  obtain ⟨pos, product⟩ := check.mp (by rw [split]; rfl)
  have length := (splitReward_eq_some split).1
  -- no step of the loop has wrapped
  have exactly : rewards.map UInt64.toNat =
      cumulativeSplit reward.toNat shares.weights.sum 0 shares.weights := by
    rw [splitReward_eq] at split
    split_ifs at split
    cases split
    have positive : 0 < shares.totalWeight.toNat := by rwa [total]
    have loop := toNat_splitRewardLoop positive (by rwa [total]) Difficulty.zeroDifficulty 0 shares
      (by rw [Difficulty.toNat_zeroDifficulty, portion_zero]; rfl)
      (by rw [Difficulty.toNat_zeroDifficulty, total, Nat.zero_add])
    rwa [Difficulty.toNat_zeroDifficulty, total] at loop
  refine ⟨length, fun i bound => ?_, ?_⟩
  · have weight : (shares.weights.take (i + 1)).sum =
        (shares.weights.take i).sum + shares[i].weight.toNat := by
      rw [List.take_succ_eq_append_getElem (by simpa [Shares.weights] using bound), List.sum_append]
      simp [Shares.weights]
    have part := cumulativeSplit_getElem (R := reward.toNat) (T := shares.weights.sum) 0 shares.weights i
      (by rw [← exactly]; simpa [length] using bound)
    simp only [← exactly, List.getElem_map, Nat.zero_add] at part
    refine ⟨part, ?_, fun zero => ?_⟩
    · rw [weight] at part
      exact cumulativePart_near pos part
    · rw [weight, zero, Nat.add_zero] at part
      exact UInt64.toNat_inj.mp (Nat.add_right_cancel (part.trans (Nat.zero_add _).symm))
  · have sum := sum_cumulativeSplit (R := reward.toNat) (T := shares.weights.sum) 0 shares.weights
    rw [portion_zero, Nat.zero_add, Nat.zero_add, portion_total pos] at sum
    rw [exactly, sum]

end Rewards

/-- Three shares of weights 1, 0 and 2, and a reward that is no multiple of three. -/
theorem splitReward_proportional_thirds :
    @splitReward .exact 100 [⟨⟨0, 0⟩, ⟨1, 0⟩⟩, ⟨⟨1, 0⟩, ⟨0, 0⟩⟩, ⟨⟨2, 0⟩, ⟨2, 0⟩⟩] = some [33, 0, 67] ∧
    ([(33 : UInt64), 0, 67].map UInt64.toNat).sum = 100 := by
  have split : @splitReward .exact 100 [⟨⟨0, 0⟩, ⟨1, 0⟩⟩, ⟨⟨1, 0⟩, ⟨0, 0⟩⟩, ⟨⟨2, 0⟩, ⟨2, 0⟩⟩] =
      some [33, 0, 67] := by decide +kernel
  obtain ⟨-, -, sum⟩ := (@splitReward_proportional .exact 100 _ (by decide)).2 _ split
  exact ⟨split, sum⟩

end P2PoolObserver
