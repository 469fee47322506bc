/-
# Lib.Limbs -- numbers in signed limbs

A number is a sum of limbs times powers of a base; limbs may be negative or too large.

* `value_carry`: to carry from a limb to the next one leaves the number as it is.
* `digit_normalize`: carrying the quotients from the lowest limb on leaves digits.
* `top_eq`: above digits stands the quotient of the number.
-/
import Mathlib.Algebra.BigOperators.Intervals
import Mathlib.Algebra.BigOperators.Ring.Finset
import Mathlib.Algebra.Order.BigOperators.Group.Finset
import Mathlib.Tactic.Linarith
import Mathlib.Tactic.Ring

namespace P2PoolObserver.Lib

abbrev Limbs := Nat → Int

namespace Limbs

variable (base : Int)

def value (n : Nat) (s : Limbs) : Int := ∑ i ∈ Finset.range n, s i * base ^ i

/-- Limb `i` is lowered by `c` times the base, and the next one raised by `c`. -/
def carry (c : Int) (i : Nat) (s : Limbs) : Limbs := fun j =>
  if j = i then s j - c * base else if j = i + 1 then s j + c else s j

def normalize (n : Nat) (s : Limbs) : Limbs := (List.range n).foldl (fun s i => carry base (s i / base) i s) s

variable {base} {n i j : Nat} {c : Int} {s t : Limbs}

theorem value_succ (n : Nat) (s : Limbs) : value base (n + 1) s = value base n s + s n * base ^ n :=
  Finset.sum_range_succ _ _

theorem value_congr (same : ∀ j < n, s j = t j) : value base n s = value base n t :=
  Finset.sum_congr rfl fun j mem => by rw [same j (Finset.mem_range.mp mem)]

/-! ## Carrying -/

theorem carry_self : carry base c i s i = s i - c * base := if_pos rfl

theorem carry_succ : carry base c i s (i + 1) = s (i + 1) + c := by
  rw [carry, if_neg (by omega), if_pos rfl]

theorem carry_of_ne (own : j ≠ i) (next : j ≠ i + 1) : carry base c i s j = s j := by
  rw [carry, if_neg own, if_neg next]

theorem value_carry (inside : i + 1 < n) : value base n (carry base c i s) = value base n s := by
  induction n, inside using Nat.le_induction with
  | base =>
    have below : value base i (carry base c i s) = value base i s :=
      value_congr fun j small => carry_of_ne (by omega) (by omega)
    rw [value_succ, value_succ, value_succ, value_succ, below, carry_self, carry_succ, pow_succ]
    ring
  | succ n more ih =>
    have above : carry base c i s n = s n := carry_of_ne (by omega) (by omega)
    rw [value_succ, value_succ, ih, above]

/-! ## Digits -/

theorem value_digits (positive : 0 < base) (digits : ∀ j < n, 0 ≤ s j ∧ s j < base) :
    0 ≤ value base n s ∧ value base n s < base ^ n := by
  induction n with
  | zero => simp [value]
  | succ n ih =>
    obtain ⟨low, high⟩ := ih fun j small => digits j (Nat.lt_succ_of_lt small)
    obtain ⟨nonneg, less⟩ := digits n (Nat.lt_succ_self n)
    have power : 0 < base ^ n := pow_pos positive n
    have upper : s n * base ^ n ≤ (base - 1) * base ^ n :=
      Int.mul_le_mul_of_nonneg_right (by omega) power.le
    rw [value_succ, pow_succ]
    constructor
    · have lower : 0 ≤ s n * base ^ n := mul_nonneg nonneg power.le
      omega
    · linarith

theorem top_eq (positive : 0 < base) (digits : ∀ j < n, 0 ≤ s j ∧ s j < base) :
    s n = value base (n + 1) s / base ^ n := by
  obtain ⟨low, high⟩ := value_digits positive digits
  rw [value_succ, Int.add_mul_ediv_right _ _ (pow_pos positive n).ne', Int.ediv_eq_zero_of_lt low high, zero_add]

theorem normalize_succ (n : Nat) (s : Limbs) :
    normalize base (n + 1) s = carry base (normalize base n s n / base) n (normalize base n s) := by
  rw [normalize, List.range_succ, List.foldl_append]
  rfl

theorem digit_normalize (positive : 0 < base) (small : j < n) :
    0 ≤ normalize base n s j ∧ normalize base n s j < base := by
  induction n with
  | zero => exact absurd small (Nat.not_lt_zero j)
  | succ n ih =>
    rw [normalize_succ]
    by_cases last : j = n
    · subst last
      have remainder : normalize base j s j - normalize base j s j / base * base = normalize base j s j % base := by
        rw [Int.emod_def, mul_comm]
      rw [carry_self, remainder]
      exact ⟨Int.emod_nonneg _ positive.ne', Int.emod_lt_of_pos _ positive⟩
    · rw [carry_of_ne last (by omega)]
      exact ih (by omega)

theorem normalize_of_lt (above : n < j) : normalize base n s j = s j := by
  induction n with
  | zero => rfl
  | succ n ih =>
    rw [normalize_succ, carry_of_ne (by omega) (by omega)]
    exact ih (by omega)

theorem value_normalize {m : Nat} (inside : n < m) : value base m (normalize base n s) = value base m s := by
  induction n with
  | zero => rfl
  | succ n ih =>
    rw [normalize_succ, value_carry inside]
    exact ih (by omega)

/-! ## Bounds -/

theorem value_le {m : Int} (nonneg : 0 ≤ base) (small : ∀ j < n, s j ≤ m) :
    value base n s ≤ m * value base n fun _ => 1 := by
  rw [value, value, Finset.mul_sum]
  refine Finset.sum_le_sum fun j mem => ?_
  rw [one_mul]
  exact mul_le_mul_of_nonneg_right (small j (Finset.mem_range.mp mem)) (pow_nonneg nonneg j)

theorem value_neg (n : Nat) (s : Limbs) : value base n (fun j => -s j) = -value base n s := by
  rw [value, value, ← Finset.sum_neg_distrib]
  exact Finset.sum_congr rfl fun j _ => neg_mul _ _

theorem value_digitsOf {b v : Nat} (n : Nat) :
    value b n (fun j => ((v / b ^ j % b : Nat) : Int)) = ((v % b ^ n : Nat) : Int) := by
  induction n with
  | zero => simp [value, Nat.mod_one]
  | succ n ih =>
    rw [value_succ, ih, pow_succ, Nat.mod_mul]
    push_cast
    ring

theorem digit_eq (positive : 0 < base) (digits : ∀ j < n, 0 ≤ s j ∧ s j < base) (small : j < n) :
    s j = value base (n + 1) s / base ^ j % base := by
  induction n with
  | zero => exact absurd small (Nat.not_lt_zero j)
  | succ n ih =>
    have fewer : ∀ j < n, 0 ≤ s j ∧ s j < base := fun j less => digits j (Nat.lt_succ_of_lt less)
    have power : base ^ j ≠ 0 := (pow_pos positive j).ne'
    have above : value base (n + 1 + 1) s / base ^ j % base = value base (n + 1) s / base ^ j % base := by
      obtain ⟨k, rfl⟩ : ∃ k, n = j + k := ⟨n - j, by omega⟩
      have split : s (j + k + 1) * base ^ (j + k + 1) = s (j + k + 1) * base ^ k * base * base ^ j := by ring
      rw [value_succ (j + k + 1), split, Int.add_mul_ediv_right _ _ power, Int.add_mul_emod_self_right]
    rw [above]
    by_cases last : j = n
    · subst last
      rw [← top_eq positive fewer]
      exact (Int.emod_eq_of_lt (digits j small).1 (digits j small).2).symm
    · exact ih fewer (by omega)

end Limbs

/-! ## Bits -/

def bitsAt (v i w : Nat) : Nat := v / 2 ^ i % 2 ^ w

theorem testBit_bitsAt (v i w k : Nat) : (bitsAt v i w).testBit k = (decide (k < w) && v.testBit (k + i)) := by
  rw [bitsAt, Nat.testBit_mod_two_pow, Nat.testBit_div_two_pow]

theorem bitsAt_bitsAt {v i w o u : Nat} (inside : o + u ≤ w) : bitsAt (bitsAt v i w) o u = bitsAt v (i + o) u := by
  apply Nat.eq_of_testBit_eq
  intro k
  rw [testBit_bitsAt, testBit_bitsAt, testBit_bitsAt]
  by_cases small : k < u
  · have within : k + o < w := by omega
    rw [decide_eq_true small, decide_eq_true within, Bool.true_and, Nat.add_assoc, Nat.add_comm o i]
  · rw [decide_eq_false small, Bool.false_and, Bool.false_and]

theorem bitsAt_shiftRight (v i w o : Nat) : bitsAt v i w >>> o = bitsAt v (i + o) (w - o) := by
  apply Nat.eq_of_testBit_eq
  intro k
  rw [Nat.testBit_shiftRight, testBit_bitsAt, testBit_bitsAt, Nat.add_comm o k, Nat.add_assoc, Nat.add_comm o i]
  have same : k + o < w ↔ k < w - o := by omega
  rw [decide_eq_decide.mpr same]

theorem bitsAt_or_shiftLeft (v i w u : Nat) : bitsAt v i w ||| bitsAt v (i + w) u <<< w = bitsAt v i (w + u) := by
  apply Nat.eq_of_testBit_eq
  intro k
  rw [Nat.testBit_or, Nat.testBit_shiftLeft, testBit_bitsAt, testBit_bitsAt, testBit_bitsAt]
  by_cases low : k < w
  · have both : k < w + u := by omega
    have notHigh : ¬ k ≥ w := by omega
    rw [decide_eq_true low, decide_eq_true both, decide_eq_false notHigh, Bool.false_and, Bool.or_false]
  · have high : k ≥ w := by omega
    have place : k - w + (i + w) = k + i := by omega
    have same : k - w < u ↔ k < w + u := by omega
    rw [decide_eq_false low, decide_eq_true high, place, decide_eq_decide.mpr same, Bool.false_and, Bool.false_or,
      Bool.true_and]

end P2PoolObserver.Lib
