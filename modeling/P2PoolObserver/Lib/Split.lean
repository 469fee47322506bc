/-
# Lib.Split -- dividing an amount by cumulative weights

An amount `R` is divided over weights of total `T` by rounding the cumulative parts
down: after weights of sum `S`, `portion R T S` has been given out, and each weight gets
the difference of two consecutive portions.
-/
import Mathlib.Algebra.Order.Field.Basic
import Mathlib.Algebra.Order.Field.Rat
import Mathlib.Data.Rat.Cast.Order
import Mathlib.Tactic.FieldSimp
import Mathlib.Tactic.Linarith
import Mathlib.Tactic.Ring

namespace P2PoolObserver.Lib

/-- What of `R` belongs to the first `S` of `T`, rounded down. -/
def portion (R T S : Nat) : Nat := S * R / T

/-- The parts of the weights after those of sum `S`. -/
def cumulativeSplit (R T : Nat) : Nat → List Nat → List Nat
  | _, [] => []
  | S, w :: ws => (portion R T (S + w) - portion R T S) :: cumulativeSplit R T (S + w) ws

variable {R T : Nat}

theorem portion_mono {S S' : Nat} (le : S ≤ S') : portion R T S ≤ portion R T S' :=
  Nat.div_le_div_right (Nat.mul_le_mul_right R le)

theorem portion_zero : portion R T 0 = 0 := by
  simp [portion]

theorem portion_total (pos : 0 < T) : portion R T T = R :=
  Nat.mul_div_cancel_left R pos

theorem portion_le {S : Nat} (pos : 0 < T) (le : S ≤ T) : portion R T S ≤ R :=
  (portion_mono le).trans_eq (portion_total pos)

theorem sum_cumulativeSplit : ∀ (S : Nat) (ws : List Nat),
    portion R T S + (cumulativeSplit R T S ws).sum = portion R T (S + ws.sum)
  | S, [] => rfl
  | S, w :: ws => by
    have rest := sum_cumulativeSplit (S + w) ws
    have mono : portion R T S ≤ portion R T (S + w) := portion_mono (Nat.le_add_right S w)
    rw [cumulativeSplit, List.sum_cons, List.sum_cons, ← Nat.add_assoc S w, ← rest]
    omega

theorem cumulativeSplit_getElem : ∀ (S : Nat) (ws : List Nat) (i : Nat)
    (bound : i < (cumulativeSplit R T S ws).length),
    (cumulativeSplit R T S ws)[i] + portion R T (S + (ws.take i).sum) = portion R T (S + (ws.take (i + 1)).sum)
  | S, w :: ws, 0, _ => by
    have mono : portion R T S ≤ portion R T (S + w) := portion_mono (Nat.le_add_right S w)
    simp only [cumulativeSplit, List.getElem_cons_zero, List.take_zero, List.sum_nil, Nat.add_zero,
      Nat.zero_add, List.take_succ_cons, List.sum_cons]
    omega
  | S, w :: ws, i + 1, bound => by
    have rest := cumulativeSplit_getElem (S + w) ws i (by simpa [cumulativeSplit] using bound)
    simpa only [cumulativeSplit, List.getElem_cons_succ, List.take_succ_cons, List.sum_cons,
      Nat.add_assoc] using rest

theorem cumulativePart_near (pos : 0 < T) {S w r : Nat}
    (part : r + portion R T S = portion R T (S + w)) : |(r : ℚ) - (w : ℚ) * R / T| < 1 := by
  have posQ : (0 : ℚ) < T := by exact_mod_cast pos
  -- both portions are at most one below the exact value
  have exactly : ∀ n : Nat, (portion R T n : ℚ) ≤ (n : ℚ) * R / T ∧
      (n : ℚ) * R / T < (portion R T n : ℚ) + 1 := by
    intro n
    constructor
    · rw [le_div_iff₀ posQ]
      exact_mod_cast Nat.div_mul_le_self (n * R) T
    · rw [div_lt_iff₀ posQ]
      have step : n * R < (portion R T n + 1) * T :=
        Nat.lt_mul_of_div_lt (Nat.lt_succ_self (n * R / T)) pos
      exact_mod_cast step
  obtain ⟨low, high⟩ := exactly S
  obtain ⟨low', high'⟩ := exactly (S + w)
  have sum : (r : ℚ) + portion R T S = portion R T (S + w) := by exact_mod_cast part
  have split : ((S + w : Nat) : ℚ) * R / T = (S : ℚ) * R / T + (w : ℚ) * R / T := by
    push_cast
    ring
  rw [split] at low' high'
  rw [abs_lt]
  constructor <;> linarith

end P2PoolObserver.Lib
