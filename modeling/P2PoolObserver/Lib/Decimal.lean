/-
# Lib.Decimal -- numbers in decimal

`decimal` writes a number with the digits of `Nat.digits`; `decimalValue` is what digits
spell.  A number comes back from what was written (`decimalValue_decimal`), and reading from
the left, digit by digit, only ever grows the value (`decimalValue_append`).
-/
import P2PoolObserver.Lib.Bytes
import Mathlib.Data.List.Induction
import Mathlib.Data.Nat.Digits.Defs

namespace P2PoolObserver.Lib

def isDigit (c : UInt8) : Bool := 48 ≤ c && c ≤ 57

def digitValue (c : UInt8) : Nat := c.toNat - 48

def IsDecimal (s : Bytes) : Prop := s ≠ [] ∧ s.all isDigit = true

instance (s : Bytes) : Decidable (IsDecimal s) := inferInstanceAs (Decidable (_ ∧ _))

def decimalValue (s : Bytes) : Nat := s.foldl (fun v c => 10 * v + digitValue c) 0

def digitChar (d : Nat) : UInt8 := UInt8.ofNat (48 + d)

def decimal (n : Nat) : Bytes := if n = 0 then [digitChar 0] else ((Nat.digits 10 n).map digitChar).reverse

/-! ## Digits -/

theorem isDigit_digitChar {d : Nat} (small : d < 10) : isDigit (digitChar d) = true := by
  have all : ∀ d < 10, isDigit (digitChar d) = true := by decide
  exact all d small

theorem digitValue_digitChar {d : Nat} (small : d < 10) : digitValue (digitChar d) = d := by
  have all : ∀ d < 10, digitValue (digitChar d) = d := by decide
  exact all d small

theorem digitValue_lt {c : UInt8} (digit : isDigit c = true) : digitValue c < 10 := by
  simp only [isDigit, Bool.and_eq_true, decide_eq_true_eq, UInt8.le_iff_toNat_le, UInt8.reduceToNat] at digit
  unfold digitValue
  omega

/-! ## Values -/

theorem decimalValue_append (s : Bytes) (c : UInt8) :
    decimalValue (s ++ [c]) = 10 * decimalValue s + digitValue c := by
  rw [decimalValue, List.foldl_append]
  rfl

theorem foldl_decimalValue (s : Bytes) (v : Nat) :
    s.foldl (fun v c => 10 * v + digitValue c) v = v * 10 ^ s.length + decimalValue s := by
  induction s generalizing v with
  | nil => simp [decimalValue]
  | cons c s ih =>
    rw [decimalValue, List.foldl_cons, List.foldl_cons, ih, ih, List.length_cons, pow_succ]
    ring

theorem le_foldl_decimalValue (s : Bytes) (v : Nat) : v ≤ s.foldl (fun v c => 10 * v + digitValue c) v := by
  rw [foldl_decimalValue]
  exact Nat.le_add_right_of_le (Nat.le_mul_of_pos_right v (Nat.pow_pos (by decide)))

theorem decimalValue_lt {s : Bytes} (digits : s.all isDigit = true) : decimalValue s < 10 ^ s.length := by
  induction s using List.reverseRecOn with
  | nil => simp [decimalValue]
  | append_singleton s c ih =>
    rw [List.all_append, Bool.and_eq_true, List.all_cons, List.all_nil, Bool.and_true] at digits
    have first := ih digits.1
    have last := digitValue_lt digits.2
    rw [decimalValue_append, List.length_append, List.length_singleton, pow_succ]
    omega

/-! ## Writing -/

theorem all_digits {n d : Nat} (digit : d ∈ Nat.digits 10 n) : d < 10 := Nat.digits_lt_base (by decide) digit

theorem isDecimal_decimal (n : Nat) : IsDecimal (decimal n) := by
  unfold decimal
  split_ifs with zero
  · decide
  · constructor
    · simpa using Nat.digits_ne_nil_iff_ne_zero.mpr zero
    · rw [List.all_reverse, List.all_map, List.all_eq_true]
      exact fun d digit => isDigit_digitChar (all_digits digit)

theorem decimalValue_reverse {ds : List Nat} (small : ∀ d ∈ ds, d < 10) :
    decimalValue (ds.map digitChar).reverse = Nat.ofDigits 10 ds := by
  induction ds with
  | nil => rfl
  | cons d ds ih =>
    obtain ⟨first, rest⟩ := List.forall_mem_cons.mp small
    rw [List.map_cons, List.reverse_cons, decimalValue_append, ih rest, digitValue_digitChar first, Nat.ofDigits_cons]
    simp [Nat.add_comm]

theorem decimalValue_decimal (n : Nat) : decimalValue (decimal n) = n := by
  unfold decimal
  split_ifs with zero
  · rw [zero]
    rfl
  · rw [decimalValue_reverse fun _ digit => all_digits digit, Nat.ofDigits_digits]

theorem decimal_inj {n m : Nat} (same : decimal n = decimal m) : n = m := by
  rw [← decimalValue_decimal n, same, decimalValue_decimal]

end P2PoolObserver.Lib
