/-
# Utils.ParseUint -- decimal numbers from text (`number.go`)

`ParseUint64` reads up to eighteen digits by itself, where nothing can overflow, and hands every
longer number to `strconv.ParseUint`, which is translated here for base 10 and 64 bits.  On
anything but digits both return an error.  They differ in the number that comes with it:
`ParseUint64` returns zero, and `strconv.ParseUint` the largest number if the value is out of
range (`parseUint64_eq_iff`).
-/
import P2PoolObserver.Lib.Decimal
import P2PoolObserver.Types
import Mathlib.Data.List.TakeWhile

namespace P2PoolObserver

open Lib

variable {s : Bytes}

/-! ## The source -/

inductive NumError where
  | errSyntax
  | errRange
  deriving DecidableEq

def maxUint64 : UInt64 := 0xFFFFFFFFFFFFFFFF

/-- The loop of `strconv.ParseUint(s, 10, 64)`; the number so far comes in. -/
def strconvParseUintLoop : Bytes → UInt64 → UInt64 × Option NumError
  | [], n => (n, none)
  | c :: rest, n =>
    if isDigit c = false then (0, some .errSyntax)
    else if n ≥ maxUint64 / 10 + 1 then (maxUint64, some .errRange)
    else
      let n10 := n * 10
      let n1 := n10 + UInt64.ofNat (digitValue c)
      if n1 < n10 then (maxUint64, some .errRange) else strconvParseUintLoop rest n1

def strconvParseUint (s : Bytes) : UInt64 × Option NumError :=
  if s = [] then (0, some .errSyntax) else strconvParseUintLoop s 0

inductive ParseError where
  | emptyString
  | notANumber (s : Bytes)
  | unparsedTail (s tail : Bytes)
  | strconv (err : NumError)
  deriving DecidableEq

def parseUint64Loop (s : Bytes) : Bytes → Nat → UInt64 → UInt64 × Option ParseError
  | c :: rest, i, d =>
    if isDigit c then
      if i + 1 > 18 then
        -- the number may be out of range
        match strconvParseUint s with
        | (_, some err) => (0, some (.strconv err))
        | (dd, none) => (dd, none)
      else parseUint64Loop s rest (i + 1) (d * 10 + UInt64.ofNat (digitValue c))
    else if i ≤ 0 then (0, some (.notANumber s))
    else (0, some (.unparsedTail s (c :: rest)))
  | [], i, d => if i ≤ 0 then (0, some (.notANumber s)) else (d, none)

def parseUint64 (s : Bytes) : UInt64 × Option ParseError :=
  if s.length = 0 then (0, some .emptyString) else parseUint64Loop s s 0 0

/-! ## `strconv.ParseUint` -/

theorem nextDigit {n : UInt64} {c : UInt8} (digit : isDigit c = true) (small : n.toNat < 1844674407370955162) :
    (n * 10 + UInt64.ofNat (digitValue c) < n * 10 ↔ 2 ^ 64 ≤ 10 * n.toNat + digitValue c) ∧
      (10 * n.toNat + digitValue c < 2 ^ 64 →
        (n * 10 + UInt64.ofNat (digitValue c)).toNat = 10 * n.toNat + digitValue c) := by
  have value := digitValue_lt digit
  have product : (n * 10).toNat = n.toNat * 10 := by
    rw [UInt64.toNat_mul]
    exact Nat.mod_eq_of_lt (by change n.toNat * 10 < _; omega)
  rw [UInt64.lt_iff_toNat_lt, UInt64.toNat_add, product, UInt64.toNat_ofNat']
  omega

/-- The range is checked at each digit, so that a number out of range is reported before a
byte behind it that is no digit. -/
theorem strconvParseUintLoop_eq : ∀ {s : Bytes} {n : UInt64}, strconvParseUintLoop s n =
    if 2 ^ 64 ≤ (s.takeWhile isDigit).foldl (fun v c => 10 * v + digitValue c) n.toNat then
      (maxUint64, some .errRange)
    else if s.all isDigit then
      (UInt64.ofNat ((s.takeWhile isDigit).foldl (fun v c => 10 * v + digitValue c) n.toNat), none)
    else (0, some .errSyntax) := by
  intro s
  induction s with
  | nil =>
    intro n
    rw [strconvParseUintLoop, List.takeWhile_nil, List.foldl_nil, if_neg (Nat.not_le.mpr n.toNat_lt),
      if_pos List.all_nil, UInt64.ofNat_toNat]
  | cons c s ih =>
    intro n
    rw [strconvParseUintLoop, List.takeWhile_cons, List.all_cons]
    cases digit : isDigit c with
    | false =>
      have small := n.toNat_lt
      simp [Nat.not_le.mpr small]
    | true =>
      have grows := le_foldl_decimalValue (s.takeWhile isDigit) (10 * n.toNat + digitValue c)
      have cutoff : n ≥ maxUint64 / 10 + 1 ↔ 1844674407370955162 ≤ n.toNat := by
        rw [ge_iff_le, UInt64.le_iff_toNat_le, show (maxUint64 / 10 + 1).toNat = 1844674407370955162 by decide]
      simp only [if_true, List.foldl_cons, Bool.true_and, Bool.true_eq_false, if_false]
      by_cases large : 1844674407370955162 ≤ n.toNat
      · rw [if_pos (cutoff.mpr large), if_pos (by omega)]
      · obtain ⟨beyond, sum⟩ := nextDigit digit (Nat.not_le.mp large)
        rw [if_neg fun more => large (cutoff.mp more)]
        by_cases overflow : 2 ^ 64 ≤ 10 * n.toNat + digitValue c
        · rw [if_pos (beyond.mpr overflow), if_pos (by omega)]
        · rw [if_neg fun less => overflow (beyond.mp less), ih, sum (Nat.not_le.mp overflow)]

theorem takeWhile_isDecimal (digits : IsDecimal s) : s.takeWhile isDigit = s :=
  List.takeWhile_eq_self_iff.mpr (List.all_eq_true.mp digits.2)

theorem strconvParseUint_eq (s : Bytes) : strconvParseUint s =
    if 2 ^ 64 ≤ decimalValue (s.takeWhile isDigit) then (maxUint64, some .errRange)
    else if IsDecimal s then (UInt64.ofNat (decimalValue s), none) else (0, some .errSyntax) := by
  by_cases digits : IsDecimal s
  · rw [strconvParseUint, if_neg digits.1, strconvParseUintLoop_eq, takeWhile_isDecimal digits, if_pos digits.2,
      if_pos digits]
    rfl
  · by_cases empty : s = []
    · subst empty
      rfl
    · have other : ¬ s.all isDigit = true := fun all => digits ⟨empty, all⟩
      rw [strconvParseUint, if_neg empty, strconvParseUintLoop_eq, if_neg other, if_neg digits]
      rfl

theorem strconvParseUint_digits (digits : IsDecimal s) :
    strconvParseUint s = if decimalValue s < 2 ^ 64 then (UInt64.ofNat (decimalValue s), none)
      else (maxUint64, some .errRange) := by
  rw [strconvParseUint_eq, takeWhile_isDecimal digits, if_pos digits]
  split_ifs <;> first | rfl | omega

theorem strconvParseUint_other (other : ¬ IsDecimal s) : (strconvParseUint s).2 ≠ none := by
  rw [strconvParseUint_eq, if_neg other]
  split_ifs
  · exact Option.some_ne_none _
  · exact Option.some_ne_none _

/-! ## `ParseUint64` -/

theorem parseUint64Loop_digits {s : Bytes} (digits : IsDecimal s) : ∀ {rest before : Bytes} {d : UInt64},
    s = before ++ rest → before.length ≤ 18 → d.toNat = decimalValue before →
      parseUint64Loop s rest before.length d =
        if decimalValue s < 2 ^ 64 then (UInt64.ofNat (decimalValue s), none) else (0, some (.strconv .errRange)) := by
  have bounded : ∀ {before : Bytes}, before.all isDigit = true → before.length ≤ 18 → decimalValue before < 10 ^ 18 :=
    fun all short => (decimalValue_lt all).trans_le (Nat.pow_le_pow_right (by decide) short)
  intro rest
  induction rest with
  | nil =>
    intro before d split short value
    rw [List.append_nil] at split
    subst split
    have small := bounded digits.2 short
    rw [parseUint64Loop, if_neg (Nat.not_le.mpr (List.length_pos_iff.mpr digits.1)), if_pos (by omega), ← value,
      UInt64.ofNat_toNat]
  | cons c rest ih =>
    intro before d split short value
    have all := digits.2
    rw [split, List.all_append, List.all_cons, Bool.and_eq_true, Bool.and_eq_true] at all
    obtain ⟨first, digit, -⟩ := all
    rw [parseUint64Loop, if_pos digit]
    by_cases long : before.length + 1 > 18
    · rw [if_pos long, strconvParseUint_digits digits]
      split_ifs
      · rfl
      · rfl
    · have small := bounded first short
      have last := digitValue_lt digit
      have next : (d * 10 + UInt64.ofNat (digitValue c)).toNat = decimalValue (before ++ [c]) := by
        rw [(nextDigit digit (by omega)).2 (by omega), decimalValue_append, value]
      have again := @ih (before ++ [c]) _ (by rw [split, List.append_assoc]; rfl)
        (by rw [List.length_append, List.length_singleton]; omega) next
      rw [List.length_append, List.length_singleton] at again
      rw [if_neg long, again]

theorem parseUint64Loop_other (other : ¬ IsDecimal s) : ∀ {rest : Bytes} {i : Nat} {d : UInt64},
    rest.all isDigit = false → (parseUint64Loop s rest i d).2 ≠ none := by
  intro rest
  induction rest with
  | nil =>
    intro i d stops
    cases stops
  | cons c rest ih =>
    intro i d stops
    rw [parseUint64Loop]
    split_ifs with digit long
    · have fails := strconvParseUint_other other
      split
      · exact Option.some_ne_none _
      · rename_i same
        rw [same] at fails
        exact absurd rfl fails
    · rw [List.all_cons, digit, Bool.true_and] at stops
      exact ih stops
    · exact Option.some_ne_none _
    · exact Option.some_ne_none _

theorem parseUint64_digits (digits : IsDecimal s) :
    parseUint64 s = if decimalValue s < 2 ^ 64 then (UInt64.ofNat (decimalValue s), none)
      else (0, some (.strconv .errRange)) := by
  rw [parseUint64, if_neg fun empty => digits.1 (List.length_eq_zero_iff.mp empty)]
  exact @parseUint64Loop_digits s digits s [] 0 rfl (Nat.zero_le _) rfl

theorem parseUint64_other (other : ¬ IsDecimal s) : (parseUint64 s).2 ≠ none := by
  unfold parseUint64
  split_ifs with empty
  · exact Option.some_ne_none _
  · refine parseUint64Loop_other other (Bool.eq_false_iff.mpr fun digits => ?_)
    exact other ⟨fun none => empty (List.length_eq_zero_iff.mpr none), digits⟩

theorem parseUint64Loop_zero (s : Bytes) : ∀ (rest : Bytes) (i : Nat) (d : UInt64),
    (parseUint64Loop s rest i d).2 ≠ none → (parseUint64Loop s rest i d).1 = 0 := by
  intro rest
  induction rest with
  | nil =>
    intro i d
    rw [parseUint64Loop]
    split_ifs
    · exact fun _ => rfl
    · exact fun fails => absurd rfl fails
  | cons c rest ih =>
    intro i d
    rw [parseUint64Loop]
    split_ifs with digit long
    · split
      · exact fun _ => rfl
      · exact fun fails => absurd rfl fails
    · exact ih (i + 1) _
    · exact fun _ => rfl
    · exact fun _ => rfl

theorem parseUint64_zero (fails : (parseUint64 s).2 ≠ none) : (parseUint64 s).1 = 0 := by
  unfold parseUint64 at fails ⊢
  split_ifs at fails ⊢
  · rfl
  · exact parseUint64Loop_zero s s 0 0 fails

/-! ## The two together -/

/-- What both have in common: an error but for digits of a number in range. -/
theorem none_iff_of_digits {α ε : Type} {r : α × Option ε} {value limit : α} {range : ε}
    (onDigits : IsDecimal s → r = if decimalValue s < 2 ^ 64 then (value, none) else (limit, some range))
    (onOther : ¬ IsDecimal s → r.2 ≠ none) : r.2 = none ↔ IsDecimal s ∧ decimalValue s < 2 ^ 64 := by
  by_cases digits : IsDecimal s
  · rw [onDigits digits, and_iff_right digits]
    by_cases fits : decimalValue s < 2 ^ 64
    · rw [if_pos fits]
      exact iff_of_true rfl fits
    · rw [if_neg fits]
      exact iff_of_false (Option.some_ne_none _) fits
  · exact iff_of_false (onOther digits) fun both => digits both.1

theorem parseUint64_none_iff (s : Bytes) : (parseUint64 s).2 = none ↔ IsDecimal s ∧ decimalValue s < 2 ^ 64 :=
  none_iff_of_digits parseUint64_digits parseUint64_other

theorem strconvParseUint_none_iff (s : Bytes) :
    (strconvParseUint s).2 = none ↔ IsDecimal s ∧ decimalValue s < 2 ^ 64 :=
  none_iff_of_digits strconvParseUint_digits strconvParseUint_other

theorem parseUint64_value (digits : IsDecimal s) (fits : decimalValue s < 2 ^ 64) :
    parseUint64 s = (UInt64.ofNat (decimalValue s), none) := by
  rw [parseUint64_digits digits, if_pos fits]

theorem strconvParseUint_value (digits : IsDecimal s) (fits : decimalValue s < 2 ^ 64) :
    strconvParseUint s = (UInt64.ofNat (decimalValue s), none) := by
  rw [strconvParseUint_digits digits, if_pos fits]

/-- The numbers differ exactly where the digits in front, alone or not, are out of range. -/
theorem parseUint64_eq_iff (s : Bytes) :
    (parseUint64 s).1 = (strconvParseUint s).1 ↔ decimalValue (s.takeWhile isDigit) < 2 ^ 64 := by
  rw [strconvParseUint_eq]
  by_cases large : 2 ^ 64 ≤ decimalValue (s.takeWhile isDigit)
  · have fails : (parseUint64 s).2 ≠ none := by
      rw [Ne, parseUint64_none_iff]
      rintro ⟨digits, fits⟩
      rw [takeWhile_isDecimal digits] at large
      omega
    rw [if_pos large, parseUint64_zero fails]
    exact iff_of_false (by decide) (Nat.not_lt.mpr large)
  · rw [if_neg large]
    refine iff_of_true ?_ (Nat.not_le.mp large)
    by_cases digits : IsDecimal s
    · rw [takeWhile_isDecimal digits] at large
      rw [if_pos digits, parseUint64_value digits (Nat.not_le.mp large)]
    · rw [if_neg digits, parseUint64_zero (parseUint64_other digits)]

/-- The number `2 ^ 64` is out of range for both; the numbers that come with the error differ. -/
theorem parseUint64_outOfRange :
    parseUint64 [49, 56, 52, 52, 54, 55, 52, 52, 48, 55, 51, 55, 48, 57, 53, 53, 49, 54, 49, 54] =
        (0, some (.strconv .errRange)) ∧
      strconvParseUint [49, 56, 52, 52, 54, 55, 52, 52, 48, 55, 51, 55, 48, 57, 53, 53, 49, 54, 49, 54] =
        (maxUint64, some .errRange) ∧
      ¬ ∀ s, (parseUint64 s).1 = (strconvParseUint s).1 ∧
        ((parseUint64 s).2 = none ↔ (strconvParseUint s).2 = none) := by
  refine ⟨by decide +kernel, by decide +kernel, fun equal => ?_⟩
  have same := (equal [49, 56, 52, 52, 54, 55, 52, 52, 48, 55, 51, 55, 48, 57, 53, 53, 49, 54, 49, 54]).1
  exact absurd same (by decide +kernel)

end P2PoolObserver
