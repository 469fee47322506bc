/-
# Utils.QuickSelect -- `NthElementSlice` selects (`utils/nthelement.go`)

All moves are swaps inside `[left, right]`.  `partition` leaves its pivot between smaller and
larger elements of the range, and the loop keeps the range `Bracketed`.  It therefore ends with
index `k` holding the `k`-th smallest element (`nthElementSlice_spec`).
-/
import P2PoolObserver.Utils
import P2PoolObserver.Lib.OrderStat

namespace P2PoolObserver

open Lib

theorem swap_eq {α : Type} {s : List α} {i j : Nat} (inI : i < s.length) (inJ : j < s.length) : swap s i j = (s.set i s[j]).set j s[i] := by
  simp [swap, inI, inJ]

section Swap

variable {α : Type} [Inhabited α] {s t u : List α} {left right i j : Nat}

theorem getD_swap (inI : i < s.length) (inJ : j < s.length) (m : Nat) :
    (swap s i j).getD m default =
      if m = j then s.getD i default else if m = i then s.getD j default else s.getD m default := by
  rw [swap_eq inI inJ]
  simp only [List.getD_eq_getElem?_getD, List.getElem?_set, List.length_set]
  grind

/-- Moves inside `[left, right]`; what lies outside stays in place. -/
structure Rearranges (left right : Nat) (s t : List α) : Prop where
  perm : t.Perm s
  outside : ∀ m, m < left ∨ right < m → t.getD m default = s.getD m default
  inside : ∀ m, left ≤ m → m ≤ right →
    ∃ n, left ≤ n ∧ n ≤ right ∧ t.getD m default = s.getD n default

namespace Rearranges

theorem refl (left right : Nat) (s : List α) : Rearranges left right s s :=
  ⟨.refl s, fun _ _ => rfl, fun m low high => ⟨m, low, high, rfl⟩⟩

theorem trans (first : Rearranges left right s t) (second : Rearranges left right t u) :
    Rearranges left right s u where
  perm := second.perm.trans first.perm
  outside m out := (second.outside m out).trans (first.outside m out)
  inside m low high := by
    obtain ⟨n, lowN, highN, fromT⟩ := second.inside m low high
    obtain ⟨o, lowO, highO, fromS⟩ := first.inside n lowN highN
    exact ⟨o, lowO, highO, fromT.trans fromS⟩

theorem swap (inside : right < s.length) (lowI : left ≤ i) (highI : i ≤ right) (lowJ : left ≤ j)
    (highJ : j ≤ right) : Rearranges left right s (swap s i j) := by
  have inI : i < s.length := by omega
  have inJ : j < s.length := by omega
  refine ⟨?_, fun m out => ?_, fun m low high => ?_⟩
  · rw [swap_eq inI inJ]
    exact List.set_set_perm inI inJ
  · rw [getD_swap inI inJ, if_neg (by omega), if_neg (by omega)]
  · rw [getD_swap inI inJ]
    split_ifs
    · exact ⟨i, lowI, highI, rfl⟩
    · exact ⟨j, lowJ, highJ, rfl⟩
    · exact ⟨m, low, high, rfl⟩

theorem length (moved : Rearranges left right s t) : t.length = s.length := moved.perm.length_eq

end Rearranges

end Swap

variable {α : Type} [Inhabited α] [LinearOrder α] {s t : List α} {left right k : Nat}

/-! ## One partition -/

structure Parted (left right storeIndex i : Nat) (s : List α) : Prop where
  low : left ≤ storeIndex
  high : storeIndex ≤ i
  less : ∀ m, left ≤ m → m < storeIndex → s.getD m default < s.getD right default
  rest : ∀ m, storeIndex ≤ m → m < i → s.getD right default ≤ s.getD m default

theorem Parted.keep {storeIndex i : Nat} (parted : Parted left right storeIndex i s)
    (stays : ¬ s.getD i default < s.getD right default) : Parted left right storeIndex (i + 1) s where
  low := parted.low
  high := Nat.le_succ_of_le parted.high
  less := parted.less
  rest m above below := by
    rcases Nat.lt_succ_iff_lt_or_eq.mp below with earlier | rfl
    · exact parted.rest m above earlier
    · exact not_lt.mp stays

theorem Parted.store {storeIndex i : Nat} (parted : Parted left right storeIndex i s) (before : i < right)
    (inside : right < s.length) (moves : s.getD i default < s.getD right default) :
    Parted left right (storeIndex + 1) (i + 1) (swap s storeIndex i) := by
  have low := parted.low
  have high := parted.high
  have read := getD_swap (s := s) (i := storeIndex) (j := i) (by omega) (by omega)
  have pivot : (swap s storeIndex i).getD right default = s.getD right default := by
    rw [read right, if_neg (by omega), if_neg (by omega)]
  refine ⟨by omega, by omega, fun m lowM highM => ?_, fun m lowM highM => ?_⟩
  · rw [read m, pivot]
    rcases Nat.lt_succ_iff_lt_or_eq.mp highM with earlier | rfl
    · rw [if_neg (by omega), if_neg (by omega)]
      exact parted.less m lowM earlier
    · rw [if_pos rfl]
      split_ifs with same
      · rwa [same]
      · exact moves
  · rw [read m, pivot]
    rcases Nat.lt_succ_iff_lt_or_eq.mp highM with earlier | rfl
    · rw [if_neg (by omega), if_neg (by omega)]
      exact parted.rest m (by omega) earlier
    · rw [if_pos rfl]
      exact parted.rest storeIndex le_rfl (by omega)

theorem partitionLoop_spec (count i storeIndex : Nat) (s : List α) (ends : i + count = right)
    (inside : right < s.length) (parted : Parted left right storeIndex i s) :
    Rearranges left right s (partitionLoop right count i storeIndex s).1 ∧
      Parted left right (partitionLoop right count i storeIndex s).2 right
        (partitionLoop right count i storeIndex s).1 := by
  induction count generalizing i storeIndex s with
  | zero =>
    obtain rfl : i = right := by omega
    exact ⟨.refl _ _ s, parted⟩
  | succ count ih =>
    have low := parted.low
    have high := parted.high
    rw [partitionLoop]
    split_ifs with moves
    · have moved : Rearranges left right s (swap s storeIndex i) :=
        .swap inside (by omega) (by omega) (by omega) (by omega)
      obtain ⟨later, done⟩ := ih (i + 1) (storeIndex + 1) (swap s storeIndex i) (by omega)
        (by rwa [moved.length]) (parted.store (by omega) inside moves)
      exact ⟨moved.trans later, done⟩
    · exact ih (i + 1) storeIndex s (by omega) inside (parted.keep moves)

/-- Inside the range, smaller elements come before the pivot and larger ones after it. -/
structure Pivoted (left right pivot : Nat) (s : List α) : Prop where
  low : left ≤ pivot
  high : pivot ≤ right
  below : ∀ m, left ≤ m → m < pivot → s.getD m default ≤ s.getD pivot default
  above : ∀ m, pivot < m → m ≤ right → s.getD pivot default ≤ s.getD m default

theorem partition_spec (pivot : Nat) (low : left ≤ pivot) (high : pivot ≤ right) (inside : right < s.length) :
    Rearranges left right s (partition s pivot left right).1 ∧
      Pivoted left right (partition s pivot left right).2 (partition s pivot left right).1 := by
  have first : Rearranges left right s (swap s pivot right) :=
    .swap inside low high (low.trans high) le_rfl
  have start : Parted left right left left (swap s pivot right) :=
    ⟨le_rfl, le_rfl, fun m _ _ => by omega, fun m _ _ => by omega⟩
  obtain ⟨middle, parted⟩ := partitionLoop_spec (right - left) left left (swap s pivot right) (by omega)
    (by rwa [first.length]) start
  simp only [partition]
  generalize partitionLoop right (right - left) left left (swap s pivot right) = split at middle parted ⊢
  obtain ⟨t, storeIndex⟩ := split
  dsimp only at middle parted ⊢
  have lowStore := parted.low
  have highStore := parted.high
  have length := (first.trans middle).length
  have last : Rearranges left right t (swap t right storeIndex) :=
    .swap (by omega) (low.trans high) le_rfl (by omega) (by omega)
  refine ⟨(first.trans middle).trans last, lowStore, highStore, fun m lowM highM => ?_,
    fun m lowM highM => ?_⟩
  all_goals
    have read := getD_swap (s := t) (i := right) (j := storeIndex) (by omega) (by omega)
    rw [read m, read storeIndex, if_pos rfl, if_neg (by omega : m ≠ storeIndex)]
  · rw [if_neg (by omega)]
    exact (parted.less m lowM highM).le
  · split_ifs with atEnd
    · exact parted.rest storeIndex le_rfl (by omega)
    · exact parted.rest m (by omega) (by omega)

/-! ## The loop -/

/-- What the range holds lies between what precedes and what follows it. -/
structure Bracketed (left right : Nat) (s : List α) : Prop where
  before : ∀ a b, a < left → left ≤ b → b < s.length → s.getD a default ≤ s.getD b default
  after : ∀ a b, a ≤ right → right < b → b < s.length → s.getD a default ≤ s.getD b default

theorem Bracketed.rearrange (bracketed : Bracketed left right s) (moved : Rearranges left right s t)
    (inside : right < s.length) : Bracketed left right t where
  before a b beforeA fromB inB := by
    rw [moved.length] at inB
    rw [moved.outside a (.inl beforeA)]
    by_cases within : b ≤ right
    · obtain ⟨n, lowN, highN, value⟩ := moved.inside b fromB within
      rw [value]
      exact bracketed.before a n beforeA lowN (by omega)
    · rw [moved.outside b (.inr (by omega))]
      exact bracketed.before a b beforeA fromB inB
  after a b upToA afterB inB := by
    rw [moved.length] at inB
    rw [moved.outside b (.inr afterB)]
    by_cases within : left ≤ a
    · obtain ⟨n, lowN, highN, value⟩ := moved.inside a within upToA
      rw [value]
      exact bracketed.after n b highN afterB inB
    · rw [moved.outside a (.inl (by omega))]
      exact bracketed.after a b upToA afterB inB

def Selected (k : Nat) (s : List α) : Prop :=
  (∀ i, i < k → s.getD i default ≤ s.getD k default) ∧
    ∀ i, k < i → i < s.length → s.getD k default ≤ s.getD i default

theorem Bracketed.selected (bracketed : Bracketed k k s) (inside : k < s.length) : Selected k s :=
  ⟨fun i before => bracketed.before i k before le_rfl inside,
    fun i after inI => bracketed.after k i le_rfl after inI⟩

theorem Pivoted.selected (pivoted : Pivoted left right k s) (bracketed : Bracketed left right s)
    (inside : right < s.length) : Selected k s := by
  have low := pivoted.low
  have high := pivoted.high
  refine ⟨fun i before => ?_, fun i after inI => ?_⟩
  · by_cases within : left ≤ i
    · exact pivoted.below i within before
    · exact bracketed.before i k (by omega) low (by omega)
  · by_cases within : i ≤ right
    · exact pivoted.above i after within
    · exact bracketed.after k i high (by omega) inI

theorem Selected.bracketed_left {pivot : Nat} (selected : Selected pivot s) (bracketed : Bracketed left right s)
    (later : left < pivot) : Bracketed left (pivot - 1) s where
  before := bracketed.before
  after a b upToA afterB inB := by
    have low : s.getD a default ≤ s.getD pivot default := selected.1 a (by omega)
    rcases Nat.lt_or_eq_of_le (by omega : pivot ≤ b) with above | rfl
    · exact low.trans (selected.2 b above inB)
    · exact low

theorem Selected.bracketed_right {pivot : Nat} (selected : Selected pivot s) (bracketed : Bracketed left right s) :
    Bracketed (pivot + 1) right s where
  before a b beforeA fromB inB := by
    have high : s.getD pivot default ≤ s.getD b default := selected.2 b (by omega) inB
    rcases Nat.lt_or_eq_of_le (by omega : a ≤ pivot) with below | rfl
    · exact (selected.1 a below).trans high
    · exact high
  after := bracketed.after

theorem nthElementLoop_spec (fuel left right : Nat) (s : List α) (low : left ≤ k) (high : k ≤ right)
    (inside : right < s.length) (enough : right - left < fuel) (bracketed : Bracketed left right s) :
    (nthElementLoop k fuel left right s).Perm s ∧ Selected k (nthElementLoop k fuel left right s) := by
  induction fuel generalizing left right s with
  | zero => omega
  | succ fuel ih =>
    rw [nthElementLoop]
    split_ifs with single
    · obtain rfl : left = k := by omega
      subst single
      exact ⟨.refl s, bracketed.selected inside⟩
    · obtain ⟨moved, pivoted⟩ := partition_spec ((left + right) / 2) (by omega : left ≤ (left + right) / 2)
        (by omega) inside
      generalize partition s ((left + right) / 2) left right = split at moved pivoted ⊢
      obtain ⟨t, pivot⟩ := split
      dsimp only at moved pivoted ⊢
      have lowPivot := pivoted.low
      have highPivot := pivoted.high
      have length := moved.length
      have around := bracketed.rearrange moved inside
      have selected := pivoted.selected around (by omega)
      split_ifs with found below
      · subst found
        exact ⟨moved.perm, selected⟩
      · obtain ⟨perm, done⟩ := ih left (pivot - 1) t low (by omega) (by omega) (by omega)
          (selected.bracketed_left around (by omega))
        exact ⟨perm.trans moved.perm, done⟩
      · obtain ⟨perm, done⟩ := ih (pivot + 1) right t (by omega) high (by omega) (by omega)
          (selected.bracketed_right around)
        exact ⟨perm.trans moved.perm, done⟩

theorem nthElementSlice_spec (inside : k < s.length) :
    (nthElementSlice s k).Perm s ∧ (nthElementSlice s k).getD k default = orderStat s k := by
  obtain ⟨perm, below, above⟩ := nthElementLoop_spec s.length 0 (s.length - 1) s (Nat.zero_le k)
    (by omega) (by omega) (by omega)
    (Bracketed.mk (fun a b _ _ _ => by omega) (fun a b _ _ _ => by omega))
  refine ⟨perm, ?_⟩
  rw [nthElementSlice, ← orderStat_perm perm]
  exact (orderStat_of_separates (by rwa [perm.length_eq]) below above).symm

end P2PoolObserver
