/-
# Lib.OrderStat -- the k-th smallest element of a list

`orderStat s k` is the element at index `k` once `s` is sorted.  It separates a list
into smaller elements, itself, and larger ones (`orderStat_append_cons`).
-/
import Mathlib.Data.List.Sort
import Mathlib.Data.List.GetD

namespace P2PoolObserver.Lib

variable {α : Type} [LinearOrder α] [Inhabited α]

def orderStat (s : List α) (k : Nat) : α := (s.insertionSort (· ≤ ·)).getD k default

theorem orderStat_perm {s t : List α} (perm : s.Perm t) (k : Nat) : orderStat s k = orderStat t k := by
  have sorted : s.insertionSort (· ≤ ·) = t.insertionSort (· ≤ ·) :=
    ((List.perm_insertionSort _ s).trans (perm.trans (List.perm_insertionSort _ t).symm)).eq_of_pairwise'
      (List.pairwise_insertionSort _ s) (List.pairwise_insertionSort _ t)
  rw [orderStat, sorted, orderStat]

theorem orderStat_mem {s : List α} {k : Nat} (bound : k < s.length) : orderStat s k ∈ s := by
  have inSorted : k < (s.insertionSort (· ≤ ·)).length := by rwa [List.length_insertionSort]
  rw [orderStat, List.getD_eq_getElem _ _ inSorted]
  exact (List.perm_insertionSort (· ≤ ·) s).mem_iff.mp (List.getElem_mem inSorted)

theorem orderStat_mono {s : List α} {j k : Nat} (le : j ≤ k) (bound : k < s.length) :
    orderStat s j ≤ orderStat s k := by
  have inSorted : k < (s.insertionSort (· ≤ ·)).length := by rwa [List.length_insertionSort]
  rw [orderStat, orderStat, List.getD_eq_getElem _ _ inSorted,
    List.getD_eq_getElem _ _ (Nat.lt_of_le_of_lt le inSorted)]
  rcases Nat.lt_or_eq_of_le le with less | rfl
  · exact List.pairwise_iff_getElem.mp (List.pairwise_insertionSort (· ≤ ·) s) j k _ _ less
  · exact le_refl _

theorem orderStat_append_cons {l r : List α} {x : α} (below : ∀ a ∈ l, a ≤ x) (above : ∀ b ∈ r, x ≤ b) :
    orderStat (l ++ x :: r) l.length = x := by
  have perm : (l.insertionSort (· ≤ ·) ++ x :: r.insertionSort (· ≤ ·)).Perm (l ++ x :: r) :=
    (List.perm_insertionSort _ l).append ((List.perm_insertionSort _ r).cons x)
  have inL : ∀ a ∈ l.insertionSort (· ≤ ·), a ≤ x :=
    fun a mem => below a ((List.perm_insertionSort _ l).mem_iff.mp mem)
  have inR : ∀ b ∈ r.insertionSort (· ≤ ·), x ≤ b :=
    fun b mem => above b ((List.perm_insertionSort _ r).mem_iff.mp mem)
  have sorted : (l.insertionSort (· ≤ ·) ++ x :: r.insertionSort (· ≤ ·)).Pairwise (· ≤ ·) := by
    refine List.pairwise_append.mpr ⟨List.pairwise_insertionSort _ l,
      List.pairwise_cons.mpr ⟨inR, List.pairwise_insertionSort _ r⟩, fun a memA b memB => ?_⟩
    rcases List.mem_cons.mp memB with rfl | memB
    · exact inL a memA
    · exact (inL a memA).trans (inR b memB)
  have unique : (l ++ x :: r).insertionSort (· ≤ ·) =
      l.insertionSort (· ≤ ·) ++ x :: r.insertionSort (· ≤ ·) :=
    ((List.perm_insertionSort _ _).trans perm.symm).eq_of_pairwise'
      (List.pairwise_insertionSort _ _) sorted
  have place : l.length = (l.insertionSort (· ≤ ·)).length := (List.length_insertionSort _ l).symm
  rw [orderStat, unique, place]
  simp

theorem orderStat_of_separates {s : List α} {k : Nat} (bound : k < s.length)
    (below : ∀ i, i < k → s.getD i default ≤ s.getD k default)
    (above : ∀ i, k < i → i < s.length → s.getD k default ≤ s.getD i default) :
    orderStat s k = s.getD k default := by
  have split : s = s.take k ++ s[k] :: s.drop (k + 1) := by
    rw [← List.drop_eq_getElem_cons bound, List.take_append_drop]
  have here : s.getD k default = s[k] := List.getD_eq_getElem _ _ bound
  have length : (s.take k).length = k := by simp [bound.le]
  rw [here] at below above ⊢
  have key := orderStat_append_cons (l := s.take k) (r := s.drop (k + 1)) (x := s[k]) ?_ ?_
  · rwa [← split, length] at key
  · intro a mem
    obtain ⟨i, inTake, rfl⟩ := List.mem_iff_getElem.mp mem
    rw [length] at inTake
    have := below i inTake
    rwa [List.getD_eq_getElem _ _ (inTake.trans bound), ← List.getElem_take] at this
  · intro b mem
    obtain ⟨i, inDrop, rfl⟩ := List.mem_iff_getElem.mp mem
    have inside : k + 1 + i < s.length := by
      rw [List.length_drop] at inDrop
      omega
    have := above (k + 1 + i) (by omega) inside
    rwa [List.getD_eq_getElem _ _ inside, ← List.getElem_drop] at this

/-! ## The order of machine words -/

namespace Word

scoped instance linearOrder : LinearOrder UInt64 where
  le_refl := UInt64.le_refl
  le_trans _ _ _ := UInt64.le_trans
  le_antisymm _ _ := UInt64.le_antisymm
  le_total := UInt64.le_total
  lt_iff_le_not_ge a b := by
    rw [UInt64.lt_iff_toNat_lt, UInt64.le_iff_toNat_le, UInt64.le_iff_toNat_le]
    omega
  toDecidableLE := inferInstance
  toDecidableLT := inferInstance
  toDecidableEq := inferInstance

end Word

end P2PoolObserver.Lib
