/-
# Mempool.Order -- transactions by fee per byte (`mempool.go`)

`Compare` ranks two transactions by their fee per byte without a division: it compares the two
cross products, and these are words of 64 bits.  `key` is the order that is meant, with exact
rates, then the weight, then the id.  Where the two products of a pair overflow a different number
of times, the low words decide.
-/
import P2PoolObserver.Mempool.Pick
import Mathlib.Data.Prod.Lex
import Mathlib.Algebra.Order.Field.Rat
import Mathlib.Algebra.Order.Field.Basic

namespace P2PoolObserver

open Lib

/-! ## Comparisons that sort -/

/-- On the elements of `xs` the comparison is that of a preorder. -/
structure OrdersOn {α : Type} (cmp : α → α → Ordering) (xs : List α) : Prop where
  antisymmetric : ∀ a ∈ xs, ∀ b ∈ xs, cmp b a = (cmp a b).swap
  transitive : ∀ a ∈ xs, ∀ b ∈ xs, ∀ c ∈ xs, cmp a b ≠ .gt → cmp b c ≠ .gt → cmp a c ≠ .gt

/-- What `slices.SortFunc` promises: it sorts if the comparison orders the elements. -/
def SortFunc.Sorts (slices : SortFunc) : Prop :=
  ∀ {α : Type} (cmp : α → α → Ordering) (xs : List α), OrdersOn cmp xs →
    (slices.sort cmp xs).Pairwise fun a b => cmp a b ≠ .gt

theorem OrdersOn.mono {α : Type} {cmp : α → α → Ordering} {xs ys : List α} (orders : OrdersOn cmp ys)
    (subset : xs ⊆ ys) : OrdersOn cmp xs where
  antisymmetric a hasA b hasB := orders.antisymmetric a (subset hasA) b (subset hasB)
  transitive a hasA b hasB c hasC := orders.transitive a (subset hasA) b (subset hasB) c (subset hasC)

theorem OrdersOn.total {α : Type} {cmp : α → α → Ordering} {xs : List α} (orders : OrdersOn cmp xs) {a b : α}
    (hasA : a ∈ xs) (hasB : b ∈ xs) (after : ¬ cmp a b ≠ .gt) : cmp b a ≠ .gt := by
  rw [orders.antisymmetric a hasA b hasB, not_not.mp after]
  decide

theorem pairwise_orderedInsert {α : Type} {cmp : α → α → Ordering} {a : α} : ∀ {xs : List α},
    OrdersOn cmp (a :: xs) → (xs.Pairwise fun a b => cmp a b ≠ .gt) →
      (xs.orderedInsert (fun a b => cmp a b ≠ .gt) a).Pairwise fun a b => cmp a b ≠ .gt := by
  intro xs
  induction xs with
  | nil => exact fun _ _ => List.pairwise_singleton _ a
  | cons x xs ih =>
    intro orders sorted
    obtain ⟨first, rest⟩ := List.pairwise_cons.mp sorted
    have hasA : a ∈ a :: x :: xs := List.mem_cons_self
    have hasX : x ∈ a :: x :: xs := List.mem_cons_of_mem _ (.head _)
    rw [List.orderedInsert_cons]
    split_ifs with before
    · refine List.pairwise_cons.mpr ⟨fun y present => ?_, sorted⟩
      rcases List.mem_cons.mp present with rfl | later
      · exact before
      · exact orders.transitive a hasA x hasX y (.tail _ present) before (first y later)
    · have subset : a :: xs ⊆ a :: x :: xs := List.cons_subset_cons a (List.subset_cons_self x xs)
      refine List.pairwise_cons.mpr ⟨fun y present => ?_, ih (orders.mono subset) rest⟩
      rcases List.mem_orderedInsert _ |>.mp present with rfl | later
      · exact orders.total hasA hasX before
      · exact first y later

theorem Mempool.insertionSort_sorts : Mempool.insertionSort.Sorts := by
  intro α cmp xs orders
  change (xs.insertionSort fun a b => cmp a b ≠ .gt).Pairwise _
  induction xs with
  | nil => exact List.Pairwise.nil
  | cons x xs ih =>
    rw [List.insertionSort_cons]
    refine pairwise_orderedInsert (orders.mono ?_) (ih (orders.mono (List.subset_cons_self x xs)))
    exact List.cons_subset_cons x (List.perm_insertionSort _ xs).subset

theorem cmp_toLex {α β : Type} [LinearOrder α] [LinearOrder β] (a c : α) (b d : β) :
    cmp (toLex (a, b)) (toLex (c, d)) = if a < c then .lt else if c < a then .gt else cmp b d := by
  by_cases less : a < c
  · rw [if_pos less]
    exact (cmp_eq_lt_iff _ _).mpr (Prod.Lex.toLex_lt_toLex.mpr (.inl less))
  by_cases more : c < a
  · rw [if_neg less, if_pos more]
    exact (cmp_eq_gt_iff _ _).mpr (Prod.Lex.toLex_lt_toLex.mpr (.inl more))
  · rw [if_neg less, if_neg more]
    obtain rfl : a = c := le_antisymm (not_lt.mp more) (not_lt.mp less)
    have second : ∀ x y : β, toLex (a, x) < toLex (a, y) ↔ x < y := by
      intro x y
      rw [Prod.Lex.toLex_lt_toLex]
      simp
    unfold cmp cmpUsing
    simp only [second]

/-! ## The order that is meant -/

namespace MempoolEntry

variable {t o : MempoolEntry}

def rate (t : MempoolEntry) : ℚ := (t.fee.toNat : ℚ) / t.weight.toNat

/-- One of the two products that `Compare` compares, without overflow. -/
def cross (t o : MempoolEntry) : Nat := t.fee.toNat * o.weight.toNat

theorem rate_lt_iff (hasT : 1 ≤ t.weight) (hasO : 1 ≤ o.weight) : o.rate < t.rate ↔ o.cross t < t.cross o := by
  have weightT : (0 : ℚ) < t.weight.toNat := Nat.cast_pos.mpr (UInt64.le_iff_toNat_le.mp hasT)
  have weightO : (0 : ℚ) < o.weight.toNat := Nat.cast_pos.mpr (UInt64.le_iff_toNat_le.mp hasO)
  rw [rate, rate, div_lt_div_iff₀ weightO weightT, cross, cross]
  exact_mod_cast Iff.rfl

def tieBreak (t o : MempoolEntry) : Ordering :=
  if t.weight < o.weight then .lt else if t.weight > o.weight then .gt else t.id.compare o.id

def compareExact (t o : MempoolEntry) : Ordering :=
  if t.cross o > o.cross t then .lt else if t.cross o < o.cross t then .gt else tieBreak t o

/-- The best rate first, then the smallest weight, then the smallest id. -/
def key (t : MempoolEntry) : ℚ ×ₗ Nat ×ₗ Nat := toLex (-t.rate, toLex (t.weight.toNat, t.id.toNat))

theorem tieBreak_eq_cmp (t o : MempoolEntry) :
    tieBreak t o = cmp (toLex (t.weight.toNat, t.id.toNat)) (toLex (o.weight.toNat, o.id.toNat)) := by
  rw [cmp_toLex, tieBreak, Hash.compare_eq_cmp]
  exact if_congr UInt64.lt_iff_toNat_lt rfl (if_congr UInt64.lt_iff_toNat_lt rfl rfl)

theorem compareExact_eq_cmp (hasT : 1 ≤ t.weight) (hasO : 1 ≤ o.weight) :
    compareExact t o = cmp t.key o.key := by
  rw [key, key, cmp_toLex, ← tieBreak_eq_cmp, compareExact]
  simp only [neg_lt_neg_iff, rate_lt_iff hasT hasO, rate_lt_iff hasO hasT, gt_iff_lt]

theorem ordersOn_compareExact {m : Mempool} (weights : ∀ t ∈ m, 1 ≤ t.weight) : OrdersOn compareExact m where
  antisymmetric a hasA b hasB := by
    rw [compareExact_eq_cmp (weights a hasA) (weights b hasB), compareExact_eq_cmp (weights b hasB) (weights a hasA),
      cmp_swap]
  transitive a hasA b hasB c hasC first second := by
    rw [compareExact_eq_cmp (weights a hasA) (weights b hasB)] at first
    rw [compareExact_eq_cmp (weights b hasB) (weights c hasC)] at second
    rw [compareExact_eq_cmp (weights a hasA) (weights c hasC)]
    rw [ne_eq, cmp_eq_gt_iff, not_lt] at first second ⊢
    exact first.trans second

/-! ## Overflow -/

def carry (t o : MempoolEntry) : Nat := t.cross o / 2 ^ 64

def low (t o : MempoolEntry) : Nat := t.cross o % 2 ^ 64

/-- The product of `t` overflows more often, and yet the low words do not put `t` first. -/
def Misjudged (t o : MempoolEntry) : Prop :=
  o.carry t < t.carry o ∧ ¬ (o.low t < t.low o ∨ (o.low t = t.low o ∧ tieBreak t o = .lt))

instance (t o : MempoolEntry) : Decidable (Misjudged t o) := inferInstanceAs (Decidable (_ ∧ _))

theorem compare_eq_low (t o : MempoolEntry) : t.compare o =
    if o.low t < t.low o then .lt else if t.low o < o.low t then .gt else tieBreak t o := by
  have product : ∀ x y : MempoolEntry, (x.fee * y.weight).toNat = x.low y := fun x y => UInt64.toNat_mul _ _
  rw [MempoolEntry.compare, tieBreak]
  simp only [gt_iff_lt, UInt64.lt_iff_toNat_lt, product]

theorem compare_ne_lt_of_misjudged (misjudged : Misjudged t o) : t.compare o ≠ .lt := by
  obtain ⟨-, other⟩ := misjudged
  obtain ⟨notAbove, notTie⟩ := not_or.mp other
  rw [compare_eq_low, if_neg notAbove]
  split_ifs with below
  · decide
  · exact fun first => notTie ⟨by omega, first⟩

theorem cross_eq (t o : MempoolEntry) : t.cross o = t.carry o * 2 ^ 64 + t.low o :=
  (Nat.div_add_mod' _ _).symm

theorem low_lt (t o : MempoolEntry) : t.low o < 2 ^ 64 := Nat.mod_lt _ (by norm_num)

theorem tieBreak_swap (t o : MempoolEntry) : tieBreak o t = (tieBreak t o).swap := by
  rw [tieBreak_eq_cmp, tieBreak_eq_cmp, cmp_swap]

theorem compare_eq_exact (forward : ¬ Misjudged t o) (backward : ¬ Misjudged o t) :
    t.compare o = compareExact t o := by
  have lowT := low_lt t o
  have lowO := low_lt o t
  have crossT := cross_eq t o
  have crossO := cross_eq o t
  rw [compare_eq_low, compareExact]
  rcases Nat.lt_trichotomy (o.carry t) (t.carry o) with more | same | fewer
  · have larger : t.cross o > o.cross t := by omega
    rw [if_pos larger]
    rcases not_not.mp (not_and.mp forward more) with above | ⟨tie, first⟩
    · rw [if_pos above]
    · rw [if_neg (by omega), if_neg (by omega), first]
  · rw [crossT, crossO, same]
    simp only [gt_iff_lt, Nat.add_lt_add_iff_left]
  · have smaller : t.cross o < o.cross t := by omega
    rw [if_neg smaller.not_gt, if_pos smaller]
    rcases not_not.mp (not_and.mp backward fewer) with above | ⟨tie, first⟩
    · rw [if_neg above.not_gt, if_pos above]
    · rw [tieBreak_swap, Ordering.swap_eq_lt] at first
      rw [if_neg (by omega), if_neg (by omega), first]

end MempoolEntry

/-! ## Pools -/

/-- `Compare` orders the pool by exact fee rates, higher first, and sorting with it does so too. -/
structure RateOrder (slices : SortFunc) (m : Mempool) : Prop where
  orders : OrdersOn MempoolEntry.compare m
  zero : ∀ t ∈ m, ∀ o ∈ m, t.compare o = .eq → t.rate = o.rate ∧ t.weight = o.weight ∧ t.id = o.id
  higherFirst : ∀ t ∈ m, ∀ o ∈ m, o.rate < t.rate → t.compare o = .lt
  sorted : (slices.sort MempoolEntry.compare m).Pairwise fun a b => b.rate ≤ a.rate

/-- `Compare` orders a pool by exact fee rates if and only if it misjudges no two transactions. -/
theorem rateOrder_iff (slices : SortFunc) (sorts : slices.Sorts) (m : Mempool) (weights : ∀ t ∈ m, 1 ≤ t.weight) :
    RateOrder slices m ↔ ∀ t ∈ m, ∀ o ∈ m, ¬ t.Misjudged o := by
  constructor
  · intro order t hasT o hasO misjudged
    refine MempoolEntry.compare_ne_lt_of_misjudged misjudged (order.higherFirst t hasT o hasO ?_)
    rw [MempoolEntry.rate_lt_iff (weights t hasT) (weights o hasO), MempoolEntry.cross_eq t o, MempoolEntry.cross_eq o t]
    have more := misjudged.1
    have low := MempoolEntry.low_lt o t
    omega
  · intro judged
    have exact_ : ∀ t ∈ m, ∀ o ∈ m, t.compare o = t.compareExact o := fun t hasT o hasO =>
      MempoolEntry.compare_eq_exact (judged t hasT o hasO) (judged o hasO t hasT)
    have cmp_key : ∀ t ∈ m, ∀ o ∈ m, t.compare o = cmp t.key o.key := fun t hasT o hasO =>
      (exact_ t hasT o hasO).trans (MempoolEntry.compareExact_eq_cmp (weights t hasT) (weights o hasO))
    have orders : OrdersOn MempoolEntry.compare m := by
      have exactOrders := MempoolEntry.ordersOn_compareExact weights
      constructor
      · intro a hasA b hasB
        rw [exact_ a hasA b hasB, exact_ b hasB a hasA]
        exact exactOrders.antisymmetric a hasA b hasB
      · intro a hasA b hasB c hasC
        rw [exact_ a hasA b hasB, exact_ b hasB c hasC, exact_ a hasA c hasC]
        exact exactOrders.transitive a hasA b hasB c hasC
    refine ⟨orders, fun t hasT o hasO same => ?_, fun t hasT o hasO higher => ?_, ?_⟩
    · rw [cmp_key t hasT o hasO, cmp_eq_eq_iff] at same
      obtain ⟨rate, rest⟩ := Prod.mk.inj (toLex_inj.mp same)
      obtain ⟨weight, id⟩ := Prod.mk.inj (toLex_inj.mp rest)
      exact ⟨neg_injective rate, UInt64.toNat_inj.mp weight, BitVec.eq_of_toNat_eq id⟩
    · rw [exact_ t hasT o hasO, MempoolEntry.compareExact]
      exact if_pos ((MempoolEntry.rate_lt_iff (weights t hasT) (weights o hasO)).mp higher)
    · have members : ∀ t ∈ slices.sort MempoolEntry.compare m, t ∈ m := fun t present =>
        (slices.perm MempoolEntry.compare m).subset present
      refine (sorts MempoolEntry.compare m orders).imp_of_mem fun {a b} hasA hasB notAfter => ?_
      rw [cmp_key a (members a hasA) b (members b hasB), ne_eq, cmp_eq_gt_iff, not_lt] at notAfter
      exact neg_le_neg_iff.mp (Prod.Lex.toLex_le_toLex'.mp notAfter).1

/-- Fees and weights of the chain. -/
theorem rateOrder_small : RateOrder Mempool.insertionSort [⟨1, 1500, 30000000⟩, ⟨2, 2200, 90000000⟩, ⟨3, 1500, 30000000⟩] :=
  (rateOrder_iff Mempool.insertionSort Mempool.insertionSort_sorts _ (by decide)).mpr (by decide +kernel)

/-- A fee of `2 ^ 32` for one byte is ranked behind a fee of one for `2 ^ 32` bytes: the first product
is `2 ^ 64`, of which nothing is left. -/
theorem rateOrder_overflow_fails :
    MempoolEntry.compare ⟨1, 1, 0x100000000⟩ ⟨2, 0x100000000, 1⟩ = .gt ∧
      ¬ RateOrder Mempool.insertionSort [⟨1, 1, 0x100000000⟩, ⟨2, 0x100000000, 1⟩] := by
  have behind : MempoolEntry.compare ⟨1, 1, 0x100000000⟩ ⟨2, 0x100000000, 1⟩ = .gt := by decide +kernel
  refine ⟨behind, fun order => ?_⟩
  have first := order.higherFirst ⟨1, 1, 0x100000000⟩ (by simp) ⟨2, 0x100000000, 1⟩ (by simp)
    ((MempoolEntry.rate_lt_iff (by decide) (by decide)).mpr (by decide))
  rw [behind] at first
  cases first

end P2PoolObserver
