/-
# Lib.MergeRuns -- one item for each key

`Totals` do not depend on the order of the items (`Totals.of_perm`) and are unique.
`mergeRuns` adds up neighbours of one key; on a sorted list it makes the totals
(`totals_mergeRuns`).
-/
import Mathlib.Algebra.BigOperators.Group.List.Basic
import Mathlib.Order.Lattice
import Mathlib.Data.List.Perm.Basic
import Mathlib.Data.List.Nodup

namespace P2PoolObserver.Lib

variable {α κ M : Type} [LinearOrder κ] [AddCommMonoid M] (key : α → κ) (weight : α → M)

def keyTotal (items : List α) (k : κ) : M :=
  ((items.filter fun x => key x = k).map weight).sum

/-- One item for each key, in ascending order, with the weights of the key added up. -/
structure Totals (items out : List α) : Prop where
  ascending : out.Pairwise fun x y => key x < key y
  keys : ∀ k, k ∈ out.map key ↔ k ∈ items.map key
  total : ∀ x ∈ out, weight x = keyTotal key weight items (key x)

section KeyTotal

variable {key weight}

theorem keyTotal_cons (x : α) (items : List α) (k : κ) :
    keyTotal key weight (x :: items) k =
      (if key x = k then weight x else 0) + keyTotal key weight items k := by
  unfold keyTotal
  rw [List.filter_cons]
  split_ifs with h <;> simp_all

theorem keyTotal_perm {items items' : List α} (perm : items.Perm items') (k : κ) :
    keyTotal key weight items k = keyTotal key weight items' k :=
  ((perm.filter _).map _).sum_eq

theorem keyTotal_eq_zero {items : List α} {k : κ} (none : ∀ x ∈ items, key x ≠ k) :
    keyTotal key weight items k = 0 := by
  have empty : (items.filter fun x => key x = k) = [] := by
    rw [List.filter_eq_nil_iff]
    intro x mem
    simpa using none x mem
  rw [keyTotal, empty, List.map_nil, List.sum_nil]

end KeyTotal

/-! ## The totals are unique -/

section Unique

variable {key weight} {items items' out out' : List α}

theorem Totals.of_perm (totals : Totals key weight items out) (perm : items.Perm items') :
    Totals key weight items' out where
  ascending := totals.ascending
  keys k := (totals.keys k).trans (perm.map key).mem_iff
  total x mem := (totals.total x mem).trans (keyTotal_perm perm (key x))

theorem Totals.mem_of_mem (determined : ∀ x y : α, key x = key y → weight x = weight y → x = y)
    (totals : Totals key weight items out) (totals' : Totals key weight items out') {x : α}
    (mem : x ∈ out) : x ∈ out' := by
  have listed : key x ∈ out'.map key :=
    (totals'.keys _).mpr ((totals.keys _).mp (List.mem_map_of_mem mem))
  obtain ⟨y, memY, sameKey⟩ := List.mem_map.mp listed
  have sameWeight : weight y = weight x := by
    rw [totals'.total y memY, totals.total x mem, sameKey]
  exact determined y x sameKey sameWeight ▸ memY

theorem Totals.nodup (totals : Totals key weight items out) : out.Nodup := by
  refine totals.ascending.imp ?_
  rintro x y below rfl
  exact lt_irrefl _ below

theorem Totals.unique (determined : ∀ x y : α, key x = key y → weight x = weight y → x = y)
    (totals : Totals key weight items out) (totals' : Totals key weight items out') : out = out' := by
  have perm : out.Perm out' := by
    rw [List.perm_ext_iff_of_nodup totals.nodup totals'.nodup]
    intro x
    exact ⟨totals.mem_of_mem determined totals', totals'.mem_of_mem determined totals⟩
  refine perm.eq_of_pairwise ?_ totals.ascending totals'.ascending
  intro x y _ _ below above
  exact absurd (below.trans above) (lt_irrefl _)

end Unique

/-! ## Adding up neighbours -/

/-- The loop with `current` in hand: an item of its key is added to it, another one takes
its place. -/
def mergeRuns (add : α → α → α) (current : α) : List α → List α
  | [] => [current]
  | x :: rest =>
    if key current = key x then mergeRuns add (add current x) rest
    else current :: mergeRuns add x rest

section Merge

variable {key weight} {add : α → α → α}

theorem Totals.of_add {x y z : α} {rest out : List α} (keyZ : key z = key x) (keyY : key x = key y)
    (weightZ : weight z = weight x + weight y) (totals : Totals key weight (z :: rest) out) :
    Totals key weight (x :: y :: rest) out where
  ascending := totals.ascending
  keys k := by
    rw [totals.keys k]
    simp [keyZ, ← keyY]
  total w mem := by
    rw [totals.total w mem, keyTotal_cons, keyTotal_cons, keyTotal_cons, keyZ, ← keyY, weightZ]
    split_ifs
    · rw [add_assoc]
    · rw [zero_add, zero_add]

theorem Totals.cons {x : α} {rest out : List α} (below : ∀ y ∈ rest, key x < key y)
    (totals : Totals key weight rest out) : Totals key weight (x :: rest) (x :: out) where
  ascending := by
    refine List.pairwise_cons.mpr ⟨fun y mem => ?_, totals.ascending⟩
    obtain ⟨z, memZ, same⟩ := List.mem_map.mp ((totals.keys _).mp (List.mem_map_of_mem mem))
    exact same ▸ below z memZ
  keys k := by
    rw [List.map_cons, List.map_cons, List.mem_cons, List.mem_cons, totals.keys k]
  total y mem := by
    rw [keyTotal_cons]
    rcases List.mem_cons.mp mem with rfl | mem
    · rw [if_pos rfl, keyTotal_eq_zero fun z memZ => (below z memZ).ne', add_zero]
    · obtain ⟨z, memZ, same⟩ := List.mem_map.mp ((totals.keys _).mp (List.mem_map_of_mem mem))
      rw [if_neg (same ▸ (below z memZ).ne), zero_add, totals.total y mem]

theorem totals_singleton (x : α) : Totals key weight [x] [x] where
  ascending := List.pairwise_singleton _ _
  keys _ := Iff.rfl
  total y mem := by
    rw [List.mem_singleton.mp mem, keyTotal_cons, if_pos rfl]
    simp [keyTotal]

theorem totals_mergeRuns (keyAdd : ∀ x y, key (add x y) = key x)
    (weightAdd : ∀ x y, weight (add x y) = weight x + weight y) (items : List α) :
    ∀ current : α, (current :: items).Pairwise (fun x y => key x ≤ key y) →
      Totals key weight (current :: items) (mergeRuns key add current items) := by
  induction items with
  | nil =>
    intro current _
    exact totals_singleton current
  | cons x rest ih =>
    intro current sorted
    obtain ⟨first, sortedRest⟩ := List.pairwise_cons.mp sorted
    rw [mergeRuns]
    split_ifs with same
    · refine (ih (add current x) ?_).of_add (keyAdd current x) same (weightAdd current x)
      refine List.pairwise_cons.mpr ⟨fun y mem => ?_, (List.pairwise_cons.mp sortedRest).2⟩
      rw [keyAdd]
      exact first y (.tail _ mem)
    · refine (ih x sortedRest).cons fun y mem => ?_
      have next : key current < key x := lt_of_le_of_ne (first x (.head _)) same
      rcases List.mem_cons.mp mem with rfl | mem
      · exact next
      · exact next.trans_le ((List.pairwise_cons.mp sortedRest).1 y mem)

end Merge

end P2PoolObserver.Lib
