/-
# Utils.NthElement -- the accesses and swaps of `NthElementSlice` (`utils/nthelement.go`)

`NthElementSlice` and `NthElementSliceFunc` differ only in how they compare.  Here both are
instances of one function over a comparison `less`, in which an index out of range, or a loop
that goes on, gives no result, and which records its swaps.
-/
import P2PoolObserver.Utils.QuickSelect
import Mathlib.Order.Antisymmetrization

namespace P2PoolObserver

open Lib

/-! ## The source, with its accesses -/

structure Swapped (α : Type) where
  slice : List α
  swaps : List (Nat × Nat)

namespace Swapped

variable {α β : Type}

def swapAt (r : Swapped α) (i j : Nat) : Option (Swapped α) :=
  if i < r.slice.length ∧ j < r.slice.length then some ⟨swap r.slice i j, r.swaps ++ [(i, j)]⟩ else none

def map (f : α → β) (r : Swapped α) : Swapped β := ⟨r.slice.map f, r.swaps⟩

end Swapped

section Source

variable {α : Type} (less : α → α → Bool)

def partitionLoopWith (right : Nat) : Nat → Nat → Nat → Swapped α → Option (Swapped α × Nat)
  | 0, _, storeIndex, r => some (r, storeIndex)
  | count + 1, i, storeIndex, r =>
    match r.slice[i]?, r.slice[right]? with
    | some x, some pivot =>
      if less x pivot then
        match r.swapAt storeIndex i with
        | some r => partitionLoopWith right count (i + 1) (storeIndex + 1) r
        | none => none
      else partitionLoopWith right count (i + 1) storeIndex r
    | _, _ => none

def partitionWith (r : Swapped α) (pivot left right : Nat) : Option (Swapped α × Nat) :=
  match r.swapAt pivot right with
  | none => none
  | some r =>
    match partitionLoopWith less right (right - left) left left r with
    | none => none
    | some (r, storeIndex) => (r.swapAt right storeIndex).map fun r => (r, storeIndex)

/-- The loop of `NthElementSlice`, for so many iterations. -/
def selectLoopWith (k : Nat) : Nat → Nat → Nat → Swapped α → Option (Swapped α)
  | 0, _, _, _ => none
  | fuel + 1, left, right, r =>
    if left = right then some r
    else
      match partitionWith less r ((left + right) / 2) left right with
      | none => none
      | some (r, pivotIndex) =>
        if k = pivotIndex then some r
        else if k < pivotIndex then selectLoopWith k fuel left (pivotIndex - 1) r
        else selectLoopWith k fuel (pivotIndex + 1) right r

def selectWith (s : List α) (k : Nat) : Option (Swapped α) :=
  selectLoopWith less k s.length 0 (s.length - 1) ⟨s, []⟩

end Source

def nthElementSliceSwaps {α : Type} [LinearOrder α] (s : List α) (k : Nat) : Option (Swapped α) :=
  selectWith (fun a b => decide (a < b)) s k

def nthElementSliceFunc {α : Type} (s : List α) (cmp : α → α → Int) (k : Nat) : Option (Swapped α) :=
  selectWith (fun a b => decide (cmp a b < 0)) s k

/-! ## Only comparisons count -/

section Map

variable {α β : Type} {less : α → α → Bool} {less' : β → β → Bool} {f : α → β}

theorem swapAt_map (r : Swapped α) (i j : Nat) : (r.map f).swapAt i j = (r.swapAt i j).map (Swapped.map f) := by
  unfold Swapped.swapAt Swapped.map
  rw [List.length_map]
  split_ifs
  · rw [map_swap]
    rfl
  · rfl

variable (same : ∀ a b, less' (f a) (f b) = less a b)

include same

theorem partitionLoopWith_map (right count i storeIndex : Nat) (r : Swapped α) :
    partitionLoopWith less' right count i storeIndex (r.map f) =
      (partitionLoopWith less right count i storeIndex r).map (Prod.map (Swapped.map f) id) := by
  induction count generalizing i storeIndex r with
  | zero => rfl
  | succ count ih =>
    have read : ∀ j, (r.map f).slice[j]? = r.slice[j]?.map f := fun j => List.getElem?_map
    rw [partitionLoopWith, partitionLoopWith, read, read]
    cases r.slice[i]? with
    | none => rfl
    | some x =>
      cases r.slice[right]? with
      | none => rfl
      | some pivot =>
        dsimp only [Option.map_some]
        rw [same, swapAt_map]
        split_ifs
        · cases r.swapAt storeIndex i with
          | none => rfl
          | some r => exact ih (i + 1) (storeIndex + 1) r
        · exact ih (i + 1) storeIndex r

theorem partitionWith_map (r : Swapped α) (pivot left right : Nat) :
    partitionWith less' (r.map f) pivot left right =
      (partitionWith less r pivot left right).map (Prod.map (Swapped.map f) id) := by
  unfold partitionWith
  rw [swapAt_map]
  cases r.swapAt pivot right with
  | none => rfl
  | some r =>
    dsimp only [Option.map_some]
    rw [partitionLoopWith_map same]
    cases partitionLoopWith less right (right - left) left left r with
    | none => rfl
    | some split =>
      obtain ⟨r, storeIndex⟩ := split
      dsimp only [Option.map_some, Prod.map_apply, id_eq]
      rw [swapAt_map]
      cases r.swapAt right storeIndex <;> rfl

theorem selectLoopWith_map (k fuel left right : Nat) (r : Swapped α) :
    selectLoopWith less' k fuel left right (r.map f) =
      (selectLoopWith less k fuel left right r).map (Swapped.map f) := by
  induction fuel generalizing left right r with
  | zero => rfl
  | succ fuel ih =>
    rw [selectLoopWith, selectLoopWith, partitionWith_map same]
    split_ifs
    · rfl
    · cases partitionWith less r ((left + right) / 2) left right with
      | none => rfl
      | some split =>
        obtain ⟨r, pivotIndex⟩ := split
        dsimp only [Option.map_some, Prod.map_apply, id_eq]
        split_ifs
        · rfl
        · exact ih left (pivotIndex - 1) r
        · exact ih (pivotIndex + 1) right r

theorem selectWith_map (s : List α) (k : Nat) :
    selectWith less' (s.map f) k = (selectWith less s k).map (Swapped.map f) := by
  have start := selectLoopWith_map same k s.length 0 (s.length - 1) ⟨s, []⟩
  rwa [selectWith, List.length_map]

end Map

/-! ## A rearrangement -/

section Rearranged

variable {α : Type} {less : α → α → Bool} {r r' : Swapped α}

theorem perm_swapAt {i j : Nat} (done : r.swapAt i j = some r') : r'.slice.Perm r.slice := by
  unfold Swapped.swapAt at done
  split_ifs at done with inside
  cases done
  change (swap r.slice i j).Perm r.slice
  rw [swap_eq inside.1 inside.2]
  exact List.set_set_perm inside.1 inside.2

theorem perm_partitionLoopWith {right count i storeIndex : Nat} {result : Swapped α × Nat}
    (done : partitionLoopWith less right count i storeIndex r = some result) : result.1.slice.Perm r.slice := by
  induction count generalizing i storeIndex r with
  | zero =>
    cases done
    exact .refl _
  | succ count ih =>
    unfold partitionLoopWith at done
    split at done
    · split_ifs at done
      · split at done
        · rename_i moved
          exact (ih done).trans (perm_swapAt moved)
        · cases done
      · exact ih done
    · cases done

theorem perm_partitionWith {pivot left right : Nat} {result : Swapped α × Nat}
    (done : partitionWith less r pivot left right = some result) : result.1.slice.Perm r.slice := by
  unfold partitionWith at done
  split at done
  · cases done
  · rename_i first moved
    split at done
    · cases done
    · rename_i second storeIndex looped
      obtain ⟨third, back, rfl⟩ := Option.map_eq_some_iff.mp done
      exact (perm_swapAt back).trans ((perm_partitionLoopWith looped).trans (perm_swapAt moved))

theorem perm_selectLoopWith {k fuel left right : Nat} (done : selectLoopWith less k fuel left right r = some r') :
    r'.slice.Perm r.slice := by
  induction fuel generalizing left right r with
  | zero => cases done
  | succ fuel ih =>
    unfold selectLoopWith at done
    split_ifs at done
    · cases done
      exact .refl _
    · split at done
      · cases done
      · rename_i parted
        have first := perm_partitionWith parted
        split_ifs at done
        · cases done
          exact first
        · exact (ih done).trans first
        · exact (ih done).trans first

end Rearranged

/-! ## Every access is in range -/

section Ordered

variable {α : Type} [Inhabited α] [LinearOrder α]

omit [Inhabited α] [LinearOrder α] in
theorem swapAt_eq {r : Swapped α} {i j : Nat} (inI : i < r.slice.length) (inJ : j < r.slice.length) :
    r.swapAt i j = some ⟨swap r.slice i j, r.swaps ++ [(i, j)]⟩ := if_pos ⟨inI, inJ⟩

theorem partitionLoopWith_eq {right : Nat} (count i storeIndex : Nat) (r : Swapped α) (ends : i + count = right)
    (inside : right < r.slice.length) (behind : storeIndex ≤ i) :
    ∃ swaps, partitionLoopWith (fun a b => decide (a < b)) right count i storeIndex r =
      some (⟨(partitionLoop right count i storeIndex r.slice).1, swaps⟩,
        (partitionLoop right count i storeIndex r.slice).2) := by
  induction count generalizing i storeIndex r with
  | zero => exact ⟨r.swaps, rfl⟩
  | succ count ih =>
    have inI : i < r.slice.length := by omega
    have readI : r.slice[i]? = some (r.slice.getD i default) := by simp [inI]
    have readRight : r.slice[right]? = some (r.slice.getD right default) := by simp [inside]
    rw [partitionLoopWith, partitionLoop, readI, readRight]
    dsimp only
    by_cases moves : r.slice.getD i default < r.slice.getD right default
    · rw [if_pos (decide_eq_true moves), if_pos moves, swapAt_eq (by omega) inI]
      exact ih (i + 1) (storeIndex + 1) _ (by omega) (by rwa [length_swap]) (by omega)
    · rw [if_neg (by simpa using moves), if_neg moves]
      exact ih (i + 1) storeIndex r (by omega) inside (by omega)

theorem partitionWith_eq {pivot left right : Nat} (r : Swapped α) (low : left ≤ pivot) (high : pivot ≤ right)
    (inside : right < r.slice.length) :
    ∃ swaps, partitionWith (fun a b => decide (a < b)) r pivot left right =
      some (⟨(partition r.slice pivot left right).1, swaps⟩, (partition r.slice pivot left right).2) := by
  have inside' : right < (swap r.slice pivot right).length := by rwa [length_swap]
  obtain ⟨moved, parted⟩ := partitionLoop_spec (right - left) left left (swap r.slice pivot right) (by omega) inside'
    ⟨le_rfl, le_rfl, fun m _ _ => by omega, fun m _ _ => by omega⟩
  obtain ⟨swaps, looped⟩ := partitionLoopWith_eq (right - left) left left
    ⟨swap r.slice pivot right, r.swaps ++ [(pivot, right)]⟩ (by omega) inside' le_rfl
  have length := moved.length
  have store := parted.high
  refine ⟨swaps ++ [(right, (partitionLoop right (right - left) left left (swap r.slice pivot right)).2)], ?_⟩
  unfold partitionWith
  rw [swapAt_eq (by omega) inside]
  dsimp only
  rw [looped]
  dsimp only
  rw [swapAt_eq (by dsimp only; omega) (by dsimp only; omega)]
  rfl

theorem selectLoopWith_eq {k : Nat} (fuel left right : Nat) (r : Swapped α) (low : left ≤ k) (high : k ≤ right)
    (inside : right < r.slice.length) (enough : right - left < fuel) :
    ∃ swaps, selectLoopWith (fun a b => decide (a < b)) k fuel left right r =
      some ⟨nthElementLoop k fuel left right r.slice, swaps⟩ := by
  induction fuel generalizing left right r with
  | zero => omega
  | succ fuel ih =>
    rw [selectLoopWith, nthElementLoop]
    by_cases single : left = right
    · rw [if_pos single, if_pos single]
      exact ⟨r.swaps, rfl⟩
    · have middle : left ≤ (left + right) / 2 ∧ (left + right) / 2 ≤ right := by omega
      obtain ⟨moved, pivoted⟩ := partition_spec ((left + right) / 2) middle.1 middle.2 inside
      obtain ⟨swaps, parted⟩ := partitionWith_eq r middle.1 middle.2 inside
      have length := moved.length
      have lowPivot := pivoted.low
      have highPivot := pivoted.high
      rw [if_neg single, if_neg single, parted]
      dsimp only
      by_cases found : k = (partition r.slice ((left + right) / 2) left right).2
      · rw [if_pos found, if_pos found]
        exact ⟨swaps, rfl⟩
      · rw [if_neg found, if_neg found]
        by_cases below : k < (partition r.slice ((left + right) / 2) left right).2
        · rw [if_pos below, if_pos below]
          exact ih left _ ⟨_, swaps⟩ low (by omega) (by dsimp only; omega) (by omega)
        · rw [if_neg below, if_neg below]
          exact ih _ right ⟨_, swaps⟩ (by omega) high (by dsimp only; omega) (by omega)

end Ordered

/-! ## Selection -/

/-- What stands at `k` is at least what stands before it, and at most what stands behind it. -/
def Separates {α : Type} (le : α → α → Prop) (k : Nat) (s : List α) : Prop :=
  ∃ y, s[k]? = some y ∧ (∀ i x, i < k → s[i]? = some x → le x y) ∧ ∀ i x, k < i → s[i]? = some x → le y x

theorem Separates.of_map {α β : Type} {le : α → α → Prop} {le' : β → β → Prop} {f : α → β} {k : Nat} {s : List α}
    (separates : Separates le' k (s.map f)) (reflects : ∀ a b, le' (f a) (f b) → le a b) : Separates le k s := by
  obtain ⟨y, here, before, behind⟩ := separates
  rw [List.getElem?_map, Option.map_eq_some_iff] at here
  obtain ⟨y, here, rfl⟩ := here
  refine ⟨y, here, fun i x small found => reflects _ _ (before i (f x) small ?_),
    fun i x large found => reflects _ _ (behind i (f x) large ?_)⟩
  · rw [List.getElem?_map, found]
    rfl
  · rw [List.getElem?_map, found]
    rfl

theorem nthElementSliceSwaps_spec {α : Type} [LinearOrder α] {s : List α} {k : Nat} (inside : k < s.length) :
    ∃ r, nthElementSliceSwaps s k = some r ∧ r.slice.Perm s ∧ Separates (· ≤ ·) k r.slice ∧
      r.slice[k]? = (s.insertionSort (· ≤ ·))[k]? := by
  let : Inhabited α := ⟨s.get ⟨k, inside⟩⟩
  obtain ⟨swaps, run⟩ := selectLoopWith_eq (k := k) s.length 0 (s.length - 1) ⟨s, []⟩ (Nat.zero_le k) (by omega)
    (by dsimp only; omega) (by omega)
  obtain ⟨perm, below, above⟩ := nthElementLoop_spec s.length 0 (s.length - 1) s (Nat.zero_le k) (by omega) (by omega)
    (by omega) (Bracketed.mk (fun a b _ _ _ => by omega) (fun a b _ _ _ => by omega))
  obtain ⟨_, stat⟩ := nthElementSlice_spec inside
  have length := perm.length_eq
  have read : ∀ i x, (nthElementLoop k s.length 0 (s.length - 1) s)[i]? = some x →
      (nthElementLoop k s.length 0 (s.length - 1) s).getD i default = x ∧ i < s.length := by
    intro i x found
    obtain ⟨bound, -⟩ := List.getElem?_eq_some_iff.mp found
    exact ⟨by rw [List.getD_eq_getElem?_getD, found]; rfl, by omega⟩
  have here : (nthElementLoop k s.length 0 (s.length - 1) s)[k]? =
      some ((nthElementLoop k s.length 0 (s.length - 1) s).getD k default) := by
    rw [List.getD_eq_getElem _ _ (by omega)]
    exact List.getElem?_eq_getElem (by omega)
  refine ⟨_, run, perm, ⟨_, here, fun i x small found => ?_, fun i x large found => ?_⟩, ?_⟩
  · obtain ⟨rfl, -⟩ := read i x found
    exact below i small
  · obtain ⟨rfl, bound⟩ := read i x found
    exact above i large (by omega)
  · rw [here]
    have sorted : k < (s.insertionSort (· ≤ ·)).length := by rwa [List.length_insertionSort]
    rw [List.getElem?_eq_getElem sorted]
    exact congrArg some (stat.trans (List.getD_eq_getElem _ _ sorted))

/-- The comparison function orders, up to equal elements. -/
structure TotalPreorder {α : Type} (cmp : α → α → Int) : Prop where
  trans : ∀ a b c, cmp a b ≤ 0 → cmp b c ≤ 0 → cmp a c ≤ 0
  flip : ∀ a b, cmp a b < 0 ↔ 0 < cmp b a

namespace TotalPreorder

variable {α : Type} {cmp : α → α → Int} (total : TotalPreorder cmp)

@[reducible] def preorder : Preorder α where
  le a b := cmp a b ≤ 0
  lt a b := cmp a b < 0
  le_refl a := by
    have self := total.flip a a
    change cmp a a ≤ 0
    omega
  le_trans := total.trans
  lt_iff_le_not_ge a b := by
    have swapped := total.flip a b
    change cmp a b < 0 ↔ cmp a b ≤ 0 ∧ ¬ cmp b a ≤ 0
    omega

theorem exists_key (total : TotalPreorder cmp) : ∃ (β : Type) (_ : LinearOrder β) (key : α → β),
    (∀ a b, cmp a b < 0 ↔ key a < key b) ∧ ∀ a b, key a ≤ key b → cmp a b ≤ 0 := by
  classical
  let := total.preorder
  have : Std.Total (α := α) (· ≤ ·) := ⟨fun a b => by
    have swapped := total.flip a b
    change cmp a b ≤ 0 ∨ cmp b a ≤ 0
    omega⟩
  refine ⟨Antisymmetrization α (· ≤ ·), inferInstance, toAntisymmetrization (· ≤ ·), fun a b => ?_, fun a b le => ?_⟩
  · exact toAntisymmetrization_lt_toAntisymmetrization_iff.symm
  · exact toAntisymmetrization_le_toAntisymmetrization_iff.mp le

end TotalPreorder

/-- Both functions end, access the slice in range only, rearrange it and select; and the one with a comparison
function makes the swaps that the other one makes of keys that compare alike. -/
theorem nthElement_selects :
    (∀ {α : Type} [LinearOrder α] (s : List α) (k : Nat), k < s.length →
      ∃ r, nthElementSliceSwaps s k = some r ∧ r.slice.Perm s ∧ Separates (· ≤ ·) k r.slice ∧
        r.slice[k]? = (s.insertionSort (· ≤ ·))[k]?) ∧
    ∀ {α : Type} (cmp : α → α → Int), TotalPreorder cmp → ∀ (s : List α) (k : Nat), k < s.length →
      ∃ r, nthElementSliceFunc s cmp k = some r ∧ r.slice.Perm s ∧ Separates (fun a b => cmp a b ≤ 0) k r.slice ∧
        ∀ {β : Type} [LinearOrder β] (key : α → β), (∀ a b, cmp a b < 0 ↔ key a < key b) →
          nthElementSliceSwaps (s.map key) k = some (r.map key) := by
  refine ⟨fun s k inside => nthElementSliceSwaps_spec inside, fun {α} cmp total s k inside => ?_⟩
  -- what a run on keys tells of the run on the elements
  have byKey : ∀ {β : Type} [LinearOrder β] (key : α → β), (∀ a b, cmp a b < 0 ↔ key a < key b) →
      nthElementSliceSwaps (s.map key) k = (nthElementSliceFunc s cmp k).map (Swapped.map key) :=
    fun key alike => selectWith_map (fun a b => decide_eq_decide.mpr (alike a b).symm) s k
  obtain ⟨β, order, key, alike, reflects⟩ := total.exists_key
  obtain ⟨r', run, -, separates, -⟩ := nthElementSliceSwaps_spec (s := s.map key) (by rwa [List.length_map])
  rw [byKey key alike, Option.map_eq_some_iff] at run
  obtain ⟨r, ran, rfl⟩ := run
  refine ⟨r, ran, perm_selectLoopWith ran, separates.of_map reflects, fun key alike => ?_⟩
  rw [byKey key alike, ran]
  rfl

example : (nthElementSliceFunc [50, 10, 40, 20, 30] (fun a b : Int => a - b) 1).map Swapped.slice =
    some [10, 20, 30, 40, 50] := by
  decide +kernel

end P2PoolObserver
