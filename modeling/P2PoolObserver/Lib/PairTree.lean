/-
# Lib.PairTree -- binary trees over a list, by halves and level by level

`perfectTree` is the root of a perfect tree over `2 ^ d` leaves, by recursion into the two
halves.  An implementation goes the other way and joins neighbours, one level at a time
(`pairUp`), often in place.

* `perfectTree_pairUp`: one level of joining takes one level off the tree.
* `foldl_leftBranch`: the siblings on the way up from the first leaf fold to the root.
-/
import Mathlib.Data.List.Basic
import Mathlib.Tactic.Common
import Mathlib.Tactic.Ring

namespace P2PoolObserver.Lib

variable {α : Type} (H : α → α → α)

/-- Neighbours are joined; a last one without a neighbour stays. -/
def pairUp : List α → List α
  | a :: b :: rest => H a b :: pairUp rest
  | rest => rest

def perfectTree [Inhabited α] : Nat → List α → α
  | 0, t => t.headD default
  | d + 1, t => H (perfectTree d (t.take (2 ^ d))) (perfectTree d (t.drop (2 ^ d)))

/-- The siblings of the nodes above the first leaf, from the bottom. -/
def leftBranch [Inhabited α] : Nat → List α → List α
  | 0, _ => []
  | d + 1, t => t.getD 1 default :: leftBranch d (pairUp H t)

/-! ## Joining -/

theorem length_pairUp : ∀ {n : Nat} {t : List α}, t.length = 2 * n → (pairUp H t).length = n
  | 0, [], _ => rfl
  | 0, _ :: _, even => by simp at even
  | n + 1, [], even => by simp at even
  | n + 1, [_], even => by simp at even; omega
  | n + 1, _ :: _ :: rest, even => by
    have shorter : rest.length = 2 * n := by simp at even; omega
    rw [pairUp, List.length_cons, length_pairUp shorter]

theorem pairUp_append : ∀ {n : Nat} {s : List α}, s.length = 2 * n → ∀ t : List α,
    pairUp H (s ++ t) = pairUp H s ++ pairUp H t
  | 0, [], _, _ => rfl
  | 0, _ :: _, even, _ => by simp at even
  | n + 1, [], even, _ => by simp at even
  | n + 1, [_], even, _ => by simp at even; omega
  | n + 1, a :: b :: rest, even, t => by
    have shorter : rest.length = 2 * n := by simp at even; omega
    rw [List.cons_append, List.cons_append, pairUp, pairUp_append shorter, pairUp, List.cons_append]

theorem pairUp_take_drop {n : Nat} {t : List α} (enough : 2 * n ≤ t.length) :
    (pairUp H t).take n = pairUp H (t.take (2 * n)) ∧ (pairUp H t).drop n = pairUp H (t.drop (2 * n)) := by
  have front : (t.take (2 * n)).length = 2 * n := by rw [List.length_take]; omega
  have whole : pairUp H t = pairUp H (t.take (2 * n)) ++ pairUp H (t.drop (2 * n)) := by
    rw [← pairUp_append H front, List.take_append_drop]
  have half := length_pairUp H front
  rw [whole]
  exact ⟨List.take_left' half, List.drop_left' half⟩

/-! ## Trees -/

section Trees

variable [Inhabited α]

theorem perfectTree_pairUp : ∀ {d : Nat} {t : List α}, t.length = 2 ^ (d + 1) →
    perfectTree H (d + 1) t = perfectTree H d (pairUp H t) := by
  intro d
  induction d with
  | zero =>
    intro t size
    match t, size with
    | [a, b], _ => rfl
  | succ d ih =>
    intro t size
    have halves : t.length = 2 * 2 ^ (d + 1) := by rw [size, pow_succ]; ring
    have double : 2 ^ (d + 1) = 2 * 2 ^ d := by rw [pow_succ]; ring
    have left : (t.take (2 ^ (d + 1))).length = 2 ^ (d + 1) := by rw [List.length_take]; omega
    have right : (t.drop (2 ^ (d + 1))).length = 2 ^ (d + 1) := by rw [List.length_drop]; omega
    obtain ⟨front, back⟩ := pairUp_take_drop H (n := 2 ^ d) (t := t) (by omega)
    rw [perfectTree, ih left, ih right, perfectTree, front, back, ← double]

theorem foldl_leftBranch : ∀ {d : Nat} {t : List α}, t.length = 2 ^ d →
    (leftBranch H d t).foldl H (t.headD default) = perfectTree H d t := by
  intro d
  induction d with
  | zero => exact fun _ => rfl
  | succ d ih =>
    intro t size
    have halves : t.length = 2 * 2 ^ d := by rw [size, pow_succ]; ring
    match t, halves with
    | [], halves => simp at halves
    | [_], halves => simp at halves; omega
    | a :: b :: rest, halves =>
      rw [perfectTree_pairUp H size, ← ih (length_pairUp H halves)]
      rfl

end Trees

/-! ## Joining in place -/

theorem getElem?_pairUp_append {t : List α} {i j : Nat} (enough : 2 * i ≤ t.length) (later : i ≤ j) :
    (pairUp H (t.take (2 * i)) ++ t.drop i)[j]? = t[j]? := by
  have front : (t.take (2 * i)).length = 2 * i := by rw [List.length_take]; omega
  have joined := length_pairUp H front
  rw [List.getElem?_append_right (by omega), List.getElem?_drop, joined, Nat.add_sub_cancel' later]

theorem length_pairUp_append {t : List α} {i : Nat} (enough : 2 * i ≤ t.length) :
    (pairUp H (t.take (2 * i)) ++ t.drop i).length = t.length := by
  have front : (t.take (2 * i)).length = 2 * i := by rw [List.length_take]; omega
  rw [List.length_append, length_pairUp H front, List.length_drop]
  omega

theorem set_pairUp {t : List α} {i : Nat} {a b : α} (left : t[2 * i]? = some a)
    (right : t[2 * i + 1]? = some b) : (pairUp H (t.take (2 * i)) ++ t.drop i).set i (H a b) =
      pairUp H (t.take (2 * (i + 1))) ++ t.drop (i + 1) := by
  have bound : 2 * i + 1 < t.length := (List.getElem?_eq_some_iff.mp right).1
  have front : (t.take (2 * i)).length = 2 * i := by rw [List.length_take]; omega
  have joined := length_pairUp H front
  have two : t.take (2 * (i + 1)) = t.take (2 * i) ++ [a, b] := by
    rw [show 2 * (i + 1) = 2 * i + 1 + 1 by ring, List.take_add_one, List.take_add_one, left, right]
    simp
  have rest : t.drop i = t[i] :: t.drop (i + 1) := List.drop_eq_getElem_cons (by omega)
  rw [two, pairUp_append H front, List.set_append_right _ _ (by omega), joined, Nat.sub_self, rest,
    List.set_cons_zero]
  simp [pairUp]

end P2PoolObserver.Lib
