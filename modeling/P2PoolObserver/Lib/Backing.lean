/-
# Lib.Backing -- slices and the arrays behind them

Two slices may share an array, and `append` writes into the array of its argument as long as
there is room behind it.

* `append_holds`: the longer slice holds one element more, and the shorter one still holds
  what it did;
* `Keeps.read`: slices apart from an array read the same before and after operations on it.
-/
import Mathlib.Tactic.Common
import Mathlib.Data.List.Basic

namespace P2PoolObserver.Lib

variable {α : Type}

/-- Arrays by their address; a cell that was never written holds nil. -/
abbrev Arrays (α : Type) := List (List (Option α))

structure BackedSlice where
  array : Nat
  len : Nat
  cap : Nat
  deriving DecidableEq

namespace Arrays

variable {h : Arrays α} {s : BackedSlice} {xs : List α}

/-! ## Operations -/

def cells (h : Arrays α) (a : Nat) : List (Option α) := h[a]?.getD []

def read (h : Arrays α) (s : BackedSlice) : List (Option α) := (h.cells s.array).take s.len

def make (h : Arrays α) (cap : Nat) : BackedSlice × Arrays α :=
  (⟨h.length, 0, cap⟩, h ++ [List.replicate cap none])

/-- `append(s, x)`: in place if there is room, else in a new array with so many cells to spare as
the runtime decides. -/
def append (grow : Nat → Nat) (h : Arrays α) (s : BackedSlice) (x : α) : BackedSlice × Arrays α :=
  if s.len < s.cap then
    ({ s with len := s.len + 1 }, h.set s.array ((h.cells s.array).set s.len (some x)))
  else
    (⟨h.length, s.len + 1, s.len + 1 + grow s.len⟩,
      h ++ [h.read s ++ some x :: List.replicate (grow s.len) none])

/-- `slices.Clone(s)`, which is `append(s[:0:0], s...)`: nothing to copy leaves the array. -/
def clone (grow : Nat → Nat) (h : Arrays α) (s : BackedSlice) : BackedSlice × Arrays α :=
  if s.len = 0 then ({ s with cap := 0 }, h)
  else (⟨h.length, s.len, s.len + grow s.len⟩, h ++ [h.read s ++ List.replicate (grow s.len) none])

/-! ## What a slice holds -/

theorem cells_set_self {a : Nat} (present : a < h.length) (content : List (Option α)) :
    Arrays.cells (h.set a content) a = content := by
  rw [cells, List.getElem?_set_self present]
  rfl

theorem cells_concat (h : Arrays α) (content : List (Option α)) :
    Arrays.cells (h ++ [content]) h.length = content := by
  simp [cells]

/-- The cells of the slice hold the list, and the slice ends where its array does. -/
structure Holds (h : Arrays α) (s : BackedSlice) (xs : List α) : Prop where
  present : s.array < h.length
  cap : s.cap = (h.cells s.array).length
  len : s.len = xs.length
  content : h.read s = xs.map some

theorem make_holds (h : Arrays α) (cap : Nat) : Holds (h.make cap).2 (h.make cap).1 [] where
  present := by simp [make]
  cap := by simp [make, cells_concat]
  len := rfl
  content := rfl

theorem Holds.shorter {ys : List α} (holds : Holds h s (xs ++ ys)) :
    Holds h { s with len := xs.length } xs where
  present := holds.present
  cap := holds.cap
  len := rfl
  content := by
    have content := congrArg (List.take xs.length) holds.content
    rw [read, List.take_take, holds.len, List.length_append, Nat.min_eq_left (Nat.le_add_right _ _),
      List.map_append, List.take_left' (List.length_map some)] at content
    exact content

theorem append_holds (grow : Nat → Nat) (holds : Holds h s xs)
    (room : s.len < s.cap) (x : α) : Holds (h.append grow s x).2 (h.append grow s x).1 (xs ++ [x]) := by
  rw [append, if_pos room]
  have inside : s.len < (h.cells s.array).length := by rw [← holds.cap]; exact room
  refine ⟨?_, ?_, ?_, ?_⟩
  · rw [List.length_set]
    exact holds.present
  · rw [cells_set_self holds.present, List.length_set]
    exact holds.cap
  · rw [List.length_append, ← holds.len]
    rfl
  · rw [read, cells_set_self holds.present, List.map_append, ← holds.content, read]
    rw [List.take_add_one, List.getElem?_set_self inside, List.take_set_of_le (Nat.le_refl _)]
    rfl

/-! ## Frames -/

/-- Only array `a` has changed. -/
structure Keeps (a : Nat) (h h' : Arrays α) : Prop where
  length : h.length ≤ h'.length
  others : ∀ b < h.length, b ≠ a → h'.cells b = h.cells b

def Apart (a : Nat) (h : Arrays α) (s : BackedSlice) : Prop := s.len = 0 ∨ (s.array ≠ a ∧ s.array < h.length)

theorem Keeps.apart {a : Nat} {h h' : Arrays α} (keeps : Keeps a h h') {s : BackedSlice} (apart : Apart a h s) :
    Apart a h' s := apart.imp id fun ⟨other, present⟩ => ⟨other, Nat.lt_of_lt_of_le present keeps.length⟩

theorem Keeps.read {a : Nat} {h h' : Arrays α} (keeps : Keeps a h h') {s : BackedSlice} (apart : Apart a h s) :
    h'.read s = h.read s := by
  rcases apart with empty | ⟨other, present⟩
  · rw [Arrays.read, Arrays.read, empty, List.take_zero, List.take_zero]
  · rw [Arrays.read, Arrays.read, keeps.others _ present other]

theorem keeps_concat (a : Nat) (h : Arrays α) (content : List (Option α)) : Keeps a h (h ++ [content]) where
  length := by simp
  others b present _ := by rw [cells, cells, List.getElem?_append_left present]

theorem append_keeps (grow : Nat → Nat) (h : Arrays α) (s : BackedSlice) (x : α) :
    Keeps s.array h (h.append grow s x).2 := by
  unfold append
  split_ifs
  · refine ⟨Nat.le_of_eq (List.length_set ..).symm, fun b _ other => ?_⟩
    unfold cells
    rw [List.getElem?_set_ne other.symm]
  · exact keeps_concat _ _ _

theorem clone_keeps (grow : Nat → Nat) (a : Nat) (h : Arrays α) (s : BackedSlice) : Keeps a h (h.clone grow s).2 := by
  unfold clone
  split_ifs
  · exact ⟨Nat.le_refl _, fun _ _ _ => rfl⟩
  · exact keeps_concat _ _ _

theorem clone_apart (grow : Nat → Nat) (present : s.array < h.length) :
    Apart s.array (h.clone grow s).2 (h.clone grow s).1 := by
  unfold clone
  split_ifs with empty
  · exact .inl empty
  · exact .inr ⟨Nat.ne_of_gt present, by simp⟩

theorem clone_read (grow : Nat → Nat) (holds : Holds h s xs) :
    (h.clone grow s).2.read (h.clone grow s).1 = xs.map some := by
  rw [← holds.content]
  unfold clone
  split_ifs with empty
  · rfl
  · have length : (h.read s).length = s.len := by rw [holds.content, List.length_map, holds.len]
    change List.take s.len (Arrays.cells _ h.length) = _
    rw [cells_concat, List.take_left' length]

theorem clone_holds (grow : Nat → Nat) {t : BackedSlice} (holds : Holds h t xs) :
    Holds (h.clone grow s).2 t xs := by
  unfold clone
  split_ifs
  · exact holds
  · have same : Arrays.cells (h ++ [h.read s ++ List.replicate (grow s.len) none]) t.array = h.cells t.array := by
      rw [cells, cells, List.getElem?_append_left holds.present]
    refine ⟨?_, ?_, holds.len, ?_⟩
    · rw [List.length_append]
      exact Nat.lt_add_right _ holds.present
    · rw [same]
      exact holds.cap
    · rw [read, same]
      exact holds.content

end Arrays

end P2PoolObserver.Lib
