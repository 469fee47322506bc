/-
# Lib.Slice -- slices with the bounds checks of the language

An index or a slice expression out of range is a panic.  The lemmas say when each of
them is in range, and what it then gives.
-/
import P2PoolObserver.Lib.Loop

namespace P2PoolObserver.Lib

variable {α : Type}

def index (s : List α) (i : Nat) : Except Fault α :=
  match s[i]? with
  | some a => .ok a
  | none => .error (.panic "index out of range")

def store (s : List α) (i : Nat) (a : α) : Except Fault (List α) :=
  if i < s.length then .ok (s.set i a) else .error (.panic "index out of range")

def sliceFrom (s : List α) (i : Nat) : Except Fault (List α) :=
  if i ≤ s.length then .ok (s.drop i) else .error (.panic "slice bounds out of range")

/-- `copy(dst, src)`, as the destination afterwards. -/
def copySlice (dst src : List α) : List α := src.take dst.length ++ dst.drop src.length

/-- `copy(dst[i:], src)`, as the whole array afterwards. -/
def copyAt (dst : List α) (i : Nat) (src : List α) : List α := dst.take i ++ copySlice (dst.drop i) src

theorem index_of_getElem? {s : List α} {i : Nat} {a : α} (there : s[i]? = some a) : index s i = .ok a := by
  rw [index, there]

theorem store_of_lt {s : List α} {i : Nat} (inRange : i < s.length) (a : α) :
    store s i a = .ok (s.set i a) := if_pos inRange

theorem sliceFrom_of_le {s : List α} {i : Nat} (inRange : i ≤ s.length) :
    sliceFrom s i = .ok (s.drop i) := if_pos inRange

theorem copySlice_of_le {dst src : List α} (fits : src.length ≤ dst.length) :
    copySlice dst src = src ++ dst.drop src.length := by
  rw [copySlice, List.take_of_length_le fits]

theorem copyAt_append (written rest src : List α) (fits : src.length ≤ rest.length) :
    copyAt (written ++ rest) written.length src = written ++ src ++ rest.drop src.length := by
  rw [copyAt, List.take_left, List.drop_left, copySlice_of_le fits, List.append_assoc]

end P2PoolObserver.Lib
