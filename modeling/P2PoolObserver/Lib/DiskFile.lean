/-
# Lib.DiskFile -- a file with reads and writes at offsets

A file is its size and its bytes.  A read at an offset gives all the bytes that are asked
for or fails; a write grows the file where it has to, and the gap it leaves reads as zeros.
-/
import P2PoolObserver.Lib.Bytes

namespace P2PoolObserver.Lib

structure DiskFile where
  size : Nat
  byte : Nat → UInt8

namespace DiskFile

def new : DiskFile := ⟨0, fun _ => 0⟩

def bytes (f : DiskFile) (offset n : Nat) : Bytes := (List.range n).map fun i => f.byte (offset + i)

def readAt (f : DiskFile) (offset n : Nat) : Option Bytes :=
  if n = 0 ∨ offset + n ≤ f.size then some (f.bytes offset n) else none

def writeAt (f : DiskFile) (data : Bytes) (offset : Nat) : DiskFile :=
  if data = [] then f
  else
    { size := max f.size (offset + data.length)
      byte := fun i =>
        if offset ≤ i ∧ i < offset + data.length then data.getD (i - offset) 0
        else if i < f.size then f.byte i else 0 }

variable {f : DiskFile} {data : Bytes} {offset n : Nat}

@[simp] theorem length_bytes (f : DiskFile) (offset n : Nat) : (f.bytes offset n).length = n := by
  simp [bytes]

theorem getElem?_bytes {i : Nat} (inRange : i < n) : (f.bytes offset n)[i]? = some (f.byte (offset + i)) := by
  rw [bytes, List.getElem?_map, List.getElem?_range inRange]
  rfl

theorem bytes_congr {g : DiskFile} (same : ∀ i < n, f.byte (offset + i) = g.byte (offset + i)) :
    f.bytes offset n = g.bytes offset n :=
  List.map_congr_left fun i mem => same i (List.mem_range.mp mem)

theorem bytes_zero (zero : ∀ i < n, f.byte (offset + i) = 0) : f.bytes offset n = List.replicate n 0 := by
  rw [List.eq_replicate_iff]
  refine ⟨length_bytes f offset n, fun b mem => ?_⟩
  obtain ⟨i, small, rfl⟩ := List.mem_map.mp mem
  exact zero i (List.mem_range.mp small)

theorem readAt_of_le (inside : offset + n ≤ f.size) : f.readAt offset n = some (f.bytes offset n) :=
  if_pos (.inr inside)

theorem size_le_writeAt (f : DiskFile) (data : Bytes) (offset : Nat) : f.size ≤ (f.writeAt data offset).size := by
  unfold writeAt
  split_ifs
  · exact Nat.le_refl _
  · exact Nat.le_max_left _ _

theorem end_le_writeAt (nonempty : data ≠ []) : offset + data.length ≤ (f.writeAt data offset).size := by
  rw [writeAt, if_neg nonempty]
  exact Nat.le_max_right _ _

theorem byte_writeAt_inside {i : Nat} (inRange : i < data.length) :
    (f.writeAt data offset).byte (offset + i) = data.getD i 0 := by
  have nonempty : data ≠ [] := List.ne_nil_of_length_pos (Nat.zero_lt_of_lt inRange)
  rw [writeAt, if_neg nonempty]
  dsimp only
  rw [if_pos ⟨Nat.le_add_right _ _, Nat.add_lt_add_left inRange _⟩, Nat.add_sub_cancel_left]

theorem byte_writeAt_outside {i : Nat} (inside : i < f.size) (apart : i < offset ∨ offset + data.length ≤ i) :
    (f.writeAt data offset).byte i = f.byte i := by
  unfold writeAt
  split_ifs
  · rfl
  · dsimp only
    rw [if_neg (by omega), if_pos inside]

theorem byte_writeAt_gap {i : Nat} (nonempty : data ≠ []) (outside : f.size ≤ i)
    (apart : i < offset ∨ offset + data.length ≤ i) : (f.writeAt data offset).byte i = 0 := by
  rw [writeAt, if_neg nonempty]
  dsimp only
  rw [if_neg (by omega), if_neg (Nat.not_lt.mpr outside)]

theorem readAt_writeAt_self (f : DiskFile) (data : Bytes) (offset : Nat) :
    (f.writeAt data offset).readAt offset data.length = some data := by
  have written : (f.writeAt data offset).bytes offset data.length = data := by
    apply List.ext_getElem?
    intro i
    by_cases inRange : i < data.length
    · rw [getElem?_bytes inRange, byte_writeAt_inside inRange, List.getD_eq_getElem?_getD,
        List.getElem?_eq_getElem inRange, Option.getD_some]
    · rw [List.getElem?_eq_none (by simpa using inRange), List.getElem?_eq_none (Nat.not_lt.mp inRange)]
  have readable : data.length = 0 ∨ offset + data.length ≤ (f.writeAt data offset).size := by
    by_cases none : data = []
    · exact .inl (by rw [none]; rfl)
    · exact .inr (end_le_writeAt none)
  rw [readAt, if_pos readable, written]

theorem readAt_writeAt_apart {at' : Nat} (inside : at' + n ≤ f.size)
    (apart : at' + n ≤ offset ∨ offset + data.length ≤ at') :
    (f.writeAt data offset).readAt at' n = f.readAt at' n := by
  rw [readAt_of_le inside, readAt_of_le (inside.trans (size_le_writeAt f data offset))]
  exact congrArg some (bytes_congr fun i small => byte_writeAt_outside (by omega) (by omega))

theorem readAt_writeAt_byte {at' i : Nat} (value : UInt8) (inside : at' + n ≤ f.size) :
    (f.writeAt [value] (at' + i)).readAt at' n = some ((f.bytes at' n).set i value) := by
  rw [readAt_of_le (inside.trans (size_le_writeAt f _ _))]
  congr 1
  apply List.ext_getElem?
  intro j
  by_cases small : j < n
  · rw [getElem?_bytes small]
    by_cases same : i = j
    · subst same
      rw [List.getElem?_set_self (by simpa using small)]
      exact congrArg some (byte_writeAt_inside (i := 0) Nat.zero_lt_one)
    · rw [List.getElem?_set_ne same, getElem?_bytes small]
      refine congrArg some (byte_writeAt_outside (by omega) ?_)
      simp only [List.length_singleton]
      omega
  · rw [List.getElem?_eq_none (by simpa using small), List.getElem?_eq_none (by simpa using small)]

end DiskFile

end P2PoolObserver.Lib
