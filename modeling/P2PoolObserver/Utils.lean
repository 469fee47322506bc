/-
# Utils -- slices, buffers and pseudo-random numbers (`utils/nthelement.go`,
`utils/circular_buffer.go`, `utils/xorshift64star.go`)
-/
import P2PoolObserver.Types

namespace P2PoolObserver

def swap {α : Type} (s : List α) (i j : Nat) : List α :=
  match s[i]?, s[j]? with
  | some a, some b => (s.set i b).set j a
  | _, _ => s

theorem length_swap {α : Type} (s : List α) (i j : Nat) : (swap s i j).length = s.length := by
  unfold swap
  split <;> simp

theorem map_swap {α β : Type} (f : α → β) (s : List α) (i j : Nat) : swap (s.map f) i j = (swap s i j).map f := by
  unfold swap
  rw [List.getElem?_map, List.getElem?_map]
  cases s[i]? with
  | none => rfl
  | some a =>
    cases s[j]? with
    | none => rfl
    | some b => simp only [Option.map_some, List.map_set]

def xorShift64Star (x : UInt64) : UInt64 :=
  let x := x ^^^ (x >>> 12)
  let x := x ^^^ (x <<< 25)
  let x := x ^^^ (x >>> 27)
  x * 0x2545F4914F6CDD1D

section QuickSelect

variable {α : Type} [Inhabited α] [LT α] [DecidableLT α]

def partitionLoop (right : Nat) : Nat → Nat → Nat → List α → List α × Nat
  | 0, _, storeIndex, s => (s, storeIndex)
  | count + 1, i, storeIndex, s =>
    if s.getD i default < s.getD right default then
      partitionLoop right count (i + 1) (storeIndex + 1) (swap s storeIndex i)
    else partitionLoop right count (i + 1) storeIndex s

def partition (s : List α) (pivot left right : Nat) : List α × Nat :=
  let (s, storeIndex) := partitionLoop right (right - left) left left (swap s pivot right)
  (swap s right storeIndex, storeIndex)

/-- The loop of `NthElementSlice`.  Every iteration shrinks `[left, right]`, so the
length of the slice bounds their number. -/
def nthElementLoop (k : Nat) : Nat → Nat → Nat → List α → List α
  | 0, _, _, s => s
  | fuel + 1, left, right, s =>
    if left = right then s
    else
      let (s, pivotIndex) := partition s ((left + right) / 2) left right
      if k = pivotIndex then s
      else if k < pivotIndex then nthElementLoop k fuel left (pivotIndex - 1) s
      else nthElementLoop k fuel (pivotIndex + 1) right s

def nthElementSlice (s : List α) (k : Nat) : List α :=
  nthElementLoop k s.length 0 (s.length - 1) s

end QuickSelect

structure CircularBuffer (T : Type) where
  buffer : List T
  index : UInt32
  deriving DecidableEq

namespace CircularBuffer

variable {T : Type} [DecidableEq T]
variable {b b' : CircularBuffer T} {value v empty : T}

def new (size : Nat) (zero : T) : CircularBuffer T := ⟨List.replicate size zero, 0⟩

def pushUnique (b : CircularBuffer T) (value : T) : Option (CircularBuffer T) :=
  if b.buffer.length = 0 ∨ value ∈ b.buffer then none
  else some ⟨b.buffer.set ((b.index + 1).toNat % b.buffer.length) value, b.index + 1⟩

def replace (b : CircularBuffer T) (value by_ : T) : CircularBuffer T :=
  { b with buffer := b.buffer.map fun v => if value = v then by_ else v }

def nextSlot (b : CircularBuffer T) : Nat := (b.index + 1).toNat % b.buffer.length

/-- Every value but `empty` stands in one slot at most. -/
def Distinct (empty : T) (b : CircularBuffer T) : Prop :=
  ∀ (i j : Nat) (v : T), v ≠ empty → b.buffer[i]? = some v → b.buffer[j]? = some v → i = j

omit [DecidableEq T] in
theorem distinct_new (size : Nat) (zero : T) : (new size zero).Distinct zero := by
  intro i j v other first _
  exact absurd (List.eq_of_mem_replicate (List.mem_of_getElem? first)) other

theorem pushUnique_eq_some_iff : b.pushUnique value = some b' ↔
      b.buffer ≠ [] ∧ value ∉ b.buffer ∧ b' = ⟨b.buffer.set b.nextSlot value, b.index + 1⟩ := by
  unfold pushUnique nextSlot
  by_cases refused : b.buffer.length = 0 ∨ value ∈ b.buffer
  · rw [if_pos refused]
    refine ⟨nofun, fun ⟨nonempty, new, _⟩ => ?_⟩
    rcases refused with empty | present
    · exact absurd (List.length_eq_zero_iff.mp empty) nonempty
    · exact absurd present new
  · rw [if_neg refused]
    obtain ⟨nonempty, new⟩ := not_or.mp refused
    refine ⟨fun pushed => ?_, fun ⟨_, _, pushed⟩ => congrArg some pushed.symm⟩
    exact ⟨fun empty => nonempty (List.length_eq_zero_iff.mpr empty), new, (Option.some.inj pushed).symm⟩

theorem mem_of_pushUnique (pushed : b.pushUnique value = some b')
    (mem : v ∈ b'.buffer) : v = value ∨ v ∈ b.buffer := by
  obtain ⟨-, -, rfl⟩ := pushUnique_eq_some_iff.mp pushed
  exact (List.mem_or_eq_of_mem_set mem).symm

omit [DecidableEq T] in
theorem nextSlot_lt {b : CircularBuffer T} (nonempty : b.buffer ≠ []) : b.nextSlot < b.buffer.length :=
  Nat.mod_lt _ (List.length_pos_iff.mpr nonempty)

theorem mem_pushUnique_iff (distinct : b.Distinct empty)
    (pushed : b.pushUnique value = some b') (other : v ≠ empty) :
    v ∈ b'.buffer ↔ v = value ∨ (v ∈ b.buffer ∧ b.buffer[b.nextSlot]? ≠ some v) := by
  obtain ⟨nonempty, new, rfl⟩ := pushUnique_eq_some_iff.mp pushed
  dsimp only
  constructor
  · intro mem
    obtain ⟨i, found⟩ := List.mem_iff_getElem?.mp mem
    by_cases here : b.nextSlot = i
    · subst here
      rw [List.getElem?_set_self (nextSlot_lt nonempty)] at found
      exact .inl (Option.some.inj found).symm
    · rw [List.getElem?_set_ne here] at found
      exact .inr ⟨List.mem_of_getElem? found, fun overwritten => here (distinct _ _ v other overwritten found)⟩
  · rintro (rfl | ⟨mem, elsewhere⟩)
    · exact List.mem_set (nextSlot_lt nonempty) _
    · obtain ⟨i, found⟩ := List.mem_iff_getElem?.mp mem
      have other : b.nextSlot ≠ i := by
        rintro rfl
        exact elsewhere found
      exact List.mem_iff_getElem?.mpr ⟨i, by rw [List.getElem?_set_ne other, found]⟩

theorem distinct_pushUnique (distinct : b.Distinct empty)
    (pushed : b.pushUnique value = some b') : b'.Distinct empty := by
  obtain ⟨nonempty, new, rfl⟩ := pushUnique_eq_some_iff.mp pushed
  have old : ∀ {i v}, b.nextSlot ≠ i → (b.buffer.set b.nextSlot value)[i]? = some v →
      b.buffer[i]? = some v := by
    intro i v other found
    rwa [List.getElem?_set_ne other] at found
  have written : ∀ {v}, (b.buffer.set b.nextSlot value)[b.nextSlot]? = some v → v = value := by
    intro v found
    rw [List.getElem?_set_self (nextSlot_lt nonempty)] at found
    exact (Option.some.inj found).symm
  intro i j v other first second
  by_cases left : b.nextSlot = i
  · by_cases right : b.nextSlot = j
    · exact left.symm.trans right
    · subst left
      rw [written first] at second
      exact absurd (List.mem_of_getElem? (old right second)) new
  · by_cases right : b.nextSlot = j
    · subst right
      rw [written second] at first
      exact absurd (List.mem_of_getElem? (old left first)) new
    · exact distinct i j v other (old left first) (old right second)

theorem mem_replace_iff (other : v ≠ empty) :
    v ∈ (b.replace value empty).buffer ↔ v ∈ b.buffer ∧ v ≠ value := by
  unfold replace
  dsimp only
  rw [List.mem_map]
  constructor
  · rintro ⟨w, mem, same⟩
    split_ifs at same with replaced
    · exact absurd same.symm other
    · subst same
      exact ⟨mem, fun eq => replaced eq.symm⟩
  · rintro ⟨mem, kept⟩
    exact ⟨v, mem, if_neg fun eq => kept eq.symm⟩

theorem distinct_replace (distinct : b.Distinct empty) (value : T) :
    (b.replace value empty).Distinct empty := by
  have old : ∀ {i : Nat} {v : T}, v ≠ empty → (b.replace value empty).buffer[i]? = some v → b.buffer[i]? = some v := by
    intro i v other found
    unfold replace at found
    dsimp only at found
    rw [List.getElem?_map, Option.map_eq_some_iff] at found
    obtain ⟨w, there, same⟩ := found
    split_ifs at same
    · exact absurd same.symm other
    · rwa [← same]
  intro i j v other first second
  exact distinct i j v other (old other first) (old other second)

end CircularBuffer

end P2PoolObserver
