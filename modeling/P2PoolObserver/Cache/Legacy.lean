/-
# Cache.Legacy -- the block cache file (`p2pool/cache/legacy/legacy.go`)

The file is an array of slots, each a length of four bytes and room for a block.  `Store` and
`LoadAll` take the slot from one counter, so a file written from slot 1 on is read from slot 1 on.

Under the bytes lies an array of blobs (`Represents`): `Store` puts a blob in its slot, and to
open the file again writes a zero over its last byte, which belongs to the last slot when the
blob there fills it (`represents_newCache`).
-/
import P2PoolObserver.Lib.DiskFile
import P2PoolObserver.Lib.Loop
import P2PoolObserver.Sidechain.RoundTrip

namespace P2PoolObserver.Legacy

open Lib

def blockSize : Nat := 96 * 1024
def numBlocks : Nat := 4608
def cacheSize : Nat := blockSize * numBlocks

/-- `Cache`.  `storeIndex` counts the additions to the counter, whose value is its low 32
bits; a file that `NewCache` has opened is never shorter than the cache. -/
structure Cache where
  f : DiskFile
  storeIndex : Nat
  loadingStarted : Bool
  loadingInProgress : Bool
  full : cacheSize ≤ f.size

/-- `NewCache`: to make the file as large as the cache, its last byte is written. -/
def newCache (file : DiskFile) : Cache where
  f := file.writeAt [0] (cacheSize - 1)
  storeIndex := 0
  loadingStarted := false
  loadingInProgress := false
  full := @DiskFile.end_le_writeAt file [0] (cacheSize - 1) (by decide)

theorem newCache_f (file : DiskFile) : (newCache file).f = file.writeAt [0] (cacheSize - 1) := rfl

/-- The slot of a value of the counter, `% NumBlocks`. -/
def slotNumber (storeIndex : Nat) : Nat := storeIndex % 2 ^ 32 % numBlocks

/-- `(c.storeIndex.Add(1) % NumBlocks) * blockSize`, on 32 bits. -/
def slotOffset (storeIndex : Nat) : Nat := slotNumber storeIndex * blockSize % 2 ^ 32

/-! ## Storing -/

def writeSlot (f : DiskFile) (offset : Nat) (blob : Bytes) : DiskFile :=
  (f.writeAt (leBytes 4 (blob.length % 2 ^ 32)) offset).writeAt blob (offset + 4)

theorem size_le_writeSlot (f : DiskFile) (offset : Nat) (blob : Bytes) : f.size ≤ (writeSlot f offset blob).size :=
  (DiskFile.size_le_writeAt f _ _).trans (DiskFile.size_le_writeAt _ _ _)

def Cache.storeBlob (c : Cache) (blob : Bytes) : Cache :=
  { c with
    f := writeSlot c.f (slotOffset (c.storeIndex + 1)) blob
    storeIndex := c.storeIndex + 1
    full := c.full.trans (size_le_writeSlot _ _ _) }

def Cache.store (c : Cache) (block : PoolBlock) : Cache :=
  if c.loadingInProgress then c
  else
    match block.appendBinaryFlags false false with
    | .error _ => c
    | .ok blob => if blob.length + 4 > blockSize then c else c.storeBlob blob

/-! ## Loading -/

/-- What the loop of `LoadAll` does with one slot: the loop ends, the slot is passed over,
or the block of a blob is handed to the loadee. -/
inductive Loaded where
  | unreadable
  | skipped
  | block (blob : Bytes) (block : PoolBlock)

/-- A block that was handed to the loadee, with the slot and the bytes it was read from. -/
structure Offer where
  offset : Nat
  blob : Bytes
  block : PoolBlock

/-- How the loop goes on after a slot; `rest` is its remaining turns. -/
def afterSlot (storeIndex : Nat) : Except Fault Loaded → Except Fault (Nat × List Offer) →
    Except Fault (Nat × List Offer)
  | .error fault, _ => .error fault
  | .ok .unreadable, _ => .ok (storeIndex, [])
  | .ok .skipped, rest => rest
  | .ok (.block _ _), .error fault => .error fault
  | .ok (.block blob block), .ok (last, offers) => .ok (last, ⟨slotOffset storeIndex, blob, block⟩ :: offers)

section Load

variable [Crypto] (consensus : Consensus) (clock : Nat → UInt64)

def loadSlot (f : DiskFile) (offset : Nat) (now : UInt64) : Except Fault Loaded :=
  match f.readAt offset 4 with
  | none => .ok .unreadable
  | some blobLen =>
    let blobLength := ofLeBytes blobLen
    -- the sum is one of 32 bits, the buffer has room for blockSize bytes
    if (blobLength + 4) % 2 ^ 32 > blockSize then .ok .skipped
    else if blobLength > blockSize then .error (.panic "slice bounds out of range")
    else
      match f.readAt (offset + 4) blobLength with
      | none => .ok .skipped
      | some blob =>
        match PoolBlock.unmarshalBinary consensus blob with
        | .ok (block, _) => .ok (.block blob { block with localTimestamp := now })
        | .error (.panicked message) => .error (.panic message)
        | .error _ => .ok .skipped

/-- The loop of `LoadAll`, for so many slots behind a value of the counter; `clock` is the
time at each value. -/
def loadSlots (f : DiskFile) : Nat → Nat → Except Fault (Nat × List Offer)
  | 0, storeIndex => .ok (storeIndex, [])
  | n + 1, storeIndex =>
    afterSlot (storeIndex + 1)
      (loadSlot consensus f (slotOffset (storeIndex + 1)) (clock (storeIndex + 1)))
      (loadSlots f n (storeIndex + 1))

def Cache.loadAll (c : Cache) : Except Fault (Cache × List Offer) :=
  if c.loadingStarted then .ok (c, [])
  else
    match loadSlots consensus clock c.f numBlocks c.storeIndex with
    | .error fault => .error fault
    | .ok (last, offers) =>
      .ok ({ c with storeIndex := last, loadingStarted := true, loadingInProgress := false }, offers)

end Load

/-! ## Slots lie in the file -/

theorem slotNumber_lt (storeIndex : Nat) : slotNumber storeIndex < numBlocks := Nat.mod_lt _ (by decide)

theorem slotOffset_eq (storeIndex : Nat) : slotOffset storeIndex = slotNumber storeIndex * blockSize := by
  have small := slotNumber_lt storeIndex
  unfold numBlocks at small
  unfold slotOffset blockSize
  omega

theorem slot_inside {k : Nat} (small : k < numBlocks) : k * blockSize + blockSize ≤ cacheSize := by
  unfold numBlocks at small
  unfold cacheSize blockSize numBlocks
  omega

theorem slotOffset_inside (storeIndex : Nat) : slotOffset storeIndex + blockSize ≤ cacheSize := by
  rw [slotOffset_eq]
  exact slot_inside (slotNumber_lt storeIndex)

/-! ## Any file -/

theorem forall_from_succ {P : Nat → Prop} {n s : Nat} :
    (∀ i < n + 1, P (s + i)) ↔ P s ∧ ∀ i < n, P (s + 1 + i) := by
  have shift : ∀ i, s + (i + 1) = s + 1 + i := by omega
  rw [Nat.forall_lt_succ_left, Nat.add_zero]
  exact and_congr_right fun _ => forall₂_congr fun i _ => by rw [shift]

theorem exists_from_succ {P : Nat → Prop} {n s : Nat} :
    (∃ i < n + 1, P (s + i)) ↔ P s ∨ ∃ i < n, P (s + 1 + i) := by
  have shift : ∀ i, s + (i + 1) = s + 1 + i := by omega
  rw [Nat.exists_lt_succ_left, Nat.add_zero]
  exact or_congr_right (exists_congr fun i => and_congr_right fun _ => by rw [shift])

section AnyFile

variable [Crypto] (consensus : Consensus) (clock : Nat → UInt64) {f : DiskFile} {offset : Nat}

def lengthField (f : DiskFile) (offset : Nat) : Nat := ofLeBytes (f.bytes offset 4)

/-- The length of the slot does not wrap when four is added to it, and the block decoder
does not panic on bytes of a slot that are read. -/
structure SlotHarmless (f : DiskFile) (offset : Nat) : Prop where
  length : lengthField f offset + 4 < 2 ^ 32
  decodes : lengthField f offset + 4 ≤ blockSize → ∀ message,
    PoolBlock.unmarshalBinary consensus (f.bytes (offset + 4) (lengthField f offset)) ≠ .error (.panicked message)

omit [Crypto] in
theorem lengthField_lt (f : DiskFile) (offset : Nat) : lengthField f offset < 2 ^ 32 := by
  have bound := ofLeBytes_lt (f.bytes offset 4)
  rw [DiskFile.length_bytes] at bound
  exact bound

variable {consensus clock}
variable {c : Cache} {last : Nat} {offers : List Offer}

theorem loadSlot_eq (inside : offset + blockSize ≤ f.size) (now : UInt64) :
    loadSlot consensus f offset now =
      if (lengthField f offset + 4) % 2 ^ 32 > blockSize then .ok .skipped
      else if lengthField f offset > blockSize then .error (.panic "slice bounds out of range")
      else
        match PoolBlock.unmarshalBinary consensus (f.bytes (offset + 4) (lengthField f offset)) with
        | .ok (block, _) =>
          .ok (.block (f.bytes (offset + 4) (lengthField f offset)) { block with localTimestamp := now })
        | .error (.panicked message) => .error (.panic message)
        | .error _ => .ok .skipped := by
  have header : f.readAt offset 4 = some (f.bytes offset 4) :=
    DiskFile.readAt_of_le ((Nat.add_le_add_left (by decide) offset).trans inside)
  have named : ofLeBytes (f.bytes offset 4) = lengthField f offset := rfl
  unfold loadSlot
  rw [header]
  dsimp only
  rw [named]
  split_ifs with large wraps
  · rfl
  · rfl
  · have small := lengthField_lt f offset
    have sum : (lengthField f offset + 4) % 2 ^ 32 = lengthField f offset + 4 := by
      unfold blockSize at wraps
      omega
    rw [DiskFile.readAt_of_le (by omega)]

theorem loadSlot_ok_iff (inside : offset + blockSize ≤ f.size) (now : UInt64) :
    (∃ loaded, loadSlot consensus f offset now = .ok loaded) ↔ SlotHarmless consensus f offset := by
  have small := lengthField_lt f offset
  rw [loadSlot_eq inside]
  split_ifs with large wraps
  · -- passed over: the sum has not wrapped
    refine iff_of_true ⟨_, rfl⟩ ⟨?_, fun fits => ?_⟩
    · unfold blockSize at large
      omega
    · unfold blockSize at large fits
      omega
  · -- the sum has wrapped
    refine iff_of_false (fun ⟨_, same⟩ => by cases same) fun harmless => ?_
    have sum := harmless.length
    omega
  · have fits : lengthField f offset + 4 ≤ blockSize := by
      unfold blockSize at large wraps ⊢
      omega
    cases decoded : PoolBlock.unmarshalBinary consensus (f.bytes (offset + 4) (lengthField f offset)) with
    | ok result =>
      refine iff_of_true ⟨_, rfl⟩ ⟨by unfold blockSize at fits; omega, fun _ message panicked => ?_⟩
      cases decoded.symm.trans panicked
    | error failure =>
      cases failure with
      | panicked message =>
        refine iff_of_false (fun ⟨_, same⟩ => by cases same) fun harmless => ?_
        exact harmless.decodes fits message decoded
      | eof | unexpectedEof | overflow | invalid =>
        refine iff_of_true ⟨_, rfl⟩ ⟨by unfold blockSize at fits; omega, fun _ message panicked => ?_⟩
        cases decoded.symm.trans panicked

theorem loadSlot_readable (inside : offset + blockSize ≤ f.size) (now : UInt64) :
    loadSlot consensus f offset now ≠ .ok .unreadable := by
  rw [loadSlot_eq inside]
  split_ifs
  · intro same
    cases same
  · intro same
    cases same
  · split <;> intro same <;> cases same

omit [Crypto] in
theorem slotOffset_readable (full : cacheSize ≤ f.size) (storeIndex : Nat) :
    slotOffset storeIndex + blockSize ≤ f.size := (slotOffset_inside storeIndex).trans full

theorem loadSlots_ok_iff (full : cacheSize ≤ f.size) (n storeIndex : Nat) :
    (∃ result, loadSlots consensus clock f n storeIndex = .ok result) ↔
      ∀ i < n, SlotHarmless consensus f (slotOffset (storeIndex + 1 + i)) := by
  induction n generalizing storeIndex with
  | zero => exact iff_of_true ⟨_, rfl⟩ fun i small => absurd small (Nat.not_lt_zero i)
  | succ n ih =>
    have inside := slotOffset_readable full (storeIndex + 1)
    have first : (∃ loaded, loadSlot consensus f (slotOffset (storeIndex + 1)) (clock (storeIndex + 1)) = .ok loaded) ↔
        SlotHarmless consensus f (slotOffset (storeIndex + 1)) := loadSlot_ok_iff inside _
    rw [forall_from_succ (P := fun i => SlotHarmless consensus f (slotOffset i)), ← first, ← ih, loadSlots]
    cases run : loadSlot consensus f (slotOffset (storeIndex + 1)) (clock (storeIndex + 1)) with
    | error fault => exact iff_of_false (fun ⟨_, same⟩ => by cases same) fun ⟨⟨_, same⟩, _⟩ => by cases same
    | ok loaded =>
      cases loaded with
      | unreadable => exact absurd run (loadSlot_readable inside _)
      | skipped => exact (and_iff_right ⟨_, rfl⟩).symm
      | block blob block =>
        rw [and_iff_right ⟨_, rfl⟩]
        cases rest : loadSlots consensus clock f n (storeIndex + 1) with
        | error fault => exact iff_of_false (fun ⟨_, same⟩ => by cases same) fun ⟨_, same⟩ => by cases same
        | ok result => exact iff_of_true ⟨_, rfl⟩ ⟨_, rfl⟩

theorem loadAll_of_loadSlots (fresh : c.loadingStarted = false)
    (run : loadSlots consensus clock c.f numBlocks c.storeIndex = .ok (last, offers)) :
    c.loadAll consensus clock =
      .ok ({ c with storeIndex := last, loadingStarted := true, loadingInProgress := false }, offers) := by
  rw [Cache.loadAll, fresh, if_neg (by decide), run]

theorem loadAll_ok {after : Cache} (fresh : c.loadingStarted = false)
    (loaded : c.loadAll consensus clock = .ok (after, offers)) :
    ∃ last, loadSlots consensus clock c.f numBlocks c.storeIndex = .ok (last, offers) := by
  rw [Cache.loadAll, fresh, if_neg (by decide)] at loaded
  split at loaded
  · cases loaded
  · next last others run =>
      cases loaded
      exact ⟨last, run⟩

theorem mem_loadSlots (full : cacheSize ≤ f.size) {n storeIndex : Nat}
    (run : loadSlots consensus clock f n storeIndex = .ok (last, offers)) (o : Offer) :
    o ∈ offers ↔ ∃ i < n, o.offset = slotOffset (storeIndex + 1 + i) ∧
      loadSlot consensus f (slotOffset (storeIndex + 1 + i)) (clock (storeIndex + 1 + i)) =
        .ok (.block o.blob o.block) := by
  induction n generalizing storeIndex offers with
  | zero =>
    cases run
    exact iff_of_false (by simp) fun ⟨i, small, _⟩ => absurd small (Nat.not_lt_zero i)
  | succ n ih =>
    rw [exists_from_succ (P := fun i => o.offset = slotOffset i ∧
      loadSlot consensus f (slotOffset i) (clock i) = .ok (.block o.blob o.block))]
    rw [loadSlots] at run
    cases loaded : loadSlot consensus f (slotOffset (storeIndex + 1)) (clock (storeIndex + 1)) with
    | error fault =>
      rw [loaded] at run
      cases run
    | ok here =>
      rw [loaded] at run
      cases here with
      | unreadable => exact absurd loaded (loadSlot_readable (slotOffset_readable full _) _)
      | skipped =>
        rw [ih run]
        exact (or_iff_right fun ⟨_, same⟩ => by cases same).symm
      | block blob block =>
        cases rest : loadSlots consensus clock f n (storeIndex + 1) with
        | error fault =>
          rw [rest] at run
          cases run
        | ok result =>
          rw [rest] at run
          obtain ⟨last', others⟩ := result
          cases run
          have head : o = ⟨slotOffset (storeIndex + 1), blob, block⟩ ↔
              o.offset = slotOffset (storeIndex + 1) ∧
                (Except.ok (Loaded.block blob block) : Except Fault Loaded) = .ok (.block o.blob o.block) := by
            constructor
            · intro same
              rw [same]
              exact ⟨rfl, rfl⟩
            · intro ⟨offset, same⟩
              injection same with same
              injection same with blobs blocks
              rw [blobs, blocks, ← offset]
          rw [List.mem_cons, ih rest, head]

end AnyFile

/-! ## The array of blobs -/

/-- Slot `k` holds the length of the blob and the blob. -/
structure Holds (f : DiskFile) (k : Nat) (blob : Bytes) : Prop where
  header : f.readAt (k * blockSize) 4 = some (leBytes 4 blob.length)
  body : f.readAt (k * blockSize + 4) blob.length = some blob

def Represents (f : DiskFile) (content : Nat → Bytes) : Prop := ∀ k < numBlocks, Holds f k (content k)

def Fits (content : Nat → Bytes) : Prop := ∀ k, (content k).length + 4 ≤ blockSize

section Array

variable {f : DiskFile} {k : Nat} {blob : Bytes} {content : Nat → Bytes}

theorem slots_apart {j k : Nat} (other : j ≠ k) :
    j * blockSize + blockSize ≤ k * blockSize ∨ k * blockSize + blockSize ≤ j * blockSize := by
  unfold blockSize
  omega

theorem holds_writeSlot (f : DiskFile) (k : Nat) (fits : blob.length + 4 ≤ blockSize)
    (inside : k * blockSize + blockSize ≤ f.size) : Holds (writeSlot f (k * blockSize) blob) k blob := by
  have small : blob.length % 2 ^ 32 = blob.length := by
    unfold blockSize at fits
    omega
  refine ⟨?_, DiskFile.readAt_writeAt_self _ blob _⟩
  -- the header is written first, and the blob behind it
  have header := DiskFile.readAt_writeAt_self f (leBytes 4 (blob.length % 2 ^ 32)) (k * blockSize)
  rw [leBytes_length] at header
  have grown := DiskFile.size_le_writeAt f (leBytes 4 (blob.length % 2 ^ 32)) (k * blockSize)
  rw [writeSlot, DiskFile.readAt_writeAt_apart (by omega) (by omega), header, small]

theorem Holds.writeAt_apart (holds : Holds f k blob) (fits : blob.length + 4 ≤ blockSize)
    (inside : k * blockSize + blockSize ≤ f.size) {data : Bytes} {offset : Nat}
    (apart : k * blockSize + 4 + blob.length ≤ offset ∨ offset + data.length ≤ k * blockSize) :
    Holds (f.writeAt data offset) k blob := by
  refine ⟨?_, ?_⟩
  · rw [DiskFile.readAt_writeAt_apart (by omega) (by omega), holds.header]
  · rw [DiskFile.readAt_writeAt_apart (by omega) (by omega), holds.body]

theorem represents_writeSlot (represents : Represents f content) (all : Fits content) (full : cacheSize ≤ f.size)
    (small : k < numBlocks) (fits : blob.length + 4 ≤ blockSize) :
    Represents (writeSlot f (k * blockSize) blob) (Function.update content k blob) := by
  intro j inRange
  by_cases same : j = k
  · subst same
    rw [Function.update_self]
    exact holds_writeSlot f j fits ((slot_inside small).trans full)
  · rw [Function.update_of_ne same]
    have inside := (slot_inside inRange).trans full
    have away := slots_apart same
    have mine := all j
    have header : Holds (f.writeAt (leBytes 4 (blob.length % 2 ^ 32)) (k * blockSize)) j (content j) :=
      (represents j inRange).writeAt_apart mine inside (by rw [leBytes_length]; omega)
    exact header.writeAt_apart mine (inside.trans (DiskFile.size_le_writeAt _ _ _)) (by omega)

/-- What opening the file does to the blobs: the last byte of the file belongs to a blob
that fills the last slot. -/
def zeroLast (k : Nat) (blob : Bytes) : Bytes :=
  if k + 1 = numBlocks ∧ blob.length + 4 = blockSize then blob.set (blob.length - 1) 0 else blob

@[simp] theorem length_zeroLast (k : Nat) (blob : Bytes) : (zeroLast k blob).length = blob.length := by
  unfold zeroLast
  split_ifs
  · exact List.length_set
  · rfl

theorem holds_newCache (holds : Holds f k blob) (fits : blob.length + 4 ≤ blockSize) (small : k < numBlocks)
    (full : cacheSize ≤ f.size) : Holds (newCache f).f k (zeroLast k blob) := by
  have inside := (slot_inside small).trans full
  rw [newCache_f]
  unfold zeroLast
  split_ifs with filled
  · obtain ⟨last, whole⟩ := filled
    have place : cacheSize - 1 = k * blockSize + 4 + (blob.length - 1) := by
      unfold cacheSize
      unfold numBlocks at last ⊢
      unfold blockSize at whole ⊢
      omega
    have bytes : f.bytes (k * blockSize + 4) blob.length = blob := by
      have body := holds.body
      rw [DiskFile.readAt_of_le (by omega)] at body
      exact Option.some.inj body
    constructor
    · rw [List.length_set]
      have first : k * blockSize + 4 ≤ cacheSize - 1 := by
        rw [place]
        exact Nat.le_add_right _ _
      exact (DiskFile.readAt_writeAt_apart (by omega) (.inl first)).trans holds.header
    · rw [List.length_set, place, DiskFile.readAt_writeAt_byte 0 (by omega), bytes]
  · refine holds.writeAt_apart fits inside (.inl ?_)
    unfold cacheSize
    unfold numBlocks at filled small ⊢
    unfold blockSize at fits filled ⊢
    omega

theorem represents_newCache (represents : Represents f content) (all : Fits content) (full : cacheSize ≤ f.size) :
    Represents (newCache f).f fun k => zeroLast k (content k) :=
  fun k small => holds_newCache (represents k small) (all k) small full

theorem represents_new : Represents (newCache .new).f fun _ => [] := by
  have zero : ∀ i < cacheSize, (newCache .new).f.byte i = 0 := by
    intro i small
    rw [newCache_f]
    by_cases last : i = cacheSize - 1
    · rw [last]
      exact @DiskFile.byte_writeAt_inside .new [0] (cacheSize - 1) 0 Nat.zero_lt_one
    · have before : i < cacheSize - 1 := by omega
      exact DiskFile.byte_writeAt_gap (List.cons_ne_nil _ _) (Nat.zero_le _) (.inl before)
  intro k small
  have inside := slot_inside small
  have room : 4 ≤ blockSize := by decide
  have full := (newCache .new).full
  constructor
  · rw [DiskFile.readAt_of_le (by omega), DiskFile.bytes_zero fun i few => zero _ (by omega)]
    have header : leBytes 4 0 = List.replicate 4 0 := by decide
    exact congrArg some header.symm
  · exact if_pos (.inl rfl)

theorem set_last_eq_iff {blob : Bytes} (nonempty : blob ≠ []) :
    blob.set (blob.length - 1) 0 = blob ↔ blob.getLast? = some 0 := by
  obtain ⟨front, last, rfl⟩ := (List.eq_nil_or_concat blob).resolve_left nonempty
  simp [eq_comm]

theorem Holds.read (holds : Holds f k blob)
    (fits : blob.length + 4 ≤ blockSize) (inside : k * blockSize + blockSize ≤ f.size) :
    lengthField f (k * blockSize) = blob.length ∧ f.bytes (k * blockSize + 4) blob.length = blob := by
  have header := holds.header
  have body := holds.body
  rw [DiskFile.readAt_of_le (by omega)] at header body
  have small : blob.length < 256 ^ 4 := by
    unfold blockSize at fits
    omega
  refine ⟨?_, Option.some.inj body⟩
  rw [lengthField, Option.some.inj header, ofLeBytes_leBytes_of_lt small]

end Array

variable {blob : Bytes} {blocks : List PoolBlock} {blobs : List Bytes} {j k i : Nat} {c : Cache}

/-! ## Runs of stores -/

/-- What `Store` writes of a block, if it writes it. -/
def storable (block : PoolBlock) : Option Bytes :=
  match block.appendBinaryFlags false false with
  | .error _ => none
  | .ok blob => if blob.length + 4 > blockSize then none else some blob

def stored (blocks : List PoolBlock) : List Bytes := blocks.filterMap storable

/-- Blob number `j` is in slot `j + 1`, and the one of number `NumBlocks - 1` in slot 0. -/
def contentOf (blobs : List Bytes) (k : Nat) : Bytes := blobs.getD ((k + numBlocks - 1) % numBlocks) []

theorem stored_append (blocks : List PoolBlock) (block : PoolBlock) :
    stored (blocks ++ [block]) = stored blocks ++ (storable block).toList := by
  unfold stored
  rw [List.filterMap_append]
  cases written : storable block with
  | none | some blob => simp [written]

theorem storable_fits {block : PoolBlock} (written : storable block = some blob) :
    blob.length + 4 ≤ blockSize := by
  unfold storable at written
  split at written
  · cases written
  · split_ifs at written with large
    cases written
    exact Nat.not_lt.mp large

theorem stored_fits (mem : blob ∈ stored blocks) : blob.length + 4 ≤ blockSize := by
  obtain ⟨block, _, written⟩ := List.mem_filterMap.mp mem
  exact storable_fits written

theorem fits_contentOf (fits : ∀ blob ∈ blobs, blob.length + 4 ≤ blockSize) : Fits (contentOf blobs) := by
  intro k
  unfold contentOf
  rw [List.getD_eq_getElem?_getD]
  cases found : blobs[(k + numBlocks - 1) % numBlocks]? with
  | none => decide
  | some blob => exact fits blob (List.mem_of_getElem? found)

theorem slotNumber_of_le {n : Nat} (few : n ≤ numBlocks) : slotNumber n = n % numBlocks := by
  unfold slotNumber
  unfold numBlocks at few ⊢
  omega

theorem number_of_slot (few : j < numBlocks) (small : k < numBlocks) :
    (j + 1) % numBlocks = k ↔ (k + numBlocks - 1) % numBlocks = j := by
  unfold numBlocks at *
  omega

theorem contentOf_append (few : blobs.length < numBlocks) (blob : Bytes)
    (small : k < numBlocks) : contentOf (blobs ++ [blob]) k =
      Function.update (contentOf blobs) ((blobs.length + 1) % numBlocks) blob k := by
  have number := number_of_slot few small
  unfold contentOf
  by_cases own : (k + numBlocks - 1) % numBlocks = blobs.length
  · rw [← number.mpr own, Function.update_self, number.mpr own, own]
    simp
  · rw [Function.update_of_ne fun same => own (number.mp same.symm), List.getD_eq_getElem?_getD,
      List.getD_eq_getElem?_getD]
    congr 1
    by_cases before : (k + numBlocks - 1) % numBlocks < blobs.length
    · rw [List.getElem?_append_left before]
    · have behind : (blobs ++ [blob]).length ≤ (k + numBlocks - 1) % numBlocks := by
        rw [List.length_append, List.length_singleton]
        omega
      rw [List.getElem?_eq_none behind, List.getElem?_eq_none (by omega)]

def storeAll (blocks : List PoolBlock) : Cache := blocks.foldl Cache.store (newCache .new)

theorem store_eq (idle : c.loadingInProgress = false) (block : PoolBlock) :
    c.store block = (storable block).elim c c.storeBlob := by
  unfold Cache.store storable
  rw [idle, if_neg (by decide)]
  cases block.appendBinaryFlags false false with
  | error message => rfl
  | ok blob =>
    dsimp only
    split_ifs
    · rfl
    · rfl

/-- After the stores of `blobs`, each in the slot of its turn. -/
structure Stored (c : Cache) (blobs : List Bytes) : Prop where
  count : c.storeIndex = blobs.length
  idle : c.loadingInProgress = false
  content : Represents c.f (contentOf blobs)

theorem stored_storeBlob (before : Stored c blobs)
    (all : ∀ b ∈ blobs, b.length + 4 ≤ blockSize) (fits : blob.length + 4 ≤ blockSize)
    (few : blobs.length < numBlocks) : Stored (c.storeBlob blob) (blobs ++ [blob]) := by
  refine ⟨?_, before.idle, ?_⟩
  · rw [List.length_append, ← before.count]
    rfl
  · have place : slotOffset (c.storeIndex + 1) = (blobs.length + 1) % numBlocks * blockSize := by
      rw [slotOffset_eq, before.count, slotNumber_of_le few]
    have written := represents_writeSlot before.content (fits_contentOf all) c.full
      (Nat.mod_lt (blobs.length + 1) (by decide)) fits
    intro k small
    rw [contentOf_append few blob small]
    unfold Cache.storeBlob
    dsimp only
    rw [place]
    exact written k small

theorem stored_storeAll (blocks : List PoolBlock) (few : blocks.length ≤ numBlocks) :
    Stored (storeAll blocks) (stored blocks) := by
  induction blocks using List.reverseRecOn with
  | nil => exact ⟨rfl, rfl, represents_new⟩
  | append_singleton blocks block ih =>
    rw [List.length_append, List.length_singleton] at few
    have before := ih (Nat.le_of_succ_le few)
    have run : storeAll (blocks ++ [block]) = (storeAll blocks).store block := List.foldl_append
    rw [run, store_eq before.idle, stored_append]
    cases written : storable block with
    | none => simpa using before
    | some blob =>
      have count : (stored blocks).length ≤ blocks.length := List.length_filterMap_le _ _
      exact stored_storeBlob before (fun b mem => stored_fits mem) (storable_fits written) (count.trans_lt few)

/-! ## The file opened again -/

def asRead (j : Nat) (blob : Bytes) : Bytes := zeroLast ((j + 1) % numBlocks) blob

theorem holds_reopened (few : blocks.length ≤ numBlocks) (small : i < numBlocks) :
    Holds (newCache (storeAll blocks).f).f ((i + 1) % numBlocks) (asRead i ((stored blocks).getD i [])) := by
  have fits : Fits (contentOf (stored blocks)) := fits_contentOf fun blob mem => stored_fits mem
  have inRange : (i + 1) % numBlocks < numBlocks := Nat.mod_lt _ (by decide)
  have holds := represents_newCache (stored_storeAll blocks few).content fits (storeAll blocks).full _ inRange
  have number := (number_of_slot small inRange).mp rfl
  dsimp only at holds
  rw [contentOf, number] at holds
  exact holds

theorem asRead_fits (fits : blob.length + 4 ≤ blockSize) : (asRead j blob).length + 4 ≤ blockSize := by
  rw [asRead, length_zeroLast]
  exact fits

theorem getD_stored_fits (blocks : List PoolBlock) (i : Nat) : ((stored blocks).getD i []).length + 4 ≤ blockSize := by
  rw [List.getD_eq_getElem?_getD]
  cases found : (stored blocks)[i]? with
  | none => decide
  | some blob => exact stored_fits (List.mem_of_getElem? found)

theorem slotOffset_succ (small : i < numBlocks) : slotOffset (i + 1) = (i + 1) % numBlocks * blockSize := by
  rw [slotOffset_eq, slotNumber_of_le small]

theorem slotOffset_inj (smallI : i < numBlocks) (smallJ : j < numBlocks)
    (same : slotOffset (i + 1) = slotOffset (j + 1)) : i = j := by
  rw [slotOffset_succ smallI, slotOffset_succ smallJ] at same
  unfold numBlocks at *
  unfold blockSize at same
  omega

theorem asRead_eq_iff (small : j < numBlocks) (blob : Bytes) :
    asRead j blob = blob ↔ (j = numBlocks - 2 → blob.length + 4 = blockSize → blob.getLast? = some 0) := by
  have last : (j + 1) % numBlocks + 1 = numBlocks ↔ j = numBlocks - 2 := by
    unfold numBlocks at *
    omega
  unfold asRead zeroLast
  rw [← last, ← and_imp]
  split_ifs with filled
  · have nonempty : blob ≠ [] := by
      rintro rfl
      exact absurd filled.2 (by decide)
    rw [set_last_eq_iff nonempty, imp_iff_right filled]
  · exact iff_of_true rfl fun other => absurd other filled

theorem lt_numBlocks_of_stored (few : blocks.length ≤ numBlocks)
    (found : (stored blocks)[j]? = some blob) : j < numBlocks := by
  obtain ⟨inRange, _⟩ := List.getElem?_eq_some_iff.mp found
  have count : (stored blocks).length ≤ blocks.length := List.length_filterMap_le _ _
  omega

/-! ## Reading back -/

section ReadBack

variable [Crypto] (consensus : Consensus) (clock : Nat → UInt64)

/-- `LoadAll` of the reopened file returns, and has handed over each stored block whose blob
decodes, read from its slot with the bytes that `Store` wrote. -/
def Faithful (blocks : List PoolBlock) : Prop :=
  ∃ c offers, (newCache (storeAll blocks).f).loadAll consensus clock = .ok (c, offers) ∧
    ∀ j blob block rest, (stored blocks)[j]? = some blob →
      PoolBlock.unmarshalBinary consensus blob = .ok (block, rest) →
      (⟨slotOffset (j + 1), blob, { block with localTimestamp := clock (j + 1) }⟩ : Offer) ∈ offers

/-- The block decoder panics on none of the blobs as they are read back, and a blob that
decodes and fills the last slot, which is the one of number `NumBlocks - 2`, ends in zero. -/
structure ReadsBack (blocks : List PoolBlock) : Prop where
  decodes : ∀ j blob, (stored blocks)[j]? = some blob → ∀ message,
    PoolBlock.unmarshalBinary consensus (asRead j blob) ≠ .error (.panicked message)
  lastByte : ∀ blob result, (stored blocks)[numBlocks - 2]? = some blob →
    PoolBlock.unmarshalBinary consensus blob = .ok result → blob.length + 4 = blockSize → blob.getLast? = some 0

variable {consensus clock}

theorem Holds.harmless_iff {f : DiskFile} {k : Nat} {blob : Bytes} (holds : Holds f k blob)
    (fits : blob.length + 4 ≤ blockSize) (inside : k * blockSize + blockSize ≤ f.size) :
    SlotHarmless consensus f (k * blockSize) ↔
      ∀ message, PoolBlock.unmarshalBinary consensus blob ≠ .error (.panicked message) := by
  obtain ⟨length, bytes⟩ := holds.read fits inside
  constructor
  · intro harmless
    have decodes := harmless.decodes
    rw [length, bytes] at decodes
    exact decodes fits
  · intro normal
    refine ⟨?_, fun _ => ?_⟩
    · rw [length]
      unfold blockSize at fits
      omega
    · rw [length, bytes]
      exact normal

theorem Holds.loadSlot_iff {f : DiskFile} {k : Nat} {blob : Bytes} (holds : Holds f k blob)
    (fits : blob.length + 4 ≤ blockSize) (inside : k * blockSize + blockSize ≤ f.size) (now : UInt64)
    (got : Bytes) (block : PoolBlock) : loadSlot consensus f (k * blockSize) now = .ok (.block got block) ↔
      got = blob ∧ ∃ decoded rest, PoolBlock.unmarshalBinary consensus blob = .ok (decoded, rest) ∧
        block = { decoded with localTimestamp := now } := by
  obtain ⟨length, bytes⟩ := holds.read fits inside
  have small : ¬ (blob.length + 4) % 2 ^ 32 > blockSize := by
    unfold blockSize at fits ⊢
    omega
  rw [loadSlot_eq inside, length, bytes, if_neg small, if_neg (by omega)]
  cases decoded : PoolBlock.unmarshalBinary consensus blob with
  | ok result =>
    constructor
    · intro same
      cases same
      exact ⟨rfl, _, _, rfl, rfl⟩
    · rintro ⟨rfl, decoded, rest, same, rfl⟩
      cases same
      rfl
  | error failure =>
    refine iff_of_false (fun same => ?_) fun ⟨_, _, _, same, _⟩ => by cases same
    cases failure with
    | eof | unexpectedEof | overflow | invalid | panicked => cases same

theorem normal_nil (message : String) :
    PoolBlock.unmarshalBinary consensus [] ≠ .error (.panicked message) := by
  intro same
  cases same

variable {blocks : List PoolBlock} (few : blocks.length ≤ numBlocks)

include few in
theorem loadSlots_reopened_iff :
    (∃ result, loadSlots consensus clock (newCache (storeAll blocks).f).f numBlocks 0 = .ok result) ↔
      ∀ j blob, (stored blocks)[j]? = some blob → ∀ message,
        PoolBlock.unmarshalBinary consensus (asRead j blob) ≠ .error (.panicked message) := by
  have full := (newCache (storeAll blocks).f).full
  have slot : ∀ i < numBlocks,
      (SlotHarmless consensus (newCache (storeAll blocks).f).f (slotOffset (0 + 1 + i)) ↔
        ∀ message, PoolBlock.unmarshalBinary consensus (asRead i ((stored blocks).getD i [])) ≠
          .error (.panicked message)) := by
    intro i small
    have inRange : (i + 1) % numBlocks < numBlocks := Nat.mod_lt _ (by decide)
    rw [Nat.zero_add, Nat.add_comm, slotOffset_succ small]
    exact (holds_reopened few small).harmless_iff (asRead_fits (getD_stored_fits blocks i))
      ((slot_inside inRange).trans full)
  rw [loadSlots_ok_iff full]
  constructor
  · intro harmless j blob found
    have small := lt_numBlocks_of_stored few found
    have normal := (slot j small).mp (harmless j small)
    rwa [List.getD_eq_getElem?_getD, found] at normal
  · intro normal i small
    refine (slot i small).mpr ?_
    rw [List.getD_eq_getElem?_getD]
    cases found : (stored blocks)[i]? with
    | none =>
      have empty : asRead i [] = [] := by
        rw [← List.length_eq_zero_iff, asRead, length_zeroLast]
        rfl
      rw [Option.getD_none, empty]
      exact normal_nil
    | some blob => exact normal i blob found

include few in
theorem mem_offers_iff {last : Nat} {offers : List Offer}
    (run : loadSlots consensus clock (newCache (storeAll blocks).f).f numBlocks 0 = .ok (last, offers))
    {j : Nat} {blob : Bytes} (found : (stored blocks)[j]? = some blob) {block : PoolBlock} {rest : Bytes}
    (decoded : PoolBlock.unmarshalBinary consensus blob = .ok (block, rest)) :
    (⟨slotOffset (j + 1), blob, { block with localTimestamp := clock (j + 1) }⟩ : Offer) ∈ offers ↔
      asRead j blob = blob := by
  have full := (newCache (storeAll blocks).f).full
  have slot : ∀ i < numBlocks, ∀ got loaded,
      (loadSlot consensus (newCache (storeAll blocks).f).f (slotOffset (0 + 1 + i)) (clock (0 + 1 + i)) =
          .ok (.block got loaded) ↔
        got = asRead i ((stored blocks).getD i []) ∧ ∃ decoded rest,
          PoolBlock.unmarshalBinary consensus (asRead i ((stored blocks).getD i [])) = .ok (decoded, rest) ∧
          loaded = { decoded with localTimestamp := clock (i + 1) }) := by
    intro i small got loaded
    have inRange : (i + 1) % numBlocks < numBlocks := Nat.mod_lt _ (by decide)
    rw [Nat.zero_add, Nat.add_comm 1 i, slotOffset_succ small]
    exact (holds_reopened few small).loadSlot_iff (asRead_fits (getD_stored_fits blocks i))
      ((slot_inside inRange).trans full) _ got loaded
  have small := lt_numBlocks_of_stored few found
  have own : (stored blocks).getD j [] = blob := by rw [List.getD_eq_getElem?_getD, found, Option.getD_some]
  rw [mem_loadSlots full run]
  constructor
  · rintro ⟨i, inRange, offset, loaded⟩
    -- one slot is read once, so it is the one of the blob
    rw [Nat.zero_add, Nat.add_comm 1 i] at offset
    obtain rfl : j = i := slotOffset_inj small inRange offset
    have read := ((slot j small _ _).mp loaded).1
    rw [own] at read
    exact read.symm
  · intro unchanged
    refine ⟨j, small, ?_, (slot j small _ _).mpr ?_⟩
    · rw [Nat.zero_add, Nat.add_comm]
    · rw [own, unchanged]
      exact ⟨rfl, block, rest, decoded, rfl⟩

include few in
theorem faithful_iff : Faithful consensus clock blocks ↔ ReadsBack consensus blocks := by
  constructor
  · rintro ⟨c, offers, loaded, offered⟩
    obtain ⟨last, run⟩ := loadAll_ok rfl loaded
    refine ⟨(loadSlots_reopened_iff few).mp ⟨_, run⟩, fun blob result found decoded => ?_⟩
    have small := lt_numBlocks_of_stored few found
    have unchanged := (mem_offers_iff few run found decoded).mp (offered _ _ _ _ found decoded)
    exact (asRead_eq_iff small blob).mp unchanged rfl
  · intro back
    obtain ⟨⟨last, offers⟩, run⟩ := (loadSlots_reopened_iff few).mpr back.decodes
    refine ⟨_, offers, loadAll_of_loadSlots rfl run, fun j blob block rest found decoded => ?_⟩
    have small := lt_numBlocks_of_stored few found
    refine (mem_offers_iff few run found decoded).mpr ((asRead_eq_iff small blob).mpr ?_)
    rintro rfl
    exact back.lastByte blob _ found decoded

/-- Blocks that the node itself would decode again, and none that fills a slot to its last
byte, are read back as they were stored. -/
theorem readsBack_of_encodable (all : ∀ b ∈ blocks, b.Encodable consensus ∧ b.encoding.length + 4 < blockSize) :
    ReadsBack consensus blocks := by
  have encoded : ∀ blob ∈ stored blocks, blob.length + 4 < blockSize ∧
      ∃ result, PoolBlock.unmarshalBinary consensus blob = .ok result := by
    intro blob mem
    obtain ⟨b, inBlocks, written⟩ := List.mem_filterMap.mp mem
    obtain ⟨encodable, short⟩ := all b inBlocks
    have encoding : b.appendBinaryFlags false false = .ok b.encoding := PoolBlock.marshalBinary_eq encodable
    rw [storable, encoding] at written
    dsimp only at written
    rw [if_neg (by omega)] at written
    cases written
    exact ⟨short, _, PoolBlock.unmarshalBinary_encoding encodable⟩
  constructor
  · intro j blob found message
    obtain ⟨short, result, decoded⟩ := encoded blob (List.mem_of_getElem? found)
    have whole : asRead j blob = blob := if_neg fun filled => by omega
    rw [whole, decoded]
    intro same
    cases same
  · intro blob result found _ whole
    have short := (encoded blob (List.mem_of_getElem? found)).1
    omega

end ReadBack

section Both

variable [Crypto]

/-- For every content of the file, `LoadAll` returns when no slot it comes to has a length
from 2^32 - 4 on and none makes the block decoder panic; and for every run of at most
`NumBlocks` stores on a new file, the file that is opened again gives back every stored
block when its blobs are read as they were written. -/
theorem legacyCache_iff (consensus : Consensus) (clock : Nat → UInt64) :
    (∀ c : Cache, c.loadingStarted = false → ((∃ result, c.loadAll consensus clock = .ok result) ↔
      ∀ i < numBlocks, SlotHarmless consensus c.f (slotOffset (c.storeIndex + 1 + i)))) ∧
    ∀ blocks : List PoolBlock, blocks.length ≤ numBlocks →
      (Faithful consensus clock blocks ↔ ReadsBack consensus blocks) := by
  refine ⟨fun c fresh => ?_, fun blocks few => faithful_iff few⟩
  rw [← @loadSlots_ok_iff _ consensus clock c.f c.full]
  constructor
  · rintro ⟨⟨after, offers⟩, loaded⟩
    obtain ⟨last, run⟩ := loadAll_ok fresh loaded
    exact ⟨_, run⟩
  · rintro ⟨⟨last, offers⟩, run⟩
    exact ⟨_, loadAll_of_loadSlots fresh run⟩

end Both

open RoundTripExample (crypto block block_encodable)

def other : PoolBlock := { block with main := { block.main with nonce := 78 } }

/-- Two blocks in a new file, and a new file itself. -/
theorem legacyCache_iff_blocks :
    @Faithful crypto consensusMini (fun _ => 0) [block, other] ∧
      ((∃ result, @Cache.loadAll crypto consensusMini (fun _ => 0) (newCache .new) = .ok result) ↔
        ∀ i < numBlocks, @SlotHarmless crypto consensusMini (newCache .new).f (slotOffset (0 + 1 + i))) := by
  have both := @legacyCache_iff crypto consensusMini fun _ => 0
  refine ⟨(both.2 [block, other] (by decide)).mpr
    (@readsBack_of_encodable crypto consensusMini [block, other] ?_), both.1 (newCache .new) rfl⟩
  have encodable : other.Encodable consensusMini := { block_encodable with size := by decide +kernel }
  intro b mem
  rcases List.mem_cons.mp mem with rfl | mem
  · exact ⟨block_encodable, by decide +kernel⟩
  · rw [List.mem_singleton.mp mem]
    exact ⟨encodable, by decide +kernel⟩

/-- A file that has the length 2^32 - 4 in slot 1: the sum of the length and four is zero,
and the slice of the buffer is out of range. -/
theorem legacyCache_wrapped_panics :
    @Cache.loadAll crypto consensusMini (fun _ => 0) (newCache (DiskFile.new.writeAt [0xFC, 0xFF, 0xFF, 0xFF] blockSize)) =
      .error (.panic "slice bounds out of range") := by
  rfl

end P2PoolObserver.Legacy
