/-
# Monero.KeyDerivation -- one-time keys (`monero/address/crypto.go`, `monero/crypto`)

A coinbase output pays to a key derived from the miner's address, the transaction key and the
index of the output.  The source derives it in three ways, with the bytes hashed in one, two or
three pieces and from different buffers.  `oneTimeKey` and `viewTag` say what all of them are to
compute, in the group of the curve: `Hs(8 r V, i) G + S`.

Points, scalars and hashers out of the pools are overwritten or reset before they are read.
-/
import P2PoolObserver.Lib.Slice
import P2PoolObserver.Monero.ScReduce
import P2PoolObserver.Sidechain.PoolBlock
import Mathlib.Algebra.Group.Basic

namespace P2PoolObserver

open Lib

/-! ## The packages -/

/-- Package `edwards25519`.  Points and scalars stand for elements of a group and for residues;
several points may stand for one element. -/
class Edwards25519 where
  Element : Type
  group : AddCommGroup Element
  /-- The base point. -/
  generator : Element
  encode : Element → PublicKeyBytes
  Point : Type
  element : Point → Element
  Scalar : Type
  value : Scalar → Nat
  /-- `Point.SetBytes`: nil for an encoding that is not a curve point. -/
  setBytes : PublicKeyBytes → Option Point
  /-- `Point.Bytes`. -/
  pointBytes : Point → PublicKeyBytes
  add : Point → Point → Point
  scalarMult : Scalar → Point → Point
  unsafeVarTimeScalarMult : Scalar → Point → Point
  scalarBaseMult : Scalar → Point
  multByCofactor : Point → Point
  newScalar : Scalar
  /-- `Scalar.SetCanonicalBytes`: nil for an encoding that is not canonical. -/
  setCanonicalBytes : Bytes → Option Scalar
  /-- `Scalar.Bytes`. -/
  scalarBytes : Scalar → PrivateKeyBytes
  /-- `Scalar.Equal`, as a truth value. -/
  equal : Scalar → Scalar → Bool
  pointBytes_eq : ∀ p, pointBytes p = encode (element p)
  element_add : ∀ p q, element (add p q) = element p + element q
  element_scalarMult : ∀ s p, element (scalarMult s p) = value s • element p
  element_unsafeVarTimeScalarMult : ∀ s p, element (unsafeVarTimeScalarMult s p) = value s • element p
  element_scalarBaseMult : ∀ s, element (scalarBaseMult s) = value s • generator
  element_multByCofactor : ∀ p, element (multByCofactor p) = 8 • element p
  value_newScalar : value newScalar = 0
  value_lt : ∀ s, value s < groupOrder
  setCanonicalBytes_isSome : ∀ bs, (setCanonicalBytes bs).isSome = true ↔ bs.length = 32 ∧ ofLeBytes bs < groupOrder
  value_setCanonicalBytes : ∀ bs s, setCanonicalBytes bs = some s → value s = ofLeBytes bs
  scalarBytes_eq : ∀ s, (scalarBytes s).toNat = value s
  equal_eq : ∀ s t, equal s t = decide (value s = value t)

attribute [reducible, instance] Edwards25519.group

class Sha3 where
  HasherState : Type
  newLegacyKeccak256 : HasherState
  reset : HasherState → HasherState
  write : HasherState → Bytes → HasherState
  /-- `Read` of the hash's size, and the hasher afterwards. -/
  read : HasherState → Hash × HasherState
  keccak : Bytes → Hash
  read_new : ∀ pieces : List Bytes, (read (pieces.foldl write newLegacyKeccak256)).1 = keccak pieces.flatten
  read_reset : ∀ (h : HasherState) (pieces : List Bytes), (read (pieces.foldl write (reset h))).1 = keccak pieces.flatten

open Edwards25519 Sha3

/-! ## Hashes (`hash.go`, `pool.go`) -/

section Hashing

variable [Sha3]

structure PooledHasher where
  state : HasherState
  ready : state = newLegacyKeccak256 ∨ ∃ h, state = reset h

def keccak256 (data : List Bytes) : Hash := (read (data.foldl write newLegacyKeccak256)).1

def pooledKeccak256 (h : PooledHasher) (data : List Bytes) : Hash := (read (data.foldl write h.state)).1

theorem keccak256_eq (data : List Bytes) : keccak256 data = keccak data.flatten := read_new data

theorem pooledKeccak256_eq (h : PooledHasher) (data : List Bytes) : pooledKeccak256 h data = keccak data.flatten := by
  rcases h.ready with isNew | ⟨before, wasReset⟩
  · rw [pooledKeccak256, isNew, read_new]
  · rw [pooledKeccak256, wasReset, read_reset]

variable [Edwards25519]

def hashToScalar (h : PooledHasher) (data : List Bytes) : Option Scalar :=
  setCanonicalBytes (scReduce32 (pooledKeccak256 h data).bytes)

/-- Here a scalar that is not canonical leaves the zero the variable starts with. -/
def hashToScalarNoAllocate (data : List Bytes) : Scalar :=
  (setCanonicalBytes (scReduce32 (keccak256 data).bytes)).getD newScalar

end Hashing

section Scalars

variable [Edwards25519]

omit [Edwards25519] in
theorem ofLeBytes_bytes (h : Hash) : ofLeBytes h.bytes = h.toNat := by
  rw [Bytes32.bytes, ofLeBytes_leBytes, Nat.mod_eq_of_lt]
  exact h.isLt.trans_le (by norm_num)

theorem setCanonicalBytes_scReduce32 (h : Hash) :
    ∃ c : Scalar, setCanonicalBytes (scReduce32 h.bytes) = some c ∧ value c = h.toNat % groupOrder := by
  have positive : 0 < groupOrder := by norm_num [groupOrder]
  have small : h.toNat % groupOrder < 256 ^ 32 := by
    have less := Nat.mod_lt h.toNat positive
    have order : groupOrder < 256 ^ 32 := by norm_num [groupOrder]
    omega
  have reduced : scReduce32 h.bytes = leBytes 32 (h.toNat % groupOrder) := by
    rw [scReduce32_eq (Bytes32.bytes_length h), ofLeBytes_bytes]
  have bytes : ofLeBytes (scReduce32 h.bytes) = h.toNat % groupOrder := by
    rw [reduced, ofLeBytes_leBytes_of_lt small]
  have canonical := (setCanonicalBytes_isSome (scReduce32 h.bytes)).mpr
    ⟨by rw [reduced, leBytes_length], by rw [bytes]; exact Nat.mod_lt _ positive⟩
  obtain ⟨c, isScalar⟩ := Option.isSome_iff_exists.mp canonical
  exact ⟨c, isScalar, by rw [value_setCanonicalBytes _ c isScalar, bytes]⟩

end Scalars

/-! ## Varints in buffers -/

def maxVarintLen64 : Nat := 10

/-- `binary.PutUvarint`: the buffer afterwards and the bytes written; no result is an index out of range. -/
def putUvarint (buf : Bytes) (x : UInt64) : Option (Bytes × Nat) :=
  if (uvarint x.toNat).length ≤ buf.length then
    some (copySlice buf (uvarint x.toNat), (uvarint x.toNat).length)
  else none

theorem putUvarint_zeros (x : UInt64) : ∃ rest,
    putUvarint (List.replicate maxVarintLen64 0) x = some (uvarint x.toNat ++ rest, (uvarint x.toNat).length) := by
  have fits : (uvarint x.toNat).length ≤ (List.replicate maxVarintLen64 (0 : UInt8)).length := by
    rw [uvarint_length x.toNat_lt, List.length_replicate]
    exact uVarInt64Size_le _
  exact ⟨_, by rw [putUvarint, if_pos fits, copySlice_of_le fits]⟩

theorem take_varint (key : Bytes) (x : UInt64) (rest : Bytes) :
    (key ++ (uvarint x.toNat ++ rest)).take (key.length + (uvarint x.toNat).length) = key ++ uvarint x.toNat := by
  rw [← List.append_assoc, ← List.length_append, List.take_left]

/-! ## Keys (`private.go`, `public.go`) -/

section Keys

variable [Edwards25519]

inductive PrivateKey where
  | scalar (s : Scalar)
  | bytes (k : PrivateKeyBytes)
  | slice (k : Bytes)

/-- The implementations of `crypto.PublicKey` that are made here. -/
inductive PublicKey where
  | point (p : Point)
  | bytes (k : PublicKeyBytes)

/-- `PublicKeyBytes.AsPoint`; the error is dropped and leaves a nil pointer. -/
def PublicKeyBytes.asPoint (k : PublicKeyBytes) : Option Point := setBytes k

def PublicKey.asBytes : PublicKey → PublicKeyBytes
  | .point p => pointBytes p
  | .bytes k => k

/-- `AsScalar`; the error is dropped and leaves a nil pointer. -/
def PrivateKey.asScalar : PrivateKey → Option Scalar
  | .scalar s => some s
  | .bytes k => setCanonicalBytes k.bytes
  | .slice k => setCanonicalBytes k

def PrivateKey.asBytes : PrivateKey → PrivateKeyBytes
  | .scalar s => scalarBytes s
  | .bytes k => k
  | .slice k => .ofBytes (copySlice (List.replicate 32 0) k)

/-- `PublicKey`; no result is the use of a nil pointer, here and below. -/
def PrivateKey.publicKey (k : PrivateKey) : Option PublicKey := do
  let scalar ← k.asScalar
  return .point (scalarBaseMult scalar)

def PrivateKey.getDerivationCofactor (k : PrivateKey) (publicKey : PublicKeyBytes) : Option Point := do
  let scalar ← k.asScalar
  let point ← publicKey.asPoint
  return multByCofactor (scalarMult scalar point)

def getDerivationNoAllocate (viewPublicKeyPoint : Option Point) (txKey : Scalar) : Option PublicKeyBytes := do
  let view ← viewPublicKeyPoint
  return pointBytes (multByCofactor (unsafeVarTimeScalarMult txKey view))

def derivationOf (view : Element) (txKey : Nat) : PublicKeyBytes := encode (8 • (txKey • view))

theorem getDerivationNoAllocate_eq (view : Point) (txKey : Scalar) :
    getDerivationNoAllocate (some view) txKey = some (derivationOf (element view) (value txKey)) := by
  change some (pointBytes (multByCofactor (unsafeVarTimeScalarMult txKey view))) = _
  rw [pointBytes_eq, element_multByCofactor, element_unsafeVarTimeScalarMult, derivationOf]

end Keys

/-! ## The paths -/

def viewTagDomain : Bytes := [0x76, 0x69, 0x65, 0x77, 0x5f, 0x74, 0x61, 0x67]

section Paths

variable [Edwards25519] [Sha3]

def firstByte (h : Hash) : UInt8 := h.bytes.headD 0

def getDerivationSharedDataAndViewTagForOutputIndex (forKey forTag : PooledHasher) (derivation : Point)
    (outputIndex : UInt64) : Option (Option Scalar × UInt8) := do
  let k := (pointBytes derivation).bytes
  let (varIntBuf, n) ← putUvarint (List.replicate maxVarintLen64 0) outputIndex
  let pK := hashToScalar forKey [k, varIntBuf.take n]
  return (pK, firstByte (pooledKeccak256 forTag [viewTagDomain, k, varIntBuf.take n]))

def getPublicKeyForSharedData (a : PackedAddress) (sharedData : Option Scalar) : Option Point := do
  let scalar ← sharedData
  let spend ← a.spend.asPoint
  return add (scalarBaseMult scalar) spend

def getEphemeralPublicKeyAndViewTag (forKey forTag : PooledHasher) (a : PackedAddress) (txKey : PrivateKey)
    (outputIndex : UInt64) : Option (PublicKey × UInt8) := do
  let derivation ← txKey.getDerivationCofactor a.view
  let (pK, viewTag) ← getDerivationSharedDataAndViewTagForOutputIndex forKey forTag derivation outputIndex
  let key ← getPublicKeyForSharedData a pK
  return (.point key, viewTag)

def getDerivationSharedDataAndViewTagForOutputIndexNoAllocate (k : PublicKeyBytes) (outputIndex : UInt64)
    (hasher : HasherState) : Option (Scalar × UInt8) := do
  let buf := copySlice (List.replicate (32 + maxVarintLen64) 0) k.bytes
  let (tail, n) ← putUvarint (buf.drop 32) outputIndex
  let buf := buf.take 32 ++ tail
  let (h, hasher) := read (write (reset hasher) (buf.take (32 + n)))
  let c := (setCanonicalBytes (scReduce32 h.bytes)).getD newScalar
  let (h, _) := read (write (write (reset hasher) viewTagDomain) (buf.take (32 + n)))
  return (c, firstByte h)

def getEphemeralPublicKeyAndViewTagNoAllocate (spendPublicKeyPoint : Option Point) (derivation : PublicKeyBytes)
    (_txKey : Scalar) (outputIndex : UInt64) (hasher : HasherState) : Option (PublicKeyBytes × UInt8) := do
  let (derivationSharedData, viewTag) ←
    getDerivationSharedDataAndViewTagForOutputIndexNoAllocate derivation outputIndex hasher
  let intermediatePublicKey := scalarBaseMult derivationSharedData
  let spend ← spendPublicKeyPoint
  return (pointBytes (add intermediatePublicKey spend), viewTag)

def getEphemeralPublicKeyInline (spendPub viewPub : Point) (txKey : Scalar) (outputIndex : UInt64) : Option Point := do
  let p := multByCofactor (unsafeVarTimeScalarMult txKey viewPub)
  let derivationAsBytes := (pointBytes p).bytes
  let (varIntBuf, n) ← putUvarint (List.replicate maxVarintLen64 0) outputIndex
  let sharedData := hashToScalarNoAllocate [derivationAsBytes, varIntBuf.take n]
  return add (scalarBaseMult sharedData) spendPub

/-! ## What the paths compute -/

def sharedData (derivation : PublicKeyBytes) (outputIndex : UInt64) : Nat :=
  (keccak (derivation.bytes ++ uvarint outputIndex.toNat)).toNat % groupOrder

def oneTimeKey (spend : Element) (derivation : PublicKeyBytes) (outputIndex : UInt64) : PublicKeyBytes :=
  encode (sharedData derivation outputIndex • generator + spend)

def viewTag (derivation : PublicKeyBytes) (outputIndex : UInt64) : UInt8 :=
  firstByte (keccak (viewTagDomain ++ (derivation.bytes ++ uvarint outputIndex.toNat)))

theorem pointBytes_oneTimeKey {c : Scalar} {derivation : PublicKeyBytes} {outputIndex : UInt64}
    (residue : value c = sharedData derivation outputIndex) (spend : Point) :
    pointBytes (add (scalarBaseMult c) spend) = oneTimeKey (element spend) derivation outputIndex := by
  rw [pointBytes_eq, element_add, element_scalarBaseMult, residue, oneTimeKey]

/-! ## Each path computes it -/

theorem sharedDataNoAllocate_eq (k : PublicKeyBytes) (outputIndex : UInt64) (hasher : HasherState) :
    ∃ c : Scalar, value c = sharedData k outputIndex ∧
      getDerivationSharedDataAndViewTagForOutputIndexNoAllocate k outputIndex hasher =
        some (c, viewTag k outputIndex) := by
  have length := Bytes32.bytes_length k
  have filled : copySlice (List.replicate (32 + maxVarintLen64) 0) k.bytes =
      k.bytes ++ List.replicate maxVarintLen64 0 := by
    rw [copySlice_of_le (by rw [length, List.length_replicate]; omega), length, List.drop_replicate]
    rfl
  have front : (k.bytes ++ List.replicate maxVarintLen64 (0 : UInt8)).take 32 = k.bytes := List.take_left' length
  have back : (k.bytes ++ List.replicate maxVarintLen64 (0 : UInt8)).drop 32 = List.replicate maxVarintLen64 0 :=
    List.drop_left' length
  obtain ⟨rest, put⟩ := putUvarint_zeros outputIndex
  have buffer := take_varint k.bytes outputIndex rest
  rw [length] at buffer
  have oneHash : ∀ h : HasherState, (read (write (reset h) (k.bytes ++ uvarint outputIndex.toNat))).1 =
      keccak (k.bytes ++ uvarint outputIndex.toNat) := by
    intro h
    have law := read_reset h [k.bytes ++ uvarint outputIndex.toNat]
    simpa using law
  have twoHash : ∀ h : HasherState,
      (read (write (write (reset h) viewTagDomain) (k.bytes ++ uvarint outputIndex.toNat))).1 =
        keccak (viewTagDomain ++ (k.bytes ++ uvarint outputIndex.toNat)) := by
    intro h
    have law := read_reset h [viewTagDomain, k.bytes ++ uvarint outputIndex.toNat]
    simpa using law
  obtain ⟨c, isScalar, residue⟩ := setCanonicalBytes_scReduce32 (keccak (k.bytes ++ uvarint outputIndex.toNat))
  refine ⟨c, residue, ?_⟩
  unfold getDerivationSharedDataAndViewTagForOutputIndexNoAllocate
  simp only [filled, front, back, put, Option.bind_eq_bind, Option.bind_some, buffer, oneHash, twoHash, isScalar,
    Option.getD_some, Option.pure_def, viewTag]

theorem getEphemeralPublicKeyAndViewTagNoAllocate_eq (spend : Point) (derivation : PublicKeyBytes) (txKey : Scalar)
    (outputIndex : UInt64) (hasher : HasherState) :
    getEphemeralPublicKeyAndViewTagNoAllocate (some spend) derivation txKey outputIndex hasher =
      some (oneTimeKey (element spend) derivation outputIndex, viewTag derivation outputIndex) := by
  obtain ⟨c, residue, same⟩ := sharedDataNoAllocate_eq derivation outputIndex hasher
  unfold getEphemeralPublicKeyAndViewTagNoAllocate
  rw [same]
  change some (pointBytes (add (scalarBaseMult c) spend), _) = _
  rw [pointBytes_oneTimeKey residue]

theorem getEphemeralPublicKeyInline_eq (spend view : Point) (txKey : Scalar) (outputIndex : UInt64) :
    (getEphemeralPublicKeyInline spend view txKey outputIndex).map pointBytes =
      some (oneTimeKey (element spend) (derivationOf (element view) (value txKey)) outputIndex) := by
  obtain ⟨rest, put⟩ := putUvarint_zeros outputIndex
  have derivation : pointBytes (multByCofactor (unsafeVarTimeScalarMult txKey view)) =
      derivationOf (element view) (value txKey) := Option.some.inj (getDerivationNoAllocate_eq view txKey)
  obtain ⟨c, isScalar, residue⟩ := setCanonicalBytes_scReduce32
    (keccak ((derivationOf (element view) (value txKey)).bytes ++ uvarint outputIndex.toNat))
  have hashed : hashToScalarNoAllocate
      [(derivationOf (element view) (value txKey)).bytes, uvarint outputIndex.toNat] = c := by
    rw [hashToScalarNoAllocate, keccak256_eq]
    simp [isScalar]
  have key := @pointBytes_oneTimeKey _ _ c (derivationOf (element view) (value txKey)) outputIndex residue spend
  unfold getEphemeralPublicKeyInline
  simp only [put, Option.bind_eq_bind, Option.bind_some, List.take_left, derivation, hashed, Option.pure_def,
    Option.map_some, key]

end Paths

/-! ## Valid addresses and transaction keys -/

section Agreement

variable [Edwards25519]

structure ValidAddress where
  packed : PackedAddress
  spendPoint : Point
  viewPoint : Point
  spend : packed.spend.asPoint = some spendPoint
  view : packed.view.asPoint = some viewPoint

structure TransactionKey where
  slice : Bytes
  scalar : Scalar
  matching : slice = (scalarBytes scalar).bytes

def TransactionKey.forms (k : TransactionKey) : List PrivateKey :=
  [.scalar k.scalar, .bytes (scalarBytes k.scalar), .slice k.slice]

theorem setCanonicalBytes_scalarBytes (s : Scalar) :
    ∃ c : Scalar, setCanonicalBytes (scalarBytes s).bytes = some c ∧ value c = value s := by
  have number : ofLeBytes (scalarBytes s).bytes = value s := by
    rw [Bytes32.bytes, ofLeBytes_leBytes, scalarBytes_eq, Nat.mod_eq_of_lt]
    have order : groupOrder < 256 ^ 32 := by norm_num [groupOrder]
    exact (value_lt s).trans order
  have canonical := (setCanonicalBytes_isSome (scalarBytes s).bytes).mpr
    ⟨Bytes32.bytes_length _, by rw [number]; exact value_lt s⟩
  obtain ⟨c, isScalar⟩ := Option.isSome_iff_exists.mp canonical
  exact ⟨c, isScalar, by rw [value_setCanonicalBytes _ c isScalar, number]⟩

theorem TransactionKey.asScalar_of_mem {k : TransactionKey} {form : PrivateKey} (mem : form ∈ k.forms) :
    ∃ c : Scalar, form.asScalar = some c ∧ value c = value k.scalar := by
  have decoded := setCanonicalBytes_scalarBytes k.scalar
  rw [forms, List.mem_cons, List.mem_cons, List.mem_singleton] at mem
  rcases mem with rfl | rfl | rfl
  · exact ⟨k.scalar, rfl, rfl⟩
  · exact decoded
  · rw [PrivateKey.asScalar, k.matching]
    exact decoded

variable [Sha3]

theorem getEphemeralPublicKeyAndViewTag_eq (forKey forTag : PooledHasher) (a : ValidAddress) (k : TransactionKey)
    {form : PrivateKey} (mem : form ∈ k.forms) (outputIndex : UInt64) :
    (getEphemeralPublicKeyAndViewTag forKey forTag a.packed form outputIndex).map
        (fun (key, tag) => (key.asBytes, tag)) =
      some (oneTimeKey (element a.spendPoint) (derivationOf (element a.viewPoint) (value k.scalar)) outputIndex,
        viewTag (derivationOf (element a.viewPoint) (value k.scalar)) outputIndex) := by
  obtain ⟨r, isKey, same⟩ := TransactionKey.asScalar_of_mem mem
  have derived : form.getDerivationCofactor a.packed.view = some (multByCofactor (scalarMult r a.viewPoint)) := by
    rw [PrivateKey.getDerivationCofactor, isKey, a.view]
    rfl
  have derivation : pointBytes (multByCofactor (scalarMult r a.viewPoint)) =
      derivationOf (element a.viewPoint) (value k.scalar) := by
    rw [pointBytes_eq, element_multByCofactor, element_scalarMult, same, derivationOf]
  obtain ⟨rest, put⟩ := putUvarint_zeros outputIndex
  obtain ⟨c, isScalar, residue⟩ := setCanonicalBytes_scReduce32
    (keccak ((derivationOf (element a.viewPoint) (value k.scalar)).bytes ++ uvarint outputIndex.toNat))
  have hashed : hashToScalar forKey
      [(derivationOf (element a.viewPoint) (value k.scalar)).bytes, uvarint outputIndex.toNat] = some c := by
    rw [hashToScalar, pooledKeccak256_eq]
    simpa using isScalar
  have shared : getDerivationSharedDataAndViewTagForOutputIndex forKey forTag
      (multByCofactor (scalarMult r a.viewPoint)) outputIndex =
        some (some c, viewTag (derivationOf (element a.viewPoint) (value k.scalar)) outputIndex) := by
    unfold getDerivationSharedDataAndViewTagForOutputIndex
    simp only [derivation, put, Option.bind_eq_bind, Option.bind_some, List.take_left, hashed, pooledKeccak256_eq,
      Option.pure_def, viewTag]
    simp
  have paid : getPublicKeyForSharedData a.packed (some c) = some (add (scalarBaseMult c) a.spendPoint) := by
    rw [getPublicKeyForSharedData, a.spend]
    rfl
  have key := @pointBytes_oneTimeKey _ _ c (derivationOf (element a.viewPoint) (value k.scalar)) outputIndex residue
    a.spendPoint
  unfold getEphemeralPublicKeyAndViewTag
  simp only [derived, shared, paid, Option.bind_eq_bind, Option.bind_some, Option.pure_def, Option.map_some,
    PublicKey.asBytes, key]

end Agreement

/-! ## A hasher that meets the laws -/

namespace KeyExample

theorem foldl_append_eq (pieces : List Bytes) (h : Bytes) :
    pieces.foldl (fun h piece => h ++ piece) h = h ++ pieces.flatten := by
  induction pieces generalizing h with
  | nil => exact (List.append_nil h).symm
  | cons piece rest ih => rw [List.foldl_cons, ih, List.flatten_cons, List.append_assoc]

@[reducible]
def hashing : Sha3 where
  HasherState := Bytes
  newLegacyKeccak256 := []
  reset := fun _ => []
  write := fun h piece => h ++ piece
  read := fun h => (Bytes32.ofBytes h, h)
  keccak := Bytes32.ofBytes
  read_new := fun pieces => congrArg Bytes32.ofBytes (foldl_append_eq pieces [])
  read_reset := fun _ pieces => congrArg Bytes32.ofBytes (foldl_append_eq pieces [])

def pooled : @PooledHasher hashing := @PooledHasher.mk hashing [] (.inl rfl)

end KeyExample

end P2PoolObserver
