/-
# Sidechain.KeyCaches -- the derivation cache with its keys as bytes (`cache.go`, `nilcache.go`)

`DerivationCache` keeps transaction keys, points, derivations and one-time keys in four caches,
whose keys are arrays that the inputs are copied into at fixed offsets.  The arrays determine
the inputs (`ephemeralPublicKeyCacheKey_inj` and its like), so that an entry is what the call
that finds it would compute, whatever was looked up, lost or cleared before.

`Sidechain.DerivationCache` has the same calls with structured keys, shared by workers
(`NilDerivationCache.getEphemeralPublicKey_eq`).
-/
import P2PoolObserver.Lib.Session
import P2PoolObserver.Monero.DeterministicKey
import P2PoolObserver.Monero.Signature
import P2PoolObserver.Sidechain.DerivationCache

namespace P2PoolObserver

open Lib Lib.Program
open Edwards25519 Sha3

/-! ## The keys of the caches -/

def PackedAddress.bytes (a : PackedAddress) : Bytes := a.spend.bytes ++ a.view.bytes

theorem PackedAddress.bytes_length (a : PackedAddress) : a.bytes.length = 64 := by
  rw [bytes, List.length_append, Bytes32.bytes_length, Bytes32.bytes_length]

theorem PackedAddress.bytes_inj {a b : PackedAddress} (same : a.bytes = b.bytes) : a = b := by
  obtain ⟨spend, view⟩ := List.append_inj same (by rw [Bytes32.bytes_length, Bytes32.bytes_length])
  exact PackedAddress.ext (Bytes32.bytes_inj spend) (Bytes32.bytes_inj view)

def deterministicTransactionCacheKey (seed prevId : Hash) : Bytes :=
  Lib.copyAt (copySlice (List.replicate (32 + hashSize) 0) seed.bytes) hashSize prevId.bytes

def ephemeralPublicKeyCacheKey (txKeySlice : Bytes) (a : PackedAddress) (outputIndex : UInt64) : Bytes :=
  Lib.copyAt (Lib.copyAt (copySlice (List.replicate (32 + 32 * 2 + 8) 0) txKeySlice) 32 a.bytes) (32 + 32 * 2)
    (leBytes 8 outputIndex.toNat)

def derivationCacheKey (viewPublicKeyBytes : PublicKeyBytes) (txKeySlice : Bytes) : Bytes :=
  Lib.copyAt (copySlice (List.replicate (32 + 32) 0) viewPublicKeyBytes.bytes) 32 txKeySlice

theorem copyAt_copySlice {first second : Bytes} {m n : Nat} (left : first.length = m) (right : second.length = n)
    (more : Nat) : Lib.copyAt (copySlice (List.replicate (m + n + more) 0) first) m second =
      first ++ second ++ List.replicate more 0 := by
  subst left right
  have fits : first.length ≤ (List.replicate (first.length + second.length + more) (0 : UInt8)).length := by
    rw [List.length_replicate]
    omega
  have room : second.length ≤ (List.replicate (second.length + more) (0 : UInt8)).length := by
    rw [List.length_replicate]
    omega
  have after : first.length + second.length + more - first.length = second.length + more := by omega
  rw [copySlice_of_le fits, List.drop_replicate, after, copyAt_append _ _ _ room, List.drop_replicate,
    Nat.add_sub_cancel_left]

theorem deterministicTransactionCacheKey_eq (seed prevId : Hash) :
    deterministicTransactionCacheKey seed prevId = seed.bytes ++ prevId.bytes := by
  have filled := copyAt_copySlice (Bytes32.bytes_length seed) (Bytes32.bytes_length prevId) 0
  rwa [List.replicate_zero, List.append_nil] at filled

theorem derivationCacheKey_eq (viewPublicKeyBytes : PublicKeyBytes) {txKeySlice : Bytes} (size : txKeySlice.length = 32) :
    derivationCacheKey viewPublicKeyBytes txKeySlice = viewPublicKeyBytes.bytes ++ txKeySlice := by
  have filled := copyAt_copySlice (Bytes32.bytes_length viewPublicKeyBytes) size 0
  rwa [List.replicate_zero, List.append_nil] at filled

theorem ephemeralPublicKeyCacheKey_eq {txKeySlice : Bytes} (size : txKeySlice.length = 32) (a : PackedAddress)
    (outputIndex : UInt64) : ephemeralPublicKeyCacheKey txKeySlice a outputIndex =
      txKeySlice ++ a.bytes ++ leBytes 8 outputIndex.toNat := by
  have filled := copyAt_copySlice size a.bytes_length 8
  have length : (txKeySlice ++ a.bytes).length = 32 + 32 * 2 := by
    rw [List.length_append, size, a.bytes_length]
  have last := copyAt_append (txKeySlice ++ a.bytes) (List.replicate 8 0) (leBytes 8 outputIndex.toNat)
    (by rw [leBytes_length, List.length_replicate])
  rw [length, leBytes_length, List.drop_replicate, List.replicate_zero, List.append_nil] at last
  exact (congrArg (Lib.copyAt · (32 + 32 * 2) (leBytes 8 outputIndex.toNat)) filled).trans last

theorem deterministicTransactionCacheKey_inj {seed prevId seed' prevId' : Hash}
    (same : deterministicTransactionCacheKey seed prevId = deterministicTransactionCacheKey seed' prevId') :
    seed = seed' ∧ prevId = prevId' := by
  rw [deterministicTransactionCacheKey_eq, deterministicTransactionCacheKey_eq] at same
  obtain ⟨seeds, ids⟩ := List.append_inj same (by rw [Bytes32.bytes_length, Bytes32.bytes_length])
  exact ⟨Bytes32.bytes_inj seeds, Bytes32.bytes_inj ids⟩

theorem derivationCacheKey_inj {v v' : PublicKeyBytes} {t t' : Bytes} (size : t.length = 32) (size' : t'.length = 32)
    (same : derivationCacheKey v t = derivationCacheKey v' t') : v = v' ∧ t = t' := by
  rw [derivationCacheKey_eq v size, derivationCacheKey_eq v' size'] at same
  obtain ⟨views, keys⟩ := List.append_inj same (by rw [Bytes32.bytes_length, Bytes32.bytes_length])
  exact ⟨Bytes32.bytes_inj views, keys⟩

theorem ephemeralPublicKeyCacheKey_inj {t t' : Bytes} {a a' : PackedAddress} {i i' : UInt64} (size : t.length = 32)
    (size' : t'.length = 32) (same : ephemeralPublicKeyCacheKey t a i = ephemeralPublicKeyCacheKey t' a' i') :
    t = t' ∧ a = a' ∧ i = i' := by
  rw [ephemeralPublicKeyCacheKey_eq size, ephemeralPublicKeyCacheKey_eq size'] at same
  obtain ⟨front, indices⟩ := List.append_inj same
    (by rw [List.length_append, List.length_append, size, size', a.bytes_length, a'.bytes_length])
  obtain ⟨keys, addresses⟩ := List.append_inj front (by rw [size, size'])
  have index := leBytes_inj (w := 8) i.toNat_lt i'.toNat_lt indices
  exact ⟨keys, PackedAddress.bytes_inj addresses, UInt64.toNat_inj.mp index⟩

/-! ## No cache -/

section Calls

variable [Edwards25519] [Sha3]

namespace NilDerivationCache

def getEphemeralPublicKey (a : PackedAddress) (txKeyScalar : Scalar) (outputIndex : UInt64) (hasher : HasherState) :
    Option (PublicKeyBytes × UInt8) := do
  let derivation ← getDerivationNoAllocate a.view.asPoint txKeyScalar
  getEphemeralPublicKeyAndViewTagNoAllocate a.spend.asPoint derivation txKeyScalar outputIndex hasher

def getDeterministicTransactionKey (h : PooledHasher) (seed prevId : Hash) : Option KeyPair := do
  let privateKey ← getDeterministicTransactionPrivateKey h seed prevId
  newKeyPairFromPrivate privateKey

/-- The calls of `Sidechain.DerivationCache` on these packages. -/
instance curve : Curve where
  Point := Point
  Scalar := Scalar
  setBytes := setBytes
  setCanonicalBytes := fun k => setCanonicalBytes k.bytes
  derivation := fun view txKey => derivationOf (element view) (value txKey)
  ephemeralPublicKeyAndViewTag := fun spend derivation outputIndex =>
    (oneTimeKey (element spend) derivation outputIndex, viewTag derivation outputIndex)

theorem getDerivationNoAllocate_asPoint (view : PublicKeyBytes) (txKeyScalar : Scalar) :
    getDerivationNoAllocate view.asPoint txKeyScalar = derivationKey view (scalarBytes txKeyScalar) := by
  obtain ⟨c, isScalar, same⟩ := setCanonicalBytes_scalarBytes txKeyScalar
  have decoded : asScalar (scalarBytes txKeyScalar) = some c := isScalar
  have points : view.asPoint = asPoint view := rfl
  rw [derivationKey, decoded, points]
  cases asPoint view with
  | none => rfl
  | some point =>
    have derived := getDerivationNoAllocate_eq point txKeyScalar
    rw [← same] at derived
    exact derived

theorem getEphemeralPublicKey_eq (a : PackedAddress) (txKeyScalar : Scalar) (outputIndex : UInt64)
    (hasher : HasherState) :
    getEphemeralPublicKey a txKeyScalar outputIndex hasher = ephemeralKey a (scalarBytes txKeyScalar) outputIndex := by
  have points : a.spend.asPoint = asPoint a.spend := rfl
  rw [getEphemeralPublicKey, getDerivationNoAllocate_asPoint, ephemeralKey, points]
  cases derivationKey a.view (scalarBytes txKeyScalar) with
  | none => rfl
  | some derivation =>
    cases asPoint a.spend with
    | none =>
      obtain ⟨c, -, shared⟩ := sharedDataNoAllocate_eq derivation outputIndex hasher
      change getEphemeralPublicKeyAndViewTagNoAllocate none derivation txKeyScalar outputIndex hasher = none
      rw [getEphemeralPublicKeyAndViewTagNoAllocate, shared]
      rfl
    | some spend =>
      exact getEphemeralPublicKeyAndViewTagNoAllocate_eq spend derivation txKeyScalar outputIndex hasher

end NilDerivationCache

/-! ## The four caches -/

inductive KeyArray where
  | deterministicKey (key : Bytes)
  | derivation (key : Bytes)
  | ephemeralPublicKey (key : Bytes)
  | pubKeyToPoint (key : PublicKeyBytes)
  deriving DecidableEq

def ArrayValue : KeyArray → Type
  | .deterministicKey _ => KeyPair
  | .derivation _ => PublicKeyBytes
  | .ephemeralPublicKey _ => PublicKeyBytes × UInt8
  | .pubKeyToPoint _ => Option Point

namespace DerivationCache

def getPublicKeyPoint (publicKey : PublicKeyBytes) : Program ArrayValue (Option Point) := do
  match ← lookup (KeyArray.pubKeyToPoint publicKey) with
  | some point => return point
  | none =>
    let point := publicKey.asPoint
    store (.pubKeyToPoint publicKey) point
    return point

def getDerivation (viewPublicKeyBytes : PublicKeyBytes) (txKeySlice : Bytes) (viewPublicKeyPoint : Option Point)
    (txKey : Scalar) : Program ArrayValue PublicKeyBytes := do
  let key := derivationCacheKey viewPublicKeyBytes txKeySlice
  match ← lookup (KeyArray.derivation key) with
  | some derivation => return derivation
  | none =>
    let derivation ← deref (getDerivationNoAllocate viewPublicKeyPoint txKey)
    store (.derivation key) derivation
    return derivation

def getEphemeralPublicKey (a : PackedAddress) (txKeySlice : Bytes) (txKeyScalar : Scalar) (outputIndex : UInt64)
    (hasher : HasherState) : Program ArrayValue (PublicKeyBytes × UInt8) := do
  let key := ephemeralPublicKeyCacheKey txKeySlice a outputIndex
  match ← lookup (KeyArray.ephemeralPublicKey key) with
  | some ephemeralPubKey => return ephemeralPubKey
  | none =>
    let viewPoint ← getPublicKeyPoint a.view
    let spendPoint ← getPublicKeyPoint a.spend
    let derivation ← getDerivation a.view txKeySlice viewPoint txKeyScalar
    let ephemeralPubKey ←
      deref (getEphemeralPublicKeyAndViewTagNoAllocate spendPoint derivation txKeyScalar outputIndex hasher)
    store (.ephemeralPublicKey key) ephemeralPubKey
    return ephemeralPubKey

def deterministicKeyPair (h : PooledHasher) (seed prevId : Hash) : Option KeyPair := do
  let priv ← getDeterministicTransactionPrivateKey h seed prevId
  keyPairFromBytes priv.asBytes

def getDeterministicTransactionKey (h : PooledHasher) (seed prevId : Hash) : Program ArrayValue KeyPair := do
  let key := deterministicTransactionCacheKey seed prevId
  match ← lookup (KeyArray.deterministicKey key) with
  | some kp => return kp
  | none =>
    let kp ← deref (deterministicKeyPair h seed prevId)
    store (.deterministicKey key) kp
    return kp

/-! ## What is in the caches -/

/-- An entry is what every call that finds it would compute. -/
def Stored : (k : KeyArray) → ArrayValue k → Prop
  | .deterministicKey key, kp => ∀ seed prevId, key = deterministicTransactionCacheKey seed prevId →
      ∀ h, deterministicKeyPair h seed prevId = some kp
  | .derivation key, d => ∀ view txKey, key = derivationCacheKey view (Bytes32.bytes txKey) →
      derivationKey view txKey = some d
  | .ephemeralPublicKey key, e => ∀ txKey a outputIndex,
      key = ephemeralPublicKeyCacheKey (Bytes32.bytes txKey) a outputIndex → ephemeralKey a txKey outputIndex = some e
  | .pubKeyToPoint publicKey, point => point = publicKey.asPoint

theorem deterministicKeyPair_pooled (h g : PooledHasher) (seed prevId : Hash) :
    deterministicKeyPair h seed prevId = deterministicKeyPair g seed prevId := by
  rw [deterministicKeyPair, deterministicKeyPair, getDeterministicTransactionPrivateKey_pooled h g]

theorem stored_derivation {view : PublicKeyBytes} {txKey : PrivateKeyBytes} {d : PublicKeyBytes}
    (computed : derivationKey view txKey = some d) :
    Stored (.derivation (derivationCacheKey view txKey.bytes)) d := by
  intro view' txKey' same
  obtain ⟨rfl, keys⟩ := derivationCacheKey_inj (Bytes32.bytes_length _) (Bytes32.bytes_length _) same
  rw [← Bytes32.bytes_inj keys]
  exact computed

theorem stored_ephemeralPublicKey {txKey : PrivateKeyBytes} {a : PackedAddress} {outputIndex : UInt64}
    {e : PublicKeyBytes × UInt8} (computed : ephemeralKey a txKey outputIndex = some e) :
    Stored (.ephemeralPublicKey (ephemeralPublicKeyCacheKey txKey.bytes a outputIndex)) e := by
  intro txKey' a' outputIndex' same
  obtain ⟨keys, rfl, rfl⟩ := ephemeralPublicKeyCacheKey_inj (Bytes32.bytes_length _) (Bytes32.bytes_length _) same
  rw [← Bytes32.bytes_inj keys]
  exact computed

theorem stored_deterministicKey {h : PooledHasher} {seed prevId : Hash} {kp : KeyPair}
    (computed : deterministicKeyPair h seed prevId = some kp) :
    Stored (.deterministicKey (deterministicTransactionCacheKey seed prevId)) kp := by
  intro seed' prevId' same g
  obtain ⟨rfl, rfl⟩ := deterministicTransactionCacheKey_inj same
  exact (deterministicKeyPair_pooled g h seed prevId).trans computed

theorem ends_getPublicKeyPoint (publicKey : PublicKeyBytes) :
    Ends Stored (getPublicKeyPoint publicKey) (some publicKey.asPoint) := by
  refine ends_lookup ?_ fun point stored => ?_
  · exact ends_store rfl (ends_pure _)
  · exact congrArg some stored.symm

theorem ends_getDerivation (view : PublicKeyBytes) (txKeyScalar : Scalar) :
    Ends Stored (getDerivation view (scalarBytes txKeyScalar).bytes view.asPoint txKeyScalar)
      (derivationKey view (scalarBytes txKeyScalar)) := by
  refine ends_lookup ?_ fun d stored => (stored _ _ rfl).symm ▸ ends_pure d
  dsimp only
  rw [NilDerivationCache.getDerivationNoAllocate_asPoint]
  cases computed : derivationKey view (scalarBytes txKeyScalar) with
  | none => exact ends_bind_crash (ends_deref none)
  | some d => exact ends_bind (ends_deref (some d)) (ends_store (stored_derivation computed) (ends_pure d))

theorem ends_getEphemeralPublicKey (a : PackedAddress) (txKeyScalar : Scalar) (outputIndex : UInt64)
    (hasher : HasherState) :
    Ends Stored (getEphemeralPublicKey a (scalarBytes txKeyScalar).bytes txKeyScalar outputIndex hasher)
      (ephemeralKey a (scalarBytes txKeyScalar) outputIndex) := by
  refine ends_lookup ?_ fun e stored => (stored _ _ _ rfl).symm ▸ ends_pure e
  refine ends_bind (ends_getPublicKeyPoint a.view) (ends_bind (ends_getPublicKeyPoint a.spend) ?_)
  have derivation := ends_getDerivation a.view txKeyScalar
  have whole := NilDerivationCache.getEphemeralPublicKey_eq a txKeyScalar outputIndex hasher
  rw [NilDerivationCache.getEphemeralPublicKey, NilDerivationCache.getDerivationNoAllocate_asPoint] at whole
  cases isDerivation : derivationKey a.view (scalarBytes txKeyScalar) with
  | none =>
    rw [isDerivation] at derivation whole
    rw [← whole]
    exact ends_bind_crash derivation
  | some d =>
    rw [isDerivation] at derivation whole
    refine ends_bind derivation ?_
    change getEphemeralPublicKeyAndViewTagNoAllocate a.spend.asPoint d txKeyScalar outputIndex hasher = _ at whole
    rw [whole]
    cases computed : ephemeralKey a (scalarBytes txKeyScalar) outputIndex with
    | none => exact ends_bind_crash (ends_deref none)
    | some e => exact ends_bind (ends_deref (some e)) (ends_store (stored_ephemeralPublicKey computed) (ends_pure e))

theorem ends_getDeterministicTransactionKey (h g : PooledHasher) (seed prevId : Hash) :
    Ends Stored (getDeterministicTransactionKey h seed prevId) (deterministicKeyPair g seed prevId) := by
  refine ends_lookup ?_ fun kp stored => (stored _ _ rfl g).symm ▸ ends_pure kp
  rw [deterministicKeyPair_pooled g h]
  dsimp only
  cases computed : deterministicKeyPair h seed prevId with
  | none => exact ends_bind_crash (ends_deref none)
  | some kp => exact ends_bind (ends_deref (some kp)) (ends_store (stored_deterministicKey computed) (ends_pure kp))

theorem deterministicKeyPair_asBytes (h : PooledHasher) (seed prevId : Hash) :
    (deterministicKeyPair h seed prevId).map KeyPair.asBytes =
      (NilDerivationCache.getDeterministicTransactionKey h seed prevId).map KeyPair.asBytes := by
  rw [deterministicKeyPair, NilDerivationCache.getDeterministicTransactionKey]
  rcases getDeterministicTransactionPrivateKey_cases h seed prevId with never | ⟨s, isScalar⟩
  · rw [never]
    rfl
  · rw [isScalar]
    exact keyPairFromBytes_scalar s

end DerivationCache

/-! ## Sessions -/

inductive KeyRequest where
  | ephemeralPublicKey (a : PackedAddress) (txKey : TransactionKey) (outputIndex : UInt64) (hasher : HasherState)
  | deterministicTransactionKey (seed prevId : Hash) (h : PooledHasher)

inductive KeyAnswer where
  | ephemeralPublicKey (publicKey : PublicKeyBytes) (viewTag : UInt8)
  | keyPair (privateKey : PrivateKeyBytes) (publicKey : PublicKeyBytes)
  deriving DecidableEq

def KeyAnswer.ofEphemeral (e : PublicKeyBytes × UInt8) : KeyAnswer := .ephemeralPublicKey e.1 e.2

def KeyAnswer.ofPair (kp : KeyPair) : KeyAnswer := .keyPair kp.asBytes.1 kp.asBytes.2

def KeyRequest.cached : KeyRequest → Program ArrayValue KeyAnswer
  | .ephemeralPublicKey a txKey outputIndex hasher => do
    let e ← DerivationCache.getEphemeralPublicKey a txKey.slice txKey.scalar outputIndex hasher
    return .ofEphemeral e
  | .deterministicTransactionKey seed prevId h => do
    let kp ← DerivationCache.getDeterministicTransactionKey h seed prevId
    return .ofPair kp

def KeyRequest.uncached (hasher : HasherState) (h : PooledHasher) : KeyRequest → Option KeyAnswer
  | .ephemeralPublicKey a txKey outputIndex _ =>
    (NilDerivationCache.getEphemeralPublicKey a txKey.scalar outputIndex hasher).map .ofEphemeral
  | .deterministicTransactionKey seed prevId _ =>
    (NilDerivationCache.getDeterministicTransactionKey h seed prevId).map .ofPair

theorem KeyRequest.ends_cached (q : KeyRequest) (hasher : HasherState) (h : PooledHasher) :
    Ends DerivationCache.Stored q.cached (q.uncached hasher h) := by
  cases q with
  | ephemeralPublicKey a txKey outputIndex own =>
    have ends := DerivationCache.ends_getEphemeralPublicKey a txKey.scalar outputIndex own
    rw [← txKey.matching] at ends
    rw [uncached, NilDerivationCache.getEphemeralPublicKey_eq]
    exact ends_map ends
  | deterministicTransactionKey seed prevId own =>
    have ends := DerivationCache.ends_getDeterministicTransactionKey own h seed prevId
    have same : (DerivationCache.deterministicKeyPair h seed prevId).map KeyAnswer.ofPair =
        (NilDerivationCache.getDeterministicTransactionKey h seed prevId).map KeyAnswer.ofPair := by
      have bytes := congrArg (Option.map fun b : PrivateKeyBytes × PublicKeyBytes => KeyAnswer.keyPair b.1 b.2)
        (DerivationCache.deterministicKeyPair_asBytes h seed prevId)
      rwa [Option.map_map, Option.map_map] at bytes
    rw [uncached, ← same]
    exact ends_map ends

/-- All paths to a one-time key give the same key and view tag, for every valid address, transaction key
and index; and whatever was called, lost and cleared before, the cache returns what is
computed without one, and does not return where that does not. -/
theorem keyDerivations_agree :
    (∀ (a : ValidAddress) (txKey : TransactionKey) (outputIndex : UInt64) (forKey forTag : PooledHasher)
      (hasher : HasherState), ∃ key tag,
      (∀ form ∈ txKey.forms,
        (getEphemeralPublicKeyAndViewTag forKey forTag a.packed form outputIndex).map
          (fun (k, t) => (k.asBytes, t)) = some (key, tag)) ∧
      ((getDerivationNoAllocate (some a.viewPoint) txKey.scalar).bind fun derivation =>
        getEphemeralPublicKeyAndViewTagNoAllocate (some a.spendPoint) derivation txKey.scalar outputIndex hasher) =
          some (key, tag) ∧
      (getEphemeralPublicKeyInline a.spendPoint a.viewPoint txKey.scalar outputIndex).map pointBytes = some key) ∧
    ∀ (lose : Nat → KeyArray → Bool) (actions : List (Session.Action KeyRequest)) (hasher : HasherState)
      (h : PooledHasher),
      Session.answers KeyRequest.cached lose actions ⟨0, fun _ => none⟩ =
        (Session.calls actions).map (KeyRequest.uncached hasher h) := by
  constructor
  · intro a txKey outputIndex forKey forTag hasher
    refine ⟨oneTimeKey (element a.spendPoint) (derivationOf (element a.viewPoint) (value txKey.scalar)) outputIndex,
      viewTag (derivationOf (element a.viewPoint) (value txKey.scalar)) outputIndex, ?_, ?_, ?_⟩
    · intro form mem
      exact getEphemeralPublicKeyAndViewTag_eq forKey forTag a txKey mem outputIndex
    · rw [getDerivationNoAllocate_eq, Option.bind_some, getEphemeralPublicKeyAndViewTagNoAllocate_eq]
    · exact getEphemeralPublicKeyInline_eq a.spendPoint a.viewPoint txKey.scalar outputIndex
  · intro lose actions hasher h
    refine Session.answers_eq (fun q => q.ends_cached hasher h) lose actions ?_
    intro k v entry
    cases entry

end Calls

/-! ## Three lookups -/

namespace KeyExample

abbrev packages : Edwards25519 := SignatureExample.residues.toEdwards25519

def address : @ValidAddress packages :=
  @ValidAddress.mk packages ⟨3, 4⟩ ((3 : Nat) : ZMod groupOrder) ((4 : Nat) : ZMod groupOrder) rfl rfl

def txKey : @TransactionKey packages :=
  @TransactionKey.mk packages (Bytes32.bytes (packages.scalarBytes ((5 : Nat) : ZMod groupOrder))) _ rfl

/-- A lookup, the same again with another hasher, and once more after `Clear`, with a transaction key in between. -/
def actions : List (Session.Action (@KeyRequest packages hashing)) :=
  letI := packages
  letI := hashing
  [.call (.ephemeralPublicKey address.packed txKey 300 []), .call (.ephemeralPublicKey address.packed txKey 300 [1, 2]),
    .call (.deterministicTransactionKey 6 7 pooled), .clear, .call (.ephemeralPublicKey address.packed txKey 300 [])]

theorem keyDerivations_agree_three_lookups :
    letI := packages
    letI := hashing
    (∃ key tag,
      ((getDerivationNoAllocate (some address.viewPoint) txKey.scalar).bind fun derivation =>
        getEphemeralPublicKeyAndViewTagNoAllocate (some address.spendPoint) derivation txKey.scalar 300 pooled.state) =
          some (key, tag) ∧
      (getEphemeralPublicKeyInline address.spendPoint address.viewPoint txKey.scalar 300).map pointBytes = some key) ∧
    Session.answers KeyRequest.cached (fun _ _ => false) actions ⟨0, fun _ => none⟩ =
      (Session.calls actions).map (KeyRequest.uncached pooled.state pooled) := by
  let := packages
  let := hashing
  obtain ⟨key, tag, _, noAllocate, inline⟩ :=
    keyDerivations_agree.1 address txKey 300 pooled pooled pooled.state
  exact ⟨⟨key, tag, noAllocate, inline⟩, keyDerivations_agree.2 _ actions pooled.state pooled⟩

end KeyExample

end P2PoolObserver
