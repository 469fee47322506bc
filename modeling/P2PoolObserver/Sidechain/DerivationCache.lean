/-
# Sidechain.DerivationCache -- one-time keys and the caches behind them (`cache.go`)

`GetEphemeralPublicKey` looks a key up in three caches before it computes it.  The miner's
keys and the transaction key come from the wire as 32 bytes each; `AsPoint` and `AsScalar`
drop the error of the decoder and hand on its nil pointer, which the point caches keep.

All workers share the caches.  `ends_getEphemeralPublicKey` says what a call ends with whatever
it finds in them.
-/
import P2PoolObserver.Lib.Workers
import P2PoolObserver.Sidechain.PoolBlock

namespace P2PoolObserver

open Lib Lib.Program
open Lib.Workers (Coherent)

/-- The curve operations; no point and no scalar is a nil pointer. -/
class Curve where
  Point : Type
  Scalar : Type
  /-- `Point.SetBytes`: nil for an encoding that is not a curve point. -/
  setBytes : PublicKeyBytes → Option Point
  /-- `Scalar.SetCanonicalBytes`: nil for an encoding that is not canonical. -/
  setCanonicalBytes : PrivateKeyBytes → Option Scalar
  /-- `GetDerivationNoAllocate`. -/
  derivation : Point → Scalar → PublicKeyBytes
  /-- `GetEphemeralPublicKeyAndViewTagNoAllocate`; it does not use the transaction key. -/
  ephemeralPublicKeyAndViewTag : Point → PublicKeyBytes → UInt64 → PublicKeyBytes × UInt8

/-! ## The caches -/

inductive CacheKey where
  | ephemeralPublicKey (txKey : PrivateKeyBytes) (a : PackedAddress) (outputIndex : UInt64)
  | derivation (viewPublicKey : PublicKeyBytes) (txKey : PrivateKeyBytes)
  | point (publicKey : PublicKeyBytes)
  deriving DecidableEq

section Keys

variable [Curve]

def CacheValue : CacheKey → Type
  | .ephemeralPublicKey _ _ _ => PublicKeyBytes × UInt8
  | .derivation _ _ => PublicKeyBytes
  | .point _ => Option Curve.Point

def asPoint (k : PublicKeyBytes) : Option Curve.Point := Curve.setBytes k

def asScalar (k : PrivateKeyBytes) : Option Curve.Scalar := Curve.setCanonicalBytes k

def getPublicKeyPoint (publicKey : PublicKeyBytes) : Program CacheValue (Option Curve.Point) := do
  match ← lookup (CacheKey.point publicKey) with
  | some point => return point
  | none =>
    let point := asPoint publicKey
    store (.point publicKey) point
    return point

def getDerivation (viewPublicKey : PublicKeyBytes) (txKey : PrivateKeyBytes)
    (viewPublicKeyPoint : Option Curve.Point) (txKeyScalar : Option Curve.Scalar) :
    Program CacheValue PublicKeyBytes := do
  match ← lookup (CacheKey.derivation viewPublicKey txKey) with
  | some derivation => return derivation
  | none =>
    let point ← deref viewPublicKeyPoint
    let scalar ← deref txKeyScalar
    let derivation := Curve.derivation point scalar
    store (.derivation viewPublicKey txKey) derivation
    return derivation

def getEphemeralPublicKey (a : PackedAddress) (txKey : PrivateKeyBytes)
    (txKeyScalar : Option Curve.Scalar) (outputIndex : UInt64) :
    Program CacheValue (PublicKeyBytes × UInt8) := do
  match ← lookup (CacheKey.ephemeralPublicKey txKey a outputIndex) with
  | some ephemeralPubKey => return ephemeralPubKey
  | none =>
    let viewPoint ← getPublicKeyPoint a.view
    let spendPoint ← getPublicKeyPoint a.spend
    let derivation ← getDerivation a.view txKey viewPoint txKeyScalar
    let spend ← deref spendPoint
    let ephemeralPubKey := Curve.ephemeralPublicKeyAndViewTag spend derivation outputIndex
    store (.ephemeralPublicKey txKey a outputIndex) ephemeralPubKey
    return ephemeralPubKey

/-! ## What the calls compute -/

def derivationKey (viewPublicKey : PublicKeyBytes) (txKey : PrivateKeyBytes) : Option PublicKeyBytes :=
  (asPoint viewPublicKey).bind fun point => (asScalar txKey).map (Curve.derivation point)

def ephemeralKey (a : PackedAddress) (txKey : PrivateKeyBytes) (outputIndex : UInt64) :
    Option (PublicKeyBytes × UInt8) :=
  (derivationKey a.view txKey).bind fun derivation => (asPoint a.spend).map fun spend =>
    Curve.ephemeralPublicKeyAndViewTag spend derivation outputIndex

/-- Both public keys are points and the transaction key is a scalar. -/
structure ValidKeys (a : PackedAddress) (txKey : PrivateKeyBytes) : Prop where
  view : (asPoint a.view).isSome = true
  spend : (asPoint a.spend).isSome = true
  txKey : (asScalar txKey).isSome = true

theorem ephemeralKey_isSome_iff (a : PackedAddress) (txKey : PrivateKeyBytes) (outputIndex : UInt64) :
    (ephemeralKey a txKey outputIndex).isSome = true ↔ ValidKeys a txKey := by
  have split : ValidKeys a txKey ↔ (asPoint a.view).isSome = true ∧
      (asPoint a.spend).isSome = true ∧ (asScalar txKey).isSome = true :=
    ⟨fun valid => ⟨valid.view, valid.spend, valid.txKey⟩, fun ⟨view, spend, key⟩ => ⟨view, spend, key⟩⟩
  rw [split]
  unfold ephemeralKey derivationKey
  cases asPoint a.view <;> cases asPoint a.spend <;> cases asScalar txKey <;> simp

def Computed : (k : CacheKey) → CacheValue k → Prop
  | .ephemeralPublicKey txKey a outputIndex, e => ephemeralKey a txKey outputIndex = some e
  | .derivation viewPublicKey txKey, d => derivationKey viewPublicKey txKey = some d
  | .point publicKey, point => point = asPoint publicKey

theorem ends_getPublicKeyPoint (publicKey : PublicKeyBytes) :
    Ends Computed (getPublicKeyPoint publicKey) (some (asPoint publicKey)) := by
  refine ends_lookup ?_ fun point computed => ?_
  · exact ends_store rfl (ends_pure _)
  · exact congrArg some computed.symm

theorem ends_getDerivation (viewPublicKey : PublicKeyBytes) (txKey : PrivateKeyBytes) :
    Ends Computed (getDerivation viewPublicKey txKey (asPoint viewPublicKey) (asScalar txKey))
      (derivationKey viewPublicKey txKey) := by
  have computed : ∀ point scalar, asPoint viewPublicKey = some point → asScalar txKey = some scalar →
      derivationKey viewPublicKey txKey = some (Curve.derivation point scalar) := by
    intro point scalar isPoint isScalar
    simp [derivationKey, isPoint, isScalar]
  refine ends_lookup ?_ fun derivation found => found.symm ▸ ends_pure derivation
  cases isPoint : asPoint viewPublicKey with
  | none =>
    rw [derivationKey, isPoint]
    exact ends_bind_crash (ends_deref none)
  | some point =>
    refine ends_bind (ends_deref (some point)) ?_
    cases isScalar : asScalar txKey with
    | none =>
      rw [derivationKey, isPoint, isScalar]
      exact ends_bind_crash (ends_deref none)
    | some scalar =>
      refine ends_bind (ends_deref (some scalar)) ?_
      rw [computed point scalar isPoint isScalar]
      exact ends_store (computed point scalar isPoint isScalar) (ends_pure _)

theorem ends_getEphemeralPublicKey (a : PackedAddress) (txKey : PrivateKeyBytes) (outputIndex : UInt64) :
    Ends Computed (getEphemeralPublicKey a txKey (asScalar txKey) outputIndex)
      (ephemeralKey a txKey outputIndex) := by
  refine ends_lookup ?_ fun key found => found.symm ▸ ends_pure key
  refine ends_bind (ends_getPublicKeyPoint a.view) (ends_bind (ends_getPublicKeyPoint a.spend) ?_)
  have derivation := ends_getDerivation a.view txKey
  cases isDerivation : derivationKey a.view txKey with
  | none =>
    rw [isDerivation] at derivation
    rw [ephemeralKey, isDerivation]
    exact ends_bind_crash derivation
  | some d =>
    rw [isDerivation] at derivation
    refine ends_bind derivation ?_
    cases isPoint : asPoint a.spend with
    | none =>
      rw [ephemeralKey, isDerivation, isPoint]
      exact ends_bind_crash (ends_deref none)
    | some spend =>
      have computed : ephemeralKey a txKey outputIndex =
          some (Curve.ephemeralPublicKeyAndViewTag spend d outputIndex) := by
        simp [ephemeralKey, isDerivation, isPoint]
      refine ends_bind (ends_deref (some spend)) ?_
      rw [computed]
      exact ends_store computed (ends_pure _)

theorem within_getPublicKeyPoint (publicKey : PublicKeyBytes) : Within (getPublicKeyPoint publicKey) 2 := by
  refine within_lookup fun found => ?_
  cases found with
  | some point => exact within_pure _ _
  | none => exact within_store (within_pure _ _)

theorem within_getDerivation (viewPublicKey : PublicKeyBytes) (txKey : PrivateKeyBytes)
    (viewPublicKeyPoint : Option Curve.Point) (txKeyScalar : Option Curve.Scalar) :
    Within (getDerivation viewPublicKey txKey viewPublicKeyPoint txKeyScalar) 2 := by
  refine within_lookup fun found => ?_
  cases found with
  | some derivation => exact within_pure _ _
  | none =>
    show Within _ (0 + (0 + 1))
    refine within_bind (within_deref _ 0) fun point => within_bind (within_deref _ 0) fun scalar => ?_
    exact within_store (within_pure _ _)

theorem within_getEphemeralPublicKey (a : PackedAddress) (txKey : PrivateKeyBytes)
    (txKeyScalar : Option Curve.Scalar) (outputIndex : UInt64) :
    Within (getEphemeralPublicKey a txKey txKeyScalar outputIndex) 8 := by
  refine within_lookup fun found => ?_
  cases found with
  | some key => exact within_pure _ _
  | none =>
    show Within _ (2 + (2 + (2 + (0 + 1))))
    refine within_bind (within_getPublicKeyPoint _) fun viewPoint =>
      within_bind (within_getPublicKeyPoint _) fun spendPoint =>
      within_bind (within_getDerivation _ _ _ _) fun derivation =>
      within_bind (within_deref _ 0) fun spend => ?_
    exact within_store (within_pure _ _)

/-! ## The caches of a node -/

structure DerivationCache where
  entries : (k : CacheKey) → Option (CacheValue k)
  coherent : Coherent Computed entries

def DerivationCache.new : DerivationCache where
  entries := fun _ => none
  coherent := by
    intro k v entry
    cases entry

end Keys

end P2PoolObserver
