/-
# Monero.Signature -- Schnorr signatures of messages (`monero/crypto/signature.go`)

A signature of a hash under the key `x` is `c = H(hash, xG, kG)` and `r = k - c x` for a nonce `k`.
The verifier computes `c (xG) + r G`, which is `kG` again, hashes it in the same way and compares
with `c`.  The two sides fill the hashed buffer through different handlers, the signer from the
nonce and the verifier from a point.
-/
import P2PoolObserver.Monero.KeyDerivation
import Mathlib.Data.ZMod.Basic

namespace P2PoolObserver

open Lib

/-! ## The package -/

/-- What the signatures use of package `edwards25519` besides: the residues are a ring, and the base point has
their order. -/
class SchnorrGroup extends Edwards25519 where
  multiply : Scalar → Scalar → Scalar
  subtract : Scalar → Scalar → Scalar
  varTimeDoubleScalarBaseMult : Scalar → Point → Scalar → Point
  newIdentityPoint : Point
  /-- `Point.Equal`, as a truth value. -/
  pointEqual : Point → Point → Bool
  value_multiply : ∀ a b, value (multiply a b) % groupOrder = value a * value b % groupOrder
  value_subtract : ∀ a b, (value (subtract a b) + value b) % groupOrder = value a % groupOrder
  element_varTimeDoubleScalarBaseMult : ∀ a p b,
    element (varTimeDoubleScalarBaseMult a p b) = value a • element p + value b • generator
  element_newIdentityPoint : element newIdentityPoint = 0
  pointEqual_eq : ∀ p q, pointEqual p q = true ↔ element p = element q
  setBytes_pointBytes : ∀ p, ∃ q, setBytes (pointBytes p) = some q ∧ element q = element p
  smul_generator : ∀ m n : Nat, m • generator = n • generator ↔ m % groupOrder = n % groupOrder

open Edwards25519 SchnorrGroup

/-! ## The source -/

section Source

variable [SchnorrGroup] [Sha3]

def PublicKey.asPoint : PublicKey → Option Point
  | .point p => some p
  | .bytes k => k.asPoint

structure Signature where
  c : Scalar
  r : Scalar

omit [Sha3] in
def newSignatureFromBytes (buf : Bytes) : Option Signature :=
  if buf.length ≠ hashSize * 2 then none
  else do
    let c ← setCanonicalBytes (buf.take 32)
    let r ← setCanonicalBytes (buf.drop 32)
    return ⟨c, r⟩

def Signature.bytes (s : Signature) : Bytes := (scalarBytes s.c).bytes ++ (scalarBytes s.r).bytes

structure SignatureComm where
  hash : Hash
  key : PublicKey
  comm : Option PublicKey

/-- No result is the use of a nil pointer, here and below. -/
def SignatureComm.bytes (s : SignatureComm) : Option Bytes := do
  let comm ← s.comm
  return s.hash.bytes ++ s.key.asBytes.bytes ++ comm.asBytes.bytes

def Signature.verify (h : PooledHasher) (s : Signature) (handler : PublicKey → Option Bytes) (publicKey : PublicKey) :
    Option (Bool × Option Point) := do
  let point ← publicKey.asPoint
  let sp := varTimeDoubleScalarBaseMult s.c point s.r
  if pointEqual sp newIdentityPoint then return (false, none)
  else
    let data ← handler (.point sp)
    let c ← hashToScalar h [data]
    return (equal s.c c, some sp)

def createSignature (h : PooledHasher) (k : Scalar) (handler : PrivateKey → Option Bytes) (privateKey : PrivateKey) :
    Option Signature := do
  let data ← handler (.scalar k)
  let c ← hashToScalar h [data]
  let x ← privateKey.asScalar
  return ⟨c, subtract k (multiply c x)⟩

def createMessageSignature (h : PooledHasher) (k : Scalar) (prefixHash : Hash) (key : PrivateKey) :
    Option Signature := do
  let publicKey ← key.publicKey
  let buf : SignatureComm := ⟨prefixHash, publicKey, none⟩
  createSignature h k (fun k => { buf with comm := k.publicKey }.bytes) key

def verificationHandler (prefixHash : Hash) (commPublicKey r : PublicKey) : Option Bytes :=
  SignatureComm.bytes ⟨prefixHash, commPublicKey, some r⟩

def verifyMessageSignatureSplit (h : PooledHasher) (prefixHash : Hash) (commPublicKey signPublicKey : PublicKey)
    (signature : Signature) : Option Bool :=
  (signature.verify h (verificationHandler prefixHash commPublicKey) signPublicKey).map Prod.fst

def verifyMessageSignature (h : PooledHasher) (prefixHash : Hash) (publicKey : PublicKey) (signature : Signature) :
    Option Bool :=
  verifyMessageSignatureSplit h prefixHash publicKey publicKey signature

end Source

/-! ## The equation -/

section Equation

variable [SchnorrGroup]

/-- `c (xG) + (k - c x) G = kG`. -/
theorem element_response (c x k : Scalar) {p : Point} (isPublic : element p = value x • generator) :
    element (varTimeDoubleScalarBaseMult c p (subtract k (multiply c x))) = value k • generator := by
  rw [element_varTimeDoubleScalarBaseMult, isPublic, smul_smul, ← add_smul, smul_generator]
  calc (value c * value x + value (subtract k (multiply c x))) % groupOrder
      = (value (multiply c x) + value (subtract k (multiply c x))) % groupOrder := by
        rw [Nat.add_mod, ← value_multiply, ← Nat.add_mod]
    _ = value k % groupOrder := by rw [Nat.add_comm, value_subtract]

theorem smul_generator_ne_zero {k : Scalar} (nonzero : value k ≠ 0) : value k • generator ≠ (0 : Element) := by
  intro zero
  have multiple := (smul_generator (value k) 0).mp (zero.trans (zero_smul Nat generator).symm)
  rw [Nat.mod_eq_of_lt (value_lt k), Nat.zero_mod] at multiple
  exact nonzero multiple

def publicForms (x : Scalar) : List PublicKey := [.point (scalarBaseMult x), .bytes (pointBytes (scalarBaseMult x))]

theorem asPoint_publicForms {x : Scalar} {publicKey : PublicKey} (mem : publicKey ∈ publicForms x) :
    (∃ p, publicKey.asPoint = some p ∧ element p = value x • generator) ∧
      publicKey.asBytes = pointBytes (scalarBaseMult x) := by
  have base := element_scalarBaseMult x
  rw [publicForms, List.mem_cons, List.mem_singleton] at mem
  rcases mem with rfl | rfl
  · exact ⟨⟨scalarBaseMult x, rfl, base⟩, rfl⟩
  · obtain ⟨q, decoded, same⟩ := setBytes_pointBytes (scalarBaseMult x)
    exact ⟨⟨q, decoded, same.trans base⟩, rfl⟩

/-- The bytes of two canonical scalars are read back. -/
theorem newSignatureFromBytes_bytes (s : Signature) : ∃ s', newSignatureFromBytes s.bytes = some s' ∧
    value s'.c = value s.c ∧ value s'.r = value s.r := by
  obtain ⟨c, readC, valueC⟩ := setCanonicalBytes_scalarBytes s.c
  obtain ⟨r, readR, valueR⟩ := setCanonicalBytes_scalarBytes s.r
  have length := Bytes32.bytes_length (scalarBytes s.c)
  refine ⟨⟨c, r⟩, ?_, valueC, valueR⟩
  have whole : s.bytes.length = hashSize * 2 := by
    rw [Signature.bytes, List.length_append, length, Bytes32.bytes_length, hashSize]
  unfold newSignatureFromBytes
  rw [if_neg (not_not.mpr whole), Signature.bytes, List.take_left' length, List.drop_left' length, readC, readR]
  rfl

variable [Sha3]

theorem verify_response (h : PooledHasher) (handler : PublicKey → Option Bytes) (c : Scalar) {x k : Scalar}
    (nonzero : value k ≠ 0) {publicKey : PublicKey} (mem : publicKey ∈ publicForms x) :
    ∃ p, element p = value k • generator ∧
      Signature.verify h ⟨c, subtract k (multiply c x)⟩ handler publicKey = (do
        let data ← handler (.point p)
        let c' ← hashToScalar h [data]
        return (equal c c', some p)) := by
  obtain ⟨⟨p, decoded, isPublic⟩, -⟩ := asPoint_publicForms mem
  have response := element_response c x k isPublic
  refine ⟨_, response, ?_⟩
  have other : pointEqual (varTimeDoubleScalarBaseMult c p (subtract k (multiply c x))) newIdentityPoint ≠ true := by
    rw [Ne, pointEqual_eq, response, element_newIdentityPoint]
    exact smul_generator_ne_zero nonzero
  unfold Signature.verify
  rw [decoded]
  dsimp only [Option.bind_eq_bind, Option.bind_some]
  rw [if_neg other]

theorem hashToScalar_eq (h : PooledHasher) (data : Bytes) : ∃ c : Scalar, value c = (Sha3.keccak data).toNat % groupOrder ∧
    hashToScalar h [data] = some c := by
  obtain ⟨c, isScalar, residue⟩ := setCanonicalBytes_scReduce32 (Sha3.keccak data)
  refine ⟨c, residue, ?_⟩
  rw [hashToScalar, pooledKeccak256_eq, List.flatten_singleton, isScalar]

/-- A message signature verifies, is read back from its bytes, and gives `kG` to any handler. -/
theorem messageSignature_verifies (forSigning forVerifying : PooledHasher) (prefixHash : Hash) (key : PrivateKey)
    {x : Scalar} (canonical : key.asScalar = some x) {k : Scalar} (nonzero : value k ≠ 0) {publicKey : PublicKey}
    (mem : publicKey ∈ publicForms x) :
    ∃ s, createMessageSignature forSigning k prefixHash key = some s ∧
      verifyMessageSignature forVerifying prefixHash publicKey s = some true ∧
      (∃ s', newSignatureFromBytes s.bytes = some s' ∧ value s'.c = value s.c ∧ value s'.r = value s.r ∧
        s'.bytes = s.bytes) ∧
      (∃ r, element r = value k • generator ∧
        s.verify forVerifying (verificationHandler prefixHash publicKey) publicKey = some (true, some r)) := by
  have signed : key.publicKey = some (.point (scalarBaseMult x)) := by
    rw [PrivateKey.publicKey, canonical]
    rfl
  -- what is hashed by both sides
  obtain ⟨c, residue, hashed⟩ := hashToScalar_eq forSigning
    (prefixHash.bytes ++ (pointBytes (scalarBaseMult x)).bytes ++ (pointBytes (scalarBaseMult k)).bytes)
  obtain ⟨c', residue', hashed'⟩ := hashToScalar_eq forVerifying
    (prefixHash.bytes ++ (pointBytes (scalarBaseMult x)).bytes ++ (pointBytes (scalarBaseMult k)).bytes)
  obtain ⟨r, isNonce, verified⟩ := verify_response forVerifying (verificationHandler prefixHash publicKey) c nonzero mem
  have comm : pointBytes r = pointBytes (scalarBaseMult k) := by
    rw [pointBytes_eq, pointBytes_eq, isNonce, element_scalarBaseMult]
  have data : verificationHandler prefixHash publicKey (.point r) = some (prefixHash.bytes ++
      (pointBytes (scalarBaseMult x)).bytes ++ (pointBytes (scalarBaseMult k)).bytes) := by
    change some (prefixHash.bytes ++ publicKey.asBytes.bytes ++ (pointBytes r).bytes) = _
    rw [(asPoint_publicForms mem).2, comm]
  rw [data] at verified
  dsimp only [Option.bind_eq_bind, Option.bind_some] at verified
  rw [hashed', Option.bind_some, equal_eq, residue, residue', decide_eq_true rfl] at verified
  obtain ⟨s', readBack, sameC, sameR⟩ := newSignatureFromBytes_bytes ⟨c, subtract k (multiply c x)⟩
  refine ⟨⟨c, subtract k (multiply c x)⟩, ?_, ?_, ⟨s', readBack, sameC, sameR, ?_⟩, r, isNonce, verified⟩
  · unfold createMessageSignature
    rw [signed]
    change (hashToScalar forSigning [prefixHash.bytes ++ (pointBytes (scalarBaseMult x)).bytes ++
      (pointBytes (scalarBaseMult k)).bytes]).bind (fun c => key.asScalar.bind fun x => some (Signature.mk c _)) = _
    rw [hashed, canonical]
    rfl
  · rw [verifyMessageSignature, verifyMessageSignatureSplit, verified]
    rfl
  · have bytes : ∀ {a b : Scalar}, value a = value b → scalarBytes a = scalarBytes b := by
      intro a b same
      exact BitVec.eq_of_toNat_eq (by rw [scalarBytes_eq, scalarBytes_eq, same])
    rw [Signature.bytes, Signature.bytes, bytes sameC, bytes sameR]

end Equation

/-! ## A group that meets the laws -/

namespace SignatureExample

instance : NeZero groupOrder := ⟨by norm_num [groupOrder]⟩

theorem toNat_val (s : ZMod groupOrder) : (BitVec.ofNat 256 s.val).toNat = s.val := by
  have order : groupOrder < 2 ^ 256 := by norm_num [groupOrder]
  rw [BitVec.toNat_ofNat, Nat.mod_eq_of_lt ((ZMod.val_lt s).trans order)]

@[reducible]
def residues : SchnorrGroup where
  Element := ZMod groupOrder
  group := inferInstance
  generator := 1
  encode := fun e => BitVec.ofNat 256 e.val
  Point := ZMod groupOrder
  element := id
  Scalar := ZMod groupOrder
  value := ZMod.val
  setBytes := fun k => some k.toNat
  pointBytes := fun e => BitVec.ofNat 256 e.val
  add := fun p q => p + q
  scalarMult := fun s p => s.val • p
  unsafeVarTimeScalarMult := fun s p => s.val • p
  scalarBaseMult := fun s => s.val • 1
  multByCofactor := fun p => 8 • p
  newScalar := 0
  setCanonicalBytes := fun bs => if bs.length = 32 ∧ ofLeBytes bs < groupOrder then some (ofLeBytes bs : Nat) else none
  scalarBytes := fun s => BitVec.ofNat 256 s.val
  equal := fun s t => decide (s.val = t.val)
  pointBytes_eq := fun _ => rfl
  element_add := fun _ _ => rfl
  element_scalarMult := fun _ _ => rfl
  element_unsafeVarTimeScalarMult := fun _ _ => rfl
  element_scalarBaseMult := fun _ => rfl
  element_multByCofactor := fun _ => rfl
  value_newScalar := ZMod.val_zero
  value_lt := ZMod.val_lt
  setCanonicalBytes_isSome := by
    intro bs
    split_ifs with canonical
    · simp [canonical]
    · simp [canonical]
  value_setCanonicalBytes := by
    intro bs s decoded
    split_ifs at decoded with canonical
    cases decoded
    exact ZMod.val_natCast_of_lt canonical.2
  scalarBytes_eq := toNat_val
  equal_eq := fun _ _ => rfl
  multiply := fun a b => a * b
  subtract := fun a b => a - b
  varTimeDoubleScalarBaseMult := fun a p b => a.val • p + b.val • 1
  newIdentityPoint := 0
  pointEqual := fun p q => decide (p = q)
  value_multiply := fun a b => by rw [ZMod.val_mul, Nat.mod_mod]
  value_subtract := fun a b => by
    rw [← ZMod.natCast_eq_natCast_iff', Nat.cast_add, ZMod.natCast_zmod_val, ZMod.natCast_zmod_val,
      ZMod.natCast_zmod_val, sub_add_cancel]
  element_varTimeDoubleScalarBaseMult := fun _ _ _ => rfl
  element_newIdentityPoint := rfl
  pointEqual_eq := fun _ _ => decide_eq_true_iff
  setBytes_pointBytes := fun p => ⟨p, by rw [toNat_val, ZMod.natCast_zmod_val], rfl⟩
  smul_generator := fun m n => by rw [nsmul_one, nsmul_one, ZMod.natCast_eq_natCast_iff']

/-- The key 5 and the nonce 7. -/
theorem messageSignature_verifies_five :
    letI := residues
    letI := KeyExample.hashing
    ∃ s, createMessageSignature KeyExample.pooled ((7 : Nat) : ZMod groupOrder) 3 (.bytes 5) = some s ∧
      verifyMessageSignature KeyExample.pooled 3 (.bytes (pointBytes (scalarBaseMult ((5 : Nat) : ZMod groupOrder)))) s =
        some true := by
  let := residues
  let := KeyExample.hashing
  have seven : ((7 : Nat) : ZMod groupOrder).val ≠ 0 := by
    rw [ZMod.val_natCast_of_lt (by norm_num [groupOrder])]
    decide
  have five : setCanonicalBytes (Bytes32.bytes 5) = some ((5 : Nat) : ZMod groupOrder) := by
    change (if _ then _ else _) = _
    rw [if_pos (by decide +kernel), ofLeBytes_bytes]
    rfl
  obtain ⟨s, made, verified, -⟩ := messageSignature_verifies KeyExample.pooled KeyExample.pooled 3 (.bytes 5)
    five (k := ((7 : Nat) : ZMod groupOrder)) seven (.tail _ (.head _))
  exact ⟨s, made, verified⟩

end SignatureExample

end P2PoolObserver
