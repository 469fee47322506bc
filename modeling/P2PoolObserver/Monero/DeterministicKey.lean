/-
# Monero.DeterministicKey -- transaction keys out of a seed (`random.go`, `p2pool/crypto`)

The transaction key of a block is a scalar hashed from its seed and the previous Monero block.
`deterministicScalar` counts up until a hash is below fifteen times the group order and not a
multiple of it, and writes the counter over the end of the same buffer in each round.  The
scalar is the remainder of the first hash that fits (`scalarReduction_exact`).
-/
import P2PoolObserver.Monero.KeyDerivation

namespace P2PoolObserver

open Lib
open Edwards25519 Sha3

/-! ## Scalars (`random.go`, `edwards25519.go`) -/

def limit : Bytes :=
  [0xe3, 0x6a, 0x67, 0x72, 0x8b, 0xce, 0x13, 0x29, 0x8f, 0x30, 0x82, 0x8c, 0x0b, 0xa4, 0x10, 0x39,
    0x01, 0x00, 0x00, 0x00, 0x00, 0x00, 0x00, 0x00, 0x00, 0x00, 0x00, 0x00, 0x00, 0x00, 0x00, 0xf0]

/-- The loop of `less32`, with the first `n` bytes still to compare. -/
def less32From (a b : Bytes) : Nat → Bool
  | 0 => false
  | n + 1 =>
    if a.getD n 0 < b.getD n 0 then true
    else if a.getD n 0 > b.getD n 0 then false
    else less32From a b n

def less32 (a b : Bytes) : Bool := less32From a b 32

theorem copyAt_counter (entropy : Bytes) {old : Bytes} (four : old.length = 4) (counter : UInt32) :
    copyAt (entropy ++ old) entropy.length (leBytes 4 counter.toNat) = entropy ++ leBytes 4 counter.toNat := by
  rw [copyAt_append _ _ _ (by rw [leBytes_length, four]), leBytes_length, ← four, List.drop_length, List.append_nil]

/-! ## The scalar that is found -/

theorem digits_lt_iff {power a b p q : Nat} (lowA : a < power) (lowB : b < power) :
    a + power * p < b + power * q ↔ p < q ∨ p = q ∧ a < b := by
  rcases lt_trichotomy p q with less | rfl | more
  · have step := Nat.mul_le_mul_left power less
    rw [Nat.mul_succ] at step
    exact iff_of_true (by omega) (.inl less)
  · simp
  · have step := Nat.mul_le_mul_left power more
    rw [Nat.mul_succ] at step
    exact iff_of_false (by omega) (by omega)

theorem less32From_iff (a b : Bytes) (n : Nat) :
    less32From a b n = true ↔ ofLeBytes a % 2 ^ (8 * n) < ofLeBytes b % 2 ^ (8 * n) := by
  induction n with
  | zero => simp [less32From, Nat.mod_one]
  | succ n ih =>
    have power : 2 ^ (8 * (n + 1)) = 2 ^ (8 * n) * 2 ^ 8 := by rw [Nat.mul_succ, pow_add]
    have positive : 0 < 2 ^ (8 * n) := Nat.two_pow_pos _
    have digitA := toNat_getD a n
    have digitB := toNat_getD b n
    rw [bitsAt] at digitA digitB
    rw [power, Nat.mod_mul, Nat.mod_mul, ← digitA, ← digitB,
      digits_lt_iff (Nat.mod_lt _ positive) (Nat.mod_lt _ positive), less32From, ← ih]
    by_cases less : a.getD n 0 < b.getD n 0
    · rw [if_pos less]
      exact iff_of_true rfl (.inl (UInt8.lt_iff_toNat_lt.mp less))
    · rw [if_neg less]
      have notLess : ¬ (a.getD n 0).toNat < (b.getD n 0).toNat := fun h => less (UInt8.lt_iff_toNat_lt.mpr h)
      by_cases more : a.getD n 0 > b.getD n 0
      · rw [if_pos more]
        have above := UInt8.lt_iff_toNat_lt.mp more
        exact iff_of_false Bool.false_ne_true (by omega)
      · rw [if_neg more]
        have notMore : ¬ (b.getD n 0).toNat < (a.getD n 0).toNat := fun h => more (UInt8.lt_iff_toNat_lt.mpr h)
        have same : (a.getD n 0).toNat = (b.getD n 0).toNat := by omega
        exact ⟨fun lower => .inr ⟨same, lower⟩, fun either => (either.resolve_left notLess).2⟩

theorem less32_iff {a b : Bytes} (sizeA : a.length = 32) (sizeB : b.length = 32) :
    less32 a b = true ↔ ofLeBytes a < ofLeBytes b := by
  have smallA := ofLeBytes_lt a
  have smallB := ofLeBytes_lt b
  have power : 256 ^ 32 = 2 ^ (8 * 32) := by norm_num
  rw [sizeA, power] at smallA
  rw [sizeB, power] at smallB
  rw [less32, less32From_iff, Nat.mod_eq_of_lt smallA, Nat.mod_eq_of_lt smallB]

theorem less32_limit (h : Hash) : less32 h.bytes limit = true ↔ h.toNat < 15 * groupOrder := by
  have bound : ofLeBytes limit = 15 * groupOrder := by decide +kernel
  rw [less32_iff (Bytes32.bytes_length h) rfl, bound, ofLeBytes_bytes]

section Search

variable [Sha3]

theorem read_counter (entropy : Bytes) (counter : UInt32) (h : HasherState) :
    (read (write (reset h) (entropy ++ leBytes 4 counter.toNat))).1 = keccak (entropy ++ leBytes 4 counter.toNat) := by
  simpa using read_reset h [entropy ++ leBytes 4 counter.toNat]

variable [Edwards25519]

/-- The loop of `DeterministicScalar`, for so many rounds: no result is a loop that goes on, or the use of a
nil pointer where the scalar is not canonical. -/
def deterministicScalarFrom (n : Nat) : Nat → Bytes → UInt32 → HasherState → Option Scalar
  | 0, _, _, _ => none
  | rounds + 1, entropy, counter, h =>
    let counter := counter + 1
    let entropy := copyAt entropy n (leBytes 4 counter.toNat)
    let (hash, h) := read (write (reset h) entropy)
    if less32 hash.bytes limit = false then deterministicScalarFrom n rounds entropy counter h
    else
      match setCanonicalBytes (scReduce32 hash.bytes) with
      | none => none
      | some scalar =>
        if equal scalar newScalar = false then some scalar else deterministicScalarFrom n rounds entropy counter h

/-- `DeterministicScalar`: after `2 ^ 32` rounds the counter is back where it was, and the loop never ends. -/
def deterministicScalar (h : PooledHasher) (entropy : Bytes) : Option Scalar :=
  deterministicScalarFrom entropy.length (2 ^ 32) (entropy ++ List.replicate 4 0) 0 h.state

theorem deterministicScalarFrom_eq (entropy : Bytes) (rounds : Nat) {old other : Bytes} (four : old.length = 4)
    (four' : other.length = 4) (counter : UInt32) (h g : HasherState) :
    deterministicScalarFrom entropy.length rounds (entropy ++ old) counter h =
      deterministicScalarFrom entropy.length rounds (entropy ++ other) counter g := by
  induction rounds generalizing old other counter h g with
  | zero => rfl
  | succ rounds ih =>
    have next := fun h g => @ih (leBytes 4 (counter + 1).toNat) (leBytes 4 (counter + 1).toNat)
      (leBytes_length 4 _) (leBytes_length 4 _) (counter + 1) h g
    have hash := fun h => read_counter entropy (counter + 1) h
    simp only [deterministicScalarFrom, copyAt_counter entropy four, copyAt_counter entropy four', hash]
    rw [next _ (read (write (reset g) (entropy ++ leBytes 4 (counter + 1).toNat))).2]

theorem deterministicScalar_pooled (h g : PooledHasher) (entropy : Bytes) :
    deterministicScalar h entropy = deterministicScalar g entropy :=
  deterministicScalarFrom_eq entropy _ List.length_replicate List.length_replicate 0 h.state g.state

def counterHash (entropy : Bytes) (c : Nat) : Nat := (keccak (entropy ++ leBytes 4 c)).toNat

/-- The number is below the limit and not a multiple of the order. -/
def CounterFits (entropy : Bytes) (c : Nat) : Prop :=
  counterHash entropy c < 15 * groupOrder ∧ counterHash entropy c % groupOrder ≠ 0

theorem deterministicScalarFrom_finds (entropy : Bytes) {c : Nat} (low : c < 2 ^ 32) (fits : CounterFits entropy c)
    (rounds : Nat) {old : Bytes} (four : old.length = 4) (counter : UInt32) (h : HasherState)
    (ahead : counter.toNat < c) (enough : c ≤ counter.toNat + rounds)
    (first : ∀ c', counter.toNat < c' → c' < c → ¬ CounterFits entropy c') :
    ∃ s, deterministicScalarFrom entropy.length rounds (entropy ++ old) counter h = some s ∧
      value s = counterHash entropy c % groupOrder := by
  induction rounds generalizing old counter h with
  | zero => omega
  | succ rounds ih =>
    have next : (counter + 1).toNat = counter.toNat + 1 := by
      rw [UInt32.toNat_add, show (1 : UInt32).toNat = 1 from rfl, Nat.mod_eq_of_lt (by omega)]
    obtain ⟨s, canonical, residue⟩ :=
      setCanonicalBytes_scReduce32 (keccak (entropy ++ leBytes 4 (counter + 1).toNat))
    have isZero : equal s newScalar = decide (counterHash entropy (counter + 1).toNat % groupOrder = 0) := by
      rw [equal_eq, value_newScalar, residue]
      rfl
    simp only [deterministicScalarFrom, copyAt_counter entropy four, read_counter, canonical, isZero]
    by_cases here : (counter + 1).toNat = c
    · rw [here] at residue ⊢
      have less : less32 (keccak (entropy ++ leBytes 4 c)).bytes limit = true := (less32_limit _).mpr fits.1
      rw [less, decide_eq_false fits.2]
      exact ⟨s, rfl, residue⟩
    · have later := fun h' => ih (leBytes_length 4 (counter + 1).toNat) (counter + 1) h' (by omega) (by omega)
        fun c' above below => first c' (by omega) below
      have passed := first (counter + 1).toNat (by omega) (by omega)
      split_ifs with high multiple
      · exact later _
      · refine absurd ⟨?_, of_decide_eq_false multiple⟩ passed
        exact (less32_limit _).mp (Bool.of_not_eq_false high)
      · exact later _

/-- Reduction and comparison are exact, and so the scalar of an entropy is the remainder of the first number
below the limit that is not a multiple of the order. -/
theorem scalarReduction_exact :
    groupOrder = 2 ^ 252 + 27742317777372353535851937790883648493 ∧
    (∀ s : Bytes, s.length = 32 → scReduce32 s = leBytes 32 (ofLeBytes s % groupOrder) ∧
      (setCanonicalBytes (scReduce32 s)).isSome = true ∧
      ∀ wrap, KeepsWords wrap → scReduce32With wrap s = scReduce32 s) ∧
    (∀ a b : Bytes, a.length = 32 → b.length = 32 → (less32 a b = true ↔ ofLeBytes a < ofLeBytes b)) ∧
    ∀ (h : PooledHasher) (entropy : Bytes) (c : Nat), 1 ≤ c → c < 2 ^ 32 → CounterFits entropy c →
      (∀ c', 1 ≤ c' → c' < c → ¬ CounterFits entropy c') →
        ∃ s, deterministicScalar h entropy = some s ∧ value s = counterHash entropy c % groupOrder := by
  refine ⟨rfl, fun s size => ⟨scReduce32_eq size, ?_, fun wrap keeps => ?_⟩, fun a b => less32_iff,
    fun h entropy c positive low fits first => ?_⟩
  · have small : ofLeBytes s % groupOrder < groupOrder := Nat.mod_lt _ (by norm_num [groupOrder])
    have order : groupOrder < 256 ^ 32 := by norm_num [groupOrder]
    rw [setCanonicalBytes_isSome, scReduce32_eq size, leBytes_length, ofLeBytes_leBytes_of_lt (small.trans order)]
    exact ⟨rfl, small⟩
  · rw [scReduce32With_eq keeps size, scReduce32_eq size]
  · exact deterministicScalarFrom_finds entropy low fits (2 ^ 32) List.length_replicate 0 h.state positive (by omega)
      first

example : scReduce32 (leBytes 32 (3 * groupOrder + 5)) = leBytes 32 5 := by decide +kernel

/-! ## Keys (`p2pool/crypto/crypto.go`, `keypair.go`) -/

def txSecretKeyDomain : Bytes :=
  [0x74, 0x78, 0x5f, 0x73, 0x65, 0x63, 0x72, 0x65, 0x74, 0x5f, 0x6b, 0x65, 0x79]

def getDeterministicTransactionPrivateKey (h : PooledHasher) (seed previousMoneroId : Hash) : Option PrivateKey := do
  let entropy := List.replicate (13 + hashSize + hashSize + 4) 0
  let entropy := copySlice entropy txSecretKeyDomain
  let entropy := copyAt entropy 13 seed.bytes
  let entropy := copyAt entropy (13 + hashSize) previousMoneroId.bytes
  let scalar ← deterministicScalar h (entropy.take (13 + hashSize + hashSize))
  return .scalar scalar

theorem getDeterministicTransactionPrivateKey_cases (h : PooledHasher) (seed previousMoneroId : Hash) :
    getDeterministicTransactionPrivateKey h seed previousMoneroId = none ∨
      ∃ s : Scalar, getDeterministicTransactionPrivateKey h seed previousMoneroId = some (.scalar s) := by
  unfold getDeterministicTransactionPrivateKey
  dsimp only
  cases deterministicScalar h _ with
  | none => exact .inl rfl
  | some s => exact .inr ⟨s, rfl⟩

theorem getDeterministicTransactionPrivateKey_pooled (h g : PooledHasher) (seed previousMoneroId : Hash) :
    getDeterministicTransactionPrivateKey h seed previousMoneroId =
      getDeterministicTransactionPrivateKey g seed previousMoneroId := by
  unfold getDeterministicTransactionPrivateKey
  simp only [deterministicScalar_pooled h g]

end Search

section Pairs

variable [Edwards25519]

structure KeyPair where
  privateKey : PrivateKey
  publicKey : PublicKey

def KeyPair.asBytes (kp : KeyPair) : PrivateKeyBytes × PublicKeyBytes := (kp.privateKey.asBytes, kp.publicKey.asBytes)

def newKeyPairFromPrivate (privateKey : PrivateKey) : Option KeyPair := do
  let publicKey ← privateKey.publicKey
  return ⟨privateKey, publicKey⟩

/-- The pair made of bytes, as `DerivationCache.GetDeterministicTransactionKey` makes it. -/
def keyPairFromBytes (priv : PrivateKeyBytes) : Option KeyPair := do
  let pub ← (PrivateKey.bytes priv).publicKey
  return ⟨.bytes priv, .bytes pub.asBytes⟩

theorem keyPairFromBytes_scalar (s : Scalar) :
    (keyPairFromBytes (PrivateKey.scalar s).asBytes).map KeyPair.asBytes =
      (newKeyPairFromPrivate (.scalar s)).map KeyPair.asBytes := by
  obtain ⟨c, isScalar, same⟩ := setCanonicalBytes_scalarBytes s
  have pub : (PrivateKey.bytes (PrivateKey.scalar s).asBytes).publicKey = some (.point (scalarBaseMult c)) := by
    rw [PrivateKey.publicKey, PrivateKey.asScalar, PrivateKey.asBytes, isScalar]
    rfl
  have base : pointBytes (scalarBaseMult c) = pointBytes (scalarBaseMult s) := by
    rw [pointBytes_eq, pointBytes_eq, element_scalarBaseMult, element_scalarBaseMult, same]
  rw [keyPairFromBytes, pub]
  change some (scalarBytes s, pointBytes (scalarBaseMult c)) = some (scalarBytes s, pointBytes (scalarBaseMult s))
  rw [base]

end Pairs

end P2PoolObserver
