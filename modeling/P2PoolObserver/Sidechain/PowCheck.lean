/-
# Sidechain.PowCheck -- proof of work in 256-bit limbs (`types/difficulty.go`)

`DifficultyFromPoW` reads the hash big-endian into a `uint256.Int`, turns its four limbs around
byte by byte, divides `2 ^ 256 - 1` by the result and keeps the last sixteen of the thirty-two
big-endian bytes of the quotient.  The outcome is that of `Sidechain.Pow`
(`checkPoW_eq`).
-/
import P2PoolObserver.Sidechain.Pow

namespace P2PoolObserver

open Lib

/-! ## Big-endian words -/

def reverseBytes64 (x : UInt64) : UInt64 := beUint64 (leBytes 8 x.toNat)

theorem toNat_reverseBytes64_beUint64 {bs : Bytes} (length : bs.length = 8) :
    (reverseBytes64 (beUint64 bs)).toNat = ofLeBytes bs := by
  have digits : leBytes 8 (ofLeBytes bs.reverse) = bs.reverse := by
    have back := leBytes_ofLeBytes bs.reverse
    rwa [List.length_reverse, length] at back
  rw [reverseBytes64, toNat_beUint64 length, digits, toNat_beUint64 (by rw [List.length_reverse, length]),
    List.reverse_reverse]

/-! ## The `uint256` package -/

/-- `uint256.Int`: four words, the least significant one first. -/
structure Uint256 where
  limb0 : UInt64
  limb1 : UInt64
  limb2 : UInt64
  limb3 : UInt64
  deriving DecidableEq

namespace Uint256

def toNat (x : Uint256) : Nat :=
  x.limb0.toNat + 2 ^ 64 * x.limb1.toNat + 2 ^ 128 * x.limb2.toNat + 2 ^ 192 * x.limb3.toNat

def ofNat (n : Nat) : Uint256 :=
  ⟨.ofNat n, .ofNat (n / 2 ^ 64), .ofNat (n / 2 ^ 128), .ofNat (n / 2 ^ 192)⟩

theorem toNat_lt (x : Uint256) : x.toNat < 2 ^ 256 := by
  have h0 := x.limb0.toNat_lt
  have h1 := x.limb1.toNat_lt
  have h2 := x.limb2.toNat_lt
  have h3 := x.limb3.toNat_lt
  rw [toNat]
  omega

theorem toNat_ofNat_of_lt {n : Nat} (small : n < 2 ^ 256) : (ofNat n).toNat = n := by
  simp only [toNat, ofNat, UInt64.toNat_ofNat']
  omega

end Uint256

/-- `Div`, `SetBytes32` and `Bytes32` of `github.com/holiman/uint256`, with their documented
meaning: the quotient rounded down, and zero for a divisor of zero; the big-endian bytes of the
value. -/
class Uint256Package where
  div : Uint256 → Uint256 → Uint256
  setBytes32 : Bytes → Uint256
  bytes32 : Uint256 → Bytes
  toNat_div : ∀ x y, (div x y).toNat = x.toNat / y.toNat
  setBytes32_eq : ∀ bs, setBytes32 bs = ⟨beUint64 ((bs.drop 24).take 8), beUint64 ((bs.drop 16).take 8),
    beUint64 ((bs.drop 8).take 8), beUint64 (bs.take 8)⟩
  bytes32_eq : ∀ x, bytes32 x = (leBytes 32 x.toNat).reverse

@[reducible] def Uint256Package.exact : Uint256Package where
  div x y := .ofNat (x.toNat / y.toNat)
  setBytes32 bs := ⟨beUint64 ((bs.drop 24).take 8), beUint64 ((bs.drop 16).take 8),
    beUint64 ((bs.drop 8).take 8), beUint64 (bs.take 8)⟩
  bytes32 x := (leBytes 32 x.toNat).reverse
  toNat_div x _ := Uint256.toNat_ofNat_of_lt (Nat.lt_of_le_of_lt (Nat.div_le_self _ _) x.toNat_lt)
  setBytes32_eq _ := rfl
  bytes32_eq _ := rfl

/-! ## The difficulty of a hash -/

namespace Uint256

open Uint256Package

/-- The four limbs of the source, in reverse order and each turned around. -/
def turned (pow : Uint256) : Uint256 :=
  ⟨reverseBytes64 pow.limb3, reverseBytes64 pow.limb2, reverseBytes64 pow.limb1, reverseBytes64 pow.limb0⟩

theorem length_chunk {bs : Bytes} {i : Nat} (inside : i + 8 ≤ bs.length) : ((bs.drop i).take 8).length = 8 := by
  rw [List.length_take, List.length_drop]
  omega

theorem ofLeBytes_chunk (bs : Bytes) (i : Nat) (inside : i + 8 ≤ bs.length) :
    ofLeBytes (bs.drop i) = ofLeBytes ((bs.drop i).take 8) + 2 ^ 64 * ofLeBytes (bs.drop (i + 8)) := by
  have split : bs.drop i = (bs.drop i).take 8 ++ bs.drop (i + 8) := by
    rw [← List.drop_drop, List.take_append_drop]
  have value := congrArg ofLeBytes split
  rwa [ofLeBytes_append, length_chunk inside] at value

theorem ofLeBytes_hash (h : Hash) : ofLeBytes h.bytes = h.toNat := by
  rw [Bytes32.bytes, ofLeBytes_leBytes_of_lt (by simpa using h.isLt)]

section Check

variable [Uint256Package]

def powBase : Uint256 := setBytes32 (List.replicate 32 0xff)

theorem toNat_powBase : powBase.toNat = 2 ^ 256 - 1 := by
  rw [powBase, setBytes32_eq]
  decide +kernel

theorem toNat_turned (h : Hash) : (setBytes32 h.bytes).turned.toNat = h.toNat := by
  have length : h.bytes.length = 32 := h.bytes_length
  have c0 := ofLeBytes_chunk h.bytes 0 (by omega)
  have c1 := ofLeBytes_chunk h.bytes 8 (by omega)
  have c2 := ofLeBytes_chunk h.bytes 16 (by omega)
  have c3 := ofLeBytes_chunk h.bytes 24 (by omega)
  have rest : h.bytes.drop 32 = [] := List.drop_of_length_le (by omega)
  simp only [List.drop_zero] at c0
  rw [rest] at c3
  simp only [toNat, turned, setBytes32_eq]
  rw [toNat_reverseBytes64_beUint64 (by rw [List.length_take, length]; rfl),
    toNat_reverseBytes64_beUint64 (length_chunk (by omega)),
    toNat_reverseBytes64_beUint64 (length_chunk (by omega)),
    toNat_reverseBytes64_beUint64 (length_chunk (by omega)), ← ofLeBytes_hash, c0, c1, c2, c3]
  simp only [ofLeBytes]
  omega

variable [Uint128Package]

def difficultyFromPoW (powHash : Hash) : Difficulty :=
  if powHash = zeroHash then Difficulty.zeroDifficulty
  else
    let pow := (setBytes32 powHash.bytes).turned
    let powResult := bytes32 (div powBase pow)
    Difficulty.difficultyFromBytes (powResult.drop 16)

def checkPoW (d : Difficulty) (pow : Hash) : Bool := (difficultyFromPoW pow).cmp d != .lt

theorem toNat_lastBytes (x : Uint256) :
    (Difficulty.difficultyFromBytes ((bytes32 x).drop 16)).toNat = x.toNat % 2 ^ 128 := by
  have length : ((bytes32 x).drop 16).length = 16 := by simp [bytes32_eq]
  have low : ((bytes32 x).drop 16).reverse = leBytes 16 x.toNat := by
    rw [bytes32_eq, List.drop_reverse, List.reverse_reverse, leBytes_length, take_leBytes (by decide)]
  rw [Difficulty.difficultyFromBytes, Uint128Package.fromBytesBE_eq _ length, low, ofLeBytes_leBytes]
  norm_num

theorem toNat_difficultyFromPoW (h : Hash) :
    (difficultyFromPoW h).toNat = (2 ^ 256 - 1) / h.toNat % 2 ^ 128 := by
  unfold difficultyFromPoW
  by_cases zero : h = zeroHash
  · rw [if_pos zero, zero]
    decide
  · rw [if_neg zero]
    dsimp only
    rw [toNat_lastBytes, toNat_div, toNat_powBase, toNat_turned]

/-- The limbs compute the quotient of `Sidechain.Pow`. -/
theorem checkPoW_eq (d : Difficulty) (h : Hash) : checkPoW d h = d.checkPoW h := by
  have same : difficultyFromPoW h = P2PoolObserver.difficultyFromPoW h := by
    apply Difficulty.toNat_inj.mp
    rw [toNat_difficultyFromPoW, P2PoolObserver.difficultyFromPoW]
    split_ifs with zero
    · rw [zero]
      decide
    · rw [Difficulty.toNat_ofNat]
  rw [checkPoW, same, Difficulty.checkPoW]

theorem checkPoW_iff (d : Difficulty) (h : Hash) :
    checkPoW d h = true ↔ d.toNat ≤ (2 ^ 256 - 1) / h.toNat % 2 ^ 128 := by
  rw [checkPoW, bne_iff_ne, ne_eq, Difficulty.cmp_eq_lt_iff, toNat_difficultyFromPoW, Nat.not_lt]

/-! ## Soundness and completeness -/

/-- A hash that passes is small enough for the difficulty. -/
theorem checkPoW_sound (d : Difficulty) (h : Hash) (passes : checkPoW d h = true) :
    ofLeBytes h.bytes * d.toNat < 2 ^ 256 := by
  rw [checkPoW_iff] at passes
  rw [ofLeBytes_hash]
  have quotient : d.toNat ≤ (2 ^ 256 - 1) / h.toNat := Nat.le_trans passes (Nat.mod_le _ _)
  have product : h.toNat * d.toNat ≤ 2 ^ 256 - 1 :=
    Nat.le_trans (Nat.mul_le_mul_left _ quotient) (Nat.mul_div_le _ _)
  omega

omit [Uint256Package] [Uint128Package] in
theorem quotient_mod_of_ge {n : Nat} (large : 2 ^ 128 ≤ n) :
    (2 ^ 256 - 1) / n % 2 ^ 128 = (2 ^ 256 - 1) / n := by
  have small : (2 ^ 256 - 1) / n < 2 ^ 128 := by
    rw [Nat.div_lt_iff_lt_mul (by omega)]
    exact Nat.lt_of_lt_of_le (by decide) (Nat.mul_le_mul_left (2 ^ 128) large)
  exact Nat.mod_eq_of_lt small

/-- A hash that is small enough for the difficulty passes exactly when the
difficulty is zero, or the hash is at least `2 ^ 128`, or it is a smaller one other
than zero and the low half of the quotient reaches the difficulty. -/
theorem checkPoW_complete_iff (d : Difficulty) (h : Hash) (enough : ofLeBytes h.bytes * d.toNat < 2 ^ 256) :
    checkPoW d h = true ↔
      d.toNat = 0 ∨ 2 ^ 128 ≤ ofLeBytes h.bytes ∨
        (0 < ofLeBytes h.bytes ∧ d.toNat ≤ (2 ^ 256 - 1) / ofLeBytes h.bytes % 2 ^ 128) := by
  rw [checkPoW_iff]
  rw [ofLeBytes_hash] at enough ⊢
  constructor
  · intro passes
    by_cases zero : h.toNat = 0
    · rw [zero] at passes
      exact .inl (by simpa using passes)
    · exact .inr (.inr ⟨Nat.pos_of_ne_zero zero, passes⟩)
  · rintro (none | large | ⟨-, reached⟩)
    · rw [none]
      exact Nat.zero_le _
    · -- nothing of the quotient was dropped
      rw [quotient_mod_of_ge large, Nat.le_div_iff_mul_le (by omega), Nat.mul_comm]
      omega
    · exact reached

end Check

/-! ### A hash that passes, and two that should -/

theorem checkPoW_sound_large :
    @checkPoW .exact .exact ⟨5, 0⟩ (BitVec.ofNat 256 (2 ^ 253)) = true ∧
      ofLeBytes (Bytes32.bytes (BitVec.ofNat 256 (2 ^ 253))) * Difficulty.toNat ⟨5, 0⟩ < 2 ^ 256 :=
  ⟨by decide +kernel, @checkPoW_sound .exact .exact ⟨5, 0⟩ (BitVec.ofNat 256 (2 ^ 253)) (by decide +kernel)⟩

theorem checkPoW_complete_iff_large : @checkPoW .exact .exact ⟨5, 0⟩ (BitVec.ofNat 256 (2 ^ 253)) = true :=
  (@checkPoW_complete_iff .exact .exact ⟨5, 0⟩ (BitVec.ofNat 256 (2 ^ 253)) (by decide +kernel)).mpr
    (.inr (.inl (by decide +kernel)))

/-- The hashes zero and three are refused at the greatest difficulty. -/
theorem checkPoW_refuses_small :
    (ofLeBytes (Bytes32.bytes 0) * Difficulty.maxDifficulty.toNat < 2 ^ 256 ∧
      @checkPoW .exact .exact Difficulty.maxDifficulty 0 = false) ∧
    ofLeBytes (Bytes32.bytes 3) * Difficulty.maxDifficulty.toNat < 2 ^ 256 ∧
      @checkPoW .exact .exact Difficulty.maxDifficulty 3 = false := by
  decide +kernel

end Uint256

end P2PoolObserver
