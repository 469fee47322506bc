/-
# Sidechain.Pow -- ids and proof of work of a main chain block

The id of a Monero block hashes its header, the root of the transaction tree and
the number of transactions (`monero/crypto/merkle.go`, `monero/block/block.go`).
The same bytes go through RandomX for the proof of work, which is then measured
against a difficulty (`types/difficulty.go`, `poolblock.go`).

RandomX is code outside the repository; `PowSource` is what the side chain asks
for a hash.  The source caches a hash on the block once it is not zero.
-/
import P2PoolObserver.Lib.Slice
import P2PoolObserver.Sidechain.PoolBlock

namespace P2PoolObserver

open Lib

/-! ## The transaction tree -/

def leadingZeros64 (x : UInt64) : Nat := if x = 0 then 64 else 63 - Nat.log2 x.toNat

/-- `PreviousPowerOfTwo`; its result is an `int`, which holds it below `2 ^ 63`. -/
def previousPowerOfTwo (x : UInt64) : Nat :=
  if x = 0 then 0 else 1 <<< (64 - leadingZeros64 x - 1)

namespace BinaryTreeHash

variable {α : Type} (H : α → α → α)

def leafHash : List α → Except Fault α
  | [] => .error (.panic "unsupported length")
  | [a] => .ok a
  | a :: b :: _ => .ok (H a b)

def offsetLoop (t : List α) (offset : Nat) : Nat → Nat → List α → Except Fault (List α)
  | 0, _, temporaryTree => .ok temporaryTree
  | count + 1, i, temporaryTree => do
    let node ← leafHash H (← sliceFrom t (offset + i * 2))
    offsetLoop t offset count (i + 1) (← store temporaryTree (offset + i) node)

def levelLoop : Nat → Nat → List α → Except Fault (List α)
  | 0, _, temporaryTree => .ok temporaryTree
  | count + 1, i, temporaryTree => do
    let node ← leafHash H (← sliceFrom temporaryTree (i * 2))
    levelLoop count (i + 1) (← store temporaryTree i node)

def levels : Nat → Nat → List α → Except Fault (List α)
  | 0, _, _ => .error .outOfFuel
  | fuel + 1, pow2cnt, temporaryTree =>
    let pow2cnt := pow2cnt >>> 1
    if pow2cnt > 1 then do
      levels fuel pow2cnt (← levelLoop H pow2cnt 0 temporaryTree)
    else .ok temporaryTree

def scratch [Inhabited α] (t : List α) (pow2cnt offset : Nat) : List α :=
  copySlice (List.replicate pow2cnt default) (t.take offset)

/-- `RootHash`.  An `int` is halved at most 64 times. -/
def rootHash [Inhabited α] (t : List α) : Except Fault α := do
  let count := t.length
  if count ≤ 2 then leafHash H t
  else
    let pow2cnt := previousPowerOfTwo (UInt64.ofNat count)
    let offset := pow2cnt * 2 - count
    let temporaryTree ← offsetLoop H t offset (pow2cnt - offset) 0 (scratch t pow2cnt offset)
    leafHash H (← levels H 64 pow2cnt temporaryTree)

end BinaryTreeHash

section Tree

variable [Crypto]

def hashTwo (a b : Hash) : Hash := Crypto.keccak256 (Bytes32.bytes a ++ Bytes32.bytes b)

/-- The source panics on an empty tree; the tree of a block has the coinbase
transaction in it. -/
def rootHash (t : List Hash) : Hash := (BinaryTreeHash.rootHash hashTwo t).toOption.getD zeroHash

/-! ## Ids -/

def CoinbaseTransaction.calculateId (c : CoinbaseTransaction) : Hash :=
  let txBytes := c.appendBinaryFlags [] false
  Crypto.keccak256 (Bytes32.bytes (Crypto.keccak256 txBytes.dropLast) ++
    Bytes32.bytes (Crypto.keccak256 [c.extraBaseRCT]) ++ Bytes32.bytes zeroHash)

def MainBlock.hashingBlob (b : MainBlock) : Bytes :=
  b.headerBlob b.nonce ++ Bytes32.bytes (rootHash (b.coinbase.calculateId :: b.transactions)) ++
    uvarint (b.transactions.length + 1)

def MainBlock.id (b : MainBlock) : Hash :=
  Crypto.keccak256 (uvarint b.hashingBlob.length ++ b.hashingBlob)

def PoolBlock.mainId (b : PoolBlock) : Hash := b.main.id

end Tree

/-! ## Proof of work -/

def difficultyFromPoW (powHash : Hash) : Difficulty :=
  if powHash = zeroHash then Difficulty.zeroDifficulty
  else Difficulty.ofNat ((2 ^ 256 - 1) / powHash.toNat)

def Difficulty.checkPoW (d : Difficulty) (pow : Hash) : Bool := (difficultyFromPoW pow).cmp d != .lt

/-- Where seeds and proof-of-work hashes come from: the ids of Monero headers by
height, and `randomx.Hasher`. -/
structure PowSource where
  getMinimalBlockHeaderByHeight : UInt64 → Option Hash
  hash : Hash → Bytes → Hash × Option String

def PowSource.getSeedByHeight (source : PowSource) (height : UInt64) : Hash :=
  (source.getMinimalBlockHeaderByHeight (seedHeight height)).getD zeroHash

section Proof

variable [Crypto] (source : PowSource)

def MainBlock.powHashWithError (b : MainBlock) : Hash × Option String :=
  let seed := source.getSeedByHeight b.coinbase.genHeight
  if seed = zeroHash then (zeroHash, some "could not get seed")
  else source.hash seed b.hashingBlob

namespace PoolBlock

/-- `PowHashWithError`: an error counts only beside a zero hash. -/
def powHashWithError (b : PoolBlock) : Except String Hash :=
  match b.main.powHashWithError source with
  | (powHash, none) => .ok powHash
  | (powHash, some err) => if powHash = zeroHash then .error err else .ok powHash

def isProofHigherThanMainDifficultyWithError (b : PoolBlock)
    (getDifficultyByHeight : UInt64 → Difficulty) : Except String Bool :=
  let mainDifficulty := getDifficultyByHeight b.main.coinbase.genHeight
  if mainDifficulty = Difficulty.zeroDifficulty then .error "could not get main difficulty"
  else do
    let powHash ← b.powHashWithError source
    .ok (mainDifficulty.checkPoW powHash)

def isProofHigherThanDifficultyWithError (b : PoolBlock) : Except String Bool := do
  let powHash ← b.powHashWithError source
  .ok (b.side.difficulty.checkPoW powHash)

end PoolBlock

end Proof

end P2PoolObserver
