/-
# Monero.Block -- main chain blocks and their encodings (`monero/block/block.go`)

`MainBlock` with the full, pruned and compact encodings, the blob hashed into a
side-chain template id, and the decoder of both wire forms.
-/
import P2PoolObserver.Monero.Transaction

namespace P2PoolObserver

open Lib
open Lib.Reader (readByte readFull readUvarint readMany)

/-! ## Constants (`monero/constants.go`) -/

def moneroBlockTime : UInt64 := 120
def hardForkViewTagsVersion : UInt8 := 15
def hardForkSupportedVersion : UInt8 := 16
def tailEmissionReward : UInt64 := 600000000000

structure MainBlock where
  majorVersion : UInt8
  minorVersion : UInt8
  nonce : UInt32
  timestamp : UInt64
  previousId : Hash
  coinbase : CoinbaseTransaction
  transactions : List Hash
  transactionParentIndices : List UInt64
  deriving DecidableEq, Inhabited

namespace MainBlock

def compactTransaction (parentIndex : UInt64) (txId : Hash) : Bytes :=
  if parentIndex ≠ 0 then uvarint parentIndex.toNat else uvarint 0 ++ Bytes32.bytes txId

/-- The compact transaction loop.  Past the end of `TransactionParentIndices` a
transaction has no parent index. -/
def compactTransactions : List Hash → List UInt64 → Bytes
  | [], _ => []
  | txId :: txs, [] => compactTransaction 0 txId ++ compactTransactions txs []
  | txId :: txs, index :: indices =>
    compactTransaction index txId ++ compactTransactions txs indices

def headerBlob (b : MainBlock) (nonce : UInt32) : Bytes :=
  [b.majorVersion] ++ [b.minorVersion] ++ uvarint b.timestamp.toNat ++ b.previousId.bytes ++
    leBytes 4 nonce.toNat

def appendBinaryFlagsTo (buf : Bytes) (b : MainBlock) (pruned compact : Bool) : Except String Bytes :=
  if b.majorVersion > hardForkSupportedVersion then
    .error ("unsupported version " ++ toString b.majorVersion)
  else if b.minorVersion < b.majorVersion then
    .error ("minor version " ++ toString b.minorVersion ++ " smaller than major " ++
      toString b.majorVersion)
  else
    .ok (b.coinbase.appendBinaryFlags (buf ++ b.headerBlob b.nonce) pruned ++
      uvarint b.transactions.length ++
      (if compact then compactTransactions b.transactions b.transactionParentIndices
        else concatBytes Bytes32.bytes b.transactions))

/-- Into an empty buffer. -/
def appendBinaryFlags (b : MainBlock) (pruned compact : Bool) : Except String Bytes :=
  b.appendBinaryFlagsTo [] pruned compact

def sideChainHashingBlob (b : MainBlock) (zeroTemplateId : Bool) : Bytes :=
  b.coinbase.sideChainHashingBlob (b.headerBlob 0) zeroTemplateId ++
    uvarint b.transactions.length ++ concatBytes Bytes32.bytes b.transactions

theorem sideChainHashingBlob_of_known {b : MainBlock} (known : b.coinbase.outputs.Known)
    (zeroTemplateId : Bool) : b.sideChainHashingBlob zeroTemplateId = b.headerBlob 0 ++ (b.coinbase.header ++
      countedBytes Output.bytes b.coinbase.outputs ++ uvarint b.coinbase.extra.bufferLength ++
      b.coinbase.extra.sideChainHashingBlob zeroTemplateId ++ [b.coinbase.extraBaseRCT]) ++
      countedBytes Bytes32.bytes b.transactions := by
  simp [sideChainHashingBlob, CoinbaseTransaction.sideChainHashingBlob_of_known known, countedBytes]

def readCompactTransaction (rv : Reader UInt64) : Reader (Hash × UInt64) := do
  let parentIndex ← rv
  if parentIndex = 0 then
    let txId ← readFull 32
    return (Bytes32.ofBytes txId, parentIndex)
  else return (zeroHash, parentIndex)

def readTransaction : Reader Hash := do
  let txId ← readFull 32
  return Bytes32.ofBytes txId

def fromReaderFlagsWith (rv : Reader UInt64) (compact : Bool) : Reader MainBlock := do
  let majorVersion ← readByte
  let minorVersion ← readByte
  let timestamp ← rv
  let previousId ← readFull 32
  let nonce ← readFull 4
  let coinbase ← CoinbaseTransaction.fromReaderWith rv
  let txCount ← rv
  if compact then
    let txs ← readMany (readCompactTransaction rv) (loopCount txCount)
    return { majorVersion, minorVersion, nonce := UInt32.ofNat (ofLeBytes nonce), timestamp,
             previousId := .ofBytes previousId, coinbase, transactions := txs.map Prod.fst,
             transactionParentIndices := txs.map Prod.snd }
  else
    let txs ← readMany readTransaction (loopCount txCount)
    return { majorVersion, minorVersion, nonce := UInt32.ofNat (ofLeBytes nonce), timestamp,
             previousId := .ofBytes previousId, coinbase, transactions := txs,
             transactionParentIndices := [] }

abbrev fromReaderFlags := fromReaderFlagsWith readUvarint

end MainBlock

/-! ## Seed heights (`monero/randomx/randomx.go`) -/

def seedHashEpochLag : UInt64 := 64
def seedHashEpochBlocks : UInt64 := 2048

def seedHeight (height : UInt64) : UInt64 :=
  if height ≤ seedHashEpochBlocks + seedHashEpochLag then 0
  else (height - seedHashEpochLag - 1) &&& ~~~(seedHashEpochBlocks - 1)

end P2PoolObserver
