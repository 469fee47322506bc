/-
# Sidechain.PoolBlock -- side-chain blocks and their encodings (`sidedata.go`, `poolblock.go`)

A `PoolBlock` is a main chain block template, the side-chain data that goes with
it and the working state the side chain keeps on the object.  Blocks refer to
each other by template id; the `IterationCache` of a verified block refers to the
objects themselves, so objects have addresses (`Ptr`) and a `View` is the memory
together with the lookup function a caller passes along.

Key derivation and hashing are code outside the repository; `Crypto` is the
interface the program uses.
-/
import P2PoolObserver.Sidechain.Consensus

namespace P2PoolObserver

open Lib
open Lib.Reader (readByte readFull readUvarint readMany check fail crash)

/-! ## Addresses and key derivation -/

@[ext]
structure PackedAddress where
  spend : PublicKeyBytes
  view : PublicKeyBytes
  deriving DecidableEq, Inhabited

/-- Keccak-256 and the elliptic-curve functions behind the derivation cache.  The
cache itself memoises them and shows no other behaviour. -/
class Crypto where
  keccak256 : Bytes → Hash
  deterministicTransactionPrivateKey : Hash → Hash → PrivateKeyBytes
  publicKey : PrivateKeyBytes → PublicKeyBytes
  ephemeralPublicKey : PackedAddress → PrivateKeyBytes → UInt64 → PublicKeyBytes × UInt8

/-! ## Side data -/

@[ext]
structure ExtraBuffer where
  softwareId : UInt32
  softwareVersion : UInt32
  randomNumber : UInt32
  sideChainExtraNonce : UInt32
  deriving DecidableEq, Inhabited

structure SideData where
  publicKey : PackedAddress
  coinbasePrivateKeySeed : Hash
  coinbasePrivateKey : PrivateKeyBytes
  parent : Hash
  uncles : List Hash
  height : UInt64
  difficulty : Difficulty
  cumulativeDifficulty : Difficulty
  extraBuffer : ExtraBuffer
  deriving DecidableEq, Inhabited

namespace ExtraBuffer

def encode (e : ExtraBuffer) : Bytes :=
  leBytes 4 e.softwareId.toNat ++ leBytes 4 e.softwareVersion.toNat ++
    leBytes 4 e.randomNumber.toNat ++ leBytes 4 e.sideChainExtraNonce.toNat

def readUint32 : Reader UInt32 := do
  let word ← readFull 4
  return UInt32.ofNat (ofLeBytes word)

def fromReader : Reader ExtraBuffer := do
  let softwareId ← readUint32
  let softwareVersion ← readUint32
  let randomNumber ← readUint32
  let sideChainExtraNonce ← readUint32
  return ⟨softwareId, softwareVersion, randomNumber, sideChainExtraNonce⟩

end ExtraBuffer

namespace SideData

def encodeDifficulty (d : Difficulty) : Bytes := uvarint d.lo.toNat ++ uvarint d.hi.toNat

/-- `SideData.AppendBinary`: from version 2 on the key seed stands for the key
and the extra buffer follows. -/
def appendBinary (b : SideData) (version : ShareVersion) : Bytes :=
  b.publicKey.spend.bytes ++ b.publicKey.view.bytes ++
    (if version > shareVersionV1 then b.coinbasePrivateKeySeed.bytes
      else b.coinbasePrivateKey.bytes) ++
    b.parent.bytes ++ countedBytes Bytes32.bytes b.uncles ++ uvarint b.height.toNat ++
    encodeDifficulty b.difficulty ++ encodeDifficulty b.cumulativeDifficulty ++
    (if version > shareVersionV1 then b.extraBuffer.encode else [])

def readBytes32 : Reader Bytes32 := do
  let bytes ← readFull 32
  return Bytes32.ofBytes bytes

variable (rv : Reader UInt64)

def readDifficultyWith : Reader Difficulty := do
  let lo ← rv
  let hi ← rv
  return ⟨lo, hi⟩

/-- `SideData.FromReader` into a zero value.  What the version does not carry
stays zero. -/
def fromReaderWith (version : ShareVersion) : Reader SideData := do
  let spend ← readBytes32
  let view ← readBytes32
  let key ← readBytes32
  let parent ← readBytes32
  let uncleCount ← rv
  let uncles ← readMany readBytes32 (loopCount uncleCount)
  let height ← rv
  let difficulty ← readDifficultyWith rv
  let cumulativeDifficulty ← readDifficultyWith rv
  let extraBuffer ← if version > shareVersionV1 then ExtraBuffer.fromReader else Reader.pure default
  return { publicKey := ⟨spend, view⟩,
           coinbasePrivateKeySeed := if version > shareVersionV1 then key else 0,
           coinbasePrivateKey := if version > shareVersionV1 then 0 else key,
           parent, uncles, height, difficulty, cumulativeDifficulty, extraBuffer }

abbrev readDifficulty := readDifficultyWith readUvarint

abbrev fromReader := fromReaderWith readUvarint

end SideData

/-! ## Pool blocks -/

abbrev Ptr := Nat

structure IterationCache where
  parent : Ptr
  uncles : List Ptr
  deriving DecidableEq

structure PoolBlock where
  main : MainBlock
  side : SideData
  depth : UInt64
  verified : Bool
  invalid : Bool
  wantBroadcast : Bool
  broadcasted : Bool
  localTimestamp : UInt64
  cachedShareVersion : ShareVersion
  iterationCache : Option IterationCache
  deriving DecidableEq, Inhabited

def sideExtraNonceSize : Nat := 4
def sideExtraNonceMaxSize : Nat := sideExtraNonceSize + 10

def poolBlockMaxTemplateSize : Nat := 128 * 1024 - (1 + 4)

inductive CoinbaseExtraTag where
  | sideCoinbasePublicKey
  | sideExtraNonce
  | sideTemplateId
  deriving DecidableEq

def CoinbaseExtraTag.code : CoinbaseExtraTag → UInt8
  | .sideCoinbasePublicKey => txExtraTagPubKey
  | .sideExtraNonce => txExtraTagNonce
  | .sideTemplateId => txExtraTagMergeMining

structure FullId where
  templateId : Hash
  nonce : UInt32
  extraNonce : UInt32
  deriving DecidableEq

namespace PoolBlock

def shareVersion (b : PoolBlock) : ShareVersion := b.cachedShareVersion

def calculateShareVersion (b : PoolBlock) (consensus : Consensus) : ShareVersion :=
  consensus.p2poolShareVersion b.main.timestamp

/-- `CoinbaseExtra`: the data of a tag, empty when it is missing or of a wrong length. -/
def coinbaseExtra (b : PoolBlock) (tag : CoinbaseExtraTag) : Bytes :=
  match b.main.coinbase.extra.getTag tag.code with
  | none => []
  | some t =>
    match tag with
    | .sideExtraNonce =>
      if t.data.length < sideExtraNonceSize ∨ t.data.length > sideExtraNonceMaxSize then []
      else t.data
    | .sideTemplateId => if t.data.length ≠ hashSize then [] else t.data
    | .sideCoinbasePublicKey => if t.data.length ≠ 32 then [] else t.data

/-- `FullId`: template id, nonce and extra nonce as the block states them.  The
array starts as zeros, so a missing template id reads as zero; without an extra
nonce the source slices an empty buffer and panics, here `none`. -/
def fullId (b : PoolBlock) : Option FullId :=
  let extraNonce := b.coinbaseExtra .sideExtraNonce
  if extraNonce.length < sideExtraNonceSize then none
  else some ⟨hashFromBytes (b.coinbaseExtra .sideTemplateId), b.main.nonce,
    UInt32.ofNat (ofLeBytes (extraNonce.take sideExtraNonceSize))⟩

def getTransactionOutputType (b : PoolBlock) : UInt8 :=
  if b.main.majorVersion ≥ hardForkViewTagsVersion then txOutToTaggedKey else txOutToKey

def appendBinaryFlags (b : PoolBlock) (pruned compact : Bool) : Except String Bytes :=
  match b.main.appendBinaryFlags pruned compact with
  | .error e => .error e
  | .ok mainBytes =>
    let buf := mainBytes ++ b.side.appendBinary b.shareVersion
    if buf.length > poolBlockMaxTemplateSize then .error "buffer too large" else .ok buf

def marshalBinary (b : PoolBlock) : Except String Bytes := b.appendBinaryFlags false false

def templateIdBlob (consensus : Consensus) (b : PoolBlock) : Bytes :=
  b.main.sideChainHashingBlob true ++ b.side.appendBinary b.shareVersion ++
    Bytes32.bytes consensus.id

def fillTransactionParentIndices (b : PoolBlock) (parent : Option PoolBlock) : PoolBlock :=
  if b.main.transactions.length ≠ b.main.transactionParentIndices.length then
    match parent with
    | none => b
    | some p =>
      if hashFromBytes (p.coinbaseExtra .sideTemplateId) = b.side.parent then
        { b with main := { b.main with transactionParentIndices := b.main.transactions.map fun txHash =>
            match p.main.transactions.idxOf? txHash with
            | some parentIndex => UInt64.ofNat (parentIndex + 1)
            | none => 0 } }
      else b
  else b

section Keys

variable [Crypto]

/-- `CalculateSideTemplateId`.  `SideTemplateId` caches this value; the fields it
reads do not change once a block has been preprocessed. -/
def sideTemplateId (b : PoolBlock) (consensus : Consensus) : Hash :=
  Crypto.keccak256 (templateIdBlob consensus b)

def getPrivateKeySeed (b : PoolBlock) : Hash :=
  if b.shareVersion > shareVersionV1 then b.side.coinbasePrivateKeySeed
  else
    let oldSeed := b.side.publicKey.spend
    if b.main.majorVersion < hardForkViewTagsVersion ∧
        Crypto.deterministicTransactionPrivateKey oldSeed b.main.previousId ≠
          b.side.coinbasePrivateKey then zeroHash
    else oldSeed

def transactionPrivateKeySeedDomain : Bytes :=
  [0x74, 0x78, 0x5f, 0x6b, 0x65, 0x79, 0x5f, 0x73, 0x65, 0x65, 0x64, 0]

def calculateTransactionPrivateKeySeed (b : PoolBlock) : Hash :=
  if b.shareVersion > shareVersionV1 then
    Crypto.keccak256 (transactionPrivateKeySeedDomain ++ b.main.sideChainHashingBlob false ++
      b.side.appendBinary b.shareVersion)
  else b.side.publicKey.spend

def fillPrivateKeys (b : PoolBlock) : PoolBlock :=
  if b.shareVersion > shareVersionV1 then
    if b.side.coinbasePrivateKey = 0 then
      { b with side := { b.side with coinbasePrivateKey :=
          Crypto.deterministicTransactionPrivateKey b.getPrivateKeySeed b.main.previousId } }
    else b
  else { b with side := { b.side with coinbasePrivateKeySeed := b.getPrivateKeySeed } }

/-- `FromReader` and `FromCompactReader`.  The merge-mining check of the source
dereferences the tag exactly when it is missing. -/
def fromReaderFlagsWith (rv : Reader UInt64) (consensus : Consensus) (compact : Bool) : Reader PoolBlock := do
  let main ← MainBlock.fromReaderFlagsWith rv compact
  match consensus.networkMajorVersion main.coinbase.genHeight with
  | none => crash "invalid network type for determining share version"
  | some expectedMajorVersion =>
    check (expectedMajorVersion = main.majorVersion)
      ("expected major version " ++ toString expectedMajorVersion ++ " at height " ++
        toString main.coinbase.genHeight ++ ", got " ++ toString main.majorVersion)
    if (main.coinbase.extra.getTag txExtraTagMergeMining).isNone then
      crash "invalid memory address or nil pointer dereference"
    else
      let version := consensus.p2poolShareVersion main.timestamp
      let side ← SideData.fromReaderWith rv version
      return fillPrivateKeys
        { (default : PoolBlock) with main, side, cachedShareVersion := version }

abbrev fromReaderFlags := fromReaderFlagsWith readUvarint

def fromReader (consensus : Consensus) : Reader PoolBlock := fromReaderFlags consensus false

def fromCompactReader (consensus : Consensus) : Reader PoolBlock := fromReaderFlags consensus true

def unmarshalBinary (consensus : Consensus) (data : Bytes) : Except ReadError (PoolBlock × Bytes) :=
  if data.length > poolBlockMaxTemplateSize then .error (.invalid "buffer too large")
  else fromReader consensus data

end Keys

end PoolBlock

/-! ## Following references -/

structure View where
  block : Ptr → PoolBlock
  getByTemplateId : Hash → Option Ptr

namespace View

def iteratorGetParent (V : View) (p : Ptr) : Option Ptr :=
  match (V.block p).iterationCache with
  | none => V.getByTemplateId (V.block p).side.parent
  | some cache => some cache.parent

/-- What `iteratorUncles` does: the uncles its callback sees, in order, and the
id it stops at when one cannot be found. -/
structure UncleVisit where
  visited : List Ptr
  missing : Option Hash
  deriving DecidableEq

def visitUncles (getByTemplateId : Hash → Option Ptr) : List Hash → UncleVisit
  | [] => ⟨[], none⟩
  | id :: ids =>
    match getByTemplateId id with
    | none => ⟨[], some id⟩
    | some uncle =>
      let rest := visitUncles getByTemplateId ids
      ⟨uncle :: rest.visited, rest.missing⟩

def iteratorUncles (V : View) (p : Ptr) : UncleVisit :=
  if (V.block p).side.uncles = [] then ⟨[], none⟩
  else match (V.block p).iterationCache with
    | none => visitUncles V.getByTemplateId (V.block p).side.uncles
    | some cache => ⟨cache.uncles, none⟩

end View

end P2PoolObserver
