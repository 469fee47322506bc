/-
# Monero.Transaction -- the miner transaction and its encodings (`monero/transaction`)

`ExtraTag`, `Output` and `CoinbaseTransaction` with the source's three encoders
(full, pruned, side-chain hashing) and its decoder.

An encoder here returns the bytes it appends.  Only `Outputs.AppendBinary` can
fail, on an unknown output type; its caller drops the error and with it the
buffer written so far, so that encoder alone takes the buffer as an argument.
`ExtraTags.FromReader` shares the `tag` variable between its iterations, so
`ExtraTag.fromReader` takes the previous tag.
-/
import P2PoolObserver.Lib.Reader
import P2PoolObserver.Types

namespace P2PoolObserver

open Lib
open Lib.Reader (readByte readFull readUvarint readMany limited check fail crash)

/-! ## Varint sizes (`utils/number.go`) -/

/-- `UVarInt64Size`: thresholds `VarIntLen1` to `VarIntLen9`, then
`binary.MaxVarintLen64`. -/
def uVarInt64Size (x : Nat) : Nat :=
  if x < 2 ^ 7 then 1
  else if x < 2 ^ 14 then 2
  else if x < 2 ^ 21 then 3
  else if x < 2 ^ 28 then 4
  else if x < 2 ^ 35 then 5
  else if x < 2 ^ 42 then 6
  else if x < 2 ^ 49 then 7
  else if x < 2 ^ 56 then 8
  else if x < 2 ^ 63 then 9
  else 10

theorem uvarint_length_of_lt {x : Nat} (small : x < 128) : (uvarint x).length = 1 := by
  rw [uvarint_of_lt small]
  rfl

theorem uvarint_length_of_ge {x : Nat} (large : 128 ≤ x) :
    (uvarint x).length = (uvarint (x / 128)).length + 1 := by
  rw [uvarint_of_ge large]
  rfl

theorem uvarint_length {x : Nat} (fits : x < 2 ^ 64) : (uvarint x).length = uVarInt64Size x := by
  unfold uVarInt64Size
  split_ifs <;>
    repeat (first
      | rw [uvarint_length_of_lt (by omega)]
      | rw [uvarint_length_of_ge (by omega)])

theorem uVarInt64Size_le (x : Nat) : uVarInt64Size x ≤ 10 := by
  unfold uVarInt64Size
  split_ifs <;> omega

/-- A `uint64` count used as the bound of an `int` loop: from `2 ^ 63` on the
conversion is negative and the loop body never runs. -/
def loopCount (count : UInt64) : Nat := if count.toNat < 2 ^ 63 then count.toNat else 0

/-! ## Extra tags (`extra.go`) -/

def txExtraTagPadding : UInt8 := 0x00
def txExtraTagPubKey : UInt8 := 0x01
def txExtraTagNonce : UInt8 := 0x02
def txExtraTagMergeMining : UInt8 := 0x03
def txExtraTagAdditionalPubKeys : UInt8 := 0x04
def txExtraTagMysteriousMinergate : UInt8 := 0xde

def txExtraPaddingMaxCount : Nat := 255
def txExtraNonceMaxCount : UInt64 := 255
def txExtraAdditionalPubKeysMaxCount : UInt64 := 4096
def txExtraTemplateNonceSize : Nat := 4

structure ExtraTag where
  varInt : UInt64
  tag : UInt8
  hasVarInt : Bool
  data : Bytes
  deriving DecidableEq, Inhabited

abbrev ExtraTags := List ExtraTag

namespace ExtraTag

def bufferLength (t : ExtraTag) : Nat :=
  if t.hasVarInt then 1 + uVarInt64Size t.varInt.toNat + t.data.length else 1 + t.data.length

/-- The tag byte and, where the kind has one, the varint. -/
def header (t : ExtraTag) : Bytes :=
  t.tag :: (if t.hasVarInt then uvarint t.varInt.toNat else [])

def appendBinary (t : ExtraTag) : Bytes := t.header ++ t.data

def hashingData (t : ExtraTag) (zeroTemplateId : Bool) : Bytes :=
  if zeroTemplateId && t.tag == txExtraTagMergeMining then List.replicate t.data.length 0
  else if t.tag == txExtraTagNonce then
    List.replicate (min txExtraTemplateNonceSize t.data.length) 0 ++
      t.data.drop txExtraTemplateNonceSize
  else t.data

def sideChainHashingBlob (t : ExtraTag) (zeroTemplateId : Bool) : Bytes :=
  t.header ++ t.hashingData zeroTemplateId

@[simp] theorem hashingData_length (t : ExtraTag) (zeroTemplateId : Bool) :
    (t.hashingData zeroTemplateId).length = t.data.length := by
  unfold hashingData
  split_ifs <;> simp
  omega

/-- Zeros up to the end of the reader: how many bytes were read when it ended. -/
def readPadding : Nat → Nat → Reader Nat
  | 0, size => Reader.pure size
  | fuel + 1, size => fun
    | [] => .ok (size, [])
    | zero :: rest =>
      if zero ≠ 0 then .error (.invalid "padding is not zero")
      else readPadding fuel (size + 1) rest

variable (rv : Reader UInt64)

/-- A varint, then that many bytes of data, at most `limit` times `unit`. -/
def readCountedWith (t : ExtraTag) (tag : UInt8) (limit : UInt64) (message : String) (unit : Nat) :
    Reader ExtraTag := do
  let varInt ← rv
  check (varInt ≤ limit) message
  let data ← readFull (unit * varInt.toNat)
  return { t with tag := tag, hasVarInt := true, varInt := varInt, data := data }

/-- `ExtraTag.FromReader` on the tag variable `t`, of which a padding or public
key tag keeps `HasVarInt` and `VarInt`. -/
def fromReaderWith (t : ExtraTag) : Reader ExtraTag := do
  let tag ← readByte
  if tag = txExtraTagPadding then
    -- the loop variable after the loop: one more than the zeros read
    let size ← readPadding txExtraPaddingMaxCount 1
    check (size ≤ txExtraPaddingMaxCount) "padding is too big"
    -- `size - 2` is unsigned: with no zero after the tag it wraps
    if size < 2 then crash "makeslice: len out of range"
    else return { t with tag := tag, data := List.replicate (size - 2) 0 }
  else if tag = txExtraTagPubKey then
    let data ← readFull 32
    return { t with tag := tag, data := data }
  else if tag = txExtraTagNonce then
    readCountedWith rv t tag txExtraNonceMaxCount "nonce is too big" 1
  else if tag = txExtraTagMergeMining then
    let varInt ← rv
    let data ← readFull hashSize
    return { t with tag := tag, hasVarInt := true, varInt := varInt, data := data }
  else if tag = txExtraTagAdditionalPubKeys then
    readCountedWith rv t tag txExtraAdditionalPubKeysMaxCount "too many public keys" hashSize
  else if tag = txExtraTagMysteriousMinergate then
    readCountedWith rv t tag txExtraNonceMaxCount "nonce is too big" 1
  else fail ("unknown extra tag " ++ toString tag)

abbrev readCounted := readCountedWith readUvarint

abbrev fromReader (t : ExtraTag) : Reader ExtraTag := t.fromReaderWith readUvarint

end ExtraTag

namespace ExtraTags

def bufferLength (t : ExtraTags) : Nat := (t.map ExtraTag.bufferLength).sum

def appendBinary (t : ExtraTags) : Bytes := concatBytes ExtraTag.appendBinary t

def sideChainHashingBlob (t : ExtraTags) (zeroTemplateId : Bool) : Bytes :=
  concatBytes (ExtraTag.sideChainHashingBlob · zeroTemplateId) t

def getTag (t : ExtraTags) (tag : UInt8) : Option ExtraTag := t.find? (·.tag == tag)

variable (rv : Reader UInt64)

/-- The loop of `ExtraTags.FromReader`.  An `io.EOF` of the tag reader, also one
in the middle of a tag, ends it normally.  Every tag takes at least one byte, so
the input length bounds the iterations. -/
def fromReaderLoopWith : Nat → ExtraTags → ExtraTag → Reader ExtraTags
  | 0, t, _ => Reader.pure t
  | fuel + 1, t, tag => fun input =>
    match tag.fromReaderWith rv input with
    | .error .eof => .ok (t, [])
    | .error e => .error e
    | .ok (tag, rest) =>
      if (getTag t tag.tag).isSome then .error (.invalid "tag already exists")
      else fromReaderLoopWith fuel (t ++ [tag]) tag rest

def fromReaderWith : Reader ExtraTags := fun input =>
  fromReaderLoopWith rv (input.length + 1) [] default input

abbrev fromReader : Reader ExtraTags := fromReaderWith readUvarint

end ExtraTags

/-! ## Outputs (`output.go`) -/

def txInGen : UInt8 := 0xff
def txOutToKey : UInt8 := 2
def txOutToTaggedKey : UInt8 := 3

@[simp] theorem txOutToKey_ne : txOutToKey ≠ txOutToTaggedKey := by decide

structure Output where
  index : UInt64
  reward : UInt64
  ephemeralPublicKey : PublicKeyBytes
  type : UInt8
  viewTag : UInt8
  deriving DecidableEq, Inhabited

abbrev Outputs := List Output

namespace Output

/-- One output as `Outputs.AppendBinary` writes it; `none` for an unknown type. -/
def encode (o : Output) : Option Bytes :=
  if o.type = txOutToTaggedKey then
    some (uvarint o.reward.toNat ++ [o.type] ++ o.ephemeralPublicKey.bytes ++ [o.viewTag])
  else if o.type = txOutToKey then
    some (uvarint o.reward.toNat ++ [o.type] ++ o.ephemeralPublicKey.bytes)
  else none

def bytes (o : Output) : Bytes := o.encode.getD []

theorem encode_of_known {o : Output} (known : o.type = txOutToTaggedKey ∨ o.type = txOutToKey) :
    o.encode = some o.bytes := by
  unfold bytes encode
  rcases known with h | h <;> simp [h]

def fromReaderWith (rv : Reader UInt64) (index : Nat) : Reader Output := do
  let reward ← rv
  let type ← readByte
  if type = txOutToTaggedKey ∨ type = txOutToKey then
    let key ← readFull 32
    if type = txOutToTaggedKey then
      let viewTag ← readByte
      return ⟨UInt64.ofNat index, reward, .ofBytes key, type, viewTag⟩
    else return ⟨UInt64.ofNat index, reward, .ofBytes key, type, 0⟩
  else fail ("unknown " ++ toString type ++ " TXOUT key")

end Output

namespace Outputs

def appendItems : Outputs → Bytes → Except String Bytes
  | [], data => .ok data
  | o :: rest, data =>
    match o.encode with
    | some bytes => appendItems rest (data ++ bytes)
    | none => .error "unknown output type"

def appendBinary (s : Outputs) (buf : Bytes) : Except String Bytes :=
  appendItems s (buf ++ uvarint s.length)

/-- `buf, _ = s.AppendBinary(buf)`: a failed encoding leaves an empty buffer. -/
def appendBinaryDropError (s : Outputs) (buf : Bytes) : Bytes :=
  match s.appendBinary buf with
  | .ok data => data
  | .error _ => []

def Known (s : Outputs) : Prop := ∀ o ∈ s, o.type = txOutToTaggedKey ∨ o.type = txOutToKey

theorem appendItems_of_known : ∀ {s : Outputs}, s.Known → ∀ data,
    appendItems s data = .ok (data ++ concatBytes Output.bytes s)
  | [], _, data => by simp [appendItems, concatBytes]
  | o :: rest, known, data => by
    have encoded := Output.encode_of_known (known o (by simp))
    have tail := appendItems_of_known (s := rest) fun o' mem => known o' (by simp [mem])
    simp [appendItems, encoded, tail, concatBytes]

theorem appendBinaryDropError_of_known {s : Outputs} (known : s.Known) (buf : Bytes) :
    s.appendBinaryDropError buf = buf ++ countedBytes Output.bytes s := by
  simp [appendBinaryDropError, appendBinary, appendItems_of_known known, countedBytes]

variable (rv : Reader UInt64)

def readItemsWith : Nat → Nat → Reader Outputs
  | 0, _ => Reader.pure []
  | n + 1, index => do
    let o ← Output.fromReaderWith rv index
    let rest ← readItemsWith n (index + 1)
    return o :: rest

def fromReaderWith : Reader Outputs := do
  let outputCount ← rv
  readItemsWith rv (loopCount outputCount) 0

abbrev fromReader : Reader Outputs := fromReaderWith readUvarint

end Outputs

/-! ## The miner transaction (`coinbase.go`) -/

def minerRewardUnlockTime : UInt64 := 60

structure CoinbaseTransaction where
  version : UInt8
  inputCount : UInt8
  inputType : UInt8
  unlockTime : UInt64
  genHeight : UInt64
  outputs : Outputs
  outputsBlobSize : UInt64
  totalReward : UInt64
  extra : ExtraTags
  extraBaseRCT : UInt8
  deriving DecidableEq, Inhabited

namespace CoinbaseTransaction

def header (c : CoinbaseTransaction) : Bytes :=
  [c.version] ++ uvarint c.unlockTime.toNat ++ [c.inputCount] ++ [c.inputType] ++
    uvarint c.genHeight.toNat

def appendBinaryFlags (c : CoinbaseTransaction) (buf : Bytes) (pruned : Bool) : Bytes :=
  let buf := buf ++ c.header
  let buf :=
    if pruned then
      buf ++ uvarint 0 ++ uvarint c.totalReward.toNat ++
        uvarint (c.outputs.appendBinaryDropError []).length
    else c.outputs.appendBinaryDropError buf
  buf ++ uvarint c.extra.bufferLength ++ c.extra.appendBinary ++ [c.extraBaseRCT]

def sideChainHashingBlob (c : CoinbaseTransaction) (buf : Bytes) (zeroTemplateId : Bool) : Bytes :=
  c.outputs.appendBinaryDropError (buf ++ c.header) ++ uvarint c.extra.bufferLength ++
    c.extra.sideChainHashingBlob zeroTemplateId ++ [c.extraBaseRCT]

theorem sideChainHashingBlob_of_known {c : CoinbaseTransaction} (known : c.outputs.Known)
    (buf : Bytes) (zeroTemplateId : Bool) :
    c.sideChainHashingBlob buf zeroTemplateId = buf ++ (c.header ++ countedBytes Output.bytes c.outputs ++
      uvarint c.extra.bufferLength ++ c.extra.sideChainHashingBlob zeroTemplateId ++ [c.extraBaseRCT]) := by
  simp [sideChainHashingBlob, Outputs.appendBinaryDropError_of_known known]

/-- The blob size and the total reward of decoded outputs, both wrapping sums. -/
def outputTotals : Outputs → UInt64 → UInt64 → Reader (UInt64 × UInt64)
  | [], size, total => Reader.pure (size, total)
  | o :: rest, size, total =>
    if o.type = txOutToTaggedKey then
      outputTotals rest (size + (1 + 32 + 1)) (total + o.reward)
    else if o.type = txOutToKey then
      outputTotals rest (size + (1 + 32)) (total + o.reward)
    else fail ("unknown " ++ toString o.type ++ " TXOUT key")

variable (rv : Reader UInt64)

def readPrunedWith : Reader (UInt64 × UInt64) := do
  let totalReward ← rv
  let outputsBlobSize ← rv
  return (outputsBlobSize, totalReward)

def fromReaderWith : Reader CoinbaseTransaction := do
  let version ← readByte
  check (version = 2) "version not supported"
  let unlockTime ← rv
  let inputCount ← readByte
  check (inputCount = 1) "invalid input count"
  let inputType ← readByte
  check (inputType = txInGen) "invalid coinbase input type"
  let genHeight ← rv
  check (unlockTime = genHeight + minerRewardUnlockTime) "invalid unlock time"
  let outputs ← Outputs.fromReaderWith rv
  let totals ← if outputs ≠ [] then outputTotals outputs 0 0 else readPrunedWith rv
  let txExtraSize ← rv
  check (txExtraSize ≤ 65536) "tx extra too large"
  let (extra, left) ← limited txExtraSize.toNat (ExtraTags.fromReaderWith rv)
  check (¬ left > 0) "bytes leftover in extra data"
  let extraBaseRCT ← readByte
  check (extraBaseRCT = 0) "invalid extra base RCT"
  return { version, inputCount, inputType, unlockTime, genHeight, outputs,
           outputsBlobSize := totals.1, totalReward := totals.2, extra, extraBaseRCT }

abbrev readPruned := readPrunedWith readUvarint

abbrev fromReader : Reader CoinbaseTransaction := fromReaderWith readUvarint

end CoinbaseTransaction

end P2PoolObserver
