/-
# P2p.Broadcast -- building the broadcast messages (`Server.Broadcast`)

`AppendBinaryFlags` appends to a buffer and then checks the length of the whole buffer
against `PoolBlockMaxTemplateSize`.  `AddPoolBlock` calls it with an empty buffer,
`Broadcast` with one that holds the four bytes of the length prefix (`appendBinaryFlagsTo_eq`),
and it ignores the error of the pruned and of the compact form, whose result is then a nil slice.
-/
import P2PoolObserver.P2p.Messages
import P2PoolObserver.Sidechain.RoundTrip
import P2PoolObserver.Lib.Loop

namespace P2PoolObserver

open Lib

/-! ## Appending to a buffer -/

namespace PoolBlock

def appendBinaryFlagsTo (buf : Bytes) (b : PoolBlock) (pruned compact : Bool) : Except String Bytes :=
  match b.main.appendBinaryFlagsTo buf pruned compact with
  | .error e => .error e
  | .ok mainBytes =>
    let buf := mainBytes ++ b.side.appendBinary b.shareVersion
    if buf.length > poolBlockMaxTemplateSize then .error "buffer too large" else .ok buf

theorem appendBinaryFlagsTo_nil (b : PoolBlock) (pruned compact : Bool) :
    b.appendBinaryFlagsTo [] pruned compact = b.appendBinaryFlags pruned compact := rfl

end PoolBlock

def PoolBlock.encodingFlags (b : PoolBlock) (pruned compact : Bool) : Bytes :=
  b.main.coinbase.appendBinaryFlags (b.main.headerBlob b.main.nonce) pruned ++
    uvarint b.main.transactions.length ++
    (if compact then MainBlock.compactTransactions b.main.transactions b.main.transactionParentIndices
      else concatBytes Bytes32.bytes b.main.transactions) ++
    b.side.appendBinary b.shareVersion

namespace Outputs

instance (s : Outputs) : Decidable s.Known :=
  inferInstanceAs (Decidable (∀ o ∈ s, o.type = txOutToTaggedKey ∨ o.type = txOutToKey))

theorem appendItems_of_unknown : ∀ {s : Outputs}, ¬ s.Known → ∀ data,
    appendItems s data = .error "unknown output type"
  | [], unknown, _ => absurd (fun _ mem => nomatch mem) unknown
  | o :: rest, unknown, data => by
    rw [appendItems]
    by_cases known : o.type = txOutToTaggedKey ∨ o.type = txOutToKey
    · rw [Output.encode_of_known known]
      refine appendItems_of_unknown (fun others => unknown fun o' mem => ?_) _
      rcases List.mem_cons.mp mem with rfl | later
      · exact known
      · exact others o' later
    · rw [not_or] at known
      rw [Output.encode, if_neg known.1, if_neg known.2]

theorem appendBinaryDropError_append (s : Outputs) (buf data : Bytes) :
    s.appendBinaryDropError (buf ++ data) =
      if s.Known then buf ++ s.appendBinaryDropError data else s.appendBinaryDropError data := by
  split_ifs with known
  · rw [appendBinaryDropError_of_known known, appendBinaryDropError_of_known known, List.append_assoc]
  · simp only [appendBinaryDropError, appendBinary, appendItems_of_unknown known]

end Outputs

theorem CoinbaseTransaction.appendBinaryFlags_append (c : CoinbaseTransaction) (buf data : Bytes) (pruned : Bool) :
    c.appendBinaryFlags (buf ++ data) pruned =
      if pruned ∨ c.outputs.Known then buf ++ c.appendBinaryFlags data pruned
      else c.appendBinaryFlags data pruned := by
  cases pruned with
  | true => simp [appendBinaryFlags]
  | false =>
    simp only [appendBinaryFlags, List.append_assoc buf, Outputs.appendBinaryDropError_append]
    by_cases known : c.outputs.Known
    · simp [known]
    · simp [known]

namespace PoolBlock

def Supported (b : PoolBlock) : Prop :=
  ¬ b.main.majorVersion > hardForkSupportedVersion ∧ ¬ b.main.minorVersion < b.main.majorVersion
  deriving Decidable

theorem appendBinaryFlagsTo_eq {b : PoolBlock} (supported : b.Supported) (buf : Bytes) (pruned compact : Bool) :
    b.appendBinaryFlagsTo buf pruned compact =
      let data := if pruned ∨ b.main.coinbase.outputs.Known then buf ++ b.encodingFlags pruned compact
        else b.encodingFlags pruned compact
      if data.length > poolBlockMaxTemplateSize then .error "buffer too large" else .ok data := by
  simp only [appendBinaryFlagsTo, MainBlock.appendBinaryFlagsTo, if_neg supported.1, if_neg supported.2,
    CoinbaseTransaction.appendBinaryFlags_append, encodingFlags]
  by_cases front : pruned ∨ b.main.coinbase.outputs.Known
  · simp only [front, if_true, List.append_assoc]
  · simp only [front, if_false]

theorem appendBinaryFlags_of_supported {b : PoolBlock} (supported : b.Supported) (pruned compact : Bool) :
    b.appendBinaryFlags pruned compact =
      if (b.encodingFlags pruned compact).length > poolBlockMaxTemplateSize then .error "buffer too large"
      else .ok (b.encodingFlags pruned compact) := by
  rw [← appendBinaryFlagsTo_nil, appendBinaryFlagsTo_eq supported]
  simp only [List.nil_append, ite_self]

theorem supported_of_ok {b : PoolBlock} {pruned compact : Bool} {data : Bytes}
    (ok : b.appendBinaryFlags pruned compact = .ok data) : b.Supported := by
  refine ⟨fun major => ?_, fun minor => ?_⟩
  · simp only [appendBinaryFlags, MainBlock.appendBinaryFlags, MainBlock.appendBinaryFlagsTo, if_pos major] at ok
    cases ok
  · simp only [appendBinaryFlags, MainBlock.appendBinaryFlags, MainBlock.appendBinaryFlagsTo, if_pos minor] at ok
    split_ifs at ok

theorem four_le_encodingFlags (b : PoolBlock) (pruned compact : Bool) :
    4 ≤ (b.encodingFlags pruned compact).length := by
  have key : 32 ≤ (b.side.appendBinary b.shareVersion).length := by
    simp only [SideData.appendBinary, List.length_append, Bytes32.bytes_length]
    omega
  simp only [encodingFlags, List.length_append]
  omega

end PoolBlock

/-! ## The messages -/

/-- How `Broadcast` panics: `Panicf` on an encoding error, or an index out of range. -/
inductive BroadcastPanic where
  | tried (block : PoolBlock) (error : String)
  | indexOutOfRange
  deriving DecidableEq

/-- `binary.LittleEndian.PutUint32(data, uint32(len(data)-4))`. -/
def putLengthPrefix (data : Bytes) : Except BroadcastPanic Bytes :=
  if data.length < 4 then .error .indexOutOfRange
  else .ok (leBytes 4 ((data.length - 4) % 2 ^ 32) ++ data.drop 4)

def ignoreError : Except String Bytes → Bytes
  | .ok data => data
  | .error _ => []

structure BroadcastMessages where
  message : ClientMessage
  prunedMessage : ClientMessage
  compactMessage : ClientMessage
  deriving DecidableEq

/-- The four bytes `Broadcast` reserves for the length. -/
def lengthRoom : Bytes := [0, 0, 0, 0]

/-- The messages for one block, before what the own version supports is considered. -/
def encodeBroadcast (block : PoolBlock) : Except BroadcastPanic BroadcastMessages :=
  match block.appendBinaryFlagsTo lengthRoom false false with
  | .error e => .error (.tried block e)
  | .ok blockData => do
    let blockData ← putLengthPrefix blockData
    let prunedBlockData ← putLengthPrefix (ignoreError (block.appendBinaryFlagsTo lengthRoom true false))
    let compactBlockData ← putLengthPrefix (ignoreError (block.appendBinaryFlagsTo lengthRoom true true))
    let prunedMessage := ⟨.blockBroadcast, prunedBlockData⟩
    -- a compact form that is not shorter is not sent
    let compactMessage :=
      if compactBlockData.length ≥ prunedBlockData.length then prunedMessage
      else ⟨.blockBroadcastCompact, compactBlockData⟩
    return ⟨⟨.blockBroadcast, blockData⟩, prunedMessage, compactMessage⟩

def broadcast (supportsPruned supportsCompact : Bool) : Option PoolBlock →
    Except BroadcastPanic BroadcastMessages
  | none =>
    let message := ⟨.blockBroadcast, leBytes 4 0⟩
    .ok ⟨message, message, message⟩
  | some block => do
    let built ← encodeBroadcast block
    let prunedMessage := if supportsPruned then built.prunedMessage else built.message
    let compactMessage := if supportsCompact then built.compactMessage else prunedMessage
    return ⟨built.message, prunedMessage, compactMessage⟩

/-! ## What is built -/

/-- The first four bytes are the length of what follows. -/
def ClientMessage.LengthPrefixed (m : ClientMessage) : Prop :=
  4 ≤ m.buffer.length ∧ ofLeBytes (m.buffer.take 4) = m.buffer.length - 4

theorem putLengthPrefix_of_fits {data : Bytes} (room : 4 ≤ data.length)
    (fits : data.length ≤ poolBlockMaxTemplateSize) :
    ∃ buffer, putLengthPrefix data = .ok buffer ∧ buffer.length = data.length ∧
      ∀ id, ClientMessage.LengthPrefixed ⟨id, buffer⟩ := by
  have small : data.length - 4 < 2 ^ 32 := by
    simp only [poolBlockMaxTemplateSize] at fits
    omega
  have length : (leBytes 4 ((data.length - 4) % 2 ^ 32) ++ data.drop 4).length = data.length := by
    rw [List.length_append, leBytes_length, List.length_drop]
    omega
  refine ⟨_, by rw [putLengthPrefix, if_neg (Nat.not_lt.mpr room)], length, fun id => ⟨?_, ?_⟩⟩
  · rwa [length]
  · dsimp only
    rw [length, List.take_append_of_le_length (by simp), List.take_of_length_le (by simp),
      Nat.mod_eq_of_lt small, ofLeBytes_leBytes_of_lt small]

namespace PoolBlock

/-- With the length prefix in front, each of the three forms is within the limit.  Outputs of
unknown type drop the prefix of the full form. -/
structure FitsWithPrefix (b : PoolBlock) : Prop where
  full : b.main.coinbase.outputs.Known →
    (b.encodingFlags false false).length + 4 ≤ poolBlockMaxTemplateSize
  pruned : (b.encodingFlags true false).length + 4 ≤ poolBlockMaxTemplateSize
  compact : (b.encodingFlags true true).length + 4 ≤ poolBlockMaxTemplateSize

variable {b : PoolBlock}

def prefixed (b : PoolBlock) (pruned compact : Bool) : Bytes :=
  if pruned ∨ b.main.coinbase.outputs.Known then lengthRoom ++ b.encodingFlags pruned compact
  else b.encodingFlags pruned compact

theorem length_prefixed_pruned (b : PoolBlock) (compact : Bool) :
    (b.prefixed true compact).length = (b.encodingFlags true compact).length + 4 := by
  simp [prefixed, lengthRoom]

theorem four_le_prefixed (b : PoolBlock) (pruned compact : Bool) : 4 ≤ (b.prefixed pruned compact).length := by
  have room := b.four_le_encodingFlags pruned compact
  unfold prefixed
  split_ifs
  · rw [List.length_append]
    omega
  · exact room

theorem appendTo_lengthRoom (supported : b.Supported) (pruned compact : Bool) :
    b.appendBinaryFlagsTo lengthRoom pruned compact =
      if (b.prefixed pruned compact).length > poolBlockMaxTemplateSize then .error "buffer too large"
      else .ok (b.prefixed pruned compact) :=
  appendBinaryFlagsTo_eq supported lengthRoom pruned compact

theorem fitsWithPrefix_iff (accepted : ∃ data, b.appendBinaryFlags false false = .ok data) :
    b.FitsWithPrefix ↔ (b.prefixed false false).length ≤ poolBlockMaxTemplateSize ∧
      (b.prefixed true false).length ≤ poolBlockMaxTemplateSize ∧
      (b.prefixed true true).length ≤ poolBlockMaxTemplateSize := by
  obtain ⟨data, ok⟩ := accepted
  have within : (b.encodingFlags false false).length ≤ poolBlockMaxTemplateSize := by
    rw [appendBinaryFlags_of_supported (supported_of_ok ok)] at ok
    split_ifs at ok with large
    omega
  have full : (b.main.coinbase.outputs.Known →
        (b.encodingFlags false false).length + 4 ≤ poolBlockMaxTemplateSize) ↔
      (b.prefixed false false).length ≤ poolBlockMaxTemplateSize := by
    by_cases known : b.main.coinbase.outputs.Known
    · have length : (b.prefixed false false).length = (b.encodingFlags false false).length + 4 := by
        simp [prefixed, known, lengthRoom]
      rw [length]
      exact ⟨fun fits => fits known, fun fits _ => fits⟩
    · simpa [prefixed, known] using within
  rw [← full, length_prefixed_pruned, length_prefixed_pruned]
  exact ⟨fun fits => ⟨fits.full, fits.pruned, fits.compact⟩, fun ⟨full, pruned, compact⟩ =>
    ⟨full, pruned, compact⟩⟩

theorem putLengthPrefix_ignoreError (supported : b.Supported) (pruned compact : Bool) :
    putLengthPrefix (ignoreError (b.appendBinaryFlagsTo lengthRoom pruned compact)) =
      if (b.prefixed pruned compact).length > poolBlockMaxTemplateSize then .error .indexOutOfRange
      else putLengthPrefix (b.prefixed pruned compact) := by
  rw [appendTo_lengthRoom supported]
  split_ifs <;> rfl

theorem encodeBroadcast_of_fits (supported : b.Supported)
    (full : (b.prefixed false false).length ≤ poolBlockMaxTemplateSize)
    (pruned : (b.prefixed true false).length ≤ poolBlockMaxTemplateSize)
    (compact : (b.prefixed true true).length ≤ poolBlockMaxTemplateSize) :
    ∃ built, encodeBroadcast b = .ok built ∧ built.message.LengthPrefixed ∧
      built.prunedMessage.LengthPrefixed ∧ built.compactMessage.LengthPrefixed ∧
      built.message.buffer.length = (b.prefixed false false).length := by
  obtain ⟨fullBuffer, putFull, lengthFull, prefixFull⟩ :=
    putLengthPrefix_of_fits (b.four_le_prefixed false false) full
  obtain ⟨prunedBuffer, putPruned, -, prefixPruned⟩ :=
    putLengthPrefix_of_fits (b.four_le_prefixed true false) pruned
  obtain ⟨compactBuffer, putCompact, -, prefixCompact⟩ :=
    putLengthPrefix_of_fits (b.four_le_prefixed true true) compact
  refine ⟨⟨⟨.blockBroadcast, fullBuffer⟩, ⟨.blockBroadcast, prunedBuffer⟩,
    if compactBuffer.length ≥ prunedBuffer.length then ⟨.blockBroadcast, prunedBuffer⟩
    else ⟨.blockBroadcastCompact, compactBuffer⟩⟩, ?_, prefixFull _, prefixPruned _, ?_, lengthFull⟩
  · rw [encodeBroadcast, putLengthPrefix_ignoreError supported, putLengthPrefix_ignoreError supported,
      appendTo_lengthRoom supported, if_neg (Nat.not_lt.mpr full), if_neg (Nat.not_lt.mpr pruned),
      if_neg (Nat.not_lt.mpr compact), putPruned, putCompact]
    dsimp only
    rw [putFull]
    rfl
  · dsimp only
    split_ifs
    · exact prefixPruned _
    · exact prefixCompact _

theorem fits_of_encodeBroadcast (supported : b.Supported) {built : BroadcastMessages}
    (ok : encodeBroadcast b = .ok built) : (b.prefixed false false).length ≤ poolBlockMaxTemplateSize ∧
      (b.prefixed true false).length ≤ poolBlockMaxTemplateSize ∧
      (b.prefixed true true).length ≤ poolBlockMaxTemplateSize := by
  rw [encodeBroadcast, putLengthPrefix_ignoreError supported, putLengthPrefix_ignoreError supported,
    appendTo_lengthRoom supported] at ok
  by_cases full : (b.prefixed false false).length > poolBlockMaxTemplateSize
  · rw [if_pos full] at ok
    cases ok
  · rw [if_neg full] at ok
    obtain ⟨fullBuffer, -, ok⟩ := except_bind_eq_ok.mp ok
    obtain ⟨prunedBuffer, pruned, ok⟩ := except_bind_eq_ok.mp ok
    obtain ⟨compactBuffer, compact, -⟩ := except_bind_eq_ok.mp ok
    refine ⟨Nat.not_lt.mp full, ?_, ?_⟩
    · by_contra large
      rw [if_pos (Nat.not_le.mp large)] at pruned
      cases pruned
    · by_contra large
      rw [if_pos (Nat.not_le.mp large)] at compact
      cases compact

end PoolBlock

/-- The messages for an accepted block are built, prefixed and sendable exactly if all three
forms leave room for the prefix. -/
theorem broadcast_ok_iff (supportsPruned supportsCompact : Bool) (b : PoolBlock)
    (accepted : ∃ data, b.appendBinaryFlags false false = .ok data) :
    (∃ built, broadcast supportsPruned supportsCompact (some b) = .ok built ∧
      built.message.LengthPrefixed ∧ built.prunedMessage.LengthPrefixed ∧
      built.compactMessage.LengthPrefixed ∧ (sendMessage built.message).isSome = true) ↔
    b.FitsWithPrefix := by
  obtain ⟨data, ok⟩ := accepted
  have supported := PoolBlock.supported_of_ok ok
  rw [PoolBlock.fitsWithPrefix_iff ⟨data, ok⟩]
  constructor
  · rintro ⟨selected, sent, -⟩
    obtain ⟨built, encoded, -⟩ := except_bind_eq_ok.mp sent
    exact PoolBlock.fits_of_encodeBroadcast supported encoded
  · rintro ⟨full, pruned, compact⟩
    obtain ⟨built, encoded, message, prunedMessage, compactMessage, length⟩ :=
      PoolBlock.encodeBroadcast_of_fits supported full pruned compact
    have small : ¬ built.message.buffer.length + 1 > maxBufferSize := by
      rw [length]
      simp only [poolBlockMaxTemplateSize, maxBufferSize] at full ⊢
      omega
    have prunedChoice : (if supportsPruned then built.prunedMessage else built.message).LengthPrefixed := by
      split_ifs <;> assumption
    refine ⟨⟨built.message, if supportsPruned then built.prunedMessage else built.message,
      if supportsCompact then built.compactMessage
      else if supportsPruned then built.prunedMessage else built.message⟩,
      by rw [broadcast, encoded]; rfl, message, prunedChoice, ?_, ?_⟩
    · by_cases compactly : supportsCompact = true
      · simpa only [compactly, if_true] using compactMessage
      · simpa only [if_neg compactly] using prunedChoice
    · rw [sendMessage, if_neg small]
      rfl

open RoundTripExample (block) in
/-- A block with outputs and a transaction is broadcast in all three forms. -/
theorem broadcast_ok_block : ∃ built, broadcast true true (some block) = .ok built ∧
    built.message.LengthPrefixed ∧ built.prunedMessage.LengthPrefixed ∧
    built.compactMessage.LengthPrefixed ∧ (sendMessage built.message).isSome = true := by
  have supported : block.Supported := by decide
  have accepted : ∃ data, block.appendBinaryFlags false false = .ok data :=
    ⟨_, by rw [PoolBlock.appendBinaryFlags_of_supported supported, if_neg (by decide +kernel)]⟩
  exact (broadcast_ok_iff true true block accepted).mpr
    ⟨fun _ => by decide +kernel, by decide +kernel, by decide +kernel⟩

namespace LargeBlock

/-- A block of two-byte timestamp with the given transactions and nothing else. -/
def withTransactions (transactions : List Hash) : PoolBlock :=
  { (default : PoolBlock) with
    main := { (default : MainBlock) with timestamp := 200, transactions := transactions } }

theorem length_hashes (hashes : List Hash) : (concatBytes Bytes32.bytes hashes).length = hashes.length * 32 := by
  induction hashes with
  | nil => rfl
  | cons h rest ih =>
    simp only [concatBytes, List.flatMap_cons, List.length_append, Bytes32.bytes_length,
      List.length_cons] at ih ⊢
    omega

theorem length_encoding (transactions : List Hash) :
    ((withTransactions transactions).encodingFlags false false).length =
      182 + (uvarint transactions.length).length + transactions.length * 32 := by
  -- neither the header and coinbase nor the side data depend on the transactions
  have main : ((withTransactions transactions).main.coinbase.appendBinaryFlags
      ((withTransactions transactions).main.headerBlob (withTransactions transactions).main.nonce)
      false).length = 48 :=
    (by decide +kernel : ((withTransactions []).main.coinbase.appendBinaryFlags
      ((withTransactions []).main.headerBlob (withTransactions []).main.nonce) false).length = 48)
  have side : ((withTransactions transactions).side.appendBinary
      (withTransactions transactions).shareVersion).length = 134 :=
    (by decide +kernel : ((withTransactions []).side.appendBinary (withTransactions []).shareVersion).length = 134)
  have listed : (withTransactions transactions).main.transactions = transactions := rfl
  rw [PoolBlock.encodingFlags, List.length_append, List.length_append, List.length_append, main, side,
    listed, if_neg Bool.false_ne_true, length_hashes]
  omega

/-- 4090 transactions: 131064 bytes, three less than the limit. -/
def block : PoolBlock := withTransactions (List.replicate 4090 zeroHash)

theorem length_block : (block.encodingFlags false false).length = 131064 := by
  rw [block, length_encoding, List.length_replicate]
  decide

end LargeBlock

/-- A block within three bytes of the limit is accepted, and broadcasting it panics. -/
theorem broadcast_large : (∃ data, LargeBlock.block.appendBinaryFlags false false = .ok data) ∧
    ∀ supportsPruned supportsCompact, broadcast supportsPruned supportsCompact (some LargeBlock.block) =
      .error (.tried LargeBlock.block "buffer too large") := by
  have supported : LargeBlock.block.Supported := by decide
  have full := LargeBlock.length_block
  have long : (LargeBlock.block.prefixed false false).length > poolBlockMaxTemplateSize := by
    rw [PoolBlock.prefixed, if_pos (.inr (by decide)), List.length_append, full]
    decide
  refine ⟨⟨_, by rw [PoolBlock.appendBinaryFlags_of_supported supported, full, if_neg (by decide)]⟩, ?_⟩
  intro supportsPruned supportsCompact
  rw [broadcast, encodeBroadcast, PoolBlock.appendTo_lengthRoom supported, if_pos long]
  rfl

end P2PoolObserver
