/-
# Sidechain.RoundTrip -- decoding the full encoding of a block

Each layer of the decoder reads back what its encoder wrote, with anything
after it (`Reader.Reads`); the layers compose to `PoolBlock.fromReaderWith`.  A
decoded block is the original up to what the encoding does not carry
(`PoolBlock.decoded`).
-/
import P2PoolObserver.Sidechain.Decoder
import P2PoolObserver.Sidechain.TemplateId

namespace P2PoolObserver

open Lib Lib.Reader

set_option linter.unusedSectionVars false

section Primitives

variable {α β : Type}
variable {rd : Reader α} {y : Bytes} {a : α} {b : β} {n : Nat}

theorem Lib.Reader.reads_nothing_bind {f : α → Reader β}
    (first : Reads rd [] a) (next : Reads (f a) y b) : Reads (bind rd f) y b :=
  reads_bind first next

theorem Lib.Reader.reads_check_bind {ok : Prop} [Decidable ok] {message : String} {f : Unit → Reader β}
    (holds : ok) (next : Reads (f ()) y b) : Reads (bind (check ok message) f) y b :=
  reads_nothing_bind (reads_check holds message) next

theorem Lib.Reader.reads_bind_last {f : α → β} {x : Bytes}
    (first : Reads rd x a) (built : f a = b) : Reads (bind rd fun a => Reader.pure (f a)) x b :=
  built ▸ reads_bind_pure first

theorem readBytes32_reads (h : Bytes32) : Reads SideData.readBytes32 h.bytes h := by
  have whole := reads_bind_pure (f := Bytes32.ofBytes) (reads_full h.bytes_length)
  rwa [Bytes32.ofBytes_bytes] at whole

theorem readUint32_reads (n : UInt32) : Reads ExtraBuffer.readUint32 (leBytes 4 n.toNat) n := by
  have whole := reads_bind_pure (f := fun w => UInt32.ofNat (ofLeBytes w))
    (reads_full (leBytes_length 4 n.toNat))
  have same : UInt32.ofNat (ofLeBytes (leBytes 4 n.toNat)) = n := by
    rw [ofLeBytes_leBytes, Nat.mod_eq_of_lt (by simpa using n.toNat_lt), UInt32.ofNat_toNat]
  rwa [same] at whole

theorem toNat_ofNat_count (small : n < 2 ^ 63) : (UInt64.ofNat n).toNat = n := by
  rw [UInt64.toNat_ofNat']
  omega

theorem loopCount_of_lt (small : n < 2 ^ 63) : loopCount (UInt64.ofNat n) = n := by
  rw [loopCount, toNat_ofNat_count small, if_pos small]

end Primitives

section RoundTrip

variable {rv : Reader UInt64} (varints : ∀ x : UInt64, Reads rv (uvarint x.toNat) x)
include varints

theorem reads_count {n : Nat} (small : n < 2 ^ 63) : Reads rv (uvarint n) (UInt64.ofNat n) := by
  have whole := varints (UInt64.ofNat n)
  rwa [toNat_ofNat_count small] at whole

/-! ## Outputs -/

def Output.decoded (index : Nat) (o : Output) : Output :=
  ⟨UInt64.ofNat index, o.reward, o.ephemeralPublicKey, o.type,
    if o.type = txOutToTaggedKey then o.viewTag else 0⟩

theorem Output.reads {o : Output} (index : Nat) (known : o.type = txOutToTaggedKey ∨ o.type = txOutToKey) :
    Reads (Output.fromReaderWith rv index) o.bytes (o.decoded index) := by
  have key := reads_full o.ephemeralPublicKey.bytes_length
  by_cases tagged : o.type = txOutToTaggedKey
  · have bytes : o.bytes = uvarint o.reward.toNat ++ ([o.type] ++ (o.ephemeralPublicKey.bytes ++ [o.viewTag])) := by
      simp [Output.bytes, Output.encode, tagged]
    rw [bytes]
    refine reads_bind (varints o.reward) (reads_bind (reads_byte o.type) ?_)
    rw [if_pos known]
    refine reads_bind key ?_
    rw [if_pos tagged, tagged]
    have last := reads_bind_pure (f := fun viewTag => (⟨UInt64.ofNat index, o.reward,
      .ofBytes o.ephemeralPublicKey.bytes, txOutToTaggedKey, viewTag⟩ : Output)) (reads_byte o.viewTag)
    simpa [Output.decoded, tagged, Bytes32.ofBytes_bytes] using last
  · have untagged : o.type = txOutToKey := known.resolve_left tagged
    have bytes : o.bytes = uvarint o.reward.toNat ++ ([o.type] ++ o.ephemeralPublicKey.bytes) := by
      simp [Output.bytes, Output.encode, untagged]
    rw [bytes]
    refine reads_bind (varints o.reward) (reads_bind (reads_byte o.type) ?_)
    rw [if_pos known]
    simp only [tagged, if_false]
    have last := reads_bind_pure (f := fun key => (⟨UInt64.ofNat index, o.reward,
      .ofBytes key, o.type, 0⟩ : Output)) key
    simpa [Output.decoded, tagged, Bytes32.ofBytes_bytes] using last

omit varints in
theorem Output.bytes_length_pos {o : Output} (known : o.type = txOutToTaggedKey ∨ o.type = txOutToKey) :
    0 < o.bytes.length := by
  rcases known with h | h <;> simp [Output.bytes, Output.encode, h]

def Outputs.decoded : Nat → Outputs → Outputs
  | _, [] => []
  | index, o :: rest => o.decoded index :: decoded (index + 1) rest

theorem Outputs.readItems_reads : ∀ {s : Outputs} (index : Nat), s.Known →
    Reads (Outputs.readItemsWith rv s.length index) (concatBytes Output.bytes s) (s.decoded index)
  | [], _, _ => reads_pure []
  | o :: rest, index, known => by
    have head := Output.reads varints index (known o (.head _))
    have tail := Outputs.readItems_reads (index + 1)
      fun o' mem => known o' (.tail o mem)
    exact reads_bind head (reads_bind_pure (f := fun rest => o.decoded index :: rest) tail)

theorem Outputs.reads {s : Outputs} (known : s.Known) (small : s.length < 2 ^ 63) :
    Reads (Outputs.fromReaderWith rv) (countedBytes Output.bytes s) (s.decoded 0) := by
  refine reads_bind (reads_count varints small) ?_
  rw [loopCount_of_lt small]
  exact Outputs.readItems_reads varints 0 known

/-! ## The miner transaction -/

omit varints in
theorem Outputs.known_decoded : ∀ {s : Outputs} (index : Nat), s.Known → Outputs.Known (s.decoded index)
  | [], _, _, _, mem => nomatch mem
  | o :: rest, index, known, p, mem => by
    rcases List.mem_cons.mp mem with rfl | mem
    · exact known o (.head _)
    · exact Outputs.known_decoded (index + 1) (fun o' mem => known o' (.tail o mem)) p mem

omit varints in
theorem Outputs.decoded_ne_nil {s : Outputs} (index : Nat) (some' : s ≠ []) : s.decoded index ≠ [] := by
  cases s with
  | nil => exact absurd rfl some'
  | cons o rest => nofun

/-- The blob size that decoding computes, which leaves out the rewards. -/
def Outputs.blobSize : Outputs → UInt64 → UInt64
  | [], size => size
  | o :: rest, size =>
    blobSize rest (size + if o.type = txOutToTaggedKey then 1 + 32 + 1 else 1 + 32)

def Outputs.totalReward (s : Outputs) (total : UInt64) : UInt64 :=
  s.foldl (fun total o => total + o.reward) total

omit varints in
theorem outputTotals_reads : ∀ {s : Outputs} (size total : UInt64), s.Known →
    Reads (CoinbaseTransaction.outputTotals s size total) [] (s.blobSize size, s.totalReward total)
  | [], _, _, _ => reads_pure _
  | o :: rest, size, total, known => by
    have tail := fun size total => outputTotals_reads (s := rest) size total
      fun o' mem => known o' (.tail o mem)
    unfold CoinbaseTransaction.outputTotals
    by_cases tagged : o.type = txOutToTaggedKey
    · simp only [tagged, if_true, Outputs.blobSize]
      exact tail _ _
    · have untagged : o.type = txOutToKey := (known o (.head _)).resolve_left tagged
      rw [if_neg tagged, if_pos untagged]
      simp only [Outputs.blobSize, tagged, if_false]
      exact tail _ _

omit varints in
theorem Outputs.toNat_totalReward : ∀ (s : Outputs) (total : UInt64),
    (s.totalReward total).toNat = (total.toNat + (s.map (·.reward.toNat)).sum) % 2 ^ 64
  | [], total => by
    have small := total.toNat_lt
    simp [Outputs.totalReward, Nat.mod_eq_of_lt small]
  | o :: rest, total => by
    have tail := Outputs.toNat_totalReward rest (total + o.reward)
    simp only [Outputs.totalReward, List.foldl_cons] at tail ⊢
    rw [tail, UInt64.toNat_add, Nat.mod_add_mod, List.map_cons, List.sum_cons, Nat.add_assoc]

omit varints in
theorem Outputs.map_reward_decoded : ∀ (index : Nat) (s : Outputs),
    (s.decoded index).map (·.reward.toNat) = s.map (·.reward.toNat)
  | _, [] => rfl
  | index, o :: rest => by
    simp only [Outputs.decoded, List.map_cons, Outputs.map_reward_decoded (index + 1) rest]
    rfl

omit varints in
theorem ExtraTag.appendBinary_length (t : ExtraTag) : t.appendBinary.length = t.bufferLength := by
  unfold appendBinary header bufferLength
  split_ifs
  · simp only [List.cons_append, List.length_cons, List.length_append, uvarint_length t.varInt.toNat_lt]
    omega
  · simp only [List.cons_append, List.nil_append, List.length_cons]
    omega

omit varints in
theorem ExtraTags.appendBinary_length : ∀ t : ExtraTags, t.appendBinary.length = t.bufferLength
  | [] => rfl
  | tag :: rest => by
    have tail := ExtraTags.appendBinary_length rest
    simp only [appendBinary, bufferLength, concatBytes] at tail ⊢
    simp [ExtraTag.appendBinary_length, tail]

namespace CoinbaseTransaction

structure Decodable (c : CoinbaseTransaction) : Prop where
  version : c.version = 2
  inputCount : c.inputCount = 1
  inputType : c.inputType = txInGen
  unlockTime : c.unlockTime = c.genHeight + minerRewardUnlockTime
  outputs_ne_nil : c.outputs ≠ []
  known : c.outputs.Known
  extraSize : c.extra.bufferLength ≤ 65536
  extraBaseRCT : c.extraBaseRCT = 0

def encoding (c : CoinbaseTransaction) : Bytes :=
  c.header ++ countedBytes Output.bytes c.outputs ++ uvarint c.extra.bufferLength ++
    c.extra.appendBinary ++ [c.extraBaseRCT]

def decoded (c : CoinbaseTransaction) : CoinbaseTransaction :=
  { c with
    outputs := c.outputs.decoded 0
    outputsBlobSize := Outputs.blobSize (c.outputs.decoded 0) 0
    totalReward := Outputs.totalReward (c.outputs.decoded 0) 0 }

omit varints in
theorem appendBinaryFlags_eq {c : CoinbaseTransaction} (known : c.outputs.Known) (buf : Bytes) :
    c.appendBinaryFlags buf false = buf ++ c.encoding := by
  simp [appendBinaryFlags, encoding, Outputs.appendBinaryDropError_of_known known]

theorem reads {c : CoinbaseTransaction} (ok : c.Decodable) (small : c.outputs.length < 2 ^ 63)
    (extra : ExtraTags.fromReaderWith rv c.extra.appendBinary = .ok (c.extra, [])) :
    Reads (fromReaderWith rv) c.encoding c.decoded := by
  have size : c.extra.bufferLength < 2 ^ 63 := by
    have := ok.extraSize
    omega
  have sizeValue := toNat_ofNat_count size
  have bytes : c.encoding = [c.version] ++ (uvarint c.unlockTime.toNat ++ ([c.inputCount] ++
      ([c.inputType] ++ (uvarint c.genHeight.toNat ++ (countedBytes Output.bytes c.outputs ++
      (uvarint c.extra.bufferLength ++ (c.extra.appendBinary ++ [c.extraBaseRCT]))))))) := by
    simp only [encoding, header, List.append_assoc]
  rw [bytes]
  refine reads_bind (reads_byte c.version) (reads_check_bind ok.version ?_)
  refine reads_bind (varints c.unlockTime) ?_
  refine reads_bind (reads_byte c.inputCount) (reads_check_bind ok.inputCount ?_)
  refine reads_bind (reads_byte c.inputType) (reads_check_bind ok.inputType ?_)
  refine reads_bind (varints c.genHeight) (reads_check_bind ok.unlockTime ?_)
  refine reads_bind (Outputs.reads varints ok.known small) ?_
  have some' : c.outputs.decoded 0 ≠ [] := Outputs.decoded_ne_nil 0 ok.outputs_ne_nil
  rw [if_pos some']
  refine reads_nothing_bind (outputTotals_reads 0 0 (Outputs.known_decoded 0 ok.known)) ?_
  refine reads_bind (reads_count varints size) (reads_check_bind ?_ ?_)
  · rw [UInt64.le_iff_toNat_le, sizeValue]
    exact ok.extraSize
  · have window : c.extra.appendBinary.length = (UInt64.ofNat c.extra.bufferLength).toNat := by
      rw [sizeValue, ExtraTags.appendBinary_length]
    refine reads_bind (reads_limited window extra) (reads_check_bind (Nat.lt_irrefl 0) ?_)
    refine reads_bind (reads_byte c.extraBaseRCT) (reads_check_bind ok.extraBaseRCT ?_)
    exact reads_pure _

end CoinbaseTransaction

/-! ## Main block and side data -/

namespace MainBlock

def encoding (b : MainBlock) : Bytes :=
  b.headerBlob b.nonce ++ b.coinbase.encoding ++ uvarint b.transactions.length ++
    concatBytes Bytes32.bytes b.transactions

omit varints in
theorem appendBinaryFlags_eq {b : MainBlock} (known : b.coinbase.outputs.Known)
    (supported : ¬ b.majorVersion > hardForkSupportedVersion) (minor : ¬ b.minorVersion < b.majorVersion) :
    b.appendBinaryFlags false false = .ok b.encoding := by
  simp only [appendBinaryFlags, appendBinaryFlagsTo, supported, minor, if_false, List.nil_append,
    CoinbaseTransaction.appendBinaryFlags_eq known, encoding]
  rfl

def decoded (b : MainBlock) : MainBlock :=
  { b with coinbase := b.coinbase.decoded, transactionParentIndices := [] }

omit varints in
theorem readTransaction_reads (h : Hash) : Reads readTransaction h.bytes h := readBytes32_reads h

theorem reads {b : MainBlock} (ok : b.coinbase.Decodable) (outputs : b.coinbase.outputs.length < 2 ^ 63)
    (transactions : b.transactions.length < 2 ^ 63)
    (extra : ExtraTags.fromReaderWith rv b.coinbase.extra.appendBinary = .ok (b.coinbase.extra, [])) :
    Reads (fromReaderWith rv) b.encoding b.decoded := by
  have bytes : b.encoding = [b.majorVersion] ++ ([b.minorVersion] ++ (uvarint b.timestamp.toNat ++
      (b.previousId.bytes ++ (leBytes 4 b.nonce.toNat ++ (b.coinbase.encoding ++
      (uvarint b.transactions.length ++ concatBytes Bytes32.bytes b.transactions)))))) := by
    simp only [encoding, headerBlob, List.append_assoc]
  have nonce : UInt32.ofNat (ofLeBytes (leBytes 4 b.nonce.toNat)) = b.nonce := by
    rw [ofLeBytes_leBytes_of_lt (by simpa using b.nonce.toNat_lt), UInt32.ofNat_toNat]
  rw [bytes]
  refine reads_bind (reads_byte b.majorVersion) (reads_bind (reads_byte b.minorVersion) ?_)
  refine reads_bind (varints b.timestamp) (reads_bind (reads_full b.previousId.bytes_length) ?_)
  refine reads_bind (reads_full (leBytes_length 4 b.nonce.toNat)) ?_
  refine reads_bind (CoinbaseTransaction.reads varints ok outputs extra) ?_
  refine reads_bind (reads_count varints transactions) ?_
  rw [loopCount_of_lt transactions]
  have txs : Reads (readMany readTransaction b.transactions.length)
      (concatBytes Bytes32.bytes b.transactions) b.transactions :=
    reads_many fun h _ => readTransaction_reads h
  refine reads_bind_last txs ?_
  rw [nonce, Bytes32.ofBytes_bytes]
  rfl

end MainBlock

namespace SideData

def carried (s : SideData) (version : ShareVersion) : SideData :=
  { s with
    coinbasePrivateKeySeed := if version > shareVersionV1 then s.coinbasePrivateKeySeed else 0
    coinbasePrivateKey := if version > shareVersionV1 then 0 else s.coinbasePrivateKey
    extraBuffer := if version > shareVersionV1 then s.extraBuffer else default }

omit varints in
theorem extraBuffer_reads (e : ExtraBuffer) : Reads ExtraBuffer.fromReader e.encode e := by
  have bytes : e.encode = leBytes 4 e.softwareId.toNat ++ (leBytes 4 e.softwareVersion.toNat ++
      (leBytes 4 e.randomNumber.toNat ++ leBytes 4 e.sideChainExtraNonce.toNat)) := by
    simp only [ExtraBuffer.encode, List.append_assoc]
  rw [bytes]
  exact reads_bind (readUint32_reads _) (reads_bind (readUint32_reads _)
    (reads_bind (readUint32_reads _) (reads_bind_pure (readUint32_reads _))))

theorem difficulty_reads (d : Difficulty) : Reads (readDifficultyWith rv) (encodeDifficulty d) d :=
  reads_bind (varints d.lo) (reads_bind_pure (varints d.hi))

theorem reads (s : SideData) (version : ShareVersion) (uncles : s.uncles.length < 2 ^ 63) :
    Reads (fromReaderWith rv version) (s.appendBinary version) (s.carried version) := by
  have key : (if version > shareVersionV1 then s.coinbasePrivateKeySeed.bytes
      else s.coinbasePrivateKey.bytes) = Bytes32.bytes (if version > shareVersionV1 then
        s.coinbasePrivateKeySeed else s.coinbasePrivateKey) := by
    split_ifs <;> rfl
  simp only [appendBinary, key, countedBytes, List.append_assoc]
  refine reads_bind (readBytes32_reads _) (reads_bind (readBytes32_reads _) ?_)
  refine reads_bind (readBytes32_reads _) (reads_bind (readBytes32_reads _) ?_)
  refine reads_bind (reads_count varints uncles) ?_
  rw [loopCount_of_lt uncles]
  refine reads_bind (reads_many fun h _ => readBytes32_reads h) (reads_bind (varints s.height) ?_)
  refine reads_bind (difficulty_reads varints _) (reads_bind (difficulty_reads varints _) ?_)
  by_cases newer : version > shareVersionV1
  · simp only [newer, if_true]
    refine reads_bind_last (extraBuffer_reads s.extraBuffer) ?_
    simp only [carried, newer, if_true]
  · simp only [newer, if_false]
    refine reads_bind_last (reads_pure _) ?_
    simp only [carried, newer, if_false]

end SideData

end RoundTrip

/-! ## Pool blocks -/

namespace PoolBlock

variable [Crypto] {consensus : Consensus}

def encoding (b : PoolBlock) : Bytes := b.main.encoding ++ b.side.appendBinary b.shareVersion

def decoded (b : PoolBlock) : PoolBlock :=
  fillPrivateKeys { (default : PoolBlock) with
    main := b.main.decoded
    side := b.side.carried b.shareVersion
    cachedShareVersion := b.cachedShareVersion }

theorem length_le_concatBytes {α : Type} (enc : α → Bytes) : ∀ (xs : List α),
    (∀ x ∈ xs, 0 < (enc x).length) → xs.length ≤ (concatBytes enc xs).length
  | [], _ => Nat.zero_le _
  | x :: xs, positive => by
    have tail := length_le_concatBytes enc xs fun y mem => positive y (.tail x mem)
    have head := positive x (.head _)
    simp only [concatBytes, List.flatMap_cons, List.length_append, List.length_cons] at tail ⊢
    omega

/-- What the decoder demands of a block. -/
structure Encodable (consensus : Consensus) (b : PoolBlock) : Prop where
  coinbase : b.main.coinbase.Decodable
  majorVersion : consensus.networkMajorVersion b.main.coinbase.genHeight = some b.main.majorVersion
  supported : b.main.majorVersion ≤ hardForkSupportedVersion
  minorVersion : b.main.majorVersion ≤ b.main.minorVersion
  mergeMining : (b.main.coinbase.extra.getTag txExtraTagMergeMining).isSome
  shareVersion : b.cachedShareVersion = b.calculateShareVersion consensus
  size : b.encoding.length ≤ poolBlockMaxTemplateSize
  extra : ∃ rest, ExtraTags.fromReader b.main.coinbase.extra.appendBinary =
    .ok (b.main.coinbase.extra, rest)

theorem Encodable.extra_rest {b : PoolBlock} (ok : b.Encodable consensus) :
    ExtraTags.fromReaderWith readUvarint b.main.coinbase.extra.appendBinary =
      .ok (b.main.coinbase.extra, []) := by
  obtain ⟨rest, extra⟩ := ok.extra
  obtain rfl := ExtraTags.fromReaderWith_rest consuming_uvarint extra
  exact extra

theorem counts_lt_of_size {b : PoolBlock} (ok : b.Encodable consensus) :
    b.main.coinbase.outputs.length < 2 ^ 63 ∧ b.main.transactions.length < 2 ^ 63 ∧
      b.side.uncles.length < 2 ^ 63 := by
  have size := ok.size
  have outputs := length_le_concatBytes Output.bytes b.main.coinbase.outputs
    fun o mem => Output.bytes_length_pos (ok.coinbase.known o mem)
  have transactions := length_le_concatBytes Bytes32.bytes b.main.transactions
    fun h _ => by simp
  have uncles := length_le_concatBytes Bytes32.bytes b.side.uncles fun h _ => by simp
  simp only [encoding, MainBlock.encoding, CoinbaseTransaction.encoding, SideData.appendBinary,
    countedBytes, List.length_append, poolBlockMaxTemplateSize] at size
  omega

theorem marshalBinary_eq {b : PoolBlock} (ok : b.Encodable consensus) : b.marshalBinary = .ok b.encoding := by
  have small : ¬ b.encoding.length > poolBlockMaxTemplateSize := Nat.not_lt.mpr ok.size
  have main : b.main.appendBinaryFlags false false = .ok b.main.encoding :=
    MainBlock.appendBinaryFlags_eq ok.coinbase.known (UInt8.not_lt.mpr ok.supported)
      (UInt8.not_lt.mpr ok.minorVersion)
  unfold marshalBinary appendBinaryFlags
  rw [main]
  exact if_neg small

theorem reads {b : PoolBlock} {rv : Reader UInt64} (varints : ∀ x : UInt64, Reads rv (uvarint x.toNat) x)
    (ok : b.Encodable consensus) (extra : ExtraTags.fromReaderWith rv b.main.coinbase.extra.appendBinary =
      .ok (b.main.coinbase.extra, [])) : Reads (fromReaderWith rv consensus) b.encoding b.decoded := by
  have counts := counts_lt_of_size ok
  have tag : ¬ (b.main.decoded.coinbase.extra.getTag txExtraTagMergeMining).isNone := by
    have present : (b.main.decoded.coinbase.extra.getTag txExtraTagMergeMining).isSome :=
      ok.mergeMining
    simpa [Option.isSome_iff_ne_none] using present
  have main : Reads (MainBlock.fromReaderWith rv) b.main.encoding b.main.decoded :=
    MainBlock.reads varints ok.coinbase counts.1 counts.2.1 extra
  refine reads_bind main ?_
  have major : consensus.networkMajorVersion b.main.decoded.coinbase.genHeight =
      some b.main.majorVersion := ok.majorVersion
  rw [major]
  refine reads_check_bind rfl ?_
  rw [if_neg tag]
  have version : consensus.p2poolShareVersion b.main.decoded.timestamp = b.shareVersion :=
    ok.shareVersion.symm
  rw [version]
  exact reads_bind_last (SideData.reads varints b.side b.shareVersion counts.2.2) rfl

/-- `d` has every field of `b` that the full encoding of its share version carries. -/
structure Restores (d b : PoolBlock) : Prop where
  majorVersion : d.main.majorVersion = b.main.majorVersion
  minorVersion : d.main.minorVersion = b.main.minorVersion
  timestamp : d.main.timestamp = b.main.timestamp
  previousId : d.main.previousId = b.main.previousId
  nonce : d.main.nonce = b.main.nonce
  version : d.main.coinbase.version = b.main.coinbase.version
  unlockTime : d.main.coinbase.unlockTime = b.main.coinbase.unlockTime
  inputCount : d.main.coinbase.inputCount = b.main.coinbase.inputCount
  inputType : d.main.coinbase.inputType = b.main.coinbase.inputType
  genHeight : d.main.coinbase.genHeight = b.main.coinbase.genHeight
  outputs : List.Forall₂ Output.SameContent d.main.coinbase.outputs b.main.coinbase.outputs
  totalReward : d.main.coinbase.totalReward.toNat =
    (b.main.coinbase.outputs.map (·.reward.toNat)).sum % 2 ^ 64
  extra : d.main.coinbase.extra = b.main.coinbase.extra
  extraBaseRCT : d.main.coinbase.extraBaseRCT = b.main.coinbase.extraBaseRCT
  transactions : d.main.transactions = b.main.transactions
  shareVersion : d.cachedShareVersion = b.cachedShareVersion
  publicKey : d.side.publicKey = b.side.publicKey
  coinbasePrivateKey : ¬ b.shareVersion > shareVersionV1 →
    d.side.coinbasePrivateKey = b.side.coinbasePrivateKey
  coinbasePrivateKeySeed : b.shareVersion > shareVersionV1 →
    d.side.coinbasePrivateKeySeed = b.side.coinbasePrivateKeySeed
  parent : d.side.parent = b.side.parent
  uncles : d.side.uncles = b.side.uncles
  height : d.side.height = b.side.height
  difficulty : d.side.difficulty = b.side.difficulty
  cumulativeDifficulty : d.side.cumulativeDifficulty = b.side.cumulativeDifficulty
  extraBuffer : b.shareVersion > shareVersionV1 → d.side.extraBuffer = b.side.extraBuffer

theorem fillPrivateKeys_frame (b : PoolBlock) : ∃ seed key, b.fillPrivateKeys = { b with side := { b.side with
      coinbasePrivateKeySeed := seed, coinbasePrivateKey := key } } ∧
    (b.shareVersion > shareVersionV1 → seed = b.side.coinbasePrivateKeySeed) ∧
    (¬ b.shareVersion > shareVersionV1 → key = b.side.coinbasePrivateKey) := by
  unfold fillPrivateKeys
  by_cases newer : b.shareVersion > shareVersionV1
  · rw [if_pos newer]
    split_ifs
    · exact ⟨_, _, rfl, fun _ => rfl, fun older => absurd newer older⟩
    · exact ⟨_, _, rfl, fun _ => rfl, fun _ => rfl⟩
  · rw [if_neg newer]
    exact ⟨_, _, rfl, fun newer' => absurd newer' newer, fun _ => rfl⟩

theorem outputs_decoded : ∀ (index : Nat) (s : Outputs), List.Forall₂ Output.SameContent (s.decoded index) s
  | _, [] => .nil
  | index, o :: rest => by
    refine .cons ⟨rfl, rfl, rfl, fun tagged => ?_⟩ (outputs_decoded (index + 1) rest)
    exact if_pos tagged

theorem decoded_restores (b : PoolBlock) : b.decoded.Restores b := by
  obtain ⟨seed, key, filled, keepsSeed, keepsKey⟩ := fillPrivateKeys_frame
    { (default : PoolBlock) with
      main := b.main.decoded
      side := b.side.carried b.shareVersion
      cachedShareVersion := b.cachedShareVersion }
  have total : (Outputs.totalReward (b.main.coinbase.outputs.decoded 0) 0).toNat =
      (b.main.coinbase.outputs.map (·.reward.toNat)).sum % 2 ^ 64 := by
    rw [Outputs.toNat_totalReward, Outputs.map_reward_decoded]
    simp
  unfold decoded
  rw [filled]
  constructor <;> try rfl
  case outputs => exact outputs_decoded 0 _
  case totalReward => exact total
  case coinbasePrivateKey =>
    intro older
    exact (keepsKey older).trans (if_neg older)
  case coinbasePrivateKeySeed =>
    intro newer
    exact (keepsSeed newer).trans (if_pos newer)
  case extraBuffer =>
    intro newer
    exact if_pos newer

theorem unmarshalBinary_encoding {b : PoolBlock} (ok : b.Encodable consensus) :
    unmarshalBinary consensus b.encoding = .ok (b.decoded, []) := by
  have run := reads reads_uvarint64 ok ok.extra_rest []
  rw [List.append_nil] at run
  rw [← unmarshalBinaryWith_readUvarint]
  unfold unmarshalBinaryWith
  rw [if_neg (Nat.not_lt.mpr ok.size)]
  exact run

/-- Decoding the full encoding of a block succeeds, consumes every byte and
restores every field that the encoding carries. -/
theorem unmarshalBinary_marshalBinary {b : PoolBlock} (ok : b.Encodable consensus) :
    ∃ bytes d, b.marshalBinary = .ok bytes ∧ unmarshalBinary consensus bytes = .ok (d, []) ∧
      d.Restores b :=
  ⟨b.encoding, b.decoded, marshalBinary_eq ok, unmarshalBinary_encoding ok, b.decoded_restores⟩

end PoolBlock

namespace RoundTripExample

/-- Hashes and keys that do not matter for the round trip. -/
@[reducible] def crypto : Crypto where
  keccak256 _ := 1
  deterministicTransactionPrivateKey seed _ := seed
  publicKey key := key
  ephemeralPublicKey _ _ _ := (1, 0)

def block : PoolBlock :=
  { (default : PoolBlock) with
    main :=
      { majorVersion := 16
        minorVersion := 16
        nonce := 77
        timestamp := 1700000000
        previousId := 11
        coinbase :=
          { version := 2
            inputCount := 1
            inputType := txInGen
            unlockTime := 3000060
            genHeight := 3000000
            outputs := [⟨0, 600000000000, 7, txOutToTaggedKey, 5⟩, ⟨1, 18446744073709551615, 8, txOutToKey, 0⟩]
            outputsBlobSize := 0
            totalReward := 0
            extra := [⟨0, txExtraTagPubKey, false, List.replicate 32 7⟩,
              ⟨4, txExtraTagNonce, true, [1, 2, 3, 4]⟩,
              ⟨32, txExtraTagMergeMining, true, List.replicate 32 9⟩]
            extraBaseRCT := 0 }
        transactions := [21]
        transactionParentIndices := [] }
    side := { (default : SideData) with parent := 31, uncles := [41], height := 300, difficulty := ⟨5, 6⟩ }
    cachedShareVersion := shareVersionV2 }

theorem block_encodable : block.Encodable consensusMini where
  coinbase := ⟨rfl, rfl, rfl, rfl, nofun, by unfold Outputs.Known; decide, by decide +kernel, rfl⟩
  majorVersion := by decide +kernel
  supported := by decide
  minorVersion := by decide
  mergeMining := by decide
  shareVersion := by decide +kernel
  size := by decide +kernel
  extra := ⟨[], by decide +kernel⟩

theorem unmarshalBinary_marshalBinary_v2 :
    ∃ bytes d, block.marshalBinary = .ok bytes ∧
      @PoolBlock.unmarshalBinary crypto consensusMini bytes = .ok (d, []) ∧ d.Restores block :=
  @PoolBlock.unmarshalBinary_marshalBinary crypto consensusMini block block_encodable

end RoundTripExample

end P2PoolObserver
