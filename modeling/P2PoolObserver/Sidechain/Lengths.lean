/-
# Sidechain.Lengths -- what `BufferLength` declares and what the encoders write

Buffers are allocated with the lengths that the `BufferLength` functions add up, and the size of
the extra field is written from one of them.  `declaredLengths` compares all of them with the
encoders; the lengths of slices are ints of the source, and so below 2^63.
-/
import P2PoolObserver.Sidechain.RoundTrip

namespace P2PoolObserver

open Lib Lib.Reader

/-! ## Varints -/

theorem pow_le_of_uVarInt64Size {x : Nat} (more : 1 < uVarInt64Size x) : 128 ^ (uVarInt64Size x - 1) ≤ x := by
  unfold uVarInt64Size at more ⊢
  split_ifs at more ⊢ <;> omega

theorem lt_pow_uVarInt64Size {x : Nat} (fits : x < 2 ^ 64) : x < 128 ^ uVarInt64Size x := by
  unfold uVarInt64Size
  split_ifs <;> omega

theorem uVarInt64Size_minimal {x n : Nat} (some' : 1 ≤ n) (holds : x < 128 ^ n) : uVarInt64Size x ≤ n := by
  by_contra fewer
  have least := pow_le_of_uVarInt64Size (show 1 < uVarInt64Size x by omega)
  have power : 128 ^ n ≤ 128 ^ (uVarInt64Size x - 1) := Nat.pow_le_pow_right (by norm_num) (by omega)
  omega

theorem length_countedBytes {α : Type} (enc : α → Bytes) {xs : List α} (few : xs.length < 2 ^ 63) :
    (countedBytes enc xs).length = uVarInt64Size xs.length + (xs.map fun x => (enc x).length).sum := by
  rw [countedBytes, List.length_append, uvarint_length (by omega), concatBytes, List.length_flatMap]

theorem length_countedBytes32 {xs : List Bytes32} (few : xs.length < 2 ^ 63) :
    (countedBytes Bytes32.bytes xs).length = uVarInt64Size xs.length + xs.length * hashSize := by
  rw [length_countedBytes _ few]
  simp [Bytes32.bytes_length, hashSize]

/-! ## The declared lengths -/

def Output.bufferLength (o : Output) : Nat :=
  uVarInt64Size o.reward.toNat + 1 + 32 + if o.type = txOutToTaggedKey then 1 else 0

def Outputs.bufferLength (s : Outputs) : Nat := uVarInt64Size s.length + (s.map Output.bufferLength).sum

def CoinbaseTransaction.bufferLength (c : CoinbaseTransaction) : Nat :=
  1 + uVarInt64Size c.unlockTime.toNat + 1 + 1 + uVarInt64Size c.genHeight.toNat + c.outputs.bufferLength +
    uVarInt64Size c.extra.bufferLength + c.extra.bufferLength + 1

def MainBlock.bufferLength (b : MainBlock) : Nat :=
  1 + 1 + uVarInt64Size b.timestamp.toNat + hashSize + 4 + b.coinbase.bufferLength +
    uVarInt64Size b.transactions.length + hashSize * b.transactions.length

def SideData.bufferLength (b : SideData) : Nat :=
  32 + 32 + hashSize + 32 + uVarInt64Size b.uncles.length + b.uncles.length * hashSize +
    uVarInt64Size b.height.toNat + uVarInt64Size b.difficulty.lo.toNat + uVarInt64Size b.difficulty.hi.toNat +
    uVarInt64Size b.cumulativeDifficulty.lo.toNat + uVarInt64Size b.cumulativeDifficulty.hi.toNat + 4 * 4

/-! ## The encoded lengths -/

theorem Output.length_bytes {o : Output} (known : o.type = txOutToTaggedKey ∨ o.type = txOutToKey) :
    o.bytes.length = o.bufferLength := by
  have reward := uvarint_length o.reward.toNat_lt
  unfold bytes encode bufferLength
  rcases known with tagged | plain
  · simp [tagged, reward, Bytes32.bytes_length]
  · simp [plain, reward, Bytes32.bytes_length]

theorem Outputs.length_countedBytes {s : Outputs} (known : s.Known) (few : s.length < 2 ^ 63) :
    (Lib.countedBytes Output.bytes s).length = s.bufferLength := by
  rw [P2PoolObserver.length_countedBytes _ few, bufferLength]
  congr 2
  exact List.map_congr_left fun o mem => Output.length_bytes (known o mem)

namespace CoinbaseTransaction

variable {c : CoinbaseTransaction}

theorem length_header : c.header.length =
    1 + uVarInt64Size c.unlockTime.toNat + 1 + 1 + uVarInt64Size c.genHeight.toNat := by
  simp only [header, List.length_append, List.length_singleton, uvarint_length c.unlockTime.toNat_lt,
    uvarint_length c.genHeight.toNat_lt]

theorem appendBinaryFlags_of_known (known : c.outputs.Known) (buf : Bytes) :
    c.appendBinaryFlags buf false = buf ++ c.header ++ countedBytes Output.bytes c.outputs ++
      uvarint c.extra.bufferLength ++ c.extra.appendBinary ++ [c.extraBaseRCT] := by
  simp [appendBinaryFlags, Outputs.appendBinaryDropError_of_known known]

theorem length_appendBinaryFlags (known : c.outputs.Known) (few : c.outputs.length < 2 ^ 63)
    (small : c.extra.bufferLength < 2 ^ 63) (buf : Bytes) :
    (c.appendBinaryFlags buf false).length = buf.length + c.bufferLength := by
  rw [appendBinaryFlags_of_known known]
  simp only [List.length_append, length_header, Outputs.length_countedBytes known few, ExtraTags.appendBinary_length,
    uvarint_length (show c.extra.bufferLength < 2 ^ 64 by omega), List.length_singleton, bufferLength]
  omega

end CoinbaseTransaction

theorem MainBlock.length_appendBinaryFlags {b : MainBlock} {data : Bytes} (known : b.coinbase.outputs.Known)
    (few : b.coinbase.outputs.length < 2 ^ 63) (small : b.coinbase.extra.bufferLength < 2 ^ 63)
    (txs : b.transactions.length < 2 ^ 63) (encoded : b.appendBinaryFlags false false = .ok data) :
    data.length = b.bufferLength := by
  unfold appendBinaryFlags appendBinaryFlagsTo at encoded
  rw [if_neg Bool.false_ne_true] at encoded
  split_ifs at encoded
  cases encoded
  have transactions := length_countedBytes32 txs
  rw [countedBytes, List.length_append] at transactions
  rw [List.nil_append, List.length_append, List.length_append, Nat.add_assoc, transactions,
    CoinbaseTransaction.length_appendBinaryFlags known few small]
  simp only [List.length_append, headerBlob, List.length_singleton, uvarint_length b.timestamp.toNat_lt,
    Bytes32.bytes_length, leBytes_length, bufferLength, hashSize]
  omega

theorem SideData.length_appendBinary (b : SideData) (version : ShareVersion) (few : b.uncles.length < 2 ^ 63) :
    (b.appendBinary version).length + (if version > shareVersionV1 then 0 else 16) = b.bufferLength := by
  have difficulty : ∀ d : Difficulty, (encodeDifficulty d).length =
      uVarInt64Size d.lo.toNat + uVarInt64Size d.hi.toNat := by
    intro d
    rw [encodeDifficulty, List.length_append, uvarint_length d.lo.toNat_lt, uvarint_length d.hi.toNat_lt]
  have extra : b.extraBuffer.encode.length = 16 := by
    simp only [ExtraBuffer.encode, List.length_append, leBytes_length]
  unfold appendBinary bufferLength
  split_ifs
  all_goals
    simp only [List.length_append, Bytes32.bytes_length, length_countedBytes32 few, uvarint_length b.height.toNat_lt,
      difficulty, extra, List.length_nil, hashSize]
    omega

/-- Declared lengths are those of the encodings, and the size in front of an extra field is its length. -/
theorem declaredLengths :
    (∀ v : UInt64, (uvarint v.toNat).length = uVarInt64Size v.toNat ∧ v.toNat < 128 ^ uVarInt64Size v.toNat ∧
      ∀ n, 1 ≤ n → v.toNat < 128 ^ n → uVarInt64Size v.toNat ≤ n) ∧
    (∀ s : Outputs, s.Known → s.length < 2 ^ 63 →
      ∃ data, s.appendBinary [] = .ok data ∧ data.length = s.bufferLength) ∧
    (∀ t : ExtraTags, t.appendBinary.length = t.bufferLength) ∧
    (∀ c : CoinbaseTransaction, c.outputs.Known → c.outputs.length < 2 ^ 63 → c.extra.bufferLength < 2 ^ 63 →
      (c.appendBinaryFlags [] false).length = c.bufferLength ∧
      (∃ front, c.appendBinaryFlags [] false = front ++ uvarint c.extra.appendBinary.length ++
        c.extra.appendBinary ++ [c.extraBaseRCT]) ∧
      ∀ zeroTemplateId, ∃ front, c.sideChainHashingBlob [] zeroTemplateId =
        front ++ uvarint (c.extra.sideChainHashingBlob zeroTemplateId).length ++
          c.extra.sideChainHashingBlob zeroTemplateId ++ [c.extraBaseRCT]) ∧
    (∀ (b : MainBlock) (data : Bytes), b.coinbase.outputs.Known → b.coinbase.outputs.length < 2 ^ 63 →
      b.coinbase.extra.bufferLength < 2 ^ 63 → b.transactions.length < 2 ^ 63 →
        b.appendBinaryFlags false false = .ok data → data.length = b.bufferLength) ∧
    ∀ b : SideData, b.uncles.length < 2 ^ 63 →
      (b.appendBinary shareVersionV2).length = b.bufferLength ∧
        (b.appendBinary shareVersionV1).length + 16 = b.bufferLength := by
  refine ⟨fun v => ⟨uvarint_length v.toNat_lt, lt_pow_uVarInt64Size v.toNat_lt, fun n => uVarInt64Size_minimal⟩,
    fun s known few => ⟨_, ?_, Outputs.length_countedBytes known few⟩, ExtraTags.appendBinary_length,
    fun c known few small => ⟨?_, ⟨c.header ++ countedBytes Output.bytes c.outputs, ?_⟩, fun zeroTemplateId =>
      ⟨c.header ++ countedBytes Output.bytes c.outputs, ?_⟩⟩,
    fun b data known few small txs => MainBlock.length_appendBinaryFlags known few small txs, fun b few => ⟨?_, ?_⟩⟩
  · rw [Outputs.appendBinary, Outputs.appendItems_of_known known]
    rfl
  · rw [CoinbaseTransaction.length_appendBinaryFlags known few small, List.length_nil, Nat.zero_add]
  · rw [CoinbaseTransaction.appendBinaryFlags_of_known known, ExtraTags.appendBinary_length, List.nil_append]
  · rw [CoinbaseTransaction.sideChainHashingBlob_of_known known, ExtraTags.sideChainHashingBlob_length, List.nil_append]
  · have two := b.length_appendBinary shareVersionV2 few
    rwa [if_pos (by decide), Nat.add_zero] at two
  · have one := b.length_appendBinary shareVersionV1 few
    rwa [if_neg (by decide)] at one

/-! ## The totals of the outputs -/

namespace CoinbaseTransaction

theorem outputTotals_lt : ∀ (s : Outputs) (size total : UInt64), Ensures (outputTotals s size total) fun totals =>
    s.Known ∧ totals.1.toNat + s.length ≤ size.toNat + (s.map Output.bufferLength).sum
  | [], size, total => ensures_pure ⟨nofun, le_rfl⟩
  | o :: rest, size, total => by
    have reward : 1 ≤ uVarInt64Size o.reward.toNat := by
      unfold uVarInt64Size
      split_ifs <;> omega
    have sum : ∀ n, (size + n).toNat ≤ size.toNat + n.toNat := by
      intro n
      rw [UInt64.toNat_add]
      exact Nat.mod_le _ _
    unfold outputTotals
    refine ensures_ite (fun tagged => ?_) fun other => ensures_ite (fun plain => ?_) fun _ => ensures_fail _ _
    · intro input totals after run
      obtain ⟨others, bound⟩ := outputTotals_lt rest _ _ run
      refine ⟨List.forall_mem_cons.mpr ⟨.inl tagged, others⟩, ?_⟩
      have sum : (size + (1 + 32 + 1)).toNat ≤ size.toNat + 34 := sum _
      rw [List.map_cons, List.sum_cons, Output.bufferLength, if_pos tagged, List.length_cons]
      omega
    · intro input totals after run
      obtain ⟨others, bound⟩ := outputTotals_lt rest _ _ run
      refine ⟨List.forall_mem_cons.mpr ⟨.inr plain, others⟩, ?_⟩
      have sum : (size + (1 + 32)).toNat ≤ size.toNat + 33 := sum _
      rw [List.map_cons, List.sum_cons, Output.bufferLength, if_neg other, List.length_cons]
      omega

theorem outputsBlobSize_lt : Ensures CoinbaseTransaction.fromReader fun c => c.outputs ≠ [] →
    c.outputs.Known ∧ c.outputsBlobSize.toNat + List.length c.outputs ≤ (c.outputs.map Output.bufferLength).sum := by
  iterate 9 refine ensures_after fun _ => ?_
  refine ensures_after fun outputs => ?_
  refine ensures_ite (fun _ => ensures_bind (outputTotals_lt outputs 0 0) fun totals bound => ?_)
    fun empty => ensures_after fun _ => ?_
  · iterate 6 refine ensures_after fun _ => ?_
    refine ensures_pure fun _ => ⟨bound.1, ?_⟩
    have sum := bound.2
    rwa [UInt64.toNat_zero, Nat.zero_add] at sum
  · iterate 6 refine ensures_after fun _ => ?_
    exact ensures_pure fun some' => absurd some' empty

theorem pruned_totals {c d : CoinbaseTransaction} {rest : Bytes}
    (fits : (c.outputs.appendBinaryDropError []).length < 2 ^ 64)
    (run : fromReader (c.appendBinaryFlags [] true) = .ok (d, rest)) :
    d.totalReward = c.totalReward ∧ d.outputsBlobSize.toNat = (c.outputs.appendBinaryDropError []).length := by
  have encoding : c.appendBinaryFlags [] true = [c.version] ++ (uvarint c.unlockTime.toNat ++ ([c.inputCount] ++
      ([c.inputType] ++ (uvarint c.genHeight.toNat ++ (uvarint 0 ++ ((uvarint c.totalReward.toNat ++
        uvarint (c.outputs.appendBinaryDropError []).length) ++
          (uvarint c.extra.bufferLength ++ c.extra.appendBinary ++ [c.extraBaseRCT]))))))) := by
    simp [appendBinaryFlags, header]
  have none : Reads Outputs.fromReader (uvarint 0) [] := fun _ => rfl
  have totals : Reads readPruned (uvarint c.totalReward.toNat ++ uvarint (c.outputs.appendBinaryDropError []).length)
      (UInt64.ofNat (c.outputs.appendBinaryDropError []).length, c.totalReward) :=
    reads_bind (reads_uvarint64 _) (reads_bind_pure (reads_uvarint fits))
  rw [encoding] at run
  simp only [fromReader, fromReaderWith, monad_bind_eq, bind_eq_ok, check_eq_ok] at run
  obtain ⟨version, _, r1, _, _, ⟨-, rfl⟩, unlockTime, _, r2, inputCount, _, r3, _, _, ⟨-, rfl⟩,
    inputType, _, r4, _, _, ⟨-, rfl⟩, genHeight, _, r5, _, _, ⟨-, rfl⟩, outputs, _, r6, run⟩ := run
  cases (reads_byte c.version _).symm.trans r1
  cases (reads_uvarint64 c.unlockTime _).symm.trans r2
  cases (reads_byte c.inputCount _).symm.trans r3
  cases (reads_byte c.inputType _).symm.trans r4
  cases (reads_uvarint64 c.genHeight _).symm.trans r5
  cases (none _).symm.trans r6
  rw [if_neg (not_not.mpr rfl)] at run
  simp only [bind_eq_ok, check_eq_ok] at run
  obtain ⟨both, _, r7, _, _, -, _, _, -, _, _, -, _, _, -, _, _, -, _, _, -, built⟩ := run
  cases (totals _).symm.trans r7
  cases built
  refine ⟨rfl, ?_⟩
  rw [UInt64.toNat_ofNat', Nat.mod_eq_of_lt fits]

/-- The pruned encoding decodes to the same totals. -/
def SameTotals (c : CoinbaseTransaction) : Prop :=
  ∃ d rest, fromReader (c.appendBinaryFlags [] true) = .ok (d, rest) ∧ d.totalReward = c.totalReward ∧
    d.outputsBlobSize = c.outputsBlobSize

/-- The blob size is smaller than the outputs, and so differs from that of the pruned encoding. -/
theorem outputTotals_differ {data rest : Bytes} {c : CoinbaseTransaction}
    (decoded : fromReader data = .ok (c, rest)) (some' : c.outputs ≠ [])
    (fits : (c.outputs.appendBinaryDropError []).length < 2 ^ 64) :
    c.outputsBlobSize.toNat < (c.outputs.appendBinaryDropError []).length ∧ ¬ c.SameTotals := by
  obtain ⟨known, bound⟩ := outputsBlobSize_lt decoded some'
  have less : c.outputsBlobSize.toNat < (c.outputs.appendBinaryDropError []).length := by
    have sizes : (c.outputs.map fun o => o.bytes.length) = c.outputs.map Output.bufferLength :=
      List.map_congr_left fun o mem => Output.length_bytes (known o mem)
    have outputs := List.length_pos_of_ne_nil some'
    rw [Outputs.appendBinaryDropError_of_known known, List.nil_append, countedBytes, List.length_append,
      concatBytes, List.length_flatMap, sizes]
    omega
  refine ⟨less, ?_⟩
  rintro ⟨d, after, run, -, same⟩
  have size := (pruned_totals fits run).2
  rw [same] at size
  omega

def oneOutput : CoinbaseTransaction := ⟨2, 1, txInGen, 60, 0, [⟨0, 5, 0, txOutToKey, 0⟩], 33, 5, [], 0⟩

theorem oneOutput_decoded : fromReader (oneOutput.appendBinaryFlags [] false) = .ok (oneOutput, []) := by
  decide +kernel

theorem outputTotals_differ_oneOutput :
    oneOutput.outputsBlobSize.toNat < (oneOutput.outputs.appendBinaryDropError []).length ∧ ¬ oneOutput.SameTotals :=
  outputTotals_differ oneOutput_decoded (by decide) (by decide +kernel)

/-- The pruned form says 35, with the count and the reward. -/
theorem oneOutput_pruned :
    fromReader (oneOutput.appendBinaryFlags [] false) = .ok (oneOutput, []) ∧
      fromReader (oneOutput.appendBinaryFlags [] true) =
        .ok (⟨2, 1, txInGen, 60, 0, [], 35, 5, [], 0⟩, []) ∧
      (oneOutput.outputs.appendBinaryDropError []).length = 35 ∧ oneOutput.outputsBlobSize = 33 ∧
      ¬ oneOutput.SameTotals := by
  have pruned : fromReader (oneOutput.appendBinaryFlags [] true) =
      .ok (⟨2, 1, txInGen, 60, 0, [], 35, 5, [], 0⟩, []) := by decide +kernel
  refine ⟨oneOutput_decoded, pruned, by decide +kernel, rfl, ?_⟩
  rintro ⟨d, rest, run, -, size⟩
  cases pruned.symm.trans run
  exact absurd size (by decide)

end CoinbaseTransaction

end P2PoolObserver
