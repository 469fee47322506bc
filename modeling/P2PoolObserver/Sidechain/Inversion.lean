/-
# Sidechain.Inversion -- what a decoder accepts is what its encoder writes

Each layer of the decoder, run with a varint reader that inverts its encoder, accepts encodings
only, up to the counts it reads and the bytes of the extra field (`Layout`).
-/
import P2PoolObserver.Sidechain.RoundTrip

namespace P2PoolObserver

open Lib Lib.Reader

set_option linter.unusedSectionVars false

/-! ## Readers that invert their encoder -/

/-- Whatever `rd` accepts is the encoding of what it returns, before the rest. -/
def Inverts {α : Type} (rd : Reader α) (enc : α → Bytes) : Prop :=
  ∀ ⦃input : Bytes⦄ ⦃a : α⦄ ⦃rest : Bytes⦄, rd input = .ok (a, rest) → input = enc a ++ rest

section Primitives

variable {α : Type}

theorem inverts_byte : Inverts readByte fun b => [b]
  | b :: rest, _, _, run => by
    cases run
    rfl

theorem inverts_full (n : Nat) : Inverts (readFull n) id := by
  intro input bytes rest run
  unfold readFull at run
  split_ifs at run
  cases run
  exact (List.take_append_drop n input).symm

theorem bytes_ofBytes {bytes : Bytes} (length : bytes.length = 32) : (Bytes32.ofBytes bytes).bytes = bytes := by
  have value : (Bytes32.ofBytes bytes).toNat = ofLeBytes bytes := by
    have bound := ofLeBytes_lt bytes
    rw [length] at bound
    rw [Bytes32.ofBytes, BitVec.toNat_ofNat, Nat.mod_eq_of_lt (by simpa using bound)]
  have back := leBytes_ofLeBytes bytes
  rwa [length, ← value] at back

theorem leBytes_uint32 {word : Bytes} (length : word.length = 4) :
    leBytes 4 (UInt32.ofNat (ofLeBytes word)).toNat = word := by
  have bound := ofLeBytes_lt word
  have back := leBytes_ofLeBytes word
  rw [length] at bound back
  rw [UInt32.toNat_ofNat', Nat.mod_eq_of_lt (by simpa using bound), back]

theorem inverts_bytes32 : Inverts SideData.readBytes32 Bytes32.bytes := by
  intro input h rest run
  obtain ⟨bytes, after, full, built⟩ := bind_eq_ok.mp run
  cases built
  rw [bytes_ofBytes (length_of_readFull full)]
  exact inverts_full 32 full

theorem inverts_many {rd : Reader α} {enc : α → Bytes} (inverts : Inverts rd enc) :
    ∀ (n : Nat) ⦃input : Bytes⦄ ⦃xs : List α⦄ ⦃rest : Bytes⦄, readMany rd n input = .ok (xs, rest) →
      xs.length = n ∧ input = concatBytes enc xs ++ rest
  | 0, input, xs, rest, run => by
    cases run
    exact ⟨rfl, rfl⟩
  | n + 1, input, xs, rest, run => by
    obtain ⟨x, middle, first, run⟩ := bind_eq_ok.mp run
    obtain ⟨tail, after, more, built⟩ := bind_eq_ok.mp run
    cases built
    obtain ⟨length, eq⟩ := inverts_many inverts n more
    refine ⟨by rw [List.length_cons, length], ?_⟩
    rw [inverts first, eq]
    simp [concatBytes]

end Primitives

theorem readMinimal_inverts : Inverts readMinimal fun v => uvarint v.toNat := by
  intro input v rest run
  unfold readMinimal at run
  split at run
  · cases run
  · split_ifs at run with minimal
    cases run
    exact minimal

theorem readMinimal_reads (x : UInt64) : Reads readMinimal (uvarint x.toNat) x := by
  intro rest
  have run : readUvarint (uvarint x.toNat ++ rest) = .ok (x, rest) := reads_uvarint64 x rest
  simp [readMinimal, run]

theorem readMinimal_consuming : Consuming readMinimal :=
  fun _ _ _ run => readMinimal_inverts run ▸ List.suffix_append _ _

/-! ## Layouts -/

/-- What an accepted input states beside the decoded values. -/
structure Layout where
  outputCount : UInt64
  extra : Bytes
  transactionCount : UInt64
  uncleCount : UInt64

namespace Layout

def coinbase (l : Layout) (c : CoinbaseTransaction) : Bytes :=
  c.header ++ (uvarint l.outputCount.toNat ++ concatBytes Output.bytes c.outputs) ++
    uvarint l.extra.length ++ l.extra ++ [c.extraBaseRCT]

def main (l : Layout) (b : MainBlock) : Bytes :=
  b.headerBlob b.nonce ++ l.coinbase b.coinbase ++ uvarint l.transactionCount.toNat ++
    concatBytes Bytes32.bytes b.transactions

def side (l : Layout) (s : SideData) (version : ShareVersion) : Bytes :=
  s.publicKey.spend.bytes ++ s.publicKey.view.bytes ++
    (if version > shareVersionV1 then s.coinbasePrivateKeySeed.bytes else s.coinbasePrivateKey.bytes) ++
    s.parent.bytes ++ (uvarint l.uncleCount.toNat ++ concatBytes Bytes32.bytes s.uncles) ++
    uvarint s.height.toNat ++ SideData.encodeDifficulty s.difficulty ++
    SideData.encodeDifficulty s.cumulativeDifficulty ++
    (if version > shareVersionV1 then s.extraBuffer.encode else [])

/-- The input that declares `l` and is decoded to `b`. -/
def bytes (l : Layout) (b : PoolBlock) : Bytes := l.main b.main ++ l.side b.side b.shareVersion

end Layout

section Layouts

variable {rv : Reader UInt64} (shortest : Inverts rv fun v => uvarint v.toNat) (consuming : Consuming rv)
include shortest

theorem Output.inverts {index : Nat} {input rest : Bytes} {o : Output}
    (run : Output.fromReaderWith rv index input = .ok (o, rest)) :
    (o.type = txOutToTaggedKey ∨ o.type = txOutToKey) ∧ input = o.bytes ++ rest := by
  obtain ⟨reward, afterReward, first, run⟩ := bind_eq_ok.mp run
  obtain ⟨type, afterType, second, run⟩ := bind_eq_ok.mp run
  rw [shortest first, inverts_byte second]
  split_ifs at run with known tagged
  · obtain ⟨key, afterKey, third, run⟩ := bind_eq_ok.mp run
    obtain ⟨viewTag, afterTag, last, built⟩ := bind_eq_ok.mp run
    cases built
    rw [inverts_full 32 third, inverts_byte last]
    simp [Output.bytes, Output.encode, tagged, bytes_ofBytes (length_of_readFull third)]
  · obtain ⟨key, afterKey, third, built⟩ := bind_eq_ok.mp run
    cases built
    have untagged : type = txOutToKey := known.resolve_left tagged
    rw [inverts_full 32 third]
    simp [Output.bytes, Output.encode, untagged, bytes_ofBytes (length_of_readFull third)]
  · cases run

theorem Outputs.readItems_inverts : ∀ {n index : Nat} {input rest : Bytes} {s : Outputs},
    Outputs.readItemsWith rv n index input = .ok (s, rest) →
      s.length = n ∧ s.Known ∧ input = concatBytes Output.bytes s ++ rest
  | 0, _, _, _, _, run => by
    cases run
    exact ⟨rfl, nofun, rfl⟩
  | n + 1, index, input, rest, s, run => by
    obtain ⟨o, middle, first, run⟩ := bind_eq_ok.mp run
    obtain ⟨tail, after, more, built⟩ := bind_eq_ok.mp run
    cases built
    obtain ⟨known, head⟩ := Output.inverts shortest first
    obtain ⟨length, knownTail, eq⟩ := Outputs.readItems_inverts more
    refine ⟨by rw [List.length_cons, length], ?_, ?_⟩
    · intro p mem
      rcases List.mem_cons.mp mem with rfl | mem
      · exact known
      · exact knownTail p mem
    · rw [head, eq]
      simp [concatBytes]

theorem Outputs.inverts {input rest : Bytes} {s : Outputs}
    (run : Outputs.fromReaderWith rv input = .ok (s, rest)) : ∃ count : UInt64,
      s.length = loopCount count ∧ s.Known ∧
        input = uvarint count.toNat ++ concatBytes Output.bytes s ++ rest := by
  obtain ⟨count, middle, first, run⟩ := bind_eq_ok.mp run
  obtain ⟨length, known, eq⟩ := Outputs.readItems_inverts shortest run
  exact ⟨count, length, known, by rw [shortest first, eq, List.append_assoc]⟩

omit shortest in
theorem outputTotals_rest : ∀ {s : Outputs} {size total : UInt64} {input rest : Bytes} {r : UInt64 × UInt64},
    CoinbaseTransaction.outputTotals s size total input = .ok (r, rest) → input = rest
  | [], _, _, _, _, _, run => by
    cases run
    rfl
  | o :: s, size, total, input, rest, r, run => by
    unfold CoinbaseTransaction.outputTotals at run
    split_ifs at run
    · exact outputTotals_rest run
    · exact outputTotals_rest run
    · cases run

include consuming

theorem limited_extra {n : Nat} {input rest : Bytes} {extra : ExtraTags} {left : Nat}
    (run : limited n (ExtraTags.fromReaderWith rv) input = .ok ((extra, left), rest))
    (whole : ¬ left > 0) : ∃ region : Bytes, region.length = n ∧ input = region ++ rest ∧
      ExtraTags.fromReaderWith rv region = .ok (extra, []) := by
  unfold limited at run
  split at run
  · rename_i tags after read
    obtain rfl := ExtraTags.fromReaderWith_rest consuming read
    cases run
    refine ⟨input.take n, ?_, (List.take_append_drop n input).symm, read⟩
    have short : (input.take n).length ≤ n := by simp
    simp only [List.length_nil, Nat.sub_zero] at whole
    omega
  · cases run

theorem CoinbaseTransaction.inverts {input rest : Bytes} {c : CoinbaseTransaction}
    (run : CoinbaseTransaction.fromReaderWith rv input = .ok (c, rest)) (some' : c.outputs ≠ []) :
    ∃ (count : UInt64) (region : Bytes), List.length c.outputs = loopCount count ∧ c.outputs.Known ∧
      ExtraTags.fromReaderWith rv region = .ok (c.extra, []) ∧
      input = c.header ++ (uvarint count.toNat ++ concatBytes Output.bytes c.outputs) ++
        uvarint region.length ++ region ++ [c.extraBaseRCT] ++ rest := by
  simp only [CoinbaseTransaction.fromReaderWith, monad_bind_eq, bind_eq_ok, check_eq_ok] at run
  obtain ⟨version, _, r1, _, _, ⟨-, rfl⟩, unlockTime, _, r2, inputCount, _, r3, _, _, ⟨-, rfl⟩,
    inputType, _, r4, _, _, ⟨-, rfl⟩, genHeight, _, r5, _, _, ⟨-, rfl⟩, outputs, tail, r6, run⟩ := run
  obtain ⟨count, length, known, out⟩ := Outputs.inverts shortest r6
  have header : input = [version] ++ uvarint unlockTime.toNat ++ [inputCount] ++ [inputType] ++
      uvarint genHeight.toNat ++ (uvarint count.toNat ++ concatBytes Output.bytes outputs ++ tail) := by
    rw [inverts_byte r1, shortest r2, inverts_byte r3, inverts_byte r4, shortest r5, out]
    simp only [List.append_assoc]
  split_ifs at run with nonempty
  · simp only [bind_eq_ok, check_eq_ok] at run
    obtain ⟨totals, _, r7, size, _, r8, _, _, ⟨-, rfl⟩, ⟨extra, left⟩, _, r9, _, _, ⟨whole, rfl⟩,
      extraBaseRCT, _, r10, _, _, ⟨-, rfl⟩, built⟩ := run
    cases built
    obtain ⟨region, regionLength, window, tags⟩ := limited_extra shortest consuming r9 whole
    refine ⟨count, region, length, known, tags, ?_⟩
    obtain rfl := outputTotals_rest r7
    rw [header, shortest r8, window, inverts_byte r10, regionLength]
    simp only [CoinbaseTransaction.header, List.append_assoc]
  · -- a pruned block has no outputs
    simp only [bind_eq_ok, check_eq_ok] at run
    obtain ⟨totals, _, -, size, _, -, _, _, -, ⟨extra, left⟩, _, -, _, _, -, extraBaseRCT, _, -, _, _, -,
      built⟩ := run
    cases built
    exact absurd (not_not.mp nonempty) some'

theorem MainBlock.inverts {input rest : Bytes} {b : MainBlock}
    (run : MainBlock.fromReaderWith rv input = .ok (b, rest)) (some' : b.coinbase.outputs ≠ []) :
    ∃ (outputCount transactionCount : UInt64) (region : Bytes),
      List.length b.coinbase.outputs = loopCount outputCount ∧ b.coinbase.outputs.Known ∧
      b.transactions.length = loopCount transactionCount ∧
      ExtraTags.fromReaderWith rv region = .ok (b.coinbase.extra, []) ∧
      ∀ uncleCount, input = Layout.main ⟨outputCount, region, transactionCount, uncleCount⟩ b ++ rest := by
  simp only [MainBlock.fromReaderWith, MainBlock.fromReaderFlagsWith, Bool.false_eq_true, if_false, monad_bind_eq,
    bind_eq_ok] at run
  obtain ⟨majorVersion, _, r1, minorVersion, _, r2, timestamp, _, r3, previousId, _, r4, nonce, _, r5,
    coinbase, _, r6, txCount, _, r7, txs, _, r8, built⟩ := run
  cases built
  obtain ⟨outputCount, region, length, known, tags, coinbaseBytes⟩ :=
    CoinbaseTransaction.inverts shortest consuming r6 some'
  obtain ⟨txLength, txBytes⟩ := inverts_many inverts_bytes32 _ r8
  refine ⟨outputCount, txCount, region, length, known, txLength, tags, fun _ => ?_⟩
  rw [inverts_byte r1, inverts_byte r2, shortest r3, inverts_full 32 r4, inverts_full 4 r5,
    coinbaseBytes, shortest r7, txBytes]
  simp only [Layout.main, Layout.coinbase, MainBlock.headerBlob,
    leBytes_uint32 (length_of_readFull r5), bytes_ofBytes (length_of_readFull r4), id_eq, List.append_assoc]

omit consuming

theorem SideData.difficulty_inverts : Inverts (SideData.readDifficultyWith rv) SideData.encodeDifficulty := by
  intro input d rest run
  obtain ⟨lo, _, first, run⟩ := bind_eq_ok.mp run
  obtain ⟨hi, _, second, built⟩ := bind_eq_ok.mp run
  cases built
  rw [shortest first, shortest second, SideData.encodeDifficulty, List.append_assoc]

omit shortest in
theorem ExtraBuffer.readUint32_inverts : Inverts ExtraBuffer.readUint32 fun n => leBytes 4 n.toNat := by
  intro input n rest run
  obtain ⟨word, _, full, built⟩ := bind_eq_ok.mp run
  cases built
  show input = leBytes 4 (UInt32.ofNat (ofLeBytes word)).toNat ++ rest
  rw [leBytes_uint32 (length_of_readFull full)]
  exact inverts_full 4 full

omit shortest in
theorem ExtraBuffer.inverts : Inverts ExtraBuffer.fromReader ExtraBuffer.encode := by
  intro input e rest run
  simp only [ExtraBuffer.fromReader, monad_bind_eq, bind_eq_ok] at run
  obtain ⟨a, _, r1, b, _, r2, c, _, r3, d, _, r4, built⟩ := run
  cases built
  rw [ExtraBuffer.readUint32_inverts r1, ExtraBuffer.readUint32_inverts r2,
    ExtraBuffer.readUint32_inverts r3, ExtraBuffer.readUint32_inverts r4]
  simp only [ExtraBuffer.encode, List.append_assoc]

theorem SideData.inverts {input rest : Bytes} {s : SideData} {version : ShareVersion}
    (run : SideData.fromReaderWith rv version input = .ok (s, rest)) :
    ∃ uncleCount : UInt64, s.uncles.length = loopCount uncleCount ∧
      ∀ outputCount region transactionCount, input =
        Layout.side ⟨outputCount, region, transactionCount, uncleCount⟩ s version ++ rest := by
  simp only [SideData.fromReaderWith, monad_bind_eq, bind_eq_ok] at run
  obtain ⟨spend, _, r1, view, _, r2, key, _, r3, parent, _, r4, uncleCount, _, r5, uncles, _, r6,
    height, _, r7, difficulty, _, r8, cumulativeDifficulty, tail, r9, run⟩ := run
  obtain ⟨length, uncleBytes⟩ := inverts_many inverts_bytes32 _ r6
  have front : input = spend.bytes ++ view.bytes ++ key.bytes ++ parent.bytes ++
      (uvarint uncleCount.toNat ++ concatBytes Bytes32.bytes uncles) ++ uvarint height.toNat ++
      SideData.encodeDifficulty difficulty ++ SideData.encodeDifficulty cumulativeDifficulty ++ tail := by
    rw [inverts_bytes32 r1, inverts_bytes32 r2, inverts_bytes32 r3, inverts_bytes32 r4, shortest r5,
      uncleBytes, shortest r7, SideData.difficulty_inverts shortest r8,
      SideData.difficulty_inverts shortest r9]
    simp only [List.append_assoc]
  by_cases newer : version > shareVersionV1
  · simp only [newer, if_true, bind_eq_ok] at run
    obtain ⟨extraBuffer, _, r10, built⟩ := run
    cases built
    refine ⟨uncleCount, length, fun _ _ _ => ?_⟩
    rw [front, ExtraBuffer.inverts r10]
    simp only [Layout.side, newer, if_true, List.append_assoc]
  · simp only [newer, if_false, bind_eq_ok] at run
    obtain ⟨extraBuffer, _, r10, built⟩ := run
    cases built
    cases r10
    refine ⟨uncleCount, length, fun _ _ _ => ?_⟩
    rw [front]
    simp only [Layout.side, newer, if_false, List.append_assoc, List.nil_append]

end Layouts

/-! ## Extra fields that are written as they are read -/

section Extra

variable {rv : Reader UInt64} (shortest : Inverts rv fun v => uvarint v.toNat)
include shortest

theorem ExtraTag.readCounted_inverts {t tag : ExtraTag} {kind : UInt8} {limit : UInt64} {message : String}
    {unit : Nat} {input rest : Bytes}
    (read : t.readCountedWith rv kind limit message unit input = .ok (tag, rest)) :
    kind :: input = tag.appendBinary ++ rest := by
  simp only [ExtraTag.readCountedWith, monad_bind_eq, bind_eq_ok, check_eq_ok] at read
  obtain ⟨varInt, _, first, _, _, ⟨-, rfl⟩, data, _, second, built⟩ := read
  cases built
  rw [shortest first, inverts_full _ second]
  simp [ExtraTag.appendBinary, ExtraTag.header]

theorem ExtraTag.inverts {t tag : ExtraTag} {input rest : Bytes}
    (read : t.fromReaderWith rv input = .ok (tag, rest)) (notPadding : tag.tag ≠ txExtraTagPadding)
    (plainKey : tag.tag = txExtraTagPubKey → tag.hasVarInt = false) : input = tag.appendBinary ++ rest := by
  obtain ⟨kind, body, first, read⟩ := bind_eq_ok.mp read
  rw [inverts_byte first]
  split_ifs at read with padding pubKey nonce mergeMining additional minergate
  · simp only [monad_bind_eq, bind_eq_ok, check_eq_ok] at read
    obtain ⟨size, _, -, _, _, -, built⟩ := read
    split_ifs at built
    · cases built
    · cases built
      exact absurd padding notPadding
  · obtain ⟨data, _, second, built⟩ := bind_eq_ok.mp read
    cases built
    have plain : t.hasVarInt = false := plainKey pubKey
    rw [inverts_full 32 second]
    simp [ExtraTag.appendBinary, ExtraTag.header, plain]
  · exact ExtraTag.readCounted_inverts shortest read
  · simp only [monad_bind_eq, bind_eq_ok] at read
    obtain ⟨varInt, _, second, data, _, third, built⟩ := read
    cases built
    rw [shortest second, inverts_full _ third]
    simp [ExtraTag.appendBinary, ExtraTag.header]
  · exact ExtraTag.readCounted_inverts shortest read
  · exact ExtraTag.readCounted_inverts shortest read
  · cases read

theorem ExtraTags.loop_inverts : ∀ {fuel : Nat} {t all : ExtraTags} {tag : ExtraTag} {input rest : Bytes},
    ExtraTags.fromReaderLoopWith rv fuel t tag input = .ok (all, rest) →
    (∀ u ∈ all, u.tag ≠ txExtraTagPadding ∧ (u.tag = txExtraTagPubKey → u.hasVarInt = false)) →
    ∃ new tail, all = t ++ new ∧ input = ExtraTags.appendBinary new ++ tail
  | 0, t, _, _, input, _, run, _ => by
    cases run
    exact ⟨[], input, (List.append_nil t).symm, rfl⟩
  | fuel + 1, t, all, tag, input, rest, run, clean => by
    unfold ExtraTags.fromReaderLoopWith at run
    split at run
    · cases run
      exact ⟨[], input, (List.append_nil t).symm, rfl⟩
    · cases run
    · rename_i next more read
      split_ifs at run
      obtain ⟨new, tail, split, eq⟩ := ExtraTags.loop_inverts run clean
      rw [List.append_assoc] at split
      have listed : next ∈ all := by
        rw [split]
        simp
      obtain ⟨notPadding, plainKey⟩ := clean next listed
      refine ⟨next :: new, tail, split, ?_⟩
      rw [ExtraTag.inverts shortest read notPadding plainKey, eq]
      simp [ExtraTags.appendBinary, concatBytes]

theorem ExtraTags.appendBinary_of_clean {region : Bytes} {extra : ExtraTags}
    (run : ExtraTags.fromReaderWith rv region = .ok (extra, []))
    (clean : ∀ u ∈ extra, u.tag ≠ txExtraTagPadding ∧ (u.tag = txExtraTagPubKey → u.hasVarInt = false))
    (length : region.length = extra.bufferLength) : region = extra.appendBinary := by
  obtain ⟨new, tail, split, eq⟩ := ExtraTags.loop_inverts shortest run clean
  rw [List.nil_append] at split
  subst split
  have total := congrArg List.length eq
  rw [List.length_append, ExtraTags.appendBinary_length, length] at total
  obtain rfl : tail = [] := List.length_eq_zero_iff.mp (by omega)
  rw [eq, List.append_nil]

end Extra

end P2PoolObserver
