/-
# Sidechain.Canonical -- what an accepted byte string looks like

An input whose varints are minimal and which the decoder accepts is laid out as
the encoding of the decoded block, except for four things (`Layout`): the counts
it declares, the bytes of its extra field and what follows the block.  The input
is the encoding of what was decoded from it exactly when those agree and the
encoder accepts the version numbers (`unmarshalBinary_canonical_iff`).
-/
import P2PoolObserver.Monero.ExtraFormat

namespace P2PoolObserver

open Lib Lib.Reader

/-! ## Lossy extra fields -/

theorem readMinimal_stricter : Stricter readMinimal readUvarint := by
  intro input
  unfold readMinimal
  cases readUvarint input with
  | error e => exact .inl rfl
  | ok p =>
    dsimp only
    split_ifs
    · exact .inl rfl
    · exact .inr ⟨_, rfl⟩

theorem ExtraTag.stricter (t : ExtraTag) : Stricter (t.fromReaderWith readMinimal) (t.fromReaderWith readUvarint) := by
  have data : ∀ f : UInt64 → Reader ExtraTag, Stricter (readMinimal.bind f) (readUvarint.bind f) :=
    fun f => readMinimal_stricter.bind fun v => .refl (f v)
  refine (Stricter.refl readByte).bind fun tag => ?_
  split_ifs <;> first | exact .refl _ | exact data _

namespace ExtraTags

theorem fromReaderLoop_of_minimal : ∀ {fuel : Nat} {t : ExtraTags} {tag : ExtraTag} {input : Bytes}
    {r : ExtraTags × Bytes}, fromReaderLoopWith readMinimal fuel t tag input = .ok r →
    fromReaderLoopWith readUvarint fuel t tag input = .ok r
  | 0, _, _, _, _, run => run
  | fuel + 1, t, tag, input, r, run => by
    unfold fromReaderLoopWith at run ⊢
    rcases tag.stricter input with same | ⟨message, refused⟩
    · rw [← same]
      cases read : tag.fromReaderWith readMinimal input with
      | error e =>
        rw [read] at run
        cases e <;> exact run
      | ok p =>
        rw [read] at run
        dsimp only at run ⊢
        split_ifs at run ⊢
        exact fromReaderLoop_of_minimal run
    · rw [refused] at run
      cases run

variable {x : Bytes} {extra : ExtraTags}

theorem appendBinary_of_not_lossy (run : fromReaderWith readMinimal x = .ok (extra, []))
    (sound : ¬ Lossy x) : x = extra.appendBinary := by
  have plain : fromReader x = .ok (extra, []) := fromReaderLoop_of_minimal run
  exact ((readsWhole_of_not_lossy sound).minimal (run.trans plain.symm) _ _ plain).symm

theorem pubKeyFirst_carried_iff {tags : ExtraTags} {prev : ExtraTag} :
    PubKeyFirst (carried prev tags) ↔ PubKeyFirst tags := by
  have tails : ∀ us : ExtraTags, PubKeyFirst us ↔ txExtraTagPubKey ∉ (us.map ExtraTag.tag).tail := by
    simp only [PubKeyFirst, ← List.map_tail, List.mem_map, not_exists, not_and, ne_eq, implies_true]
  rw [tails, tails, map_tag_carried]

theorem not_lossy_of_appendBinary (run : fromReader x = .ok (extra, [])) (noPadding : NoPadding extra)
    (pubKeyFirst : PubKeyFirst extra) (whole : x = extra.appendBinary) : ¬ Lossy x := by
  rintro ⟨tags, front, tail, first, noPadding', nodup, rfl, ⟨rfl, notFirst⟩ | inside | ⟨n, few, rfl⟩⟩
  · rw [List.append_nil, fromReader_end first noPadding' nodup] at run
    cases run
    exact notFirst (pubKeyFirst_carried_iff.mp pubKeyFirst)
  · rw [fromReader_stops first noPadding' nodup inside] at run
    cases run
    have shaped := (shaped_carried_default_iff first.proper noPadding' nodup).mpr
      (pubKeyFirst_carried_iff.mp pubKeyFirst)
    have again := first.carried noPadding' shaped
    have ends : Encodes [] tail :=
      again.cancel noPadding (by rw [whole, List.append_nil]; exact encodes_appendBinary again.proper) noPadding rfl
    obtain rfl : tail = [] := ends
    obtain ⟨_, -, -, none | ⟨_, _, -, -, -, -, none⟩⟩ := inside <;> cases none
  · rw [fromReader_padding first noPadding' nodup few] at run
    split_ifs at run
    cases run
    exact noPadding _ (List.mem_append_right _ (.head _)) rfl

end ExtraTags

/-! ## Layouts are unique -/

namespace Layout

theorem bytes_inj {l l' : Layout} {b : PoolBlock} {rest : Bytes}
    (same : l.bytes b ++ rest = l'.bytes b ++ rest) : l = l' := by
  simp only [bytes, main, coinbase, side, List.append_assoc, List.append_cancel_left_eq] at same
  obtain ⟨outputCount, same⟩ := (uvarint_delimits trivial trivial).mp same
  rw [List.append_cancel_left_eq] at same
  obtain ⟨length, same⟩ := (uvarint_delimits trivial trivial).mp same
  obtain ⟨extra, same⟩ := List.append_inj same length
  rw [List.append_cancel_left_eq] at same
  obtain ⟨transactionCount, same⟩ := (uvarint_delimits trivial trivial).mp same
  simp only [List.append_cancel_left_eq] at same
  obtain ⟨uncleCount, -⟩ := (uvarint_delimits trivial trivial).mp same
  cases l
  cases l'
  simp only [UInt64.toNat_inj] at outputCount transactionCount uncleCount extra
  rw [outputCount, extra, transactionCount, uncleCount]

def ofBlock (b : PoolBlock) : Layout where
  outputCount := UInt64.ofNat b.main.coinbase.outputs.length
  extra := b.main.coinbase.extra.appendBinary
  transactionCount := UInt64.ofNat b.main.transactions.length
  uncleCount := UInt64.ofNat b.side.uncles.length

theorem bytes_ofBlock {b : PoolBlock} (outputs : b.main.coinbase.outputs.length < 2 ^ 63)
    (transactions : b.main.transactions.length < 2 ^ 63) (uncles : b.side.uncles.length < 2 ^ 63) :
    (ofBlock b).bytes b = b.encoding := by
  simp only [bytes, main, coinbase, side, ofBlock, toNat_ofNat_count outputs,
    toNat_ofNat_count transactions, toNat_ofNat_count uncles, ExtraTags.appendBinary_length,
    PoolBlock.encoding, MainBlock.encoding, CoinbaseTransaction.encoding, SideData.appendBinary,
    countedBytes]

end Layout

theorem loopCount_lt (count : UInt64) : loopCount count < 2 ^ 63 := by
  unfold loopCount
  split_ifs with small
  · exact small
  · decide

theorem loopCount_eq_iff {count : UInt64} : loopCount count = count.toNat ↔ count.toNat < 2 ^ 63 := by
  unfold loopCount
  split_ifs with small
  · exact iff_of_true rfl small
  · exact iff_of_false (by omega) small

/-! ## Versions -/

theorem forkVersion_mem (ahead : HardFork → Bool) {forks : List HardFork} (some' : forks ≠ []) :
    ∃ f ∈ forks, forkVersion ahead forks = f.version := by
  cases forks with
  | nil => exact absurd rfl some'
  | cons first rest =>
    refine ⟨(rest.takeWhile fun f => !ahead f).getLast?.getD first, ?_, rfl⟩
    cases last : (rest.takeWhile fun f => !ahead f).getLast? with
    | none => exact .head _
    | some f =>
      have taken := List.mem_of_getLast? last
      exact .tail _ ((List.takeWhile_sublist _).subset taken)

theorem networkMajorVersion_le {consensus : Consensus} {height : UInt64} {version : UInt8}
    (major : consensus.networkMajorVersion height = some version) : version ≤ hardForkSupportedVersion := by
  have bound : ∀ forks : List HardFork, forks ≠ [] →
      (∀ f ∈ forks, f.version ≤ hardForkSupportedVersion) →
      forkVersion (fun f => height < f.height) forks ≤ hardForkSupportedVersion := by
    intro forks some' all
    obtain ⟨f, mem, version⟩ := forkVersion_mem (fun f => height < f.height) some'
    rw [version]
    exact all f mem
  unfold Consensus.networkMajorVersion Consensus.networkHardFork at major
  cases network : consensus.networkType with
  | invalid =>
    rw [network] at major
    cases major
  | mainnet | testnet | stagenet =>
    rw [network] at major
    cases major
    exact bound _ nofun (by decide)

namespace PoolBlock

variable [Crypto] {consensus : Consensus}

/-- The layout `l` declares what was decoded from the input, up to counts beyond
`2 ^ 63` and up to the way the extra field is written. -/
structure LaidOut (rv : Reader UInt64) (l : Layout) (b : PoolBlock) : Prop where
  outputs : List.length b.main.coinbase.outputs = loopCount l.outputCount
  known : b.main.coinbase.outputs.Known
  transactions : b.main.transactions.length = loopCount l.transactionCount
  uncles : b.side.uncles.length = loopCount l.uncleCount
  extra : ExtraTags.fromReaderWith rv l.extra = .ok (b.main.coinbase.extra, [])
  majorVersion : b.main.majorVersion ≤ hardForkSupportedVersion

theorem laidOut {rv : Reader UInt64} (shortest : Inverts rv fun v => uvarint v.toNat)
    (consuming : Consuming rv) {input rest : Bytes} {b : PoolBlock}
    (run : fromReaderWith rv consensus input = .ok (b, rest)) (some' : b.main.coinbase.outputs ≠ []) :
    ∃ l, LaidOut rv l b ∧ input = l.bytes b ++ rest := by
  obtain ⟨main, middle, first, run⟩ := bind_eq_ok.mp run
  cases major : consensus.networkMajorVersion main.coinbase.genHeight with
  | none =>
    rw [major] at run
    cases run
  | some expected =>
    rw [major] at run
    obtain ⟨u, middle', checked, run⟩ := bind_eq_ok.mp run
    obtain ⟨same, rfl⟩ := check_eq_ok.mp checked
    split_ifs at run with missing
    · cases run
    · obtain ⟨side, after, second, built⟩ := bind_eq_ok.mp run
      obtain ⟨seed, key, filled, keepsSeed, keepsKey⟩ := fillPrivateKeys_frame
        { (default : PoolBlock) with
          main := main, side := side
          cachedShareVersion := consensus.p2poolShareVersion main.timestamp }
      cases built
      rw [filled] at some' ⊢
      obtain ⟨outputCount, transactionCount, region, outputs, known, transactions, tags, mainBytes⟩ :=
        MainBlock.inverts shortest consuming first some'
      obtain ⟨uncleCount, uncles, sideBytes⟩ := SideData.inverts shortest second
      refine ⟨⟨outputCount, region, transactionCount, uncleCount⟩,
        ⟨outputs, known, transactions, uncles, tags, same ▸ networkMajorVersion_le major⟩, ?_⟩
      rw [mainBytes uncleCount, sideBytes outputCount region transactionCount]
      -- the key filled in is the one that the encoding leaves out
      by_cases newer : consensus.p2poolShareVersion main.timestamp > shareVersionV1
      · have kept : seed = side.coinbasePrivateKeySeed := keepsSeed newer
        simp only [Layout.bytes, Layout.side, shareVersion, newer, if_true, kept, List.append_assoc]
      · have kept : key = side.coinbasePrivateKey := keepsKey newer
        simp only [Layout.bytes, Layout.side, shareVersion, newer, if_false, kept, List.append_assoc]

/-- No varint of the input is over-long: a decoder that refuses those does the same. -/
def MinimalVarints (consensus : Consensus) (x : Bytes) : Prop :=
  unmarshalBinaryWith readMinimal consensus x = unmarshalBinary consensus x

omit [Crypto] in
theorem minor_of_marshalBinary {b : PoolBlock} {x : Bytes} (encoded : b.marshalBinary = .ok x) :
    b.main.majorVersion ≤ b.main.minorVersion := by
  by_contra low
  have refused : ∃ message, b.main.appendBinaryFlags false false = .error message := by
    unfold MainBlock.appendBinaryFlags MainBlock.appendBinaryFlagsTo
    split_ifs with unsupported smaller
    · exact ⟨_, rfl⟩
    · exact ⟨_, rfl⟩
    · exact absurd (UInt8.not_le.mp low) smaller
  obtain ⟨message, refused⟩ := refused
  unfold marshalBinary appendBinaryFlags at encoded
  rw [refused] at encoded
  cases encoded

/-- An accepted input with minimal varints and some outputs declares a layout.  It
is the encoding of the decoded block, read to the end and with true counts, exactly
when nothing follows the block, the minor version is not below the major one, the
counts of transactions and uncles are below `2 ^ 63`, and the extra field is what
its tags encode to.  The last is so when the extra field is not lossy, and for tags
without padding and with a public key only in front it is so exactly then. -/
theorem unmarshalBinary_canonical_iff {x rest : Bytes} {b : PoolBlock}
    (accepted : unmarshalBinary consensus x = .ok (b, rest)) (minimal : MinimalVarints consensus x)
    (some' : b.main.coinbase.outputs ≠ []) :
    ∃ l : Layout, x = l.bytes b ++ rest ∧ (∀ l' : Layout, x = l'.bytes b ++ rest → l' = l) ∧
      ((l.outputCount.toNat = b.main.coinbase.outputs.length ∧
          l.transactionCount.toNat = b.main.transactions.length ∧
          l.uncleCount.toNat = b.side.uncles.length ∧ rest = [] ∧ b.marshalBinary = .ok x) ↔
        (rest = [] ∧ b.main.majorVersion ≤ b.main.minorVersion ∧ l.transactionCount.toNat < 2 ^ 63 ∧
          l.uncleCount.toNat < 2 ^ 63 ∧ l.extra = b.main.coinbase.extra.appendBinary)) ∧
      ((∀ u ∈ b.main.coinbase.extra,
          u.tag ≠ txExtraTagPadding ∧ (u.tag = txExtraTagPubKey → u.hasVarInt = false)) →
        l.extra.length = b.main.coinbase.extra.bufferLength →
          l.extra = b.main.coinbase.extra.appendBinary) ∧
      (¬ ExtraTags.Lossy l.extra → l.extra = b.main.coinbase.extra.appendBinary) ∧
      (b.main.coinbase.extra.NoPadding → b.main.coinbase.extra.PubKeyFirst →
        l.extra = b.main.coinbase.extra.appendBinary → ¬ ExtraTags.Lossy l.extra) := by
  have strict : unmarshalBinaryWith readMinimal consensus x = .ok (b, rest) := minimal.trans accepted
  unfold unmarshalBinaryWith at strict
  split_ifs at strict with large
  obtain ⟨l, laid, eq⟩ := laidOut readMinimal_inverts readMinimal_consuming strict some'
  refine ⟨l, eq, fun l' eq' => Layout.bytes_inj (eq'.symm.trans eq), ?_,
    ExtraTags.appendBinary_of_clean readMinimal_inverts laid.extra,
    ExtraTags.appendBinary_of_not_lossy laid.extra,
    ExtraTags.not_lossy_of_appendBinary (ExtraTags.fromReaderLoop_of_minimal laid.extra)⟩
  have canonical : (Layout.ofBlock b).bytes b = b.encoding := Layout.bytes_ofBlock
    (laid.outputs ▸ loopCount_lt _) (laid.transactions ▸ loopCount_lt _) (laid.uncles ▸ loopCount_lt _)
  constructor
  · rintro ⟨-, transactions, uncles, rfl, encoded⟩
    have minor := minor_of_marshalBinary encoded
    refine ⟨rfl, minor, ?_, ?_, ?_⟩
    · rw [transactions, laid.transactions]
      exact loopCount_lt _
    · rw [uncles, laid.uncles]
      exact loopCount_lt _
    · -- the input and the encoding are layouts of the same block
      have main := MainBlock.appendBinaryFlags_eq laid.known (UInt8.not_lt.mpr laid.majorVersion)
        (UInt8.not_lt.mpr minor)
      unfold marshalBinary appendBinaryFlags at encoded
      rw [main] at encoded
      dsimp only at encoded
      split_ifs at encoded
      have whole : l.bytes b ++ [] = (Layout.ofBlock b).bytes b ++ [] := by
        rw [← eq, canonical, List.append_nil]
        exact (Except.ok.inj encoded).symm
      rw [Layout.bytes_inj whole]
      rfl
  · rintro ⟨rfl, minor, transactions, uncles, extra⟩
    have outputCount : l.outputCount.toNat = b.main.coinbase.outputs.length := by
      have positive : 0 < b.main.coinbase.outputs.length := List.length_pos_iff.mpr some'
      rw [laid.outputs] at positive ⊢
      unfold loopCount at positive ⊢
      split_ifs at positive ⊢ <;> omega
    have transactionCount : l.transactionCount.toNat = b.main.transactions.length := by
      rw [laid.transactions, loopCount_eq_iff.mpr transactions]
    have uncleCount : l.uncleCount.toNat = b.side.uncles.length := by
      rw [laid.uncles, loopCount_eq_iff.mpr uncles]
    refine ⟨outputCount, transactionCount, uncleCount, rfl, ?_⟩
    have same : l = Layout.ofBlock b := by
      cases l
      simp only at outputCount transactionCount uncleCount extra
      simp [Layout.ofBlock, ← outputCount, ← transactionCount, ← uncleCount, extra]
    have encoding : x = b.encoding := by
      rw [eq, same, canonical, List.append_nil]
    have main := MainBlock.appendBinaryFlags_eq laid.known (UInt8.not_lt.mpr laid.majorVersion)
      (UInt8.not_lt.mpr minor)
    unfold marshalBinary appendBinaryFlags
    have small : ¬ b.encoding.length > poolBlockMaxTemplateSize := encoding ▸ large
    rw [main, encoding]
    exact if_neg small

end PoolBlock

namespace CanonicalExample

open RoundTripExample

theorem block_extra : ExtraTags.fromReaderWith readMinimal block.main.coinbase.extra.appendBinary =
      .ok (block.main.coinbase.extra, []) := by
  decide +kernel

theorem block_size : block.encoding.length + 1 ≤ poolBlockMaxTemplateSize := by
  decide +kernel

theorem accepts_block (rest : Bytes) (short : rest.length ≤ 1) :
    @PoolBlock.unmarshalBinary crypto consensusMini (block.encoding ++ rest) =
        .ok (@PoolBlock.decoded crypto block, rest) ∧
      @PoolBlock.MinimalVarints crypto consensusMini (block.encoding ++ rest) := by
  have size : ¬ (block.encoding ++ rest).length > poolBlockMaxTemplateSize := by
    have := block_size
    rw [List.length_append]
    omega
  have plain := @PoolBlock.reads crypto consensusMini block _ reads_uvarint64 block_encodable
    (@PoolBlock.Encodable.extra_rest crypto consensusMini block block_encodable) rest
  have strict := @PoolBlock.reads crypto consensusMini block _ readMinimal_reads block_encodable
    block_extra rest
  have accepted : @PoolBlock.unmarshalBinary crypto consensusMini (block.encoding ++ rest) =
      .ok (@PoolBlock.decoded crypto block, rest) := by
    rw [← @unmarshalBinaryWith_readUvarint crypto]
    exact (if_neg size).trans plain
  exact ⟨accepted, ((if_neg size).trans strict).trans accepted.symm⟩

theorem unmarshalBinary_canonical_iff_block :
    ∃ (l : Layout) (d : PoolBlock), block.encoding ++ [] = l.bytes d ++ [] ∧
      (∀ l' : Layout, block.encoding ++ [] = l'.bytes d ++ [] → l' = l) ∧
      l.outputCount.toNat = 2 ∧ l.transactionCount.toNat = 1 ∧ l.uncleCount.toNat = 1 ∧
      l.extra = d.main.coinbase.extra.appendBinary ∧ ¬ ExtraTags.Lossy l.extra ∧
      d.marshalBinary = .ok (block.encoding ++ []) := by
  obtain ⟨accepted, minimal⟩ := accepts_block [] (Nat.zero_le _)
  obtain ⟨l, laid, unique, canonical, clean, whole, lossless⟩ :=
    @PoolBlock.unmarshalBinary_canonical_iff crypto consensusMini _ _ _ accepted minimal nofun
  obtain rfl := unique (.ofBlock (@PoolBlock.decoded crypto block)) (by decide +kernel)
  have sound := lossless (by unfold ExtraTags.NoPadding; decide +kernel)
    (by unfold ExtraTags.PubKeyFirst; decide +kernel) (clean (by decide +kernel) (by decide +kernel))
  have extra := whole sound
  obtain ⟨outputs, transactions, uncles, -, encoded⟩ :=
    canonical.mpr ⟨rfl, by decide, by decide, by decide, extra⟩
  exact ⟨_, _, laid, unique, outputs, transactions, uncles, extra, sound, encoded⟩

/-- A byte after the block is accepted and never read. -/
theorem trailingByte_unread :
    ∃ x b rest, @PoolBlock.unmarshalBinary crypto consensusMini x = .ok (b, rest) ∧
      @PoolBlock.MinimalVarints crypto consensusMini x ∧ b.main.coinbase.outputs ≠ [] ∧ rest ≠ [] := by
  obtain ⟨accepted, minimal⟩ := accepts_block [0] (Nat.le_refl 1)
  exact ⟨_, _, _, accepted, minimal, nofun, nofun⟩

end CanonicalExample

end P2PoolObserver
