/-
# Sidechain.TemplateId -- what a template id commits to

The bytes hashed by `CalculateSideTemplateId` are the main block with nonce, extra nonce and
template id zeroed, then the side data, then the consensus id.  None of the parts is preceded by
its length, except for the transaction extra data, whose tags are in turn not counted.
-/
import P2PoolObserver.Sidechain.PoolBlock
import P2PoolObserver.Lib.Lists

namespace P2PoolObserver

open Lib

/-! ## Words of fixed types -/

theorem bytes32_delimits : Delimits (fun _ : Bytes32 => True) Eq Bytes32.bytes :=
  delimits_of_length 32 (fun h _ => Bytes32.bytes_length h) fun _ _ _ _ => Bytes32.bytes_inj

theorem uint64_delimits : Delimits (fun _ : UInt64 => True) Eq (fun x => uvarint x.toNat) := by
  intro a b _ _ r s
  rw [uvarint_delimits trivial trivial, UInt64.toNat_inj]

theorem uint32_delimits : Delimits (fun _ : UInt32 => True) Eq (fun x => leBytes 4 x.toNat) := by
  intro a b _ _ r s
  rw [leBytes_delimits 4 a.toNat_lt b.toNat_lt, UInt32.toNat_inj]

/-! ## Outputs -/

/-- The fields of an output that its encoding writes. -/
structure Output.SameContent (o p : Output) : Prop where
  reward : o.reward = p.reward
  type : o.type = p.type
  ephemeralPublicKey : o.ephemeralPublicKey = p.ephemeralPublicKey
  viewTag : o.type = txOutToTaggedKey → o.viewTag = p.viewTag

theorem Output.bytes_delimits :
    Delimits (fun o : Output => o.type = txOutToTaggedKey ∨ o.type = txOutToKey)
      Output.SameContent Output.bytes := by
  -- the view tag is the last byte, and written for one type only
  have front : Delimits (fun o : Output => o.type = txOutToTaggedKey ∨ o.type = txOutToKey)
      (fun o p => (o.reward = p.reward ∧ o.type = p.type) ∧
        o.ephemeralPublicKey = p.ephemeralPublicKey)
      (fun o => uvarint o.reward.toNat ++ [o.type] ++ o.ephemeralPublicKey.bytes) :=
    ((uint64_delimits.part Output.reward).append' (byte_delimits.part Output.type)).append'
      (bytes32_delimits.part Output.ephemeralPublicKey)
  have whole := front.append (S := fun o p => o.type = txOutToTaggedKey → o.viewTag = p.viewTag)
    (e := fun o => if o.type = txOutToTaggedKey then [o.viewTag] else []) <| by
      rintro o p - - ⟨⟨-, same⟩, -⟩ r s
      rw [← same]
      by_cases tagged : o.type = txOutToTaggedKey <;> simp [tagged]
  refine whole.congr (fun q known => ?_) fun o p _ _ => ⟨fun h => ?_, fun h => ?_⟩
  · rcases known with h | h <;> simp [Output.bytes, Output.encode, h]
  · exact ⟨⟨⟨h.reward, h.type⟩, h.ephemeralPublicKey⟩, h.viewTag⟩
  · exact ⟨h.1.1.1, h.1.1.2, h.1.2, h.2⟩

/-! ## Extra tags -/

namespace ExtraTag

def kinds : List UInt8 :=
  [txExtraTagPadding, txExtraTagPubKey, txExtraTagNonce, txExtraTagMergeMining,
    txExtraTagAdditionalPubKeys, txExtraTagMysteriousMinergate]

def kindHasVarInt (tag : UInt8) : Bool := tag != txExtraTagPadding && tag != txExtraTagPubKey

def kindLength (tag : UInt8) (varInt : UInt64) : Nat :=
  if tag = txExtraTagPubKey ∨ tag = txExtraTagMergeMining then 32
  else if tag = txExtraTagAdditionalPubKeys then hashSize * varInt.toNat
  else varInt.toNat

def kindLimit (tag : UInt8) : Option UInt64 :=
  if tag = txExtraTagNonce ∨ tag = txExtraTagMysteriousMinergate then some txExtraNonceMaxCount
  else if tag = txExtraTagAdditionalPubKeys then some txExtraAdditionalPubKeysMaxCount
  else none

/-- A tag with the varint and the length of its kind. -/
structure Shaped (t : ExtraTag) : Prop where
  kind : t.tag ∈ kinds
  hasVarInt : t.hasVarInt = kindHasVarInt t.tag
  padding : t.tag = txExtraTagPadding → t.data.length + 2 ≤ txExtraPaddingMaxCount
  length : t.tag ≠ txExtraTagPadding → t.data.length = kindLength t.tag t.varInt
  limit : ∀ max ∈ kindLimit t.tag, t.varInt ≤ max

structure WellFormed (t : ExtraTag) : Prop extends Shaped t where
  zeros : t.tag = txExtraTagPadding → t.data = List.replicate t.data.length 0

structure SameContent (t u : ExtraTag) : Prop where
  tag : t.tag = u.tag
  varInt : t.hasVarInt = true → t.varInt = u.varInt
  data : t.tag ≠ txExtraTagNonce → t.tag ≠ txExtraTagMergeMining → t.data = u.data
  nonce : t.tag = txExtraTagNonce →
    t.data.drop txExtraTemplateNonceSize = u.data.drop txExtraTemplateNonceSize

theorem wellFormed_of_kind {t : ExtraTag} (tag : UInt8) (same : t.tag = tag) (kind : tag ∈ kinds)
    (data : tag ≠ txExtraTagPadding) (hasVarInt : t.hasVarInt = kindHasVarInt tag)
    (length : t.data.length = kindLength tag t.varInt)
    (limit : ∀ max ∈ kindLimit tag, t.varInt ≤ max) : t.WellFormed := by
  subst same
  exact ⟨⟨kind, hasVarInt, fun padding => absurd padding data, fun _ => length, limit⟩,
    fun padding => absurd padding data⟩

theorem hashingData_eq_iff {t u : ExtraTag} (tag : t.tag = u.tag) (length : t.data.length = u.data.length) :
    t.hashingData true = u.hashingData true ↔
      (t.tag ≠ txExtraTagNonce → t.tag ≠ txExtraTagMergeMining → t.data = u.data) ∧ (t.tag = txExtraTagNonce →
        t.data.drop txExtraTemplateNonceSize = u.data.drop txExtraTemplateNonceSize) := by
  have apart : txExtraTagMergeMining ≠ txExtraTagNonce := by decide
  unfold hashingData
  rw [← tag, ← length]
  by_cases mergeMining : t.tag = txExtraTagMergeMining
  · simp [mergeMining, apart]
  · by_cases nonce : t.tag = txExtraTagNonce
    · simp [nonce, apart.symm]
    · simp [mergeMining, nonce]

theorem kindLength_congr {t u : ExtraTag} (ht : t.Shaped) (tag : t.tag = u.tag)
    (data : t.tag ≠ txExtraTagPadding) (varInt : t.hasVarInt = true → t.varInt = u.varInt) :
    kindLength t.tag t.varInt = kindLength u.tag u.varInt := by
  rw [← tag]
  cases has : t.hasVarInt with
  | true => rw [varInt has]
  | false =>
    have shape := ht.hasVarInt
    rw [has] at shape
    have pubKey : t.tag = txExtraTagPubKey := by
      simpa [kindHasVarInt, data, eq_comm (a := false)] using shape
    simp [kindLength, pubKey]

theorem sideChainHashingBlob_delimits :
    Delimits (fun t : ExtraTag => t.Shaped ∧ t.tag ≠ txExtraTagPadding) SameContent
      (fun t => t.sideChainHashingBlob true) := by
  have front := (byte_delimits.part (Q := fun t : ExtraTag => t.Shaped ∧ t.tag ≠ txExtraTagPadding)
    ExtraTag.tag).append (S := fun t u => t.hasVarInt = true → t.varInt = u.varInt)
      (e := fun t => if t.hasVarInt then uvarint t.varInt.toNat else []) <| by
    intro t u ht hu tag r s
    rw [show u.hasVarInt = t.hasVarInt by rw [ht.1.hasVarInt, hu.1.hasVarInt, tag]]
    cases t.hasVarInt with
    | true =>
      have varInt := uint64_delimits (a := t.varInt) (b := u.varInt) trivial trivial (r := r) (s := s)
      simpa using varInt
    | false => simp
  have whole := front.append (e := fun t => t.hashingData true)
      (S := fun t u => t.hashingData true = u.hashingData true) <| by
    intro t u ht hu agree r s
    have length : t.data.length = u.data.length := by
      rw [ht.1.length ht.2, hu.1.length hu.2]
      exact kindLength_congr ht.1 agree.1 ht.2 agree.2
    constructor
    · intro same
      exact List.append_inj same (by simp [length])
    · rintro ⟨same, rfl⟩
      rw [same]
  refine whole.congr (fun t _ => rfl) fun t u ht hu => ⟨fun agree => ?_, fun agree => ?_⟩
  · have length : t.data.length = u.data.length := by
      rw [ht.1.length ht.2, hu.1.length hu.2]
      exact kindLength_congr ht.1 agree.tag ht.2 agree.varInt
    exact ⟨⟨agree.tag, agree.varInt⟩,
      (hashingData_eq_iff agree.tag length).mpr ⟨agree.data, agree.nonce⟩⟩
  · obtain ⟨⟨tag, varInt⟩, same⟩ := agree
    have length : t.data.length = u.data.length := by simpa using congrArg List.length same
    obtain ⟨data, nonce⟩ := (hashingData_eq_iff tag length).mp same
    exact ⟨tag, varInt, data, nonce⟩

theorem sideChainHashingBlob_padding {t : ExtraTag} (ht : t.WellFormed) (padding : t.tag = txExtraTagPadding) :
    t.sideChainHashingBlob true = List.replicate (t.data.length + 1) 0 := by
  have bare : t.hasVarInt = false := by
    rw [ht.hasVarInt, padding]
    rfl
  have header : t.header = [0] := by
    simp [header, bare, padding, txExtraTagPadding]
  have data : t.hashingData true = t.data := by
    unfold hashingData
    rw [padding]
    rfl
  rw [sideChainHashingBlob, header, data, List.replicate_succ, ← ht.zeros padding]
  rfl

theorem sideChainHashingBlob_length (t : ExtraTag) (zeroTemplateId : Bool) :
    (t.sideChainHashingBlob zeroTemplateId).length = t.bufferLength := by
  unfold sideChainHashingBlob header bufferLength
  cases t.hasVarInt with
  | true => simp [uvarint_length t.varInt.toNat_lt]; omega
  | false => simp; omega

end ExtraTag

namespace ExtraTags

structure WellFormed (xs : ExtraTags) : Prop where
  each : ∀ t ∈ xs, t.WellFormed
  distinct : (xs.map ExtraTag.tag).Nodup

theorem WellFormed.tail {t : ExtraTag} {xs : ExtraTags} (h : WellFormed (t :: xs)) : WellFormed xs :=
  ⟨fun u mem => h.each u (.tail t mem), (List.nodup_cons.mp h.distinct).2⟩

theorem sideChainHashingBlob_length (xs : ExtraTags) (zeroTemplateId : Bool) :
    (sideChainHashingBlob xs zeroTemplateId).length = bufferLength xs := by
  induction xs with
  | nil => rfl
  | cons t xs ih =>
    simp only [sideChainHashingBlob, concatBytes, List.flatMap_cons, List.length_append,
      ExtraTag.sideChainHashingBlob_length, bufferLength, List.map_cons, List.sum_cons] at ih ⊢
    rw [ih]

theorem sideChainHashingBlob_cons (t : ExtraTag) (xs : ExtraTags) : sideChainHashingBlob (t :: xs) true =
      t.sideChainHashingBlob true ++ sideChainHashingBlob xs true := rfl

theorem head_sideChainHashingBlob_cons (t : ExtraTag) (xs : ExtraTags) :
    (sideChainHashingBlob (t :: xs) true).head? = some t.tag := rfl

theorem head_ne_zero_after_padding {t : ExtraTag} {xs : ExtraTags} (h : WellFormed (t :: xs))
    (padding : t.tag = txExtraTagPadding) : (sideChainHashingBlob xs true).head? ≠ some 0 := by
  cases xs with
  | nil => nofun
  | cons u xs =>
    rw [head_sideChainHashingBlob_cons]
    intro zero
    have fresh := (List.nodup_cons.mp h.distinct).1
    rw [padding, List.map_cons, show u.tag = txExtraTagPadding from Option.some.inj zero] at fresh
    exact fresh (.head _)

theorem sideChainHashingBlob_eq_iff : ∀ {xs ys : ExtraTags}, WellFormed xs → WellFormed ys →
    (sideChainHashingBlob xs true = sideChainHashingBlob ys true ↔ List.Forall₂ ExtraTag.SameContent xs ys)
  | [], [], _, _ => by simp [sideChainHashingBlob, concatBytes]
  | [], u :: ys, _, _ | u :: ys, [], _, _ => by
    refine iff_of_false (fun same => ?_) (fun related => by cases related)
    have heads := congrArg List.head? same
    rw [head_sideChainHashingBlob_cons] at heads
    cases heads
  | t :: xs, u :: ys, hx, hy => by
    have ih := sideChainHashingBlob_eq_iff hx.tail hy.tail
    have ht := hx.each t (.head _)
    have hu := hy.each u (.head _)
    rw [List.forall₂_cons, ← ih]
    by_cases tag : t.tag = u.tag
    · rw [sideChainHashingBlob_cons, sideChainHashingBlob_cons]
      by_cases padding : t.tag = txExtraTagPadding
      · have padding' : u.tag = txExtraTagPadding := tag ▸ padding
        rw [ExtraTag.sideChainHashingBlob_padding ht padding,
          ExtraTag.sideChainHashingBlob_padding hu padding']
        constructor
        · intro same
          obtain ⟨count, rest⟩ := replicate_append_inj (head_ne_zero_after_padding hx padding)
            (head_ne_zero_after_padding hy padding') same
          have data : t.data = u.data := by
            rw [ht.zeros padding, hu.zeros padding', Nat.succ.inj count]
          have bare : t.hasVarInt = false := by
            rw [ht.hasVarInt, padding]
            rfl
          exact ⟨⟨tag, by simp [bare], fun _ _ => data, fun _ => by rw [data]⟩, rest⟩
        · rintro ⟨same, rest⟩
          have data := same.data (by rw [padding]; decide) (by rw [padding]; decide)
          rw [data, rest]
      · exact ExtraTag.sideChainHashingBlob_delimits ⟨ht.toShaped, padding⟩
          ⟨hu.toShaped, tag ▸ padding⟩ (r := _) (s := _)
    · refine iff_of_false (fun same => tag ?_) (fun both => tag both.1.tag)
      have heads := congrArg List.head? same
      exact Option.some.inj heads

theorem sized_delimits : Delimits WellFormed (List.Forall₂ ExtraTag.SameContent)
    (fun xs => uvarint (bufferLength xs) ++ sideChainHashingBlob xs true) := by
  intro xs ys hx hy r s
  simp only [List.append_assoc]
  rw [uvarint_delimits trivial trivial, ← sideChainHashingBlob_eq_iff hx hy]
  constructor
  · rintro ⟨size, same⟩
    exact List.append_inj same (by simp only [sideChainHashingBlob_length, size])
  · rintro ⟨same, rfl⟩
    have size := congrArg List.length same
    simp only [sideChainHashingBlob_length] at size
    exact ⟨size, by rw [same]⟩

end ExtraTags

/-! ## Blocks -/

/-- The fields of a miner transaction that the hashed bytes keep. -/
structure CoinbaseTransaction.SameContent (c d : CoinbaseTransaction) : Prop where
  version : c.version = d.version
  unlockTime : c.unlockTime = d.unlockTime
  inputCount : c.inputCount = d.inputCount
  inputType : c.inputType = d.inputType
  genHeight : c.genHeight = d.genHeight
  outputs : List.Forall₂ Output.SameContent c.outputs d.outputs
  extra : List.Forall₂ ExtraTag.SameContent c.extra d.extra
  extraBaseRCT : c.extraBaseRCT = d.extraBaseRCT

/-- The fields of a main block that the hashed bytes keep: all but the nonce. -/
structure MainBlock.SameContent (a b : MainBlock) : Prop where
  majorVersion : a.majorVersion = b.majorVersion
  minorVersion : a.minorVersion = b.minorVersion
  timestamp : a.timestamp = b.timestamp
  previousId : a.previousId = b.previousId
  coinbase : a.coinbase.SameContent b.coinbase
  transactions : a.transactions = b.transactions

structure SideData.SameContent (version : ShareVersion) (a b : SideData) : Prop where
  publicKey : a.publicKey = b.publicKey
  coinbasePrivateKeySeed : version > shareVersionV1 →
    a.coinbasePrivateKeySeed = b.coinbasePrivateKeySeed
  coinbasePrivateKey : ¬ version > shareVersionV1 → a.coinbasePrivateKey = b.coinbasePrivateKey
  parent : a.parent = b.parent
  uncles : a.uncles = b.uncles
  height : a.height = b.height
  difficulty : a.difficulty = b.difficulty
  cumulativeDifficulty : a.cumulativeDifficulty = b.cumulativeDifficulty
  extraBuffer : version > shareVersionV1 → a.extraBuffer = b.extraBuffer

structure MainBlock.Hashable (b : MainBlock) : Prop where
  outputs : b.coinbase.outputs.Known
  extra : b.coinbase.extra.WellFormed

theorem CoinbaseTransaction.sideChainHashingBlob_delimits :
    Delimits (fun c : CoinbaseTransaction => c.outputs.Known ∧ c.extra.WellFormed)
      CoinbaseTransaction.SameContent (fun c => c.sideChainHashingBlob [] true) := by
  have header : Delimits (fun c : CoinbaseTransaction => c.outputs.Known ∧ c.extra.WellFormed) _
      CoinbaseTransaction.header :=
    ((((byte_delimits.part version).append' (uint64_delimits.part unlockTime)).append'
      (byte_delimits.part inputCount)).append' (byte_delimits.part inputType)).append'
        (uint64_delimits.part genHeight)
  have whole := ((header.append' ((countedBytes_delimits Output.bytes_delimits).comap outputs
    fun _ h => h.1)).append' (ExtraTags.sized_delimits.comap extra fun _ h => h.2)).append'
      (byte_delimits.part extraBaseRCT)
  refine whole.congr (fun c hc => ?_) fun c d _ _ => ⟨fun h => ?_, fun h => ?_⟩
  · rw [sideChainHashingBlob_of_known hc.1]
    simp only [List.nil_append, List.append_assoc]
  · exact ⟨⟨⟨⟨⟨⟨⟨h.version, h.unlockTime⟩, h.inputCount⟩, h.inputType⟩, h.genHeight⟩, h.outputs⟩,
      h.extra⟩, h.extraBaseRCT⟩
  · obtain ⟨⟨⟨⟨⟨⟨⟨h1, h2⟩, h3⟩, h4⟩, h5⟩, h6⟩, h7⟩, h8⟩ := h
    exact ⟨h1, h2, h3, h4, h5, h6, h7, h8⟩

theorem MainBlock.sideChainHashingBlob_delimits :
    Delimits MainBlock.Hashable MainBlock.SameContent (fun b => b.sideChainHashingBlob true) := by
  have header : Delimits MainBlock.Hashable _ (fun b => b.headerBlob 0) :=
    ((((byte_delimits.part majorVersion).append' (byte_delimits.part minorVersion)).append'
      (uint64_delimits.part timestamp)).append' (bytes32_delimits.part previousId)).append'
        (const_delimits (leBytes 4 0))
  have whole := (header.append' (CoinbaseTransaction.sideChainHashingBlob_delimits.comap coinbase
    fun _ h => ⟨h.outputs, h.extra⟩)).append'
      ((countedBytes_delimits bytes32_delimits).comap transactions fun _ _ _ _ => trivial)
  refine whole.congr (fun b hb => ?_) fun a b _ _ => ⟨fun h => ?_, fun h => ?_⟩
  · rw [sideChainHashingBlob_of_known hb.outputs,
      CoinbaseTransaction.sideChainHashingBlob_of_known hb.outputs]
    simp only [List.nil_append, List.append_assoc]
  · exact ⟨⟨⟨⟨⟨⟨h.majorVersion, h.minorVersion⟩, h.timestamp⟩, h.previousId⟩, trivial⟩, h.coinbase⟩,
      List.forall₂_eq_eq_eq.symm ▸ h.transactions⟩
  · obtain ⟨⟨⟨⟨⟨⟨h1, h2⟩, h3⟩, h4⟩, -⟩, h5⟩, h6⟩ := h
    exact ⟨h1, h2, h3, h4, h5, List.forall₂_eq_eq_eq ▸ h6⟩

theorem Difficulty.encode_delimits :
    Delimits (fun _ : Difficulty => True) Eq SideData.encodeDifficulty :=
  ((uint64_delimits.part lo).append' (uint64_delimits.part hi)).congr (fun _ _ => rfl)
    fun _ _ _ _ => Difficulty.ext_iff

theorem ExtraBuffer.encode_delimits : Delimits (fun _ : ExtraBuffer => True) Eq ExtraBuffer.encode := by
  have fields := (((uint32_delimits.part softwareId).append' (uint32_delimits.part softwareVersion)).append'
    (uint32_delimits.part randomNumber)).append' (uint32_delimits.part (Q := fun _ => True)
      sideChainExtraNonce)
  refine fields.congr (fun _ _ => rfl) fun a b _ _ => ?_
  simp only [ExtraBuffer.ext_iff, and_assoc]

theorem SideData.appendBinary_delimits (version : ShareVersion) :
    Delimits (fun _ => True) (SideData.SameContent version) (fun b => b.appendBinary version) := by
  have keys := ((bytes32_delimits.part fun b : SideData => b.publicKey.spend).append'
    (bytes32_delimits.part fun b : SideData => b.publicKey.view)).append'
      ((bytes32_delimits.part coinbasePrivateKeySeed).ite (version > shareVersionV1)
        (bytes32_delimits.part (Q := fun _ => True) coinbasePrivateKey))
  have links := ((keys.append' (bytes32_delimits.part parent)).append'
    ((countedBytes_delimits bytes32_delimits).comap uncles fun _ _ _ _ => trivial)).append'
      (uint64_delimits.part height)
  have whole := ((links.append' (Difficulty.encode_delimits.part difficulty)).append'
    (Difficulty.encode_delimits.part cumulativeDifficulty)).append'
      ((ExtraBuffer.encode_delimits.part extraBuffer).ite (version > shareVersionV1)
        (const_delimits []))
  refine whole.congr (fun b _ => rfl) fun a b _ _ => ⟨fun h => ?_, fun h => ?_⟩
  · have key := PackedAddress.ext_iff.mp h.publicKey
    exact ⟨⟨⟨⟨⟨⟨⟨key, h.coinbasePrivateKeySeed, h.coinbasePrivateKey⟩, h.parent⟩,
      List.forall₂_eq_eq_eq.symm ▸ h.uncles⟩, h.height⟩, h.difficulty⟩, h.cumulativeDifficulty⟩,
      h.extraBuffer, fun _ => trivial⟩
  · obtain ⟨⟨⟨⟨⟨⟨⟨key, h1, h2⟩, h3⟩, h4⟩, h5⟩, h6⟩, h7⟩, h8, -⟩ := h
    exact ⟨PackedAddress.ext_iff.mpr key, h1, h2, h3, List.forall₂_eq_eq_eq ▸ h4, h5, h6, h7, h8⟩

/-- The bytes hashed into the template ids of two blocks are equal if and only if
the blocks agree on every field the full encoding writes, except the nonce, the
first four bytes of the extra nonce and the merge-mining data. -/
theorem templateIdBlob_eq_iff {consensus : Consensus} {a b : PoolBlock}
    (ha : a.main.Hashable) (hb : b.main.Hashable)
    (versionA : a.cachedShareVersion = a.calculateShareVersion consensus)
    (versionB : b.cachedShareVersion = b.calculateShareVersion consensus) :
    PoolBlock.templateIdBlob consensus a = PoolBlock.templateIdBlob consensus b ↔
      a.main.SameContent b.main ∧ a.side.SameContent a.cachedShareVersion b.side := by
  unfold PoolBlock.templateIdBlob
  rw [List.append_left_inj]
  have main := MainBlock.sideChainHashingBlob_delimits ha hb
    (r := a.side.appendBinary a.shareVersion) (s := b.side.appendBinary b.shareVersion)
  refine main.trans (and_congr_right fun same => ?_)
  -- equal timestamps put both blocks under the same version of the side data
  have version : b.shareVersion = a.cachedShareVersion := by
    rw [PoolBlock.shareVersion, versionA, versionB]
    unfold PoolBlock.calculateShareVersion
    rw [same.timestamp]
  rw [version]
  exact (SideData.appendBinary_delimits a.cachedShareVersion).eq_iff trivial trivial

namespace TemplateExample

def block (nonce : UInt32) (extra : ExtraTags) : PoolBlock :=
  { (default : PoolBlock) with
    main := { (default : MainBlock) with
      nonce := nonce
      coinbase := { (default : CoinbaseTransaction) with
        outputs := [⟨0, 600000000000, 7, txOutToTaggedKey, 5⟩]
        extra := extra } }
    cachedShareVersion := consensusMini.p2poolShareVersion 0 }

def pubKey : ExtraTag := ⟨0, txExtraTagPubKey, false, List.replicate 32 7⟩

def extraNonce (low : UInt8) : ExtraTag := ⟨8, txExtraTagNonce, true, [low, 0, 0, 0, 1, 2, 3, 4]⟩

def padding (data : Bytes) : ExtraTag := ⟨0, txExtraTagPadding, false, data⟩

theorem pubKey_wellFormed : pubKey.WellFormed :=
  ExtraTag.wellFormed_of_kind txExtraTagPubKey rfl (by decide) (by decide) rfl rfl nofun

theorem extraNonce_wellFormed (low : UInt8) : (extraNonce low).WellFormed :=
  ExtraTag.wellFormed_of_kind txExtraTagNonce rfl (by decide) (by decide) rfl rfl
    fun max limit => by
      cases limit
      show (8 : UInt64) ≤ txExtraNonceMaxCount
      decide

theorem padding_shaped {data : Bytes} (short : data.length + 2 ≤ txExtraPaddingMaxCount) :
    (padding data).Shaped :=
  ⟨.head _, rfl, fun _ => short, fun data => absurd rfl data, nofun⟩

theorem block_known (nonce : UInt32) (extra : ExtraTags) : (block nonce extra).main.coinbase.outputs.Known := by
  intro o mem
  rw [show (block nonce extra).main.coinbase.outputs = [⟨0, 600000000000, 7, txOutToTaggedKey, 5⟩]
    from rfl, List.mem_singleton] at mem
  rw [mem]
  exact .inl rfl

theorem block_hashable (nonce : UInt32) (low : UInt8) :
    (block nonce [pubKey, extraNonce low]).main.Hashable := by
  refine ⟨block_known nonce _, ?_, ?_⟩
  · intro t mem
    rcases List.mem_cons.mp mem with rfl | mem
    · exact pubKey_wellFormed
    · rw [List.mem_singleton.mp mem]
      exact extraNonce_wellFormed low
  · show [txExtraTagPubKey, txExtraTagNonce].Nodup
    decide

def shown : PoolBlock := block 0 [padding [], pubKey]

def concealed : PoolBlock := block 0 [padding (txExtraTagPubKey :: List.replicate 32 7)]

end TemplateExample

open TemplateExample in
/-- Mining on with another nonce and extra nonce keeps the bytes. -/
theorem templateIdBlob_eq_iff_remined :
    PoolBlock.templateIdBlob consensusMini (block 1 [pubKey, extraNonce 1]) =
      PoolBlock.templateIdBlob consensusMini (block 2 [pubKey, extraNonce 9]) := by
  refine (templateIdBlob_eq_iff (block_hashable 1 1) (block_hashable 2 9) rfl rfl).mpr ⟨?_, ?_⟩
  · refine ⟨rfl, rfl, rfl, rfl, ⟨rfl, rfl, rfl, rfl, rfl, ?_, ?_, rfl⟩, rfl⟩
    · exact .cons ⟨rfl, rfl, rfl, fun _ => rfl⟩ .nil
    · refine .cons ⟨rfl, fun _ => rfl, fun _ _ => rfl, fun _ => rfl⟩ (.cons ?_ .nil)
      exact ⟨rfl, fun _ => rfl, fun other => absurd rfl other, fun _ => rfl⟩
  · exact ⟨rfl, fun _ => rfl, fun _ => rfl, rfl, rfl, rfl, rfl, rfl, fun _ => rfl⟩

open TemplateExample in
/-- With a payload that is not zeros a padding tag can hold the bytes of another
tag: every tag keeps the shape of its kind, the hashed bytes are the same, and one
block has a public key where the other has none. -/
theorem paddingPayload_collides :
    shown.main.coinbase.outputs.Known ∧ concealed.main.coinbase.outputs.Known ∧
      (∀ t ∈ shown.main.coinbase.extra, t.Shaped) ∧ (∀ t ∈ concealed.main.coinbase.extra, t.Shaped) ∧
      (shown.main.coinbase.extra.map ExtraTag.tag).Nodup ∧
      (concealed.main.coinbase.extra.map ExtraTag.tag).Nodup ∧
      shown.cachedShareVersion = shown.calculateShareVersion consensusMini ∧
      concealed.cachedShareVersion = concealed.calculateShareVersion consensusMini ∧
      PoolBlock.templateIdBlob consensusMini shown = PoolBlock.templateIdBlob consensusMini concealed ∧
      ¬ shown.main.SameContent concealed.main := by
  refine ⟨block_known 0 _, block_known 0 _, ?_, ?_, by decide, by decide, rfl, rfl,
    by decide +kernel, fun same => nomatch same.coinbase.extra⟩
  · intro t mem
    rcases List.mem_cons.mp mem with rfl | mem
    · exact padding_shaped (by decide)
    · rw [List.mem_singleton.mp mem]
      exact pubKey_wellFormed.toShaped
  · intro t mem
    rw [List.mem_singleton.mp mem]
    exact padding_shaped (by decide)

end P2PoolObserver
