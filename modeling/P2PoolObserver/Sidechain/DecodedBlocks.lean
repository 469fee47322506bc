/-
# Sidechain.DecodedBlocks -- what a decoded block is known to have (`poolblock.go`)

`FromReader` and `FromCompactReader` test the merge-mining tag with
`t == nil && t.VarInt != 32`: a missing tag is dereferenced and every depth passes.

A block they accept has the tag, with 32 bytes of data, but not always an extra nonce, of which
`FullId` slices the first four bytes (`fullIdArray_decoded_iff`).
-/
import P2PoolObserver.Lib.Slice
import P2PoolObserver.Monero.ExtraFormat

namespace P2PoolObserver

open Lib Lib.Reader

/-! ## No other panics -/

theorem ExtraBuffer.normal_fromReader : Normal ExtraBuffer.fromReader := by
  have word : Normal ExtraBuffer.readUint32 := normal_bind (normal_full 4) fun _ => normal_pure _
  exact normal_bind word fun _ => normal_bind word fun _ => normal_bind word fun _ =>
    normal_bind word fun _ => normal_pure _

theorem SideData.normal_fromReader (version : ShareVersion) : Normal (SideData.fromReader version) := by
  have bytes : Normal SideData.readBytes32 := normal_bind (normal_full 32) fun _ => normal_pure _
  have difficulty : Normal SideData.readDifficulty :=
    normal_bind normal_uvarint fun _ => normal_bind normal_uvarint fun _ => normal_pure _
  refine normal_bind bytes fun _ => normal_bind bytes fun _ => normal_bind bytes fun _ =>
    normal_bind bytes fun _ => normal_bind normal_uvarint fun _ =>
    normal_bind (normal_many bytes _) fun _ => normal_bind normal_uvarint fun _ =>
    normal_bind difficulty fun _ => normal_bind difficulty fun _ => normal_ite ?_ ?_
  · exact normal_bind ExtraBuffer.normal_fromReader fun _ => normal_pure _
  · exact normal_bind (normal_pure _) fun _ => normal_pure _

/-! ## The merge-mining tag -/

def MainBlock.HasDepth (b : MainBlock) : Prop :=
  ∃ t, b.coinbase.extra.getTag txExtraTagMergeMining = some t ∧ t.varInt = 32

namespace PoolBlock

section Decode

variable [Crypto] (consensus : Consensus)

/-- The decoder after the test of the major version. -/
def afterVersion (main : MainBlock) : Reader PoolBlock :=
  if (main.coinbase.extra.getTag txExtraTagMergeMining).isNone then
    crash "invalid memory address or nil pointer dereference"
  else
    Reader.bind (SideData.fromReader (consensus.p2poolShareVersion main.timestamp)) fun side =>
      Reader.pure (fillPrivateKeys { (default : PoolBlock) with
        main, side, cachedShareVersion := consensus.p2poolShareVersion main.timestamp })

def afterMain (main : MainBlock) : Reader PoolBlock :=
  match consensus.networkMajorVersion main.coinbase.genHeight with
  | none => crash "invalid network type for determining share version"
  | some expectedMajorVersion =>
    Reader.bind (check (expectedMajorVersion = main.majorVersion)
      ("expected major version " ++ toString expectedMajorVersion ++ " at height " ++
        toString main.coinbase.genHeight ++ ", got " ++ toString main.majorVersion)) fun _ =>
      afterVersion consensus main

theorem fromReaderFlags_eq (compact : Bool) : fromReaderFlags consensus compact =
      Reader.bind (MainBlock.fromReaderFlags compact) (afterMain consensus) := rfl

/-- How decoding goes on after a main block: a panic, an error, or a block around it. -/
inductive Outcome (main : MainBlock) (rest : Bytes) : Prop
  | network (invalid : consensus.networkType = .invalid)
      (run : afterMain consensus main rest =
        .error (.panicked "invalid network type for determining share version"))
  | version (valid : consensus.networkType ≠ .invalid)
      (other : consensus.networkMajorVersion main.coinbase.genHeight ≠ some main.majorVersion)
      (message : String) (run : afterMain consensus main rest = .error (.invalid message))
  | noTag (valid : consensus.networkType ≠ .invalid)
      (major : consensus.networkMajorVersion main.coinbase.genHeight = some main.majorVersion)
      (missing : main.coinbase.extra.getTag txExtraTagMergeMining = none)
      (run : afterMain consensus main rest =
        .error (.panicked "invalid memory address or nil pointer dereference"))
  | side (valid : consensus.networkType ≠ .invalid)
      (t : ExtraTag) (present : main.coinbase.extra.getTag txExtraTagMergeMining = some t)
      (e : ReadError) (normal : ∀ message, e ≠ .panicked message)
      (failed : SideData.fromReader (consensus.p2poolShareVersion main.timestamp) rest = .error e)
      (run : afterMain consensus main rest = .error e)
  | block (valid : consensus.networkType ≠ .invalid)
      (major : consensus.networkMajorVersion main.coinbase.genHeight = some main.majorVersion)
      (t : ExtraTag) (present : main.coinbase.extra.getTag txExtraTagMergeMining = some t)
      (side : SideData) (after : Bytes)
      (decoded : SideData.fromReader (consensus.p2poolShareVersion main.timestamp) rest =
        .ok (side, after))
      (b : PoolBlock) (same : b.main = main) (run : afterMain consensus main rest = .ok (b, after))

omit [Crypto] in
theorem networkMajorVersion_eq_none_iff (height : UInt64) :
    consensus.networkMajorVersion height = none ↔ consensus.networkType = .invalid := by
  rw [Consensus.networkMajorVersion, Option.map_eq_none_iff, Consensus.networkHardFork]
  cases consensus.networkType <;> simp

theorem outcome (main : MainBlock) (rest : Bytes) : Outcome consensus main rest := by
  have network := networkMajorVersion_eq_none_iff consensus main.coinbase.genHeight
  cases major : consensus.networkMajorVersion main.coinbase.genHeight with
  | none =>
    refine .network (network.mp major) ?_
    rw [afterMain, major]
    rfl
  | some expected =>
    have valid : consensus.networkType ≠ .invalid := by
      rw [ne_eq, ← network, major]
      exact Option.some_ne_none expected
    by_cases same : expected = main.majorVersion
    · have checked : ∀ message, check (expected = main.majorVersion) message rest = .ok ((), rest) :=
        fun message => check_eq_ok.mpr ⟨same, rfl⟩
      have after : afterMain consensus main rest = afterVersion consensus main rest := by
        rw [afterMain, major]
        exact bind_ok (checked _) _
      rw [afterVersion] at after
      cases present : main.coinbase.extra.getTag txExtraTagMergeMining with
      | none =>
        refine .noTag valid (by rw [major, same]) present ?_
        rw [after, present]
        rfl
      | some t =>
        rw [present, Option.isNone_some, if_neg Bool.false_ne_true] at after
        cases decoded : SideData.fromReader (consensus.p2poolShareVersion main.timestamp) rest with
        | error e =>
          refine .side valid t present e ?_ decoded ?_
          · rintro message rfl
            exact SideData.normal_fromReader _ rest message decoded
          · rw [after, Reader.bind, decoded]
        | ok p =>
          obtain ⟨side, tail⟩ := p
          rw [bind_ok decoded] at after
          obtain ⟨seed, key, filled, -, -⟩ := fillPrivateKeys_frame
            { (default : PoolBlock) with
              main, side, cachedShareVersion := consensus.p2poolShareVersion main.timestamp }
          refine .block valid (by rw [major, same]) t present side tail decoded _ ?_ after
          rw [filled]
    · refine .version valid (by rw [major, ne_eq, Option.some.injEq]; exact same)
        ("expected major version " ++ toString expected ++ " at height " ++
          toString main.coinbase.genHeight ++ ", got " ++ toString main.majorVersion) ?_
      rw [afterMain, major]
      simp only [Reader.bind, check, if_neg same]
      rfl

/-- What the test of the merge-mining tag is for. -/
structure EnforcesDepth (compact : Bool) (input : Bytes) : Prop where
  returns : ∀ message, fromReaderFlags consensus compact input ≠ .error (.panicked message)
  accepts : ∀ b rest, fromReaderFlags consensus compact input = .ok (b, rest) → b.main.HasDepth
  rejects : ∀ main rest, MainBlock.fromReaderFlags compact input = .ok (main, rest) →
    ¬ main.HasDepth → ∃ e, fromReaderFlags consensus compact input = .error e

def DepthTested (compact : Bool) (input : Bytes) : Prop :=
  ∀ main rest, MainBlock.fromReaderFlags compact input = .ok (main, rest) →
    consensus.networkType ≠ .invalid ∧
      (consensus.networkMajorVersion main.coinbase.genHeight = some main.majorVersion →
        (main.coinbase.extra.getTag txExtraTagMergeMining).isSome = true ∧
          (main.HasDepth ∨ ∀ side after,
            SideData.fromReader (consensus.p2poolShareVersion main.timestamp) rest ≠ .ok (side, after)))

theorem enforcesDepth_after (main : MainBlock) (rest : Bytes) :
    ((∀ message, afterMain consensus main rest ≠ .error (.panicked message)) ∧
        (∀ b after, afterMain consensus main rest = .ok (b, after) → b.main.HasDepth) ∧
        (¬ main.HasDepth → ∃ e, afterMain consensus main rest = .error e)) ↔ consensus.networkType ≠ .invalid ∧
        (consensus.networkMajorVersion main.coinbase.genHeight = some main.majorVersion →
          (main.coinbase.extra.getTag txExtraTagMergeMining).isSome = true ∧ (main.HasDepth ∨ ∀ side after,
              SideData.fromReader (consensus.p2poolShareVersion main.timestamp) rest ≠ .ok (side, after))) := by
  cases outcome consensus main rest with
  | network invalid run => exact ⟨fun enforces => absurd run (enforces.1 _), fun tested => absurd invalid tested.1⟩
  | version valid other message run =>
    rw [run]
    exact ⟨fun _ => ⟨valid, fun major => absurd major other⟩, fun _ => ⟨nofun, nofun, fun _ => ⟨_, rfl⟩⟩⟩
  | noTag valid major missing run =>
    refine ⟨fun enforces => absurd run (enforces.1 _), fun tested => ?_⟩
    have present := (tested.2 major).1
    rw [missing] at present
    cases present
  | side valid t present e normal failed run =>
    rw [run, present]
    constructor
    · intro _
      refine ⟨valid, fun _ => ⟨rfl, .inr fun side after decoded => ?_⟩⟩
      cases failed.symm.trans decoded
    · intro _
      exact ⟨fun message same => normal message (Except.error.inj same), nofun, fun _ => ⟨_, rfl⟩⟩
  | block valid major t present side after decoded b same run =>
    rw [run, present]
    constructor
    · rintro ⟨-, accepts, -⟩
      have depth := accepts b after rfl
      rw [same] at depth
      exact ⟨valid, fun _ => ⟨rfl, .inl depth⟩⟩
    · intro tested
      have depth : main.HasDepth := by
        rcases (tested.2 major).2 with depth | fails
        · exact depth
        · exact absurd decoded (fails side after)
      refine ⟨nofun, fun b' after' ok => ?_, fun lacks => absurd depth lacks⟩
      obtain ⟨rfl, -⟩ := Prod.mk.inj (Except.ok.inj ok)
      rw [same]
      exact depth

/-- For an input at which the decoder of main blocks returns, the decoders of pool blocks
return and accept only blocks with a merge-mining tag of depth 32, exactly under the condition
above. -/
theorem enforcesDepth_iff (compact : Bool) (input : Bytes)
    (normal : ∀ message, MainBlock.fromReaderFlags compact input ≠ .error (.panicked message)) :
    EnforcesDepth consensus compact input ↔ DepthTested consensus compact input := by
  have eq := congrFun (fromReaderFlags_eq consensus compact) input
  cases first : MainBlock.fromReaderFlags compact input with
  | error e =>
    have failed : fromReaderFlags consensus compact input = .error e := by
      rw [eq, Reader.bind, first]
    constructor
    · intro _ main rest ok
      cases first.symm.trans ok
    · intro _
      refine ⟨fun message panicked => ?_, fun b rest ok => ?_, fun main rest ok => ?_⟩
      · cases failed.symm.trans panicked
        exact normal message first
      · cases failed.symm.trans ok
      · cases first.symm.trans ok
  | ok p =>
    obtain ⟨main, rest⟩ := p
    rw [bind_ok first] at eq
    have after := enforcesDepth_after consensus main rest
    rw [← eq] at after
    constructor
    · intro enforces main' rest' ok
      cases first.symm.trans ok
      exact after.mp ⟨enforces.returns, enforces.accepts, enforces.rejects main rest first⟩
    · intro tested
      obtain ⟨returns, accepts, rejects⟩ := after.mpr (tested main rest first)
      refine ⟨returns, accepts, fun main' rest' ok => ?_⟩
      cases first.symm.trans ok
      exact rejects

end Decode

end PoolBlock

namespace DecodedExample

def blockWith (extra : ExtraTags) : PoolBlock :=
  { RoundTripExample.block with main := { RoundTripExample.block.main with
      coinbase := { RoundTripExample.block.main.coinbase with extra } } }

def nonce : ExtraTag := ⟨4, txExtraTagNonce, true, [1, 2, 3, 4]⟩

def mergeMining (depth : UInt64) : ExtraTag := ⟨depth, txExtraTagMergeMining, true, List.replicate 32 9⟩

def decodedWith (extra : ExtraTags) : PoolBlock := @PoolBlock.decoded RoundTripExample.crypto (blockWith extra)

def bytesOfDepth (depth : UInt64) : Bytes := (blockWith [nonce, mergeMining depth]).encoding

theorem enforcesDepth_32 :
    @PoolBlock.EnforcesDepth RoundTripExample.crypto consensusMini false (bytesOfDepth 32) := by
  have decoded : MainBlock.fromReaderFlags false (bytesOfDepth 32) =
      .ok ((blockWith [nonce, mergeMining 32]).main.decoded,
        RoundTripExample.block.side.appendBinary shareVersionV2) := by decide +kernel
  have returns : ∀ message, MainBlock.fromReaderFlags false (bytesOfDepth 32) ≠ .error (.panicked message) := by
    intro message panicked
    cases decoded.symm.trans panicked
  refine (@PoolBlock.enforcesDepth_iff RoundTripExample.crypto consensusMini false _ returns).mpr ?_
  intro main rest decoded'
  obtain ⟨rfl, -⟩ := Prod.mk.inj (Except.ok.inj (decoded.symm.trans decoded'))
  exact ⟨by decide, fun _ => ⟨by decide, .inl ⟨mergeMining 32, by decide, rfl⟩⟩⟩

/-- Without the tag the decoder panics; a tag of depth 5 is accepted. -/
theorem depth_not_enforced :
    MainBlock.fromReaderFlags false (blockWith [nonce]).encoding =
        .ok ((blockWith [nonce]).main.decoded, RoundTripExample.block.side.appendBinary shareVersionV2) ∧
      @PoolBlock.fromReaderFlags RoundTripExample.crypto consensusMini false (blockWith [nonce]).encoding =
        .error (.panicked "invalid memory address or nil pointer dereference") ∧
      @PoolBlock.fromReaderFlags RoundTripExample.crypto consensusMini false (bytesOfDepth 5) =
        .ok (decodedWith [nonce, mergeMining 5], []) ∧
      ¬ (decodedWith [nonce, mergeMining 5]).main.HasDepth := by
  refine ⟨by decide +kernel, by decide +kernel, by decide +kernel, ?_⟩
  rintro ⟨t, present, depth⟩
  have stated : (decodedWith [nonce, mergeMining 5]).main.coinbase.extra.getTag txExtraTagMergeMining =
      some (mergeMining 5) := by decide +kernel
  cases stated.symm.trans present
  cases depth

end DecodedExample

/-! ## The tags of a decoded block -/

def ExtraTag.HashSized (t : ExtraTag) : Prop :=
  t.tag = txExtraTagMergeMining → t.data.length = hashSize

theorem ExtraTag.ensures_hashSized (prev : ExtraTag) : Ensures prev.fromReader HashSized := by
  have counted : ∀ (tag : UInt8) (limit : UInt64) (message : String) (unit : Nat),
      tag ≠ txExtraTagMergeMining → Ensures (readCounted prev tag limit message unit) HashSized :=
    fun tag limit message unit other => ensures_after fun _ => ensures_after fun _ =>
      ensures_after fun _ => ensures_pure fun same => absurd same other
  refine ensures_after fun kind => ensures_ite (fun padding => ?_) fun _ =>
    ensures_ite (fun pubKey => ?_) fun _ => ensures_ite (fun nonce => ?_) fun _ =>
    ensures_ite (fun _ => ?_) fun other => ensures_ite (fun _ => counted _ _ _ _ other) fun _ =>
    ensures_ite (fun _ => counted _ _ _ _ other) fun _ => ensures_fail _ _
  · refine ensures_after fun size => ensures_after fun _ => ensures_ite (fun _ => ensures_crash _ _) ?_
    exact fun _ => ensures_pure fun same => absurd (padding.symm.trans same) (by decide)
  · exact ensures_after fun _ => ensures_pure fun same => absurd (pubKey.symm.trans same) (by decide)
  · exact counted _ _ _ _ (by rw [nonce]; decide)
  · exact ensures_after fun _ => ensures_bind (ensures_full hashSize) fun _ length =>
      ensures_pure fun _ => length

theorem ExtraTags.ensures_loop : ∀ (fuel : Nat) (tags : ExtraTags) (prev : ExtraTag),
    (∀ t ∈ tags, t.HashSized) →
      Ensures (fromReaderLoopWith readUvarint fuel tags prev) fun tags => ∀ t ∈ tags, t.HashSized
  | 0, _, _, sized => ensures_pure sized
  | fuel + 1, tags, prev, sized => by
    intro input read rest run
    unfold fromReaderLoopWith at run
    cases one : prev.fromReaderWith readUvarint input with
    | error e =>
      rw [one] at run
      cases e <;> cases run
      exact sized
    | ok p =>
      obtain ⟨tag, after⟩ := p
      rw [one] at run
      dsimp only at run
      split_ifs at run
      refine ensures_loop fuel (tags ++ [tag]) tag (fun t present => ?_) run
      rcases List.mem_append.mp present with before | last
      · exact sized t before
      · rw [List.mem_singleton.mp last]
        exact ExtraTag.ensures_hashSized prev one

theorem ExtraTags.ensures_hashSized :
    Ensures ExtraTags.fromReader fun tags => ∀ t ∈ tags, t.HashSized :=
  fun _ _ _ run => ensures_loop _ [] default nofun run

theorem CoinbaseTransaction.ensures_hashSized :
    Ensures CoinbaseTransaction.fromReader fun c => ∀ t ∈ c.extra, t.HashSized := by
  -- ten reads and checks, then the totals in one of two ways
  iterate 10 refine ensures_after fun _ => ?_
  refine ensures_ite (fun _ => ensures_after fun _ => ?_) fun _ => ensures_after fun _ => ?_
  all_goals
    refine ensures_after fun _ => ensures_after fun _ => ?_
    refine ensures_bind (ensures_limited ExtraTags.ensures_hashSized _) fun p sized => ?_
    exact ensures_after fun _ => ensures_after fun _ => ensures_after fun _ => ensures_pure sized

theorem MainBlock.ensures_hashSized (compact : Bool) :
    Ensures (MainBlock.fromReaderFlags compact) fun main => ∀ t ∈ main.coinbase.extra, t.HashSized := by
  -- versions, timestamp, previous block and nonce
  iterate 5 refine ensures_after fun _ => ?_
  refine ensures_bind CoinbaseTransaction.ensures_hashSized fun coinbase sized => ?_
  refine ensures_after fun _ => ensures_ite (fun _ => ?_) fun _ => ?_
  · exact ensures_after fun _ => ensures_pure sized
  · exact ensures_after fun _ => ensures_pure sized

namespace PoolBlock

section Accepted

variable [Crypto] {consensus : Consensus} {compact : Bool} {input rest : Bytes} {b : PoolBlock}

theorem main_of_accepted (accepted : fromReaderFlags consensus compact input = .ok (b, rest)) :
    ∃ after t, MainBlock.fromReaderFlags compact input = .ok (b.main, after) ∧
      b.main.coinbase.extra.getTag txExtraTagMergeMining = some t := by
  rw [fromReaderFlags_eq] at accepted
  obtain ⟨main, after, first, run⟩ := bind_eq_ok.mp accepted
  cases outcome consensus main after with
  | network invalid run' => cases run'.symm.trans run
  | version valid other message run' => cases run'.symm.trans run
  | noTag valid major missing run' | side valid t present e normal failed run' => cases run'.symm.trans run
  | block valid major t present side tail decoded b' same run' =>
    obtain ⟨rfl, rfl⟩ := Prod.mk.inj (Except.ok.inj (run'.symm.trans run))
    rw [← same] at first present
    exact ⟨after, t, first, present⟩

theorem claimed_of_accepted (accepted : fromReaderFlags consensus compact input = .ok (b, rest)) :
    ∃ t, b.main.coinbase.extra.getTag txExtraTagMergeMining = some t ∧ t.data.length = hashSize ∧
      b.coinbaseExtra .sideTemplateId = t.data := by
  obtain ⟨after, t, first, present⟩ := main_of_accepted accepted
  have found := List.find?_some present
  have length : t.data.length = hashSize :=
    MainBlock.ensures_hashSized compact first t (List.mem_of_find?_eq_some present) (by simpa using found)
  refine ⟨t, present, length, ?_⟩
  simp only [coinbaseExtra, CoinbaseExtraTag.code, present, ne_eq, length, not_true, if_false]

end Accepted

end PoolBlock

/-! ## Full ids as arrays -/

theorem copyAt_middle (a old c src : Bytes) (same : src.length = old.length) :
    copyAt (a ++ old ++ c) a.length src = a ++ src ++ c := by
  have fits : src.length ≤ (old ++ c).length := by
    rw [List.length_append]
    omega
  rw [List.append_assoc, copyAt_append _ _ _ fits, same, List.drop_left]

def fullIdSize : Nat := hashSize + 4 + sideExtraNonceSize

def FullId.ofArray (id : Bytes) : FullId where
  templateId := .ofBytes (id.take hashSize)
  nonce := UInt32.ofNat (ofLeBytes ((id.drop hashSize).take 4))
  extraNonce := UInt32.ofNat (ofLeBytes ((id.drop (hashSize + 4)).take 4))

theorem FullId.ofArray_append (id : Hash) (nonce : UInt32) {extraNonce : Bytes}
    (four : extraNonce.length = 4) : FullId.ofArray (id.bytes ++ leBytes 4 nonce.toNat ++ extraNonce) =
      ⟨id, nonce, UInt32.ofNat (ofLeBytes extraNonce)⟩ := by
  have small : nonce.toNat < 256 ^ 4 := nonce.toNat_lt
  have parts : ∀ a c d : Bytes, a.length = 32 → c.length = 4 → d.length = 4 →
      (a ++ c ++ d).take hashSize = a ∧ ((a ++ c ++ d).drop hashSize).take 4 = c ∧
        ((a ++ c ++ d).drop (hashSize + 4)).take 4 = d := by
    intro a c d la lc ld
    rw [show hashSize = a.length from la.symm, ← List.drop_drop, List.append_assoc, List.take_left,
      List.drop_left, ← lc, List.take_left, List.drop_left, lc, ← ld, List.take_length]
    exact ⟨rfl, rfl, rfl⟩
  obtain ⟨first, second, third⟩ := parts id.bytes (leBytes 4 nonce.toNat) extraNonce
    (Bytes32.bytes_length id) (leBytes_length 4 _) four
  rw [FullId.ofArray, first, second, third, Bytes32.ofBytes_bytes, ofLeBytes_leBytes_of_lt small,
    UInt32.ofNat_toNat]

namespace PoolBlock

/-- `FullId`, as the array it returns; `none` where the slice of the extra nonce is out of range. -/
def fullIdArray (b : PoolBlock) : Option Bytes :=
  let buf := List.replicate fullIdSize 0
  let buf := copyAt buf 0 (b.coinbaseExtra .sideTemplateId)
  let buf := copyAt buf hashSize (leBytes 4 b.main.nonce.toNat)
  let extraNonce := b.coinbaseExtra .sideExtraNonce
  if extraNonce.length < sideExtraNonceSize then none
  else some (copyAt buf (hashSize + 4) (extraNonce.take sideExtraNonceSize))

theorem coinbaseExtra_sideTemplateId (b : PoolBlock) :
    (b.coinbaseExtra .sideTemplateId).length = hashSize ∨ b.coinbaseExtra .sideTemplateId = [] := by
  unfold coinbaseExtra
  split
  · exact .inr rfl
  · dsimp only
    split_ifs with other
    · exact .inr rfl
    · exact .inl (not_not.mp other)

theorem fullIdArray_eq (b : PoolBlock) : b.fullIdArray =
    if (b.coinbaseExtra .sideExtraNonce).length < sideExtraNonceSize then none
    else some ((hashFromBytes (b.coinbaseExtra .sideTemplateId)).bytes ++ leBytes 4 b.main.nonce.toNat ++
      (b.coinbaseExtra .sideExtraNonce).take sideExtraNonceSize) := by
  have zeros : List.replicate fullIdSize (0 : UInt8) =
      [] ++ List.replicate 32 0 ++ (List.replicate 4 0 ++ List.replicate 4 0) := rfl
  have first : copyAt (List.replicate fullIdSize 0) 0 (b.coinbaseExtra .sideTemplateId) =
      (hashFromBytes (b.coinbaseExtra .sideTemplateId)).bytes ++
        (List.replicate 4 0 ++ List.replicate 4 0) := by
    rcases b.coinbaseExtra_sideTemplateId with length | empty
    · rw [zeros]
      refine (copyAt_middle [] _ _ _ (by rw [length]; rfl)).trans ?_
      rw [hashFromBytes, if_pos length, bytes_ofBytes length]
      rfl
    · rw [empty]
      decide
  unfold fullIdArray
  dsimp only
  split_ifs with short
  · rfl
  · generalize hashFromBytes (b.coinbaseExtra .sideTemplateId) = id at first ⊢
    have second := copyAt_middle id.bytes (List.replicate 4 0) (List.replicate 4 0)
      (leBytes 4 b.main.nonce.toNat) (by simp)
    have third := copyAt_middle (id.bytes ++ leBytes 4 b.main.nonce.toNat) (List.replicate 4 0) []
      ((b.coinbaseExtra .sideExtraNonce).take sideExtraNonceSize) (by
        rw [List.length_take, List.length_replicate]
        exact Nat.min_eq_left (not_lt.mp short))
    simp only [List.length_append, Bytes32.bytes_length, leBytes_length, List.append_assoc,
      List.append_nil] at second third
    rw [first, show hashSize = 32 from rfl, second, third, List.append_assoc]

theorem coinbaseExtra_sideExtraNonce_iff (b : PoolBlock) :
    ¬ (b.coinbaseExtra .sideExtraNonce).length < sideExtraNonceSize ↔
      ∃ u, b.main.coinbase.extra.getTag txExtraTagNonce = some u ∧
        sideExtraNonceSize ≤ u.data.length ∧ u.data.length ≤ sideExtraNonceMaxSize ∧
          b.coinbaseExtra .sideExtraNonce = u.data := by
  have empty : ([] : Bytes).length < sideExtraNonceSize := by decide
  unfold coinbaseExtra
  simp only [CoinbaseExtraTag.code]
  cases b.main.coinbase.extra.getTag txExtraTagNonce with
  | none => simp [sideExtraNonceSize]
  | some u =>
    simp only [Option.some.injEq, exists_eq_left']
    split_ifs with outside
    · refine ⟨fun long => absurd empty long, fun ⟨low, high, _⟩ => ?_⟩
      omega
    · rw [not_or, not_lt, not_lt] at outside
      exact ⟨fun _ => ⟨outside.1, outside.2, rfl⟩, fun ⟨low, _, _⟩ => not_lt.mpr low⟩

/-- `FullId()` returns an array, and its parts are the claimed template id, the nonce and the
first four bytes of the extra nonce. -/
structure StatesFullId (b : PoolBlock) (id : Bytes) : Prop where
  returns : b.fullIdArray = some id
  templateId : ∃ t, b.main.coinbase.extra.getTag txExtraTagMergeMining = some t ∧
    (FullId.ofArray id).templateId.bytes = t.data
  nonce : (FullId.ofArray id).nonce = b.main.nonce
  extraNonce : ∃ u, b.main.coinbase.extra.getTag txExtraTagNonce = some u ∧
    leBytes 4 (FullId.ofArray id).extraNonce.toNat = u.data.take sideExtraNonceSize

/-- A decoded block has a full id exactly if its extra nonce has 4 to 14 bytes. -/
theorem fullIdArray_decoded_iff [Crypto] {consensus : Consensus} {compact : Bool}
    {input rest : Bytes} {b : PoolBlock}
    (accepted : fromReaderFlags consensus compact input = .ok (b, rest)) :
    (∃ id, b.StatesFullId id) ↔
      ∃ u, b.main.coinbase.extra.getTag txExtraTagNonce = some u ∧
        sideExtraNonceSize ≤ u.data.length ∧ u.data.length ≤ sideExtraNonceMaxSize := by
  constructor
  · rintro ⟨id, states⟩
    have returns := states.returns
    rw [fullIdArray_eq] at returns
    split_ifs at returns with short
    obtain ⟨u, present, low, high, -⟩ := (coinbaseExtra_sideExtraNonce_iff b).mp short
    exact ⟨u, present, low, high⟩
  · rintro ⟨u, present, low, high⟩
    obtain ⟨t, claimed, length, data⟩ := claimed_of_accepted accepted
    have extra : b.coinbaseExtra .sideExtraNonce = u.data := by
      simp only [coinbaseExtra, CoinbaseExtraTag.code, present]
      exact if_neg (by omega)
    have four : (u.data.take sideExtraNonceSize).length = 4 := by
      rw [List.length_take]
      exact Nat.min_eq_left low
    have bytes : (hashFromBytes (b.coinbaseExtra .sideTemplateId)).bytes = t.data := by
      rw [data, hashFromBytes, if_pos length, bytes_ofBytes length]
    have array := fullIdArray_eq b
    rw [extra, if_neg (not_lt.mpr low)] at array
    have parts := FullId.ofArray_append (hashFromBytes (b.coinbaseExtra .sideTemplateId)) b.main.nonce four
    have small : ofLeBytes (u.data.take sideExtraNonceSize) < 2 ^ 32 := by
      have bound := ofLeBytes_lt (u.data.take sideExtraNonceSize)
      rw [four] at bound
      exact bound
    refine ⟨_, array, ⟨t, claimed, ?_⟩, ?_, ⟨u, present, ?_⟩⟩
    · rw [parts, bytes]
    · rw [parts]
    · rw [parts]
      dsimp only
      rw [UInt32.toNat_ofNat_of_lt' small]
      have back := leBytes_ofLeBytes (u.data.take sideExtraNonceSize)
      rwa [four] at back

end PoolBlock

namespace DecodedExample

theorem statesFullId_sample : ∃ id, (decodedWith [nonce, mergeMining 32]).StatesFullId id :=
  (@PoolBlock.fullIdArray_decoded_iff RoundTripExample.crypto consensusMini false
    (bytesOfDepth 32) [] _ (by decide +kernel)).mpr ⟨nonce, by decide +kernel, by decide, by decide⟩

/-- A block without an extra nonce is accepted, and its full id is a slice out of range. -/
theorem fullIdArray_none :
    @PoolBlock.fromReaderFlags RoundTripExample.crypto consensusMini false
        (blockWith [mergeMining 32]).encoding = .ok (decodedWith [mergeMining 32], []) ∧
      (decodedWith [mergeMining 32]).fullIdArray = none := by
  constructor
  · decide +kernel
  · decide +kernel

end DecodedExample

end P2PoolObserver
