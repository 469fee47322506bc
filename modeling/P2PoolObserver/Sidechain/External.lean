/-
# Sidechain.External -- blocks from the network (`BlockSeen`, `AddPoolBlockExternal`)

A block message is looked up among the full ids already seen and, if it is new, goes through the
checks that need no verified ancestors before `AddPoolBlock` gets it.  On the way the block is
submitted to Monero when its proof of work is good enough there.  The branch for a stored
template id compares the main id of the new block with itself, so it never runs.
-/
import P2PoolObserver.Sidechain.Preprocess
import P2PoolObserver.Sidechain.Pow

namespace P2PoolObserver

open Lib

/-- What the side chain asks of its environment during one call. -/
structure External extends Server, PowSource where
  toBase58 : PackedAddress → String

structure Node where
  chain : SideChain
  submitted : List MainBlock

structure ExternalResult where
  missingBlocks : List Hash
  err : Option String
  ban : Bool
  deriving DecidableEq

/-- How `AddPoolBlockExternal` ends before its last line. -/
inductive Exit where
  | returns (result : ExternalResult)
  | fault (f : Fault)
  deriving DecidableEq

def Refusal.exit : Refusal → Exit
  | .error missingBlocks message => .returns ⟨missingBlocks, some message, true⟩
  | .fault f => .fault f

abbrev Section (α : Type) := Attempt Node Exit α

namespace Section

def refuse {α : Type} (message : String) (ban : Bool) : Section α :=
  throw (.returns ⟨[], some message, ban⟩)

def require (ok : Prop) [Decidable ok] (message : String) (ban : Bool) : Section Unit :=
  if ok then return () else refuse message ban

def onChain {α : Type} (x : Preprocessing α) : Section α := fun n =>
  let (outcome, chain) := x.on n.chain
  (outcome.mapError Refusal.exit, { n with chain })

end Section

namespace SideChain

open Section (refuse require onChain)

/-! ## Seen blocks -/

def hopeless (consensus : Consensus) (s : SideChain) (b : PoolBlock) : Bool :=
  s.chainTip.any fun tip =>
    (s.mem tip).side.height > b.side.height + consensus.chainWindowSize * 2 &&
      b.side.cumulativeDifficulty.cmp (s.mem tip).side.cumulativeDifficulty == .lt

/-- `BlockSeen`: a hopeless block counts as seen, any other one from its second
time on. -/
def blockSeen (consensus : Consensus) (s : SideChain) (b : PoolBlock) :
    Except Fault (SideChain × Bool) :=
  if s.hopeless consensus b then .ok (s, true)
  else match b.fullId with
    | none => .error (.panic "slice bounds out of range")
    | some fullId =>
      if s.seenBlocks fullId then .ok (s, true)
      else .ok ({ s with seenBlocks := Function.update s.seenBlocks fullId true }, false)

def blockUnsee (s : SideChain) (b : PoolBlock) : Except Fault SideChain :=
  match b.fullId with
  | none => .error (.panic "slice bounds out of range")
  | some fullId => .ok { s with seenBlocks := Function.update s.seenBlocks fullId false }

section Calls

variable [Uint128Package] [Crypto] (consensus : Consensus) (env : External)

/-! ## The checks before the duplicate test -/

def isPoolBlockTransactionKeyIsDeterministic (b : PoolBlock) : Bool :=
  let privateKey := Crypto.deterministicTransactionPrivateKey b.getPrivateKeySeed b.main.previousId
  b.coinbaseExtra .sideCoinbasePublicKey == Bytes32.bytes (Crypto.publicKey privateKey) &&
    b.side.coinbasePrivateKey == privateKey

def statedTemplateId (b : PoolBlock) : Hash := hashFromBytes (b.coinbaseExtra .sideTemplateId)

def externalChecks (fuel : Nat) (b : PoolBlock) : Section PoolBlock := do
  require (¬ b.main.coinbase.totalReward < tailEmissionReward) "block reward too low" true
  require (b.main.majorVersion ≥ hardForkViewTagsVersion →
    isPoolBlockTransactionKeyIsDeterministic b) "invalid deterministic transaction keys" true
  let expectedTxType := b.getTransactionOutputType
  let b ← onChain (preprocessBlock consensus env.toServer fuel b)
  require (∀ o ∈ b.main.coinbase.outputs, o.type = expectedTxType) "unexpected transaction type" true
  require (statedTemplateId b = b.sideTemplateId consensus)
    ("invalid template id " ++ Bytes32.string (statedTemplateId b) ++ ", expected " ++
      Bytes32.string (b.sideTemplateId consensus)) true
  require (b.side.difficulty.cmp64 consensus.minimumDifficulty ≠ .lt)
    ("block mined by " ++ env.toBase58 b.side.publicKey ++ " has invalid difficulty " ++
      b.side.difficulty.stringNumeric ++ ", expected >= " ++ toString consensus.minimumDifficulty)
    true
  return b

/-! ## Proof of work -/

/-- Hand the block to Monero if its proof of work is good enough there.  An error
is only logged. -/
def submitIfHigher (b : PoolBlock) : Section Unit :=
  match b.isProofHigherThanMainDifficultyWithError env.toPowSource env.getDifficultyByHeight with
  | .ok true => do
    let n ← get
    set { n with submitted := n.submitted ++ [b.main] }
  | _ => return ()

def requireProof (b : PoolBlock) : Section Unit :=
  match b.isProofHigherThanDifficultyWithError env.toPowSource with
  | .error err => refuse err true
  | .ok isHigher =>
    require (isHigher = true) ("not enough PoW for id " ++ Bytes32.string (statedTemplateId b) ++
      ", height = " ++ toString b.side.height ++ ", mainchain height " ++
      toString b.main.coinbase.genHeight) true

/-! ## A template id that is stored already -/

def recordAlternate (s : SideChain) (b : PoolBlock) (other : Ptr) : SideChain :=
  let p := s.next
  let s := { s with
    mem := Function.update s.mem p { b with
      verified := true
      invalid := false
      depth := (s.mem other).depth }
    next := p + 1 }
  let s :=
    if b.sideTemplateId consensus = s.watchBlockSidechainId then
      { s.emit (.updateBlockFound s.watchBlock p) with watchBlockSidechainId := zeroHash }
    else s
  (s.broadcastOnce p true).emit (.store p)

def addKnown (b : PoolBlock) (other : Ptr) : Section ExternalResult := do
  let n ← get
  let newMainId := b.mainId
  -- the source reads both ids from the new block
  let oldMainId := b.mainId
  if newMainId ≠ oldMainId ∧ (n.chain.mem other).verified ∧ ¬ (n.chain.mem other).invalid then
    match b.powHashWithError env.toPowSource with
    | .error err => refuse err false
    | .ok _ => do
      submitIfHigher env b
      requireProof env b
      let n ← get
      set { n with chain := n.chain.recordAlternate consensus b other }
      return ⟨[], none, false⟩
  else return ⟨[], none, false⟩

/-! ## A new template id -/

/-- The walk back from the tip: whether every block of the window has more than
twice the difficulty. -/
def tooLowLoop (s : SideChain) (diff2 : Difficulty) (tip : Ptr) : Nat → Option Ptr → Except Fault Bool
  | 0, _ => .error .outOfFuel
  | _ + 1, none => .ok true
  | fuel + 1, some tmp =>
    if (s.mem tmp).side.height + consensus.chainWindowSize > (s.mem tip).side.height then
      if diff2.cmp (s.mem tmp).side.difficulty ≠ .lt then .ok false
      else tooLowLoop s diff2 tip fuel (s.view.iteratorGetParent tmp)
    else .ok true

def tooLowDiff (fuel : Nat) (s : SideChain) (b : PoolBlock) : Except Fault Bool :=
  if b.side.difficulty.cmp s.currentDifficulty = .lt then
    match s.chainTip with
    | none => .ok true
    | some tip => tooLowLoop consensus s (b.side.difficulty.mul64 2) tip fuel (some tip)
  else .ok false

def rightMainHeight (b : PoolBlock) : Prop :=
  ∀ data ∈ env.getChainMainByHash b.main.previousId, data.height + 1 = b.main.coinbase.genHeight

instance (b : PoolBlock) : Decidable (rightMainHeight env b) :=
  match h : env.getChainMainByHash b.main.previousId with
  | none => .isTrue (by simp [rightMainHeight, h])
  | some data => decidable_of_iff (data.height + 1 = b.main.coinbase.genHeight)
      (by simp [rightMainHeight, h])

def missingOf (s : SideChain) (b : PoolBlock) : List Hash :=
  (b.side.parent :: b.side.uncles).filter fun id =>
    id ≠ zeroHash && (s.blocksByTemplateId id).isNone

def wrongMainHeight (b : PoolBlock) : String :=
  "wrong mainchain height " ++ toString b.main.coinbase.genHeight ++ ", expected " ++
    ((env.getChainMainByHash b.main.previousId).map fun data => toString (data.height + 1)).getD ""

/-- From the proof of work on.  `torn` is what a panic inside `AddPoolBlock` leaves of
the side chain; a `cleanupSeenBlocks` before the panic may have dropped full ids. -/
def addHashed (torn : SideChain) (fuel : Nat) (b : PoolBlock) : Section ExternalResult :=
  match b.powHashWithError env.toPowSource with
  | .error err => do
    let n ← get
    let chain ← liftExcept ((n.chain.blockUnsee b).mapError Exit.fault)
    set { n with chain }
    refuse err false
  | .ok _ => do
    submitIfHigher env b
    requireProof env b
    let n ← get
    let missing := n.chain.missingOf b
    match n.chain.addPoolBlock consensus env.toServer fuel b with
    | .error f => do
      let seenBlocks := fun k => n.chain.seenBlocks k && torn.seenBlocks k
      set { n with chain := { torn with seenBlocks } }
      throw (.fault f)
    | .ok (chain, err) => do
      set { n with chain }
      return ⟨missing, err, true⟩

def addNew (torn : SideChain) (fuel : Nat) (b : PoolBlock) : Section ExternalResult := do
  let n ← get
  let expectedDifficulty := n.chain.currentDifficulty
  let tooLow ← liftExcept ((tooLowDiff consensus fuel n.chain b).mapError Exit.fault)
  require (tooLow = false)
    ("block mined by " ++ env.toBase58 b.side.publicKey ++ " has too low difficulty " ++
      b.side.difficulty.stringNumeric ++ ", expected >= " ++ expectedDifficulty.stringNumeric) false
  require (rightMainHeight env b) (wrongMainHeight env b) true
  addHashed consensus env torn fuel b

/-! ## `AddPoolBlockExternal` -/

def addChecked (torn : SideChain) (fuel : Nat) (b : PoolBlock) : Section ExternalResult := do
  let n ← get
  match n.chain.blocksByTemplateId (statedTemplateId b) with
  | some other => addKnown consensus env b other
  | none => addNew consensus env torn fuel b

/-- The deferred function: a panic becomes an error that bans the peer. -/
def recovered : Except Exit ExternalResult → Except Fault ExternalResult
  | .ok r => .ok r
  | .error (.returns r) => .ok r
  | .error (.fault (.panic message)) => .ok ⟨[], some ("panic: " ++ message), true⟩
  | .error (.fault .outOfFuel) => .error .outOfFuel

def addPoolBlockExternal (torn : SideChain) (fuel : Nat) (n : Node) (b : PoolBlock) :
    Except Fault ExternalResult × Node :=
  let (outcome, n) := (externalChecks consensus env fuel b >>= addChecked consensus env torn fuel).on n
  (recovered outcome, n)

/-! ## Which blocks are submitted -/

section Preserves

variable {P : Node → Prop}

omit [Uint128Package] [Crypto] in
theorem preserves_require (ok : Prop) [Decidable ok] (message : String) (ban : Bool) :
    Attempt.Preserves P (require ok message ban) := by
  unfold Section.require
  split_ifs
  · exact Attempt.preserves_pure ()
  · exact Attempt.preserves_throw _

theorem preserves_externalChecks (fuel : Nat) (b : PoolBlock)
    (preprocess : Attempt.Preserves P (onChain (preprocessBlock consensus env.toServer fuel b))) :
    Attempt.Preserves P (externalChecks consensus env fuel b) :=
  (preserves_require _ _ _).bind fun _ => (preserves_require _ _ _).bind fun _ =>
    preprocess.bind fun _ => (preserves_require _ _ _).bind fun _ =>
      (preserves_require _ _ _).bind fun _ => (preserves_require _ _ _).bind fun _ =>
        Attempt.preserves_pure _

omit [Uint128Package] in
theorem preserves_requireProof (b : PoolBlock) : Attempt.Preserves P (requireProof env b) := by
  unfold requireProof
  split
  · exact Attempt.preserves_throw _
  · exact preserves_require _ _ _

end Preserves

variable {torn : SideChain} {fuel : Nat} {n : Node} {b : PoolBlock}

omit [Uint128Package] in
theorem submitIfHigher_on {b : PoolBlock} (n : Node)
    (wins : b.isProofHigherThanMainDifficultyWithError env.toPowSource env.getDifficultyByHeight = .ok true) :
    (submitIfHigher env b).on n = (.ok (), { n with submitted := n.submitted ++ [b.main] }) := by
  unfold submitIfHigher
  rw [wins]
  rfl

omit [Uint128Package] in
theorem addKnown_on (n : Node) (b : PoolBlock) (other : Ptr) :
    (addKnown consensus env b other).on n = (.ok ⟨[], none, false⟩, n) := by
  unfold addKnown
  rw [Attempt.on_bind_ok (Attempt.on_get n)]
  simp

/-- The block goes on to its proof of work. -/
structure IsNew (fuel : Nat) (s : SideChain) (b : PoolBlock) : Prop where
  unknown : s.blocksByTemplateId (statedTemplateId b) = none
  difficulty : tooLowDiff consensus fuel s b = .ok false
  mainHeight : rightMainHeight env b

def IsAlternate (s : SideChain) (b : PoolBlock) : Prop :=
  ∃ other, s.blocksByTemplateId (statedTemplateId b) = some other ∧
    (s.mem other).verified = true ∧ (s.mem other).invalid = false ∧ (s.mem other).mainId ≠ b.mainId

theorem addNew_of_new
    (new : IsNew consensus env fuel n.chain b) :
    (addNew consensus env torn fuel b).on n = (addHashed consensus env torn fuel b).on n := by
  have strong (message : String) (ban : Bool) :
      (require (false = false) message ban).on n = (.ok (), n) := rfl
  have height (message : String) (ban : Bool) :
      (require (rightMainHeight env b) message ban).on n = (.ok (), n) := by
    unfold Section.require
    rw [if_pos new.mainHeight]
    rfl
  unfold addNew
  rw [Attempt.on_bind_ok (Attempt.on_get n), new.difficulty]
  dsimp only [Except.mapError]
  rw [Attempt.on_bind_ok (Attempt.on_liftExcept_ok false n), Attempt.on_bind_ok (strong _ _),
    Attempt.on_bind_ok (height _ _)]

theorem addNew_submitted
    (new : IsNew consensus env fuel n.chain b)
    (wins : b.isProofHigherThanMainDifficultyWithError env.toPowSource env.getDifficultyByHeight = .ok true) :
    ((addNew consensus env torn fuel b).on n).2.submitted = n.submitted ++ [b.main] := by
  obtain ⟨powHash, hashed⟩ : ∃ powHash, b.powHashWithError env.toPowSource = .ok powHash := by
    unfold PoolBlock.isProofHigherThanMainDifficultyWithError at wins
    dsimp only at wins
    split_ifs at wins
    obtain ⟨powHash, hashed, -⟩ := except_bind_eq_ok.mp wins
    exact ⟨powHash, hashed⟩
  rw [addNew_of_new consensus env new, addHashed, hashed]
  dsimp only
  rw [Attempt.on_bind_ok (submitIfHigher_on env n wins)]
  refine Attempt.Preserves.bind (P := fun m : Node => m.submitted = n.submitted ++ [b.main])
    (preserves_requireProof env b) (fun _ => ?_) _ rfl
  refine Attempt.preserves_get_bind fun m submitted => ?_
  split <;> exact submitted

theorem addPoolBlockExternal_of_checks {m : Node}
    {checked : PoolBlock} (passes : (externalChecks consensus env fuel b).on n = (.ok checked, m)) :
    addPoolBlockExternal consensus env torn fuel n b =
      (recovered ((addChecked consensus env torn fuel checked).on m).1,
        ((addChecked consensus env torn fuel checked).on m).2) := by
  unfold addPoolBlockExternal
  rw [Attempt.on_bind_ok passes]

/-- A block that passes the checks and wins a Monero block is submitted exactly
when no block with its template id is stored.  For a stored template id the block
is not submitted, and a proof below the side-chain difficulty is not refused. -/
theorem addPoolBlockExternal_submits_iff {torn : SideChain} {fuel : Nat} {n m : Node}
    {b checked : PoolBlock} (passes : (externalChecks consensus env fuel b).on n = (.ok checked, m))
    (wins : checked.isProofHigherThanMainDifficultyWithError env.toPowSource
      env.getDifficultyByHeight = .ok true)
    (cases : IsNew consensus env fuel m.chain checked ∨ IsAlternate m.chain checked) :
    ((addPoolBlockExternal consensus env torn fuel n b).2.submitted = n.submitted ++ [checked.main] ∧
        (IsAlternate m.chain checked →
          checked.isProofHigherThanDifficultyWithError env.toPowSource = .ok false →
          ∃ r, (addPoolBlockExternal consensus env torn fuel n b).1 = .ok r ∧ r.err.isSome)) ↔
      m.chain.blocksByTemplateId (statedTemplateId checked) = none := by
  have before : m.submitted = n.submitted := by
    have kept := preserves_externalChecks (P := fun m => m.submitted = n.submitted) consensus env
      fuel b (fun _ => id) n rfl
    rwa [passes] at kept
  rw [addPoolBlockExternal_of_checks consensus env passes]
  have run : (addChecked consensus env torn fuel checked).on m =
      match m.chain.blocksByTemplateId (statedTemplateId checked) with
      | some other => (addKnown consensus env checked other).on m
      | none => (addNew consensus env torn fuel checked).on m := by
    unfold addChecked
    rw [Attempt.on_bind_ok (Attempt.on_get m)]
    split <;> rfl
  rcases cases with new | ⟨other, stored, verified, valid, different⟩
  · rw [run, new.unknown]
    refine iff_of_true ⟨?_, ?_⟩ rfl
    · rw [← before]
      exact addNew_submitted consensus env new wins
    · rintro ⟨other, stored, -⟩
      rw [new.unknown] at stored
      cases stored
  · rw [run, stored]
    dsimp only
    rw [addKnown_on]
    refine iff_of_false ?_ (by simp)
    rintro ⟨submitted, -⟩
    have length := congrArg List.length submitted
    simp [before] at length

end Calls

/-! ## Two blocks of one template -/

namespace AlternateExample

@[reducible] def crypto : Crypto where
  keccak256 bytes := BitVec.ofNat 256 (bytes.foldl (fun sum byte => sum + byte.toNat) 1)
  deterministicTransactionPrivateKey seed _ := seed
  publicKey key := key
  ephemeralPublicKey _ _ _ := (0, 0)

def template (templateId : Hash) (nonce : UInt32) : PoolBlock :=
  { (default : PoolBlock) with
    main := { (default : MainBlock) with
      majorVersion := 14
      minorVersion := 14
      nonce
      coinbase := { (default : CoinbaseTransaction) with
        outputs := [{ (default : Output) with reward := tailEmissionReward, type := txOutToKey }]
        totalReward := tailEmissionReward
        extra := [⟨4, txExtraTagNonce, true, [0, 0, 0, 0]⟩,
          ⟨32, txExtraTagMergeMining, true, Bytes32.bytes templateId⟩] } }
    side := { (default : SideData) with
      difficulty := .difficultyFrom64 consensusMini.minimumDifficulty
      cumulativeDifficulty := .difficultyFrom64 consensusMini.minimumDifficulty }
    cachedShareVersion := shareVersionV1 }

def templateId : Hash := @PoolBlock.sideTemplateId crypto (template 0 0) consensusMini

def block (nonce : UInt32) : PoolBlock := template templateId nonce

/-- The hash is good enough for Monero, but not for the side chain. -/
def env : External where
  getDifficultyByHeight _ := ⟨1, 0⟩
  getChainMainTip := none
  getChainMainByHash _ := none
  now := 0
  getMinimalBlockHeaderByHeight _ := some 1
  hash _ _ := (BitVec.ofNat 256 (2 ^ 255), none)
  toBase58 _ := ""

def node : Node :=
  ⟨(match @SideChain.addPoolBlock .exact crypto consensusMini env.toServer 9
      (newSideChain consensusMini) (block 0) with
    | .ok (s, _) => s
    | .error _ => newSideChain consensusMini), []⟩

def empty : Node := ⟨newSideChain consensusMini, []⟩

theorem addPoolBlockExternal_submits_iff_empty :
    (@addPoolBlockExternal .exact crypto consensusMini env empty.chain 9 empty (block 1)).2.submitted =
      [(block 1).main] :=
  ((@addPoolBlockExternal_submits_iff .exact crypto consensusMini env empty.chain 9 empty _
      (block 1) (block 1) (Attempt.on_eq (by decide +kernel)) (by decide +kernel)
      (.inl ⟨by decide +kernel, by decide +kernel, by decide +kernel⟩)).mpr (by decide +kernel)).1

/-- The block with nonce 1 passes the checks and wins a Monero block, the stored
block is verified and has another main id; yet nothing is submitted, and the proof
below the side-chain difficulty brings no error. -/
theorem alternate_not_submitted :
    let checks := (@externalChecks .exact crypto consensusMini env 9 (block 1)).on node
    let added := @addPoolBlockExternal .exact crypto consensusMini env node.chain 9 node (block 1)
    checks.1 = .ok (block 1) ∧
      @PoolBlock.isProofHigherThanMainDifficultyWithError crypto env.toPowSource (block 1)
        env.getDifficultyByHeight = .ok true ∧
      @IsAlternate crypto checks.2.chain (block 1) ∧
      @PoolBlock.isProofHigherThanDifficultyWithError crypto env.toPowSource (block 1) = .ok false ∧
      added.1 = .ok ⟨[], none, false⟩ ∧ added.2.submitted = [] := by
  refine ⟨by decide +kernel, by decide +kernel, ⟨0, ?_⟩, by decide +kernel, by decide +kernel,
    by decide +kernel⟩
  decide +kernel

end AlternateExample

end SideChain

end P2PoolObserver
