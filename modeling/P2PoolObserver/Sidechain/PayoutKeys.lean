/-
# Sidechain.PayoutKeys -- payouts computed and checked by workers (`utils.go`, `sidechain.go`)

`CalculateOutputs` and the payout check of `verifyBlock` derive a one-time key for each share of
the window, in goroutines that `SplitWork` starts and that share the derivation cache.  A miner's
key that is no curve point, or a transaction key that is no scalar, is a nil pointer there, and
its use takes the process down.
-/
import P2PoolObserver.Sidechain.DerivationCache
import P2PoolObserver.Sidechain.Preprocess
import P2PoolObserver.Sidechain.RoundTrip

namespace P2PoolObserver

open Lib Lib.Program
open Lib.Workers

/-! ## Splitting work -/

/-- The goroutines that `SplitWork(-2, workSize, ...)` starts. -/
def splitWorkRoutines (numCPU workSize : Nat) : Nat :=
  let routines := max (numCPU + 2) 4
  if workSize < routines then workSize else routines

theorem splitWorkRoutines_pos (numCPU : Nat) {workSize : Nat} (some' : 0 < workSize) :
    0 < splitWorkRoutines numCPU workSize := by
  unfold splitWorkRoutines
  dsimp only
  split_ifs <;> omega

section Jobs

variable [Curve]

/-- `SplitWork` returns: no worker uses a nil pointer, and all end. -/
structure SplitWorkReturns {ε α : Type} (d : DerivationCache) (numCPU : Nat) (w : Work CacheValue ε α) :
    Prop where
  standing : ∀ n t, Run Computed w (Crew.start d.entries (splitWorkRoutines numCPU w.size)) n t →
    t.crashed = false
  ends : ∃ bound, ∀ n t,
    Run Computed w (Crew.start d.entries (splitWorkRoutines numCPU w.size)) n t → n ≤ bound

theorem splitWorkReturns_iff {ε α : Type} (d : DerivationCache) (numCPU : Nat) {w : Work CacheValue ε α}
    {verdict : Nat → Option (Except ε α)} {depth : Nat} (short : ∀ i < w.size, (w.job i).Within depth)
    (ends : ∀ i < w.size, (w.job i).Ends Computed (verdict i)) : SplitWorkReturns d numCPU w ↔
      ∀ i < w.size, failures verdict i < splitWorkRoutines numCPU w.size → verdict i ≠ none := by
  rw [← never_crashes_iff short ends d.coherent]
  refine ⟨fun returns => returns.standing, fun standing => ⟨standing, ?_⟩⟩
  exact ⟨_, fun n t run => run.length_le short⟩

/-! ## The jobs -/

variable (b : PoolBlock) (shares : Shares) (rewards : List UInt64)

def shareKey (share : Share) (workIndex : Nat) : Program CacheValue (PublicKeyBytes × UInt8) :=
  getEphemeralPublicKey share.address b.side.coinbasePrivateKey (asScalar b.side.coinbasePrivateKey)
    (UInt64.ofNat workIndex)

def outputWith (workIndex : Nat) (reward : UInt64) (key : PublicKeyBytes × UInt8) : Output :=
  { index := UInt64.ofNat workIndex, reward := reward, ephemeralPublicKey := key.1,
    type := b.getTransactionOutputType, viewTag := key.2 }

def outputJob (workIndex : Nat) : Program CacheValue (Except String Output) :=
  match shares[workIndex]?, rewards[workIndex]? with
  | some share, some reward => do
    let key ← shareKey b share workIndex
    return .ok (outputWith b workIndex reward key)
  | _, _ => .crash

def compareKey (workIndex : Nat) (out : Output) (key : PublicKeyBytes × UInt8) : Except String Unit :=
  if key.1 ≠ out.ephemeralPublicKey then
    .error ("has incorrect eph_public_key at index " ++ toString workIndex ++ ", got " ++
      Bytes32.string out.ephemeralPublicKey ++ ", expected " ++ Bytes32.string key.1)
  else if out.type = txOutToTaggedKey ∧ key.2 ≠ out.viewTag then
    .error ("has incorrect view tag at index " ++ toString workIndex ++ ", got " ++
      toString out.viewTag ++ ", expected " ++ toString key.2)
  else .ok ()

def rewardMismatch (workIndex : Nat) (reward : UInt64) (out : Output) : String :=
  "has invalid reward at index " ++ toString workIndex ++ ", got " ++ toString out.reward ++
    ", expected " ++ toString reward

def payoutJob (workIndex : Nat) : Program CacheValue (Except String Unit) :=
  match shares[workIndex]?, rewards[workIndex]?, b.main.coinbase.outputs[workIndex]? with
  | some share, some reward, some out =>
    if reward ≠ out.reward then return .error (rewardMismatch workIndex reward out)
    else do
      let key ← shareKey b share workIndex
      return compareKey workIndex out key
  | _, _, _ => .crash

/-- What the worker of `CalculateOutputs` ends with. -/
def outputVerdict (workIndex : Nat) : Option (Except String Output) :=
  match shares[workIndex]?, rewards[workIndex]? with
  | some share, some reward =>
    (ephemeralKey share.address b.side.coinbasePrivateKey (UInt64.ofNat workIndex)).map fun key =>
      .ok (outputWith b workIndex reward key)
  | _, _ => none

def payoutVerdict (workIndex : Nat) : Option (Except String Unit) :=
  match shares[workIndex]?, rewards[workIndex]?, b.main.coinbase.outputs[workIndex]? with
  | some share, some reward, some out =>
    if reward ≠ out.reward then some (.error (rewardMismatch workIndex reward out))
    else (ephemeralKey share.address b.side.coinbasePrivateKey (UInt64.ofNat workIndex)).map fun key =>
      compareKey workIndex out key
  | _, _, _ => none

theorem ends_shareKey {α : Type} (share : Share) (workIndex : Nat) (f : PublicKeyBytes × UInt8 → α) :
    Ends Computed (do let key ← shareKey b share workIndex; return f key)
      ((ephemeralKey share.address b.side.coinbasePrivateKey (UInt64.ofNat workIndex)).map f) := by
  have key := ends_getEphemeralPublicKey share.address b.side.coinbasePrivateKey (UInt64.ofNat workIndex)
  cases found : ephemeralKey share.address b.side.coinbasePrivateKey (UInt64.ofNat workIndex) with
  | none =>
    rw [found] at key
    exact ends_bind_crash key
  | some k =>
    rw [found] at key
    exact ends_bind key (ends_pure _)

theorem within_shareKey {α : Type} (share : Share) (workIndex : Nat) (f : PublicKeyBytes × UInt8 → α) :
    Within (do let key ← shareKey b share workIndex; return f key) 8 :=
  within_bind (within_getEphemeralPublicKey _ _ _ _) fun _ => within_pure _ 0

theorem ends_outputJob (workIndex : Nat) :
    Ends Computed (outputJob b shares rewards workIndex) (outputVerdict b shares rewards workIndex) := by
  unfold outputJob outputVerdict
  split
  · exact ends_shareKey b _ _ _
  · rfl

theorem within_outputJob (workIndex : Nat) : Within (outputJob b shares rewards workIndex) 8 := by
  unfold outputJob
  split
  · exact within_shareKey b _ _ _
  · trivial

theorem ends_payoutJob (workIndex : Nat) :
    Ends Computed (payoutJob b shares rewards workIndex) (payoutVerdict b shares rewards workIndex) := by
  unfold payoutJob payoutVerdict
  split
  · split_ifs
    · exact ends_pure _
    · exact ends_shareKey b _ _ _
  · rfl

theorem within_payoutJob (workIndex : Nat) : Within (payoutJob b shares rewards workIndex) 8 := by
  unfold payoutJob
  split
  · split_ifs
    · exact within_pure _ _
    · exact within_shareKey b _ _ _
  · trivial

variable {b shares rewards}
variable {workIndex : Nat} {share : Share} {reward : UInt64}

theorem outputVerdict_ne_none_iff
    (hasShare : shares[workIndex]? = some share) (hasReward : rewards[workIndex]? = some reward) :
    outputVerdict b shares rewards workIndex ≠ none ↔ ValidKeys share.address b.side.coinbasePrivateKey := by
  rw [← ephemeralKey_isSome_iff _ _ (UInt64.ofNat workIndex), outputVerdict, hasShare, hasReward]
  dsimp only
  rw [ne_eq, Option.map_eq_none_iff, ← ne_eq, Option.isSome_iff_ne_none]

theorem payoutVerdict_ne_none_iff {out : Output}
    (hasShare : shares[workIndex]? = some share) (hasReward : rewards[workIndex]? = some reward)
    (hasOutput : b.main.coinbase.outputs[workIndex]? = some out) :
    payoutVerdict b shares rewards workIndex ≠ none ↔
      (reward = out.reward → ValidKeys share.address b.side.coinbasePrivateKey) := by
  rw [← ephemeralKey_isSome_iff _ _ (UInt64.ofNat workIndex), payoutVerdict, hasShare, hasReward, hasOutput]
  dsimp only
  by_cases same : reward = out.reward
  · rw [if_neg (not_not.mpr same), ne_eq, Option.map_eq_none_iff, ← ne_eq, Option.isSome_iff_ne_none]
    exact ⟨fun some' _ => some', fun some' => some' same⟩
  · rw [if_pos same]
    exact ⟨fun _ same' => absurd same' same, fun _ => Option.some_ne_none _⟩

theorem failures_outputVerdict (i : Nat) : failures (outputVerdict b shares rewards) i = 0 := by
  refine List.countP_eq_zero.mpr fun j _ => ?_
  unfold outputVerdict
  split
  · cases ephemeralKey _ b.side.coinbasePrivateKey (UInt64.ofNat j) with
    | none | some key => exact Bool.false_ne_true
  · exact Bool.false_ne_true

end Jobs

section Payouts

variable [Uint128Package] [Crypto] (V : View) (consensus : Consensus)
  (difficultyByHeight : UInt64 → Difficulty)

/-- The shares and rewards that `CalculateOutputs` makes outputs of; `none` where it returns nil. -/
def outputsToMake (block : Ptr) : Option (Shares × List UInt64) :=
  match getShares V consensus difficultyByHeight block with
  | none => none
  | some (shares, _) =>
    match splitReward (V.block block).main.coinbase.totalReward shares with
    | none => none
    | some rewards => if rewards.length ≠ shares.length then none else some (shares, rewards)

variable {V consensus difficultyByHeight}
variable {block : Ptr} {shares : Shares} {rewards : List UInt64}

theorem outputsToMake_length
    (make : outputsToMake V consensus difficultyByHeight block = some (shares, rewards)) :
    rewards.length = shares.length := by
  unfold outputsToMake at make
  split at make
  · cases make
  · split at make
    · cases make
    · split_ifs at make with same
      cases make
      exact not_not.mp same

theorem payoutsToCheck_length
    (check : payoutsToCheck V consensus difficultyByHeight block = .ok (shares, rewards)) :
    shares.length = (V.block block).main.coinbase.outputs.length ∧
      rewards.length = (V.block block).main.coinbase.outputs.length := by
  unfold payoutsToCheck at check
  dsimp only at check
  split_ifs at check with empty other total same
  cases check
  exact ⟨not_not.mp other, not_not.mp same⟩

variable [Curve] (V consensus difficultyByHeight) (d : DerivationCache) (numCPU : Nat)

/-- `CalculateOutputs` returns, in every interleaving of its workers. -/
def OutputsReturn (block : Ptr) : Prop :=
  ∀ shares rewards, outputsToMake V consensus difficultyByHeight block = some (shares, rewards) →
    SplitWorkReturns d numCPU ⟨shares.length, outputJob (V.block block) shares rewards⟩

def PayoutsReturn (block : Ptr) : Prop :=
  ∀ shares rewards, payoutsToCheck V consensus difficultyByHeight block = .ok (shares, rewards) →
    SplitWorkReturns d numCPU ⟨rewards.length, payoutJob (V.block block) shares rewards⟩

def OutputKeysValid (block : Ptr) : Prop :=
  ∀ shares rewards, outputsToMake V consensus difficultyByHeight block = some (shares, rewards) →
    ∀ share ∈ shares, ValidKeys share.address (V.block block).side.coinbasePrivateKey

def PayoutKeysValid (block : Ptr) : Prop :=
  ∀ shares rewards, payoutsToCheck V consensus difficultyByHeight block = .ok (shares, rewards) →
    ∀ (i : Nat) (share : Share) (out : Output), shares[i]? = some share →
      (V.block block).main.coinbase.outputs[i]? = some out → rewards[i]? = some out.reward →
        failures (payoutVerdict (V.block block) shares rewards) i <
          splitWorkRoutines numCPU rewards.length →
            ValidKeys share.address (V.block block).side.coinbasePrivateKey

theorem outputsReturn_iff (block : Ptr) : OutputsReturn V consensus difficultyByHeight d numCPU block ↔
      OutputKeysValid V consensus difficultyByHeight block := by
  refine forall_congr' fun shares => forall_congr' fun rewards => forall_congr' fun make => ?_
  have length := outputsToMake_length make
  rw [splitWorkReturns_iff d numCPU (fun i _ => within_outputJob _ _ _ i) fun i _ => ends_outputJob _ _ _ i]
  constructor
  · intro safe share present
    obtain ⟨i, hasShare⟩ := List.mem_iff_getElem?.mp present
    have below : i < shares.length := (List.getElem?_eq_some_iff.mp hasShare).1
    have hasReward : rewards[i]? = some (rewards.get ⟨i, by omega⟩) := List.getElem?_eq_getElem _
    refine (outputVerdict_ne_none_iff hasShare hasReward).mp (safe i below ?_)
    rw [failures_outputVerdict]
    exact splitWorkRoutines_pos numCPU (Nat.zero_lt_of_lt below)
  · intro valid i below _
    have hasShare : shares[i]? = some (shares.get ⟨i, below⟩) := List.getElem?_eq_getElem _
    have hasReward : rewards[i]? = some (rewards.get ⟨i, by dsimp only at below; omega⟩) :=
      List.getElem?_eq_getElem _
    exact (outputVerdict_ne_none_iff hasShare hasReward).mpr (valid _ (List.get_mem _ _))

theorem payoutsReturn_iff (block : Ptr) : PayoutsReturn V consensus difficultyByHeight d numCPU block ↔
      PayoutKeysValid V consensus difficultyByHeight numCPU block := by
  refine forall_congr' fun shares => forall_congr' fun rewards => forall_congr' fun check => ?_
  obtain ⟨sharesLength, rewardsLength⟩ := payoutsToCheck_length check
  rw [splitWorkReturns_iff d numCPU (fun i _ => within_payoutJob _ _ _ i) fun i _ => ends_payoutJob _ _ _ i]
  constructor
  · intro safe i share out hasShare hasOutput hasReward few
    have below : i < rewards.length := (List.getElem?_eq_some_iff.mp hasReward).1
    exact (payoutVerdict_ne_none_iff hasShare hasReward hasOutput).mp (safe i below few) rfl
  · intro valid i below few
    dsimp only at below
    have hasShare : shares[i]? = some (shares.get ⟨i, by omega⟩) := List.getElem?_eq_getElem _
    have hasReward : rewards[i]? = some (rewards.get ⟨i, below⟩) := List.getElem?_eq_getElem _
    have hasOutput : (V.block block).main.coinbase.outputs[i]? =
        some ((V.block block).main.coinbase.outputs.get ⟨i, by omega⟩) := List.getElem?_eq_getElem _
    refine (payoutVerdict_ne_none_iff hasShare hasReward hasOutput).mpr fun same => ?_
    rw [same] at hasReward
    exact valid i _ _ hasShare hasOutput hasReward few

end Payouts

/-! ## Preprocessing -/

section Preprocessing

variable [Uint128Package] [Crypto] (consensus : Consensus) (server : Server)

open SideChain

theorem SideChain.fillBlockOutputs_ne_fault (s : SideChain) (b : PoolBlock) (f : Fault) :
    fillBlockOutputs consensus server s b ≠ .error (.fault f) := by
  unfold fillBlockOutputs
  split_ifs
  · split
    · nofun
    · split
      · nofun
      · split_ifs <;> nofun
  · nofun

variable [Curve] (d : DerivationCache) (numCPU : Nat)

structure PreprocessReturns (fuel : Nat) (s : SideChain) (b : PoolBlock) : Prop where
  returns : ∀ f, ((preprocessBlock consensus server fuel b).on s).1 ≠ .error (.fault f)
  outputs : ∀ b' s', (fillBlockTransactions fuel (s.borrowOutputs b)).on s = (.ok b', s') →
    b'.main.coinbase.outputs = [] →
      OutputsReturn (s'.viewWith b') consensus server.getDifficultyByHeight d numCPU s'.next

/-- The transactions are filled in without a fault, and the keys for the outputs are valid. -/
structure PreprocessKeysValid (fuel : Nat) (s : SideChain) (b : PoolBlock) : Prop where
  transactions : ∀ f, ((fillBlockTransactions fuel (s.borrowOutputs b)).on s).1 ≠ .error (.fault f)
  outputs : ∀ b' s', (fillBlockTransactions fuel (s.borrowOutputs b)).on s = (.ok b', s') →
    b'.main.coinbase.outputs = [] →
      OutputKeysValid (s'.viewWith b') consensus server.getDifficultyByHeight s'.next

theorem preprocessReturns_iff (fuel : Nat) (s : SideChain) (b : PoolBlock) :
    PreprocessReturns consensus server d numCPU fuel s b ↔ PreprocessKeysValid consensus server fuel s b := by
  have faults : (∀ f, ((preprocessBlock consensus server fuel b).on s).1 ≠ .error (.fault f)) ↔
      ∀ f, ((fillBlockTransactions fuel (s.borrowOutputs b)).on s).1 ≠ .error (.fault f) := by
    refine forall_congr' fun f => not_congr ?_
    rw [preprocessBlock_on]
    rcases (fillBlockTransactions fuel (s.borrowOutputs b)).on s with ⟨e | b', s'⟩
    · exact Iff.rfl
    · exact ⟨fun fault => absurd fault (fillBlockOutputs_ne_fault consensus server s' b' f), nofun⟩
  constructor
  · intro returns
    refine ⟨faults.mp returns.returns, fun b' s' filled none => ?_⟩
    exact (outputsReturn_iff _ _ _ d numCPU _).mp (returns.outputs b' s' filled none)
  · intro valid
    refine ⟨faults.mpr valid.transactions, fun b' s' filled none => ?_⟩
    exact (outputsReturn_iff _ _ _ d numCPU _).mpr (valid.outputs b' s' filled none)

/-- `CalculateOutputs`, the payout check of `verifyBlock` and `PreprocessBlock` return for
all blocks and stores of which they derive keys from valid keys, and for no others. -/
theorem keysReturn_iff (fuel : Nat) (s : SideChain) (b : PoolBlock) (V : View) (block : Ptr)
    (difficultyByHeight : UInt64 → Difficulty) :
    (PreprocessReturns consensus server d numCPU fuel s b ↔
        PreprocessKeysValid consensus server fuel s b) ∧
      (OutputsReturn V consensus difficultyByHeight d numCPU block ↔
        OutputKeysValid V consensus difficultyByHeight block) ∧
      (PayoutsReturn V consensus difficultyByHeight d numCPU block ↔
        PayoutKeysValid V consensus difficultyByHeight numCPU block) :=
  ⟨preprocessReturns_iff consensus server d numCPU fuel s b,
    outputsReturn_iff V consensus difficultyByHeight d numCPU block,
    payoutsReturn_iff V consensus difficultyByHeight d numCPU block⟩

end Preprocessing

namespace KeysExample

/-- The bytes `02 00 .. 00`: no point of the curve has the coordinate `y = 2`. -/
def noPoint : PublicKeyBytes := 2

@[reducible] def curve : Curve where
  Point := Unit
  Scalar := Unit
  setBytes k := if k = noPoint then none else some ()
  setCanonicalBytes _ := some ()
  derivation _ _ := 1
  ephemeralPublicKeyAndViewTag _ _ _ := (1, 0)

/-- A genesis block with these outputs whose miner has no points for keys. -/
def blockWith (outputs : Outputs) : PoolBlock :=
  { RoundTripExample.block with
    main := { RoundTripExample.block.main with
      coinbase := { RoundTripExample.block.main.coinbase with outputs, totalReward := 600 } }
    side := { (default : SideData) with publicKey := ⟨noPoint, noPoint⟩, difficulty := ⟨100, 0⟩ } }

def outputs : Outputs := [⟨0, 600, 1, txOutToTaggedKey, 0⟩]

def bytes (pruned : Bool) : Bytes :=
  ((blockWith outputs).appendBinaryFlags pruned false).toOption.getD []

def decoded (pruned : Bool) : PoolBlock :=
  ((@PoolBlock.fromReaderFlags RoundTripExample.crypto consensusMini false (bytes pruned)).toOption.map
    Prod.fst).getD default

def server : Server := ⟨fun _ => ⟨0, 0⟩, none, fun _ => none, 0⟩

def view (pruned : Bool) : View := (newSideChain consensusMini).viewWith (decoded pruned)

def shares : Shares := [⟨⟨noPoint, noPoint⟩, ⟨100, 0⟩⟩]

theorem transactions_kept :
    (SideChain.fillBlockTransactions 1 ((newSideChain consensusMini).borrowOutputs (decoded true))).on
      (newSideChain consensusMini) = (.ok (decoded true), newSideChain consensusMini) := by
  have whole : (decoded true).needsCompactTransactionFilling = false := by decide +kernel
  have lengths : (decoded true).main.transactions.length ≠
      (decoded true).main.transactionParentIndices.length := by decide +kernel
  have borrowed : (newSideChain consensusMini).borrowOutputs (decoded true) = decoded true := by
    unfold SideChain.borrowOutputs
    split_ifs <;> rfl
  have unfilled : (decoded true).fillTransactionParentIndices none = decoded true := by
    rw [PoolBlock.fillTransactionParentIndices, if_pos lengths]
  rw [borrowed, SideChain.fillBlockTransactions, whole, if_neg Bool.false_ne_true, if_pos lengths]
  exact congrArg (fun b => (Except.ok b, newSideChain consensusMini)) unfilled

/-- A block whose keys are no points is decoded; the workers of `CalculateOutputs`, which
preprocessing the pruned block calls, and those of the payout check crash on it. -/
theorem noPoint_crash :
    letI : Uint128Package := .exact
    letI : Crypto := RoundTripExample.crypto
    letI : Curve := curve
    (PoolBlock.fromReaderFlags consensusMini false (bytes true) = .ok (decoded true, []) ∧
        (SideChain.fillBlockTransactions 1 ((newSideChain consensusMini).borrowOutputs (decoded true))).on
          (newSideChain consensusMini) = (.ok (decoded true), newSideChain consensusMini) ∧
        (decoded true).main.coinbase.outputs = [] ∧
        outputsToMake (view true) consensusMini server.getDifficultyByHeight 0 = some (shares, [600]) ∧
        ∃ n t, Run Computed ⟨1, outputJob (decoded true) shares [600]⟩
          (Crew.start DerivationCache.new.entries (splitWorkRoutines 4 1)) n t ∧ t.crashed = true) ∧
      PoolBlock.fromReaderFlags consensusMini false (bytes false) = .ok (decoded false, []) ∧
        payoutsToCheck (view false) consensusMini server.getDifficultyByHeight 0 = .ok (shares, [600]) ∧
        ∃ n t, Run Computed ⟨1, payoutJob (decoded false) shares [600]⟩
          (Crew.start DerivationCache.new.entries (splitWorkRoutines 4 1)) n t ∧ t.crashed = true := by
  let _ : Curve := curve
  have few : ∀ {α : Type} (verdict : Nat → Option (Except String α)),
      failures verdict 0 < splitWorkRoutines 4 1 := fun _ => Nat.one_pos
  refine ⟨⟨?_, ?_, ?_, ?_, ?_⟩, ?_, ?_, ?_⟩
  · decide +kernel
  · exact transactions_kept
  · decide +kernel
  · decide +kernel
  · have nil : outputVerdict (decoded true) shares [600] 0 = none := by decide +kernel
    exact exists_crash (fun i _ => within_outputJob _ _ _ i) (fun i _ => ends_outputJob _ _ _ i)
      DerivationCache.new.coherent Nat.one_pos (few _) nil
  · decide +kernel
  · decide +kernel
  · have nil : payoutVerdict (decoded false) shares [600] 0 = none := by decide +kernel
    exact exists_crash (fun i _ => within_payoutJob _ _ _ i) (fun i _ => ends_payoutJob _ _ _ i)
      DerivationCache.new.coherent Nat.one_pos (few _) nil

end KeysExample

end P2PoolObserver
