/-
# Sidechain.Shares -- from the window to the payouts (`share.go`, `utils.go`)

`GetShares` turns the weight calls of the window walk into one share for each
address, sorted and shuffled; `SplitReward` turns shares into rewards;
`CalculateOutputs` is the producer of a block's outputs and `checkPayouts` is the
section of `verifyBlock` that checks them.

The preallocated buffers of the source carry no information from one call to the
next, so shares are values here.
-/
import P2PoolObserver.Sidechain.Window
import P2PoolObserver.Utils

namespace P2PoolObserver

open Lib

structure Share where
  address : PackedAddress
  weight : Difficulty
  deriving DecidableEq, Inhabited

abbrev Shares := List Share

/-! ## Sorting and merging -/

def PackedAddress.comparePacked (a b : PackedAddress) : Ordering :=
  match Hash.compare a.spend b.spend with
  | .eq => Hash.compare a.view b.view
  | other => other

def lastByte (key : PublicKeyBytes) : Nat := key.toNat / 2 ^ 248

def Share.compare (a b : Share) : Ordering :=
  if lastByte a.address.spend < lastByte b.address.spend then .lt
  else if lastByte a.address.spend > lastByte b.address.spend then .gt
  else if a.address = b.address then .eq
  else a.address.comparePacked b.address

namespace Shares

/-- `Shares.Sort`.  Only shares of one address compare equal, and the next step
adds those up, so the order an unstable sort leaves them in does not matter. -/
def sort (s : Shares) : Shares := s.mergeSort fun a b => a.compare b != .gt

/-- The loop of `Shares.Compact` with `current` at `s[index]`. -/
def compactLoop (current : Share) : Shares → Shares
  | [] => [current]
  | share :: rest =>
    if current.address = share.address then
      compactLoop { current with weight := current.weight.add share.weight } rest
    else current :: compactLoop share rest

def compact (s : Shares) : Shares :=
  match s.sort with
  | [] => []
  | first :: rest => compactLoop first rest

end Shares

/-! ## Shuffling -/

def shuffleLoop {α : Type} (n : Nat) : Nat → Nat → UInt64 → List α → List α
  | 0, _, _, items => items
  | steps + 1, i, seed, items =>
    let seed := xorShift64Star seed
    let k := (Difficulty.bitsMul64 seed (UInt64.ofNat (n - i))).1
    shuffleLoop n steps (i + 1) seed (swap items i (i + k.toNat))

def shuffleShares {α : Type} [Crypto] (items : List α) (shareVersion : ShareVersion)
    (privateKeySeed : Hash) : List α :=
  if shareVersion > shareVersionV1 ∧ items.length > 1 then
    let seed := (Crypto.keccak256 (Bytes32.bytes privateKeySeed)).uint64
    shuffleLoop items.length (items.length - 1) 0 (if seed = 0 then 1 else seed) items
  else items

/-! ## Rewards -/

section Rewards

variable [Uint128Package]

/-- The loop of `SplitReward`: each share gets the rounded-down cumulative part
less what was given before it. -/
def splitRewardLoop (reward : UInt64) (totalWeight : Difficulty) :
    Difficulty → UInt64 → Shares → List UInt64
  | _, _, [] => []
  | w, rewardGiven, share :: rest =>
    let w := w.add share.weight
    let nextValue := (w.mul64 reward).div totalWeight
    (nextValue.lo - rewardGiven) :: splitRewardLoop reward totalWeight w nextValue.lo rest

def splitReward (reward : UInt64) (shares : Shares) : Option (List UInt64) :=
  let totalWeight := shares.foldl (fun total share => total.add share.weight) Difficulty.zeroDifficulty
  if totalWeight.equals64 0 then none
  else
    let rewards := splitRewardLoop reward totalWeight Difficulty.zeroDifficulty 0 shares
    -- double check that the exact amount was given out
    if rewards.foldl (· + ·) 0 ≠ reward then none else some rewards

theorem splitRewardLoop_length (reward : UInt64) (totalWeight : Difficulty) :
    ∀ (w : Difficulty) (given : UInt64) (shares : Shares),
      (splitRewardLoop reward totalWeight w given shares).length = shares.length
  | _, _, [] => rfl
  | w, given, share :: rest => by
    simp only [splitRewardLoop, List.length_cons, splitRewardLoop_length reward totalWeight]

theorem splitReward_eq_some {reward : UInt64} {shares : Shares} {rewards : List UInt64}
    (split : splitReward reward shares = some rewards) :
    rewards.length = shares.length ∧ rewards.foldl (· + ·) 0 = reward ∧ shares ≠ [] := by
  unfold splitReward at split
  dsimp only at split
  split_ifs at split with empty mismatch
  cases split
  refine ⟨splitRewardLoop_length _ _ _ _ _, not_not.mp mismatch, ?_⟩
  rintro rfl
  simp at empty

end Rewards

/-! ## Single outputs -/

section Outputs

variable [Crypto]

def shareOutput (b : PoolBlock) (index : Nat) (share : Share) (reward : UInt64) : Output :=
  let key := Crypto.ephemeralPublicKey share.address b.side.coinbasePrivateKey (UInt64.ofNat index)
  { index := UInt64.ofNat index, reward := reward, ephemeralPublicKey := key.1,
    type := b.getTransactionOutputType, viewTag := key.2 }

/-- All outputs from `index` on.  The work is split over goroutines that each fill
their own slots, so the result is that of the plain loop. -/
def shareOutputs (b : PoolBlock) : Nat → Shares → List UInt64 → Outputs
  | index, share :: shares, reward :: rewards =>
    shareOutput b index share reward :: shareOutputs b (index + 1) shares rewards
  | _, _, _ => []

def checkOutput (b : PoolBlock) (index : Nat) (share : Share) (reward : UInt64) (out : Output) :
    Except String Unit :=
  let key := Crypto.ephemeralPublicKey share.address b.side.coinbasePrivateKey (UInt64.ofNat index)
  if reward ≠ out.reward then
    .error ("has invalid reward at index " ++ toString index ++ ", got " ++ toString out.reward ++
      ", expected " ++ toString reward)
  else if key.1 ≠ out.ephemeralPublicKey then
    .error ("has incorrect eph_public_key at index " ++ toString index ++ ", got " ++
      Bytes32.string out.ephemeralPublicKey ++ ", expected " ++ Bytes32.string key.1)
  else if out.type = txOutToTaggedKey ∧ key.2 ≠ out.viewTag then
    .error ("has incorrect view tag at index " ++ toString index ++ ", got " ++
      toString out.viewTag ++ ", expected " ++ toString key.2)
  else .ok ()

/-- All checks from `index` on.  `SplitWork` reports a failure of any worker; which
of several errors it keeps depends on the schedule, here it is the first. -/
def checkOutputs (b : PoolBlock) : Nat → Shares → List UInt64 → Outputs → Except String Unit
  | index, share :: shares, reward :: rewards, out :: outs =>
    match checkOutput b index share reward out with
    | .error e => .error e
    | .ok () => checkOutputs b (index + 1) shares rewards outs
  | _, _, _, _ => .ok ()

/-- Agreement of a produced output with a block's output, as far as the source
compares them. -/
def OutputAgrees (produced out : Output) : Prop :=
  produced.reward = out.reward ∧ produced.ephemeralPublicKey = out.ephemeralPublicKey ∧
    (out.type = txOutToTaggedKey → produced.viewTag = out.viewTag)

theorem checkOutput_eq_ok_iff (b : PoolBlock) (index : Nat) (share : Share) (reward : UInt64)
    (out : Output) : checkOutput b index share reward out = .ok () ↔
      OutputAgrees (shareOutput b index share reward) out := by
  unfold checkOutput OutputAgrees shareOutput
  dsimp only
  split_ifs with h1 h2 h3
  · simp [h1]
  · simp [h2]
  · simp [h3.1, h3.2]
  · simp only [not_not] at h1 h2
    simp only [not_and, not_not] at h3
    exact ⟨fun _ => ⟨h1, h2, h3⟩, fun _ => rfl⟩

theorem checkOutputs_eq_ok_iff (b : PoolBlock) : ∀ (index : Nat) (shares : Shares)
    (rewards : List UInt64) (outs : Outputs), rewards.length = shares.length → outs.length = shares.length →
      (checkOutputs b index shares rewards outs = .ok () ↔
        List.Forall₂ OutputAgrees (shareOutputs b index shares rewards) outs)
  | index, [], [], [], _, _ => by simp [checkOutputs, shareOutputs]
  | index, share :: shares, reward :: rewards, out :: outs, hr, ho => by
    have rest := checkOutputs_eq_ok_iff b (index + 1) shares rewards outs (by simpa using hr)
      (by simpa using ho)
    have here := checkOutput_eq_ok_iff b index share reward out
    simp only [checkOutputs, shareOutputs, List.forall₂_cons]
    cases check : checkOutput b index share reward out with
    | error e =>
      rw [check] at here
      simp only [reduceCtorEq, false_iff] at here ⊢
      exact fun h => here h.1
    | ok u =>
      rw [check] at here
      simp only [true_iff] at here
      simp [here, rest]

theorem shareOutputs_length (b : PoolBlock) : ∀ (index : Nat) (shares : Shares)
    (rewards : List UInt64), rewards.length = shares.length →
      (shareOutputs b index shares rewards).length = shares.length
  | index, [], [], _ => rfl
  | index, share :: shares, reward :: rewards, h => by
    simp only [shareOutputs, List.length_cons]
    rw [shareOutputs_length b (index + 1) shares rewards (by simpa using h)]

theorem shareOutputs_reward (b : PoolBlock) : ∀ (index : Nat) (shares : Shares)
    (rewards : List UInt64), rewards.length = shares.length →
      (shareOutputs b index shares rewards).map Output.reward = rewards
  | index, [], [], _ => rfl
  | index, share :: shares, reward :: rewards, h => by
    simp only [shareOutputs, List.map_cons, shareOutput]
    rw [shareOutputs_reward b (index + 1) shares rewards (by simpa using h)]

end Outputs

/-! ## Shares of a block -/

section Payouts

variable [Uint128Package] [Crypto] (V : View) (consensus : Consensus)
  (difficultyByHeight : UInt64 → Difficulty)

def getSharesOrdered (tip : Ptr) : Option (Shares × UInt64) :=
  let run := blocksInPPLNSWindow V consensus tip difficultyByHeight
  match run.result with
  | .error _ => none
  | .ok bottomHeight =>
    let shares : Shares := run.calls.map fun call => ⟨(V.block call.block).side.publicKey, call.weight⟩
    some (shares.compact, bottomHeight)

def getShares (tip : Ptr) : Option (Shares × UInt64) :=
  match getSharesOrdered V consensus difficultyByHeight tip with
  | none => none
  | some (shares, bottomHeight) =>
    some (shuffleShares shares (V.block tip).shareVersion
      (V.block tip).side.coinbasePrivateKeySeed, bottomHeight)

/-! ## Producing and checking payouts -/

def calculateOutputs (block : Ptr) : Option (Outputs × UInt64) :=
  match getShares V consensus difficultyByHeight block with
  | none => none
  | some (shares, bottomHeight) =>
    match splitReward (V.block block).main.coinbase.totalReward shares with
    | none => none
    | some rewards =>
      if rewards.length ≠ shares.length then none
      else some (shareOutputs (V.block block) 0 shares rewards, bottomHeight)

/-- The shares and rewards with which the payout check compares the outputs. -/
def payoutsToCheck (block : Ptr) : Except String (Shares × List UInt64) :=
  let b := V.block block
  let outputs := b.main.coinbase.outputs
  let shares := ((getShares V consensus difficultyByHeight block).map Prod.fst).getD []
  if shares.length = 0 then .error "could not get outputs"
  else if shares.length ≠ outputs.length then
    .error ("invalid number of outputs, got " ++ toString outputs.length ++ ", expected " ++
      toString shares.length)
  else
    let totalReward := outputs.foldl (fun result o => result + o.reward) 0
    if totalReward ≠ b.main.coinbase.totalReward then
      .error ("invalid total reward, got " ++ toString b.main.coinbase.totalReward ++
        ", expected " ++ toString totalReward)
    else
      let rewards := (splitReward totalReward shares).getD []
      if rewards.length ≠ outputs.length then
        .error ("invalid number of outputs, got " ++ toString outputs.length ++ ", expected " ++
          toString rewards.length)
      else .ok (shares, rewards)

def checkPayouts (block : Ptr) : Except String Unit :=
  match payoutsToCheck V consensus difficultyByHeight block with
  | .error err => .error err
  | .ok (shares, rewards) => checkOutputs (V.block block) 0 shares rewards (V.block block).main.coinbase.outputs

theorem calculateOutputs_eq_some {block : Ptr} {outs : Outputs} {bottomHeight : UInt64}
    (made : calculateOutputs V consensus difficultyByHeight block = some (outs, bottomHeight)) :
    ∃ shares rewards, getShares V consensus difficultyByHeight block = some (shares, bottomHeight) ∧
      splitReward (V.block block).main.coinbase.totalReward shares = some rewards ∧
      outs = shareOutputs (V.block block) 0 shares rewards := by
  unfold calculateOutputs at made
  cases got : getShares V consensus difficultyByHeight block with
  | none => simp [got] at made
  | some p =>
    obtain ⟨shares, bottom⟩ := p
    cases split : splitReward (V.block block).main.coinbase.totalReward shares with
    | none => simp [got, split] at made
    | some rewards =>
      simp only [got, split, (splitReward_eq_some split).1, ne_eq, not_true, if_false,
        Option.some.injEq, Prod.mk.injEq] at made
      obtain ⟨rfl, rfl⟩ := made
      exact ⟨shares, rewards, rfl, split, rfl⟩

theorem agreeing_outputs_total {b : PoolBlock} {shares : Shares} {rewards : List UInt64}
    (split : splitReward b.main.coinbase.totalReward shares = some rewards)
    (agree : List.Forall₂ OutputAgrees (shareOutputs b 0 shares rewards) b.main.coinbase.outputs) :
    b.main.coinbase.outputs.foldl (fun result o => result + o.reward) 0 =
      b.main.coinbase.totalReward := by
  obtain ⟨length, total, -⟩ := splitReward_eq_some split
  have rewardsEq : b.main.coinbase.outputs.map Output.reward = rewards := by
    rw [← shareOutputs_reward b 0 shares rewards length]
    have same : List.Forall₂ (fun a o => a.reward = o.reward) (shareOutputs b 0 shares rewards)
        b.main.coinbase.outputs := agree.imp fun _ _ h => h.1
    exact (List.forall₂_eq_eq_eq ▸ List.forall₂_map_left_iff.mpr
      (List.forall₂_map_right_iff.mpr same)).symm
  rw [← total, ← rewardsEq, List.foldl_map]

/-- The checker accepts exactly the blocks whose outputs agree, one by one, with
what the producer makes of them; that the rewards add up to `TotalReward` follows
from that agreement. -/
theorem checkPayouts_iff_calculateOutputs (block : Ptr) :
    (checkPayouts V consensus difficultyByHeight block = .ok () ↔
      ∃ outs bottomHeight,
        calculateOutputs V consensus difficultyByHeight block = some (outs, bottomHeight) ∧
        List.Forall₂ OutputAgrees outs (V.block block).main.coinbase.outputs) ∧
    ∀ outs bottomHeight,
      calculateOutputs V consensus difficultyByHeight block = some (outs, bottomHeight) →
      List.Forall₂ OutputAgrees outs (V.block block).main.coinbase.outputs →
      (V.block block).main.coinbase.outputs.foldl (fun result o => result + o.reward) 0 =
        (V.block block).main.coinbase.totalReward := by
  refine ⟨⟨fun accepted => ?_, ?_⟩, ?_⟩
  · unfold checkPayouts at accepted
    cases check : payoutsToCheck V consensus difficultyByHeight block with
    | error err => simp [check] at accepted
    | ok pair =>
    rw [check] at accepted
    unfold payoutsToCheck at check
    dsimp only at check
    split_ifs at check with none count total rewardCount
    cases check
    cases got : getShares V consensus difficultyByHeight block with
    | none => simp [got] at none
    | some p =>
      obtain ⟨shares, bottomHeight⟩ := p
      simp only [got, Option.map_some, Option.getD_some, not_not] at none count total rewardCount accepted
      cases split : splitReward (V.block block).main.coinbase.totalReward shares with
      | none =>
        simp only [total, split, Option.getD_none, List.length_nil] at rewardCount
        omega
      | some rewards =>
        simp only [total, split, Option.getD_some] at rewardCount accepted
        have lengths : rewards.length = shares.length := by omega
        refine ⟨shareOutputs (V.block block) 0 shares rewards, bottomHeight, ?_, ?_⟩
        · simp [calculateOutputs, got, split, lengths]
        · exact (checkOutputs_eq_ok_iff _ 0 shares rewards _ lengths count.symm).mp accepted
  · rintro ⟨outs, bottomHeight, made, agree⟩
    obtain ⟨shares, rewards, got, split, rfl⟩ :=
      calculateOutputs_eq_some V consensus difficultyByHeight made
    obtain ⟨lengths, -, nonempty⟩ := splitReward_eq_some split
    have count : (V.block block).main.coinbase.outputs.length = shares.length := by
      rw [← agree.length_eq, shareOutputs_length _ 0 shares rewards lengths]
    have total := agreeing_outputs_total split agree
    have positive : shares.length ≠ 0 := by simpa using nonempty
    unfold checkPayouts payoutsToCheck
    simp only [got, Option.map_some, Option.getD_some, positive, if_false, count, total, split,
      lengths, ne_eq, not_true]
    exact (checkOutputs_eq_ok_iff _ 0 shares rewards _ lengths count).mpr agree
  · intro outs bottomHeight made agree
    obtain ⟨shares, rewards, -, split, rfl⟩ :=
      calculateOutputs_eq_some V consensus difficultyByHeight made
    exact agreeing_outputs_total split agree

end Payouts

end P2PoolObserver
