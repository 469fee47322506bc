/-
# Sidechain.LongerChain -- which of two tips to follow (`IsLongerChain` in `utils.go`)

Two tips with a common ancestor are compared by cumulative difficulty.  Tips of
unrelated chains are compared by the difficulty of their last `ChainWindowSize`
blocks, and the candidate must have been mined on recent main chain blocks.
-/
import P2PoolObserver.Sidechain.Window
import P2PoolObserver.Lib.Loop

namespace P2PoolObserver

open Lib

structure ChainMain where
  difficulty : Difficulty
  height : UInt64
  timestamp : UInt64
  reward : UInt64
  id : Hash
  deriving DecidableEq, Inhabited

section Order

variable [Uint128Package] (V : View) (consensus : Consensus)

def ancestorAtHeight (height : UInt64) : Nat → Option Ptr → Except Fault (Option Ptr)
  | _, none => .ok none
  | 0, some _ => .error .outOfFuel
  | fuel + 1, some p =>
    if (V.block p).side.height > height then ancestorAtHeight height fuel (V.iteratorGetParent p)
    else .ok (some p)

/-- Follow parents from both sides until they agree. -/
def haveCommonAncestor : Nat → Option Ptr → Option Ptr → Except Fault Bool
  | _, none, _ => .ok false
  | _, some _, none => .ok false
  | 0, some _, some _ => .error .outOfFuel
  | fuel + 1, some a, some b =>
    if (V.block a).side.parent = (V.block b).side.parent then .ok true
    else haveCommonAncestor fuel (V.iteratorGetParent a) (V.iteratorGetParent b)

/-! ## Unrelated chains -/

def addWithUncles (total : Difficulty) (p : Ptr) : Difficulty :=
  (V.iteratorUncles p).visited.foldl (fun total uncle => total.add (V.block uncle).side.difficulty)
    (total.add (V.block p).side.difficulty)

/-- What the window loop accumulates over the current chain. -/
structure CurrentTotals where
  totalDiff : Difficulty
  moneroBlocks : List Hash

def addCurrent (getChainMainByHash : Hash → Option ChainMain) (t : CurrentTotals) (p : Ptr) :
    CurrentTotals :=
  let previousId := (V.block p).main.previousId
  ⟨addWithUncles V t.totalDiff p,
    if previousId ∉ t.moneroBlocks ∧ (getChainMainByHash previousId).isSome then
      t.moneroBlocks ++ [previousId]
    else t.moneroBlocks⟩

structure CandidateTotals where
  totalDiff : Difficulty
  moneroBlocks : List Hash
  mainchainHeight : UInt64
  mainchainMinHeight : UInt64

def addCandidate (getChainMainByHash : Hash → Option ChainMain) (t : CandidateTotals) (p : Ptr) :
    CandidateTotals :=
  let previousId := (V.block p).main.previousId
  let genHeight := (V.block p).main.coinbase.genHeight
  let t := { t with
    mainchainMinHeight :=
      if t.mainchainMinHeight ≠ 0 then min t.mainchainMinHeight genHeight else genHeight,
    totalDiff := addWithUncles V t.totalDiff p }
  if previousId ∈ t.moneroBlocks then t
  else match getChainMainByHash previousId with
    | none => t
    | some data =>
      { t with moneroBlocks := t.moneroBlocks ++ [previousId],
               mainchainHeight := max t.mainchainHeight data.height }

/-- The window loop; the two chains advance independently. -/
def windowTotals (getChainMainByHash : Hash → Option ChainMain) :
    Nat → Option Ptr → Option Ptr → CurrentTotals → CandidateTotals →
      CurrentTotals × CandidateTotals
  | 0, _, _, current, candidate => (current, candidate)
  | n + 1, oldChain, newChain, current, candidate =>
    windowTotals getChainMainByHash n
      (oldChain.bind V.iteratorGetParent) (newChain.bind V.iteratorGetParent)
      (match oldChain with
        | none => current
        | some p => addCurrent V getChainMainByHash current p)
      (match newChain with
        | none => candidate
        | some p => addCandidate V getChainMainByHash candidate p)

def isLongerAlternative (getChainMainByHash : Hash → Option ChainMain) (block candidate : Ptr) : Bool :=
  let (current, new) := windowTotals V getChainMainByHash consensus.chainWindowSize.toNat
    (some block) (some candidate) ⟨Difficulty.zeroDifficulty, []⟩ ⟨Difficulty.zeroDifficulty, [], 0, 0⟩
  if current.totalDiff.cmp new.totalDiff ≠ .lt then false
  else match getChainMainByHash zeroHash with
    | none => false
    | some headerTip =>
      -- the candidate chain must be built on recent main chain blocks
      if new.mainchainHeight + 10 < headerTip.height then false
      else
        let limit := consensus.chainWindowSize * 4 * consensus.targetBlockTime / moneroBlockTime
        if new.mainchainMinHeight + limit < headerTip.height then false
        -- and on at least half as many known Monero blocks as the current chain
        else if new.moneroBlocks.length * 2 < current.moneroBlocks.length then false
        else true

/-- Whether two tips have a common ancestor, as far as their parents are known. -/
def haveSameRoot (fuel : Nat) (block candidate : Ptr) : Except Fault Bool := do
  let blockAncestor ← ancestorAtHeight V (V.block candidate).side.height fuel (some block)
  match blockAncestor with
  | none => .ok false
  | some ancestor => do
    let candidateAncestor ← ancestorAtHeight V (V.block ancestor).side.height fuel (some candidate)
    haveCommonAncestor V fuel (some ancestor) candidateAncestor

def isLongerChain (getChainMainByHash : Hash → Option ChainMain) (fuel : Nat)
    (block candidate : Option Ptr) : Except Fault (Bool × Bool) :=
  match candidate with
  | none => .ok (false, false)
  | some candidate =>
    if !(V.block candidate).verified || (V.block candidate).invalid then .ok (false, false)
    else match block with
      -- switching from an empty to a non-empty chain
      | none => .ok (true, true)
      | some block => do
        let related ← haveSameRoot V fuel block candidate
        if related then
          .ok ((V.block block).side.cumulativeDifficulty.cmp
            (V.block candidate).side.cumulativeDifficulty = .lt, false)
        else .ok (isLongerAlternative V consensus getChainMainByHash block candidate, true)

end Order

end P2PoolObserver
