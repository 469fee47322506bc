/-
# Sidechain.SideChain -- the store of blocks and its only mutator, `AddPoolBlock` (`sidechain.go`)

A `SideChain` is the memory that holds the block objects, the two indexes into it
(by template id and by height), and the chain tip with the difficulty computed
for the block after it.  `addPoolBlock` inserts a decoded block, propagates
depths, verifies what has become verifiable, follows the longest chain and prunes.

Worklists take fuel; a `Fault` is either exhausted fuel or a run-time panic.  An
early `return` from a procedure is `Except.error` with the state at that point.
-/
import P2PoolObserver.Sidechain.Verify
import Mathlib.Data.List.Sort
import Mathlib.Logic.Function.Basic

namespace P2PoolObserver

open Lib

structure Server where
  getDifficultyByHeight : UInt64 → Difficulty
  getChainMainTip : Option ChainMain
  getChainMainByHash : Hash → Option ChainMain
  now : UInt64

/-- The lookup that `isLongerChain` hands on: the zero hash stands for the tip. -/
def Server.chainMain (server : Server) (h : Hash) : Option ChainMain :=
  if h = zeroHash then server.getChainMainTip else server.getChainMainByHash h

/-- Calls to the server, and the one log line that reports a broken index. -/
inductive Event where
  | updateTip (tip : Ptr)
  | broadcast (block : Ptr)
  | store (block : Ptr)
  | updateBlockFound (data : Option ChainMain) (block : Ptr)
  | inconsistent (height : UInt64) (id : Hash)
  deriving DecidableEq

structure SideChain where
  mem : Ptr → PoolBlock
  /-- The first address that has not been given to a block. -/
  next : Ptr
  watchBlock : Option ChainMain
  watchBlockSidechainId : Hash
  seenBlocks : FullId → Bool
  blocksByTemplateId : Hash → Option Ptr
  blocksByHeight : UInt64 → Option (List Ptr)
  blocksByHeightKeysSorted : Bool
  blocksByHeightKeys : List UInt64
  syncTip : Option Ptr
  chainTip : Option Ptr
  currentDifficulty : Difficulty
  precalcFinished : Bool
  events : List Event

def newSideChain (consensus : Consensus) : SideChain where
  mem _ := default
  next := 0
  watchBlock := none
  watchBlockSidechainId := zeroHash
  seenBlocks _ := false
  blocksByTemplateId _ := none
  blocksByHeight _ := none
  blocksByHeightKeysSorted := false
  blocksByHeightKeys := []
  syncTip := none
  chainTip := none
  currentDifficulty := .difficultyFrom64 consensus.minimumDifficulty
  precalcFinished := false
  events := []

def slicesIndex (xs : List Hash) (x : Hash) : Int :=
  match xs.idxOf? x with
  | some i => i
  | none => -1

namespace SideChain

/-- The memory and the lookup by template id, as the walks see them. -/
def view (s : SideChain) : View := ⟨s.mem, s.blocksByTemplateId⟩

def getPoolBlocksByHeight (s : SideChain) (height : UInt64) : List Ptr :=
  (s.blocksByHeight height).getD []

def modify (s : SideChain) (p : Ptr) (f : PoolBlock → PoolBlock) : SideChain :=
  { s with mem := Function.update s.mem p (f (s.mem p)) }

def emit (s : SideChain) (e : Event) : SideChain := { s with events := s.events ++ [e] }

/-- `if block.WantBroadcast && !block.Broadcasted.Swap(true)`, then `Broadcast` if `send`. -/
def broadcastOnce (s : SideChain) (p : Ptr) (send : Bool) : SideChain :=
  if (s.mem p).wantBroadcast then
    let s' := s.modify p fun b => { b with broadcasted := true }
    if !(s.mem p).broadcasted && send then s'.emit (.broadcast p) else s'
  else s

def context (server : Server) (s : SideChain) : VerifyContext :=
  ⟨s.view, s.chainTip, s.currentDifficulty, server.getDifficultyByHeight⟩

section Operations

variable [Uint128Package] [Crypto] (consensus : Consensus) (server : Server)

def templateId (s : SideChain) (p : Ptr) : Hash := (s.mem p).sideTemplateId consensus

/-! ## Pruning -/

def pruneDistance : UInt64 :=
  consensus.chainWindowSize * 2 + moneroBlockTime / consensus.targetBlockTime

def pruneDelay : UInt64 := consensus.chainWindowSize * 4 * consensus.targetBlockTime

/-- Whether a block at or below the prune height goes: deep or old. -/
def prunable (b : PoolBlock) : Bool :=
  b.depth ≥ pruneDistance consensus || server.now ≥ b.localTimestamp + pruneDelay consensus

def deleteBlock (s : SideChain) (height : UInt64) (p : Ptr) : SideChain :=
  let id := s.templateId consensus p
  let s :=
    if (s.blocksByTemplateId id).isSome then
      { s with blocksByTemplateId := Function.update s.blocksByTemplateId id none }
    else s.emit (.inconsistent height id)
  s.modify p fun b => { b with iterationCache := none }

/-- The blocks of one height, from the last to the first; returns those kept and
how many were taken out of the index. -/
def pruneBlocks (height : UInt64) : SideChain → List Ptr → SideChain × List Ptr × Nat
  | s, [] => (s, [], 0)
  | s, p :: rest =>
    let (s, kept, numBlocksPruned) := pruneBlocks height s rest
    if prunable consensus server (s.mem p) then
      let found := (s.blocksByTemplateId (s.templateId consensus p)).isSome
      (s.deleteBlock consensus height p, kept, if found then numBlocksPruned + 1 else numBlocksPruned)
    else (s, p :: kept, numBlocksPruned)

/-- The loop over the heights.  It ranges over the slots of the key slice as it was
at the start, while `slices.Delete` shifts the keys in place and clears the end:
slot `keyIndex` holds the current key at that position, and zero past the last. -/
def pruneKeys (h : UInt64) : Nat → Nat → SideChain → Nat → Except Fault (SideChain × Nat)
  | 0, _, s, numBlocksPruned => .ok (s, numBlocksPruned)
  | slots + 1, keyIndex, s, numBlocksPruned =>
    let height := s.blocksByHeightKeys.getD keyIndex 0
    if height > h then .ok (s, numBlocksPruned)
    else
      let (s, v, pruned) := pruneBlocks consensus server height s (s.getPoolBlocksByHeight height)
      if v = [] then
        let s := { s with blocksByHeight := Function.update s.blocksByHeight height none }
        if keyIndex < s.blocksByHeightKeys.length then
          pruneKeys h slots (keyIndex + 1)
            { s with blocksByHeightKeys := s.blocksByHeightKeys.eraseIdx keyIndex }
            (numBlocksPruned + pruned)
        else .error (.panic "slice bounds out of range")
      else
        pruneKeys h slots (keyIndex + 1)
          { s with blocksByHeight := Function.update s.blocksByHeight height (some v) }
          (numBlocksPruned + pruned)

def sortKeys (s : SideChain) : SideChain :=
  if s.blocksByHeightKeysSorted then s
  else { s with blocksByHeightKeys := s.blocksByHeightKeys.insertionSort (· ≤ ·)
                blocksByHeightKeysSorted := true }

/-- Forget the full ids whose template id is not stored. -/
def cleanupSeenBlocks (s : SideChain) : SideChain :=
  { s with seenBlocks := fun k => s.seenBlocks k && (s.blocksByTemplateId k.templateId).isSome }

def pruneOldBlocks (s : SideChain) : Except Fault SideChain :=
  match s.chainTip with
  | none => .ok s
  | some tip =>
    if (s.mem tip).side.height < pruneDistance consensus then .ok s
    else do
      let h := (s.mem tip).side.height - pruneDistance consensus
      let s := s.sortKeys
      let (s, numBlocksPruned) ←
        pruneKeys consensus server h s.blocksByHeightKeys.length 0 s 0
      .ok (if numBlocksPruned > 0 then { s with precalcFinished := true }.cleanupSeenBlocks else s)

/-! ## The chain tip -/

def adoptTip (s : SideChain) (block : Ptr) (diff : Difficulty) (isAlternative : Bool) :
    Except Fault SideChain :=
  let s := { s with chainTip := some block, syncTip := some block, currentDifficulty := diff }
  let s := (s.modify block fun b => { b with wantBroadcast := true }).emit (.updateTip block)
  pruneOldBlocks consensus server (if isAlternative then { s with precalcFinished := true } else s)

def moveTip (s : SideChain) (block : Ptr) (isLonger isAlternative : Bool) : Except Fault SideChain :=
  if isLonger then
    match getDifficultyForNextBlock consensus s.view block with
    | .error _ => .ok s
    | .ok diff =>
      if diff = Difficulty.zeroDifficulty then .ok s
      else adoptTip consensus server s block diff isAlternative
  else match s.chainTip with
    -- the log line reads the height of the tip
    | none => .error (.panic "invalid memory address or nil pointer dereference")
    | some _ => .ok s

def updateChainTip (fuel : Nat) (s : SideChain) (block : Ptr) : Except Fault SideChain :=
  if !(s.mem block).verified || (s.mem block).invalid then .ok s
  else if (s.mem block).depth ≥ consensus.chainWindowSize then .ok s
  else if s.chainTip = some block then .ok s
  else do
    let (isLonger, isAlternative) ←
      isLongerChain s.view consensus server.chainMain fuel s.chainTip (some block)
    let s ← moveTip consensus server s block isLonger isAlternative
    .ok (s.broadcastOnce block true)

/-! ## Verification -/

def fillIterationCache (s : SideChain) (block : Ptr) : SideChain :=
  match s.view.iteratorGetParent block with
  | none => s
  | some parent =>
    let visit := View.visitUncles s.blocksByTemplateId (s.mem block).side.uncles
    s.modify block fun b => { b with iterationCache :=
      match visit.missing with
      | some _ => none
      | none => some ⟨parent, visit.visited⟩ }

def fillPoolBlockTransactionParentIndices (s : SideChain) (block : Ptr) : SideChain :=
  s.modify block fun b => b.fillTransactionParentIndices ((s.view.iteratorGetParent block).map s.mem)

def blocksAbove (s : SideChain) (block : Ptr) : List Ptr :=
  let height := (s.mem block).side.height
  (s.getPoolBlocksByHeight (height + 1) ++ s.getPoolBlocksByHeight (height + 2) ++
    s.getPoolBlocksByHeight (height + 3)).reverse

def setVerdict (s : SideChain) (block : Ptr) (verified invalid : Bool) : SideChain :=
  s.modify block fun b => { b with verified := verified, invalid := invalid }

def markVerified (s : SideChain) (block : Ptr) : SideChain :=
  ((s.setVerdict block true false).fillIterationCache block).fillPoolBlockTransactionParentIndices block

/-- The local variables of `verifyLoop`; the next block to verify comes first. -/
structure VerifyState where
  chain : SideChain
  blocksToVerify : List Ptr
  highestBlock : Option Ptr
  err : Option String

def acceptBlock (fuel : Nat) (v : VerifyState) (block : Ptr) : Except Fault VerifyState := do
  let s := v.chain.markVerified block
  let (longer, _) ←
    isLongerChain s.view consensus server.chainMain fuel v.highestBlock (some block)
  let s := s.broadcastOnce block ((s.mem block).depth < uncleBlockDepth)
  let s := s.emit (.store block)
  .ok { v with
    chain := s
    blocksToVerify := s.blocksAbove block ++ v.blocksToVerify
    highestBlock := if longer then some block else v.highestBlock }

def verifyStep (fuel : Nat) (blockToVerify : Ptr) (v : VerifyState) :
    Except Fault (Step VerifyState VerifyState) :=
  match v.blocksToVerify with
  | [] => .ok (.done v)
  | block :: rest =>
    let v := { v with blocksToVerify := rest }
    if (v.chain.mem block).verified then .ok (.next v)
    else match verifyBlock consensus (v.chain.context server) fuel block with
      | .error (.fault f) => .error f
      | .error (.invalid message) =>
        .ok (.next { v with
          chain := v.chain.setVerdict block true true
          err := if block = blockToVerify then some message else v.err })
      | .error (.unverifiable _) =>
        .ok (.next { v with chain := v.chain.setVerdict block false false })
      | .ok () => do
        let v ← acceptBlock consensus server fuel v block
        .ok (.next v)

def verifyLoop (fuel : Nat) (s : SideChain) (blockToVerify : Ptr) :
    Except Fault (SideChain × Option String) := do
  let v ← loop (verifyStep consensus server fuel blockToVerify) fuel ⟨s, [blockToVerify], none, none⟩
  match v.highestBlock with
  | none => .ok (v.chain, v.err)
  | some highestBlock => do
    let s ← updateChainTip consensus server fuel v.chain highestBlock
    .ok (s, v.err)

/-! ## Depths -/

def updateDepth (s : SideChain) (p : Ptr) (newDepth : UInt64) : SideChain :=
  if (s.mem p).depth < newDepth then s.modify p fun b => { b with depth := newDepth } else s

/-- First loop: the new block takes its depth from a child at `i` above it. -/
def depthFromChild (block : Ptr) (i : UInt64) (s : SideChain) (child : Ptr) :
    Except SideChain SideChain :=
  let id := s.templateId consensus block
  let isChild := (s.mem child).side.parent = id
  if isChild ∧ i ≠ 1 then .error s
  else
    let s := if isChild then s.updateDepth block ((s.mem child).depth + 1) else s
    .ok (if slicesIndex (s.mem child).side.uncles id ≠ 1 then
      s.updateDepth block ((s.mem child).depth + 1) else s)

def depthFromChildren (block : Ptr) (s : SideChain) : Except SideChain SideChain :=
  [1, 2, 3].foldlM (fun s i =>
    (s.getPoolBlocksByHeight ((s.mem block).side.height + i)).foldlM
      (depthFromChild consensus block i) s) s

/-- The worklist of `updateDepths`; the next block comes first. -/
structure DepthState where
  chain : SideChain
  blocksToUpdate : List Ptr

def depthToChild (block : Ptr) (blockDepth i : UInt64) (d : DepthState) (child : Ptr) :
    Except SideChain DepthState :=
  let s := d.chain
  let id := s.templateId consensus block
  let oldDepth := (s.mem child).depth
  let isChild := (s.mem child).side.parent = id
  if isChild ∧ i ≠ 1 then .error s
  else
    let s := if isChild ∧ blockDepth > 0 then s.updateDepth child (blockDepth - 1) else s
    let s := if id ∈ (s.mem child).side.uncles ∧ blockDepth > i then
      s.updateDepth child (blockDepth - i) else s
    .ok ⟨s, if (s.mem child).depth > oldDepth then child :: d.blocksToUpdate else d.blocksToUpdate⟩

def depthToChildren (block : Ptr) (blockDepth : UInt64) (d : DepthState) :
    Except SideChain DepthState :=
  [1, 2, 3].foldlM (fun d i =>
    (d.chain.getPoolBlocksByHeight ((d.chain.mem block).side.height + i)).foldlM
      (depthToChild consensus block blockDepth i) d) d

def depthToParent (block : Ptr) (blockDepth : UInt64) (d : DepthState) :
    Except SideChain DepthState :=
  match d.chain.view.iteratorGetParent block with
  | none => .ok d
  | some parent =>
    if (d.chain.mem parent).side.height + 1 ≠ (d.chain.mem block).side.height then .error d.chain
    else if (d.chain.mem parent).depth < blockDepth + 1 then
      .ok ⟨d.chain.updateDepth parent (blockDepth + 1), parent :: d.blocksToUpdate⟩
    else .ok d

/-- The callback for one uncle; an uncle at a wrong height is reported by the flag. -/
def depthToUncle (block : Ptr) (blockDepth : UInt64) (r : DepthState × Bool) (uncle : Ptr) :
    DepthState × Bool :=
  let (d, returnFromUncles) := r
  let height := (d.chain.mem block).side.height
  let uncleHeight := (d.chain.mem uncle).side.height
  if uncleHeight ≥ height ∨ uncleHeight + uncleBlockDepth < height then (d, true)
  else
    let distance := height - uncleHeight
    if (d.chain.mem uncle).depth < blockDepth + distance then
      (⟨d.chain.updateDepth uncle (blockDepth + distance), uncle :: d.blocksToUpdate⟩, returnFromUncles)
    else (d, returnFromUncles)

def depthToUncles (block : Ptr) (blockDepth : UInt64) (d : DepthState) :
    Except SideChain DepthState :=
  let (d, returnFromUncles) :=
    (d.chain.view.iteratorUncles block).visited.foldl (depthToUncle block blockDepth) (d, false)
  if returnFromUncles then .error d.chain else .ok d

def depthToNeighbours (block : Ptr) (blockDepth : UInt64) (d : DepthState) :
    Except SideChain DepthState := do
  let d ← depthToChildren consensus block blockDepth d
  let d ← depthToParent block blockDepth d
  depthToUncles block blockDepth d

def verifyDeep (fuel : Nat) (s : SideChain) (block : Ptr) : Except Fault SideChain :=
  let b := s.mem block
  if !b.verified && (b.depth ≥ consensus.chainWindowSize * 2 || b.side.height == 0) then do
    let (s, _) ← verifyLoop consensus server fuel s block
    .ok s
  else .ok s

def depthStep (fuel : Nat) (d : DepthState) : Except Fault (Step DepthState SideChain) :=
  match d.blocksToUpdate with
  | [] => .ok (.done d.chain)
  | block :: rest => do
    let blockDepth := (d.chain.mem block).depth
    let s ← verifyDeep consensus server fuel d.chain block
    .ok (match depthToNeighbours consensus block blockDepth ⟨s, rest⟩ with
      | .error s => .done s
      | .ok d => .next d)

def updateDepths (fuel : Nat) (s : SideChain) (block : Ptr) : Except Fault SideChain :=
  match depthFromChildren consensus block s with
  | .error s => .ok s
  | .ok s => loop (depthStep consensus server fuel) fuel ⟨s, [block]⟩

/-! ## Insertion -/

/-- A new object for the decoded block `b`, entered into all indexes. -/
def insertBlock (s : SideChain) (b : PoolBlock) : SideChain :=
  let p := s.next
  let id := b.sideTemplateId consensus
  let height := b.side.height
  let s := { s with
    mem := Function.update s.mem p b
    next := p + 1
    blocksByTemplateId := Function.update s.blocksByTemplateId id (some p) }
  let s :=
    if id = s.watchBlockSidechainId then
      { s.emit (.updateBlockFound s.watchBlock p) with watchBlockSidechainId := zeroHash }
    else s
  match s.blocksByHeight height with
  | some l => { s with blocksByHeight := Function.update s.blocksByHeight height (some (l ++ [p])) }
  | none =>
    { s with
      blocksByHeight := Function.update s.blocksByHeight height (some [p])
      blocksByHeightKeysSorted := s.blocksByHeightKeysSorted &&
        s.blocksByHeightKeys.getLast?.any (· + 1 == height)
      blocksByHeightKeys := s.blocksByHeightKeys ++ [height] }

def updateSyncTip (s : SideChain) (block : Ptr) : SideChain :=
  if !(s.mem block).invalid && (s.mem block).depth == 0 then { s with syncTip := some block } else s

/-- The last part of `AddPoolBlock`: the new block may have been verified already. -/
def settleBlock (fuel : Nat) (s : SideChain) (block : Ptr) : Except Fault (SideChain × Option String) :=
  if (s.mem block).verified then
    if (s.mem block).invalid then .ok (s, none)
    else do
      let s ← updateChainTip consensus server fuel s block
      .ok (s, none)
  else verifyLoop consensus server fuel s block

def addPoolBlock (fuel : Nat) (s : SideChain) (b : PoolBlock) :
    Except Fault (SideChain × Option String) :=
  if (s.blocksByTemplateId (b.sideTemplateId consensus)).isSome then .ok (s, none)
  else match b.appendBinaryFlags false false with
    | .error message => .ok (s, some ("encoding block error: " ++ message))
    | .ok _ => do
      let block := s.next
      let s ← updateDepths consensus server fuel (s.insertBlock consensus b) block
      let (s, err) ← settleBlock consensus server fuel s block
      .ok (s.updateSyncTip block, err)

end Operations

end SideChain

end P2PoolObserver
