/-
# Sidechain.Window -- the PPLNS window walk (`utils.go`)

The source walks the window twice: `BlocksInPPLNSWindow` for payouts and
`IterateBlocksInPPLNSWindow` for statistics.  Both are translated here from their
own text, with the calls they make to `addWeightFunc` and `slotFunc` recorded in
order, and `iterateBlocksInPPLNSWindow_agrees` proves them to be one function.

The walk decrements a budget: with `blockDepth` iterations behind it, `remaining`
is `ChainWindowSize - 1 - blockDepth`, so that `blockDepth >= ChainWindowSize`
after the increment is `remaining = 0` before it.
-/
import P2PoolObserver.Sidechain.PoolBlock

namespace P2PoolObserver

structure WeightCall where
  block : Ptr
  weight : Difficulty
  deriving DecidableEq

structure PoolBlockWindowSlot where
  block : Ptr
  uncles : List Ptr
  deriving DecidableEq

inductive WindowError where
  | mainchainDifficulty (seedHeight : UInt64)
  | uncleNotFound (id : Hash)
  | parentNotFound (id : Hash)
  deriving DecidableEq

def WindowError.text : WindowError → String
  | .mainchainDifficulty seedHeight =>
    "couldn't get mainchain difficulty for height = " ++ toString seedHeight
  | .uncleNotFound id => "could not find uncle " ++ Bytes32.string id
  | .parentNotFound id => "could not find parent " ++ Bytes32.string id

section Walk

variable [Uint128Package] (V : View) (consensus : Consensus) (tip : Ptr)

/-! ## The limit -/

def mainchainDiff (difficultyByHeight : UInt64 → Difficulty) : Except WindowError Difficulty :=
  if (V.block tip).side.parent ≠ zeroHash then
    let height := seedHeight (V.block tip).main.coinbase.genHeight
    let diff := difficultyByHeight height
    if diff = Difficulty.zeroDifficulty then .error (.mainchainDifficulty height) else .ok diff
  else .ok Difficulty.zeroDifficulty

def maxPplnsWeight (mainchain : Difficulty) : Difficulty :=
  if (V.block tip).shareVersion > shareVersionV1 then mainchain.mul64 2
  else Difficulty.maxDifficulty

/-! ## `BlocksInPPLNSWindow` -/

structure UncleScan where
  curWeight : Difficulty
  pplnsWeight : Difficulty
  calls : List WeightCall

def scanUncle (limit : Difficulty) (s : UncleScan) (uncle : Ptr) : UncleScan :=
  -- already out of the window
  if (V.block tip).side.height - (V.block uncle).side.height ≥ consensus.chainWindowSize then s
  else
    let (uncleWeight, unclePenalty) := consensus.applyUnclePenalty (V.block uncle).side.difficulty
    let newPplnsWeight := s.pplnsWeight.add uncleWeight
    -- would push the weight above the limit
    if newPplnsWeight.cmp limit = .gt then s
    else ⟨s.curWeight.add unclePenalty, newPplnsWeight, s.calls ++ [⟨uncle, uncleWeight⟩]⟩

structure WindowRun (α : Type) where
  calls : List WeightCall
  result : Except WindowError α

def blocksLoop (limit : Difficulty) : Nat → Ptr → Difficulty → List WeightCall → WindowRun UInt64
  | remaining, cur, pplnsWeight, calls =>
    let uncles := V.iteratorUncles cur
    let s := uncles.visited.foldl (scanUncle V consensus tip limit)
      ⟨(V.block cur).side.difficulty, pplnsWeight, calls⟩
    match uncles.missing with
    | some id => ⟨s.calls, .error (.uncleNotFound id)⟩
    | none =>
      let bottomHeight := (V.block cur).side.height
      let calls := s.calls ++ [⟨cur, s.curWeight⟩]
      let pplnsWeight := s.pplnsWeight.add s.curWeight
      if pplnsWeight.cmp limit = .gt then ⟨calls, .ok bottomHeight⟩
      else match remaining with
        | 0 => ⟨calls, .ok bottomHeight⟩
        | remaining + 1 =>
          if (V.block cur).side.height = 0 then ⟨calls, .ok bottomHeight⟩
          else match V.iteratorGetParent cur with
            | none => ⟨calls, .error (.parentNotFound (V.block cur).side.parent)⟩
            | some parent => blocksLoop limit remaining parent pplnsWeight calls

def blocksInPPLNSWindow (difficultyByHeight : UInt64 → Difficulty) : WindowRun UInt64 :=
  match mainchainDiff V tip difficultyByHeight with
  | .error e => ⟨[], .error e⟩
  | .ok mainchain =>
    blocksLoop V consensus tip (maxPplnsWeight V tip mainchain)
      (consensus.chainWindowSize.toNat - 1) tip Difficulty.zeroDifficulty []

/-! ## `IterateBlocksInPPLNSWindow` -/

structure SlotScan where
  curEntry : PoolBlockWindowSlot
  curWeight : Difficulty
  pplnsWeight : Difficulty
  calls : List WeightCall

def scanSlotUncle (limit : Difficulty) (s : SlotScan) (uncle : Ptr) : SlotScan :=
  -- the slot gets every uncle, counted or not
  let s := { s with curEntry := { s.curEntry with uncles := s.curEntry.uncles ++ [uncle] } }
  if (V.block tip).side.height - (V.block uncle).side.height ≥ consensus.chainWindowSize then s
  else
    let (uncleWeight, unclePenalty) := consensus.applyUnclePenalty (V.block uncle).side.difficulty
    let newPplnsWeight := s.pplnsWeight.add uncleWeight
    if newPplnsWeight.cmp limit = .gt then s
    else { s with curWeight := s.curWeight.add unclePenalty,
                  calls := s.calls ++ [⟨uncle, uncleWeight⟩], pplnsWeight := newPplnsWeight }

structure IterateRun where
  calls : List WeightCall
  slots : List PoolBlockWindowSlot
  result : Except WindowError Unit

def iterateLoop (limit : Difficulty) :
    Nat → Ptr → Difficulty → List WeightCall → List PoolBlockWindowSlot → IterateRun
  | remaining, cur, pplnsWeight, calls, slots =>
    let uncles := V.iteratorUncles cur
    let s := uncles.visited.foldl (scanSlotUncle V consensus tip limit)
      ⟨⟨cur, []⟩, (V.block cur).side.difficulty, pplnsWeight, calls⟩
    match uncles.missing with
    | some id => ⟨s.calls, slots, .error (.uncleNotFound id)⟩
    | none =>
      let slots := slots ++ [s.curEntry]
      let calls := s.calls ++ [⟨cur, s.curWeight⟩]
      let pplnsWeight := s.pplnsWeight.add s.curWeight
      if pplnsWeight.cmp limit = .gt then ⟨calls, slots, .ok ()⟩
      else match remaining with
        | 0 => ⟨calls, slots, .ok ()⟩
        | remaining + 1 =>
          if (V.block cur).side.height = 0 then ⟨calls, slots, .ok ()⟩
          else match V.iteratorGetParent cur with
            | none => ⟨calls, slots, .error (.parentNotFound (V.block cur).side.parent)⟩
            | some parent => iterateLoop limit remaining parent pplnsWeight calls slots

def iterateBlocksInPPLNSWindow (difficultyByHeight : UInt64 → Difficulty) : IterateRun :=
  match mainchainDiff V tip difficultyByHeight with
  | .error e => ⟨[], [], .error e⟩
  | .ok mainchain =>
    iterateLoop V consensus tip (maxPplnsWeight V tip mainchain)
      (consensus.chainWindowSize.toNat - 1) tip Difficulty.zeroDifficulty [] []

end Walk

/-! ## The two walks are one -/

section Slots

variable (V : View)

def SlotsFrom (bottom : UInt64) : Ptr → List PoolBlockWindowSlot → Prop
  | _, [] => False
  | cur, slot :: rest =>
    slot.block = cur ∧ V.iteratorUncles cur = ⟨slot.uncles, none⟩ ∧
      match rest with
      | [] => (V.block cur).side.height = bottom
      | next :: _ => V.iteratorGetParent cur = some next.block ∧ SlotsFrom bottom next.block rest

theorem SlotsFrom.cons {bottom : UInt64} {cur parent : Ptr} {uncles : List Ptr}
    {more : List PoolBlockWindowSlot} (visit : V.iteratorUncles cur = ⟨uncles, none⟩)
    (up : V.iteratorGetParent cur = some parent) (rest : SlotsFrom V bottom parent more) :
    SlotsFrom V bottom cur (⟨cur, uncles⟩ :: more) := by
  cases more with
  | nil => exact rest.elim
  | cons next more =>
    have head : next.block = parent := rest.1
    exact ⟨rfl, visit, head ▸ up, head ▸ rest⟩

/-- The statistics walk `i`, entered at `cur` with `slots` already handed out,
against the payout walk `b` entered there. -/
structure WalksAgree (i : IterateRun) (b : WindowRun UInt64) (cur : Ptr)
    (slots : List PoolBlockWindowSlot) : Prop where
  calls : i.calls = b.calls
  error : ∀ e, i.result = .error e ↔ b.result = .error e
  ok : ∀ bottom, b.result = .ok bottom →
    ∃ more, i.slots = slots ++ more ∧ SlotsFrom V bottom cur more

theorem walksAgree_error (calls : List WeightCall) (slots : List PoolBlockWindowSlot)
    (e : WindowError) (cur : Ptr) :
    WalksAgree V ⟨calls, slots, .error e⟩ ⟨calls, .error e⟩ cur slots := ⟨rfl, by simp, by simp⟩

theorem walksAgree_stop {cur : Ptr} {uncles : List Ptr}
    (visit : V.iteratorUncles cur = ⟨uncles, none⟩) (calls : List WeightCall)
    (slots : List PoolBlockWindowSlot) : WalksAgree V ⟨calls, slots ++ [⟨cur, uncles⟩], .ok ()⟩
      ⟨calls, .ok (V.block cur).side.height⟩ cur slots := by
  refine ⟨rfl, by simp, ?_⟩
  rintro bottom ⟨rfl⟩
  exact ⟨_, rfl, rfl, visit, rfl⟩

theorem WalksAgree.next {i : IterateRun} {b : WindowRun UInt64} {cur parent : Ptr}
    {uncles : List Ptr} {slots : List PoolBlockWindowSlot}
    (visit : V.iteratorUncles cur = ⟨uncles, none⟩) (up : V.iteratorGetParent cur = some parent)
    (rest : WalksAgree V i b parent (slots ++ [⟨cur, uncles⟩])) : WalksAgree V i b cur slots := by
  refine ⟨rest.calls, rest.error, fun bottom ok => ?_⟩
  obtain ⟨more, eq, slotsFrom⟩ := rest.ok bottom ok
  refine ⟨⟨cur, uncles⟩ :: more, ?_, slotsFrom.cons V visit up⟩
  rw [eq, List.append_assoc, List.singleton_append]

end Slots

section Agreement

variable [Uint128Package] (V : View) (consensus : Consensus) (tip : Ptr)

def SlotScan.weights (s : SlotScan) : UncleScan := ⟨s.curWeight, s.pplnsWeight, s.calls⟩

theorem scanSlotUncle_eq (limit : Difficulty) (s : SlotScan) (uncle : Ptr) :
    (scanSlotUncle V consensus tip limit s uncle).weights = scanUncle V consensus tip limit s.weights uncle ∧
      (scanSlotUncle V consensus tip limit s uncle).curEntry =
        ⟨s.curEntry.block, s.curEntry.uncles ++ [uncle]⟩ := by
  unfold scanSlotUncle scanUncle SlotScan.weights
  by_cases out : (V.block tip).side.height - (V.block uncle).side.height ≥ consensus.chainWindowSize
  · simp only [out, if_true, and_self]
  · simp only [out, if_false]
    split_ifs <;> exact ⟨rfl, rfl⟩

theorem foldl_scanSlotUncle (limit : Difficulty) : ∀ (uncles : List Ptr) (s : SlotScan),
    (uncles.foldl (scanSlotUncle V consensus tip limit) s).weights =
        uncles.foldl (scanUncle V consensus tip limit) s.weights ∧
      (uncles.foldl (scanSlotUncle V consensus tip limit) s).curEntry =
        ⟨s.curEntry.block, s.curEntry.uncles ++ uncles⟩
  | [], s => by simp
  | uncle :: uncles, s => by
    obtain ⟨weight, entry⟩ := scanSlotUncle_eq V consensus tip limit s uncle
    obtain ⟨weights, entries⟩ :=
      foldl_scanSlotUncle limit uncles (scanSlotUncle V consensus tip limit s uncle)
    refine ⟨?_, ?_⟩
    · rw [List.foldl_cons, List.foldl_cons, weights, weight]
    · rw [List.foldl_cons, entries, entry]
      simp

/-- One iteration of both loops.  The hypothesis is the induction: what the loops
do from the parent, when the budget allows another block. -/
theorem iterateLoop_agrees_step (limit : Difficulty) (remaining : Nat)
    (above : ∀ n, remaining = n + 1 → ∀ parent pplnsWeight calls slots,
      WalksAgree V (iterateLoop V consensus tip limit n parent pplnsWeight calls slots)
        (blocksLoop V consensus tip limit n parent pplnsWeight calls) parent slots)
    (cur : Ptr) (pplnsWeight : Difficulty) (calls : List WeightCall) (slots : List PoolBlockWindowSlot) :
    WalksAgree V (iterateLoop V consensus tip limit remaining cur pplnsWeight calls slots)
      (blocksLoop V consensus tip limit remaining cur pplnsWeight calls) cur slots := by
  obtain ⟨weights, entry⟩ := foldl_scanSlotUncle V consensus tip limit
    (V.iteratorUncles cur).visited ⟨⟨cur, []⟩, (V.block cur).side.difficulty, pplnsWeight, calls⟩
  simp only [SlotScan.weights] at weights
  unfold iterateLoop blocksLoop
  simp only [← weights, entry, List.nil_append]
  generalize List.foldl (scanSlotUncle V consensus tip limit) _ _ = s
  cases missing : (V.iteratorUncles cur).missing with
  | some id => exact walksAgree_error V _ slots _ cur
  | none =>
    have visit : V.iteratorUncles cur = ⟨(V.iteratorUncles cur).visited, none⟩ := by rw [← missing]
    simp only
    by_cases heavy : (s.pplnsWeight.add s.curWeight).cmp limit = .gt
    · simp only [heavy, if_true]
      exact walksAgree_stop V visit _ slots
    · simp only [heavy, if_false]
      cases remaining with
      | zero => exact walksAgree_stop V visit _ slots
      | succ n =>
        simp only
        by_cases genesis : (V.block cur).side.height = 0
        · simp only [genesis, if_true]
          exact genesis ▸ walksAgree_stop V visit _ slots
        · simp only [genesis, if_false]
          cases up : V.iteratorGetParent cur with
          | none => exact ⟨rfl, by simp, by simp⟩
          | some parent => exact (above n rfl parent _ _ _).next V visit up

theorem iterateLoop_agrees (limit : Difficulty) : ∀ (remaining : Nat) (cur : Ptr)
    (pplnsWeight : Difficulty) (calls : List WeightCall) (slots : List PoolBlockWindowSlot),
    WalksAgree V (iterateLoop V consensus tip limit remaining cur pplnsWeight calls slots)
      (blocksLoop V consensus tip limit remaining cur pplnsWeight calls) cur slots
  | 0 => iterateLoop_agrees_step V consensus tip limit 0 (by simp)
  | remaining + 1 => iterateLoop_agrees_step V consensus tip limit (remaining + 1) (by
      rintro n ⟨rfl⟩
      exact iterateLoop_agrees limit remaining)

/-- The two window walks make the same calls in the same order, also before an
error, fail alike, and the slots of the one are the chain blocks down to the
bottom height of the other, each with all its uncles. -/
theorem iterateBlocksInPPLNSWindow_agrees (difficultyByHeight : UInt64 → Difficulty) :
    (iterateBlocksInPPLNSWindow V consensus tip difficultyByHeight).calls =
        (blocksInPPLNSWindow V consensus tip difficultyByHeight).calls ∧
      (∀ e, (iterateBlocksInPPLNSWindow V consensus tip difficultyByHeight).result = .error e ↔
        (blocksInPPLNSWindow V consensus tip difficultyByHeight).result = .error e) ∧
      ∀ bottomHeight, (blocksInPPLNSWindow V consensus tip difficultyByHeight).result = .ok bottomHeight →
        SlotsFrom V bottomHeight tip
          (iterateBlocksInPPLNSWindow V consensus tip difficultyByHeight).slots := by
  unfold iterateBlocksInPPLNSWindow blocksInPPLNSWindow
  cases mainchainDiff V tip difficultyByHeight with
  | error e => simp
  | ok mainchain =>
    obtain ⟨calls, errors, oks⟩ := iterateLoop_agrees V consensus tip (maxPplnsWeight V tip mainchain)
      (consensus.chainWindowSize.toNat - 1) tip Difficulty.zeroDifficulty [] []
    refine ⟨calls, errors, fun bottomHeight ok => ?_⟩
    obtain ⟨more, eq, slotsFrom⟩ := oks bottomHeight ok
    rw [List.nil_append] at eq
    exact eq ▸ slotsFrom

end Agreement

end P2PoolObserver
