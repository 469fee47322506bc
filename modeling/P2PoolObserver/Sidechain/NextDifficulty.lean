/-
# Sidechain.NextDifficulty -- the difficulty after a tip (`utils.go`)

`getDifficultyForNextBlock` collects cumulative difficulty and timestamp of the
blocks and uncles in the window of a tip; `nextDifficulty` drops the oldest and
newest tenth by timestamp and divides the work done by the time it took.
-/
import P2PoolObserver.Sidechain.Window
import P2PoolObserver.Utils

namespace P2PoolObserver

structure DifficultyData where
  cumulativeDifficulty : Difficulty
  timestamp : UInt64
  deriving DecidableEq

/-! ## From window data to a difficulty -/

/-- `cutSize`, `lowIndex` and `upperIndex` for `n` timestamps. -/
def cutSize (n : Nat) : Nat := (n + 9) / 10

def lowIndex (n : Nat) : Nat := cutSize n - 1

def upperIndex (n : Nat) : Nat := n - cutSize n

/-- `timestampLowerBound` and `timestampUpperBound`.  `NthElementSlice` works in place:
the second selection starts from what the first one left. -/
def timestampBounds (timestamps : List UInt64) : UInt64 × UInt64 :=
  let n := timestamps.length
  let timestamps := nthElementSlice timestamps (lowIndex n)
  let timestampLowerBound := timestamps.getD (lowIndex n) default
  let timestamps := nthElementSlice timestamps (upperIndex n)
  (timestampLowerBound, timestamps.getD (upperIndex n) default)

def deltaIndex (n : Nat) : UInt64 :=
  if upperIndex n > lowIndex n then UInt64.ofNat (upperIndex n - lowIndex n) else 1

def deltaTimestamp (deltaIndex timestampLowerBound timestampUpperBound : UInt64) : UInt64 :=
  if timestampUpperBound > timestampLowerBound + deltaIndex then
    timestampUpperBound - timestampLowerBound
  else deltaIndex

def difficultyRange (lower upper : UInt64) (data : List DifficultyData) : Difficulty × Difficulty :=
  data.foldl (fun (least, greatest) entry =>
    if lower ≤ entry.timestamp ∧ entry.timestamp ≤ upper then
      (if least.cmp entry.cumulativeDifficulty = .gt then entry.cumulativeDifficulty else least,
        if greatest.cmp entry.cumulativeDifficulty = .lt then entry.cumulativeDifficulty else greatest)
    else (least, greatest))
    (Difficulty.maxDifficulty, Difficulty.zeroDifficulty)

section Difficulty

variable [Uint128Package] (consensus : Consensus)

/-- `NextDifficulty`.  The checked operations of the last section panic on wrap and
division by zero, and the recovered panic is the error. -/
def nextDifficulty (timestamps : List UInt64) (data : List DifficultyData) : Except String Difficulty :=
  let (timestampLowerBound, timestampUpperBound) := timestampBounds timestamps
  let deltaTimestamp :=
    deltaTimestamp (deltaIndex timestamps.length) timestampLowerBound timestampUpperBound
  let (minDifficulty, maxDifficulty) := difficultyRange timestampLowerBound timestampUpperBound data
  match Uint128Package.sub maxDifficulty minDifficulty with
  | none => .error "panic in NextDifficulty, wrap occured?: underflow"
  | some deltaDifficulty =>
    match Uint128Package.mul64 deltaDifficulty consensus.targetBlockTime with
    | none => .error "panic in NextDifficulty, wrap occured?: overflow"
    | some product =>
      if deltaTimestamp = 0 then
        .error "panic in NextDifficulty, wrap occured?: runtime error: integer divide by zero"
      else
        let curDifficulty := product.div64 deltaTimestamp
        if curDifficulty.cmp64 consensus.minimumDifficulty = .lt then
          .ok (Difficulty.difficultyFrom64 consensus.minimumDifficulty)
        else .ok curDifficulty

/-! ## Collecting the window -/

variable (V : View) (tip : Ptr)

def difficultyEntry (p : Ptr) : DifficultyData :=
  ⟨(V.block p).side.cumulativeDifficulty, (V.block p).main.timestamp⟩

def windowUncles (cur : Ptr) : List Ptr :=
  (V.iteratorUncles cur).visited.filter fun uncle =>
    !((V.block tip).side.height - (V.block uncle).side.height ≥ consensus.chainWindowSize)

def difficultyLoop : Nat → Ptr → List DifficultyData → Except WindowError (List DifficultyData)
  | remaining, cur, data =>
    let data := data ++ [difficultyEntry V cur] ++
      (windowUncles consensus V tip cur).map (difficultyEntry V)
    match (V.iteratorUncles cur).missing with
    | some id => .error (.uncleNotFound id)
    | none =>
      match remaining with
      | 0 => .ok data
      | remaining + 1 =>
        if (V.block cur).side.height = 0 then .ok data
        else match V.iteratorGetParent cur with
          | none => .error (.parentNotFound (V.block cur).side.parent)
          | some parent => difficultyLoop remaining parent data

/-- `verifyError` and `invalidError` of `GetDifficultyForNextBlock`; the difficulty
it returns beside either is zero. -/
inductive DifficultyError where
  | verify (e : WindowError)
  | invalid (message : String)
  deriving DecidableEq

def getDifficultyForNextBlock : Except DifficultyError Difficulty :=
  match difficultyLoop consensus V tip (consensus.chainWindowSize.toNat - 1) tip [] with
  | .error e => .error (.verify e)
  | .ok data =>
    match nextDifficulty consensus (data.map DifficultyData.timestamp) data with
    | .error message => .error (.invalid message)
    | .ok difficulty => .ok difficulty

end Difficulty

end P2PoolObserver
