/-
# Sidechain.Consensus -- consensus parameters and hard forks (`consensus.go`, `hardfork.go`)

`Consensus` carries the bounds that `Consensus.verify` enforces, so that every
value of the type is one the program can run with.
-/
import P2PoolObserver.Monero.Block

namespace P2PoolObserver

inductive NetworkType where
  | invalid
  | mainnet
  | testnet
  | stagenet
  deriving DecidableEq

def NetworkType.string : NetworkType → String
  | .invalid => "invalid"
  | .mainnet => "mainnet"
  | .testnet => "testnet"
  | .stagenet => "stagenet"

/-! ## Hard forks -/

structure HardFork where
  version : UInt8
  height : UInt64
  threshold : UInt8
  time : UInt64
  deriving DecidableEq

def mainNetHardForks : List HardFork :=
  [⟨1, 1, 0, 1341378000⟩, ⟨2, 1009827, 0, 1442763710⟩, ⟨3, 1141317, 0, 1458558528⟩,
   ⟨4, 1220516, 0, 1483574400⟩, ⟨5, 1288616, 0, 1489520158⟩, ⟨6, 1400000, 0, 1503046577⟩,
   ⟨7, 1546000, 0, 1521303150⟩, ⟨8, 1685555, 0, 1535889547⟩, ⟨9, 1686275, 0, 1535889548⟩,
   ⟨10, 1788000, 0, 1549792439⟩, ⟨11, 1788720, 0, 1550225678⟩, ⟨12, 1978433, 0, 1571419280⟩,
   ⟨13, 2210000, 0, 1598180817⟩, ⟨14, 2210720, 0, 1598180818⟩, ⟨15, 2688888, 0, 1656629117⟩,
   ⟨16, 2689608, 0, 1656629118⟩]

def testNetHardForks : List HardFork :=
  [⟨1, 1, 0, 1341378000⟩, ⟨2, 624634, 0, 1445355000⟩, ⟨3, 800500, 0, 1472415034⟩,
   ⟨4, 801219, 0, 1472415035⟩, ⟨5, 802660, 0, 1472415036 + 86400 * 180⟩,
   ⟨6, 971400, 0, 1501709789⟩, ⟨7, 1057027, 0, 1512211236⟩, ⟨8, 1057058, 0, 1533211200⟩,
   ⟨9, 1057778, 0, 1533297600⟩, ⟨10, 1154318, 0, 1550153694⟩, ⟨11, 1155038, 0, 1550225678⟩,
   ⟨12, 1308737, 0, 1569582000⟩, ⟨13, 1543939, 0, 1599069376⟩, ⟨14, 1544659, 0, 1599069377⟩,
   ⟨15, 1982800, 0, 1652727000⟩, ⟨16, 1983520, 0, 1652813400⟩]

def stageNetHardForks : List HardFork :=
  [⟨1, 1, 0, 1341378000⟩, ⟨2, 32000, 0, 1521000000⟩, ⟨3, 33000, 0, 1521120000⟩,
   ⟨4, 34000, 0, 1521240000⟩, ⟨5, 35000, 0, 1521360000⟩, ⟨6, 36000, 0, 1521480000⟩,
   ⟨7, 37000, 0, 1521600000⟩, ⟨8, 176456, 0, 1537821770⟩, ⟨9, 177176, 0, 1537821771⟩,
   ⟨10, 269000, 0, 1550153694⟩, ⟨11, 269720, 0, 1550225678⟩, ⟨12, 454721, 0, 1571419280⟩,
   ⟨13, 675405, 0, 1598180817⟩, ⟨14, 676125, 0, 1598180818⟩, ⟨15, 1151000, 0, 1656629117⟩,
   ⟨16, 1151720, 0, 1656629118⟩]

/-- Share versions are compared as numbers: zero for none, `V1`, `V2` and whatever a
configured hard fork list names. -/
abbrev ShareVersion := UInt8

def shareVersionV1 : ShareVersion := 1
def shareVersionV2 : ShareVersion := 2

def p2poolMainNetHardForks : List HardFork := [⟨shareVersionV1, 0, 0, 0⟩, ⟨shareVersionV2, 0, 0, 1679173200⟩]

def p2poolTestNetHardForks : List HardFork := [⟨shareVersionV1, 0, 0, 0⟩, ⟨shareVersionV2, 0, 0, 1674507600⟩]

def p2poolStageNetHardForks : List HardFork := [⟨shareVersionV2, 0, 0, 0⟩]

def forkVersion (ahead : HardFork → Bool) : List HardFork → UInt8
  | [] => 0
  | first :: rest => ((rest.takeWhile fun f => !ahead f).getLast?.getD first).version

/-! ## Parameters -/

def uncleBlockDepth : UInt64 := 3
def smallestMinimumDifficulty : UInt64 := 100000
def largestMinimumDifficulty : UInt64 := 1000000000

structure Consensus where
  networkType : NetworkType
  targetBlockTime : UInt64
  minimumDifficulty : UInt64
  chainWindowSize : UInt64
  unclePenalty : UInt64
  hardForks : List HardFork
  id : Hash
  targetBlockTime_bounds : 1 ≤ targetBlockTime ∧ targetBlockTime ≤ moneroBlockTime
  minimumDifficulty_bounds :
    (networkType = .mainnet → smallestMinimumDifficulty ≤ minimumDifficulty) ∧
      minimumDifficulty ≤ largestMinimumDifficulty
  chainWindowSize_bounds : 60 ≤ chainWindowSize ∧ chainWindowSize ≤ 2160
  unclePenalty_bounds : 1 ≤ unclePenalty ∧ unclePenalty ≤ 99
  id_ne_zero : id ≠ zeroHash
  hardForks_ne_nil : hardForks ≠ []

/-- The default fork list of a network; `none` is the source's panic. -/
def defaultHardForks : NetworkType → Option (List HardFork)
  | .mainnet => some p2poolMainNetHardForks
  | .testnet => some p2poolTestNetHardForks
  | .stagenet => some p2poolStageNetHardForks
  | .invalid => none

def consensusDefault : Consensus where
  networkType := .mainnet
  targetBlockTime := 10
  minimumDifficulty := 100000
  chainWindowSize := 2160
  unclePenalty := 20
  hardForks := p2poolMainNetHardForks
  id := Bytes32.ofBytes
    [34, 175, 126, 231, 181, 11, 104, 146, 227, 153, 218, 107, 44, 108, 68, 39,
     178, 81, 4, 212, 169, 4, 142, 0, 177, 110, 157, 240, 68, 7, 249, 24]
  targetBlockTime_bounds := by decide
  minimumDifficulty_bounds := by decide
  chainWindowSize_bounds := by decide
  unclePenalty_bounds := by decide
  id_ne_zero := by decide
  hardForks_ne_nil := by decide

def consensusMini : Consensus :=
  { consensusDefault with
    id := Bytes32.ofBytes
      [57, 130, 201, 26, 149, 174, 199, 250, 66, 80, 189, 18, 108, 216, 194, 220,
       136, 23, 63, 24, 64, 113, 221, 44, 219, 86, 39, 163, 53, 24, 126, 196]
    id_ne_zero := by decide }

namespace Consensus

/-- `NetworkHardFork`; `none` is the source's panic. -/
def networkHardFork (c : Consensus) : Option (List HardFork) :=
  match c.networkType with
  | .mainnet => some mainNetHardForks
  | .testnet => some testNetHardForks
  | .stagenet => some stageNetHardForks
  | .invalid => none

def networkMajorVersion (c : Consensus) (height : UInt64) : Option UInt8 :=
  c.networkHardFork.map (forkVersion fun f => height < f.height)

def p2poolShareVersion (c : Consensus) (timestamp : UInt64) : ShareVersion :=
  forkVersion (fun f => timestamp < f.time) c.hardForks

variable [Uint128Package]

def applyUnclePenalty (c : Consensus) (weight : Difficulty) : Difficulty × Difficulty :=
  let unclePenalty := (weight.mul64 c.unclePenalty).div64 100
  (weight.sub unclePenalty, unclePenalty)

theorem applyUnclePenalty_penalty_le (c : Consensus) (weight : Difficulty) :
    (c.applyUnclePenalty weight).2.toNat ≤ weight.toNat := by
  have bound : c.unclePenalty.toNat ≤ 99 := UInt64.le_iff_toNat_le.mp c.unclePenalty_bounds.2
  have product : weight.toNat * c.unclePenalty.toNat % 2 ^ 128 ≤ weight.toNat * 99 :=
    Nat.le_trans (Nat.mod_le _ _) (Nat.mul_le_mul_left _ bound)
  simp only [applyUnclePenalty]
  rw [Difficulty.toNat_div64 (by decide), Difficulty.toNat_mul64]
  have hundred : (100 : UInt64).toNat = 100 := rfl
  rw [hundred]
  omega

theorem applyUnclePenalty_add (c : Consensus) (weight : Difficulty) :
    (c.applyUnclePenalty weight).1.toNat + (c.applyUnclePenalty weight).2.toNat = weight.toNat := by
  have le := applyUnclePenalty_penalty_le c weight
  have split : (c.applyUnclePenalty weight).1 = weight.sub (c.applyUnclePenalty weight).2 := rfl
  rw [split, Difficulty.toNat_sub_of_le le]
  omega

end Consensus

end P2PoolObserver
