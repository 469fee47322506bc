/-
# Sidechain.ConsensusId -- what the consensus id commits to (`consensus.go`)

A configuration is hashed as its seven parameters in text, each ended by a zero byte.  The
network's name and the decimal numbers have no zero byte, so these five fields are read off
the text again from its two ends (`idText_eq_iff`); the pool's name and its password stand
in the middle and may have any bytes, so the zero byte between them may be one of their own.
-/
import P2PoolObserver.Lib.Decimal
import P2PoolObserver.Lib.Separated
import P2PoolObserver.Sidechain.Consensus

namespace P2PoolObserver

open Lib

/-- `Consensus` as it is configured: what a caller of `NewConsensus` or a JSON text may set,
and the id. -/
structure ConsensusConfig where
  networkType : NetworkType
  poolName : Bytes
  poolPassword : Bytes
  targetBlockTime : UInt64
  minimumDifficulty : UInt64
  chainWindowSize : UInt64
  unclePenalty : UInt64
  hardForks : List HardFork
  id : Hash
  deriving DecidableEq

namespace ConsensusConfig

/-! ## The id -/

def text (s : String) : Bytes := s.toUTF8.data.toList

def idText (c : ConsensusConfig) : Bytes :=
  text c.networkType.string ++ [0] ++ c.poolName ++ [0] ++ c.poolPassword ++ [0] ++
    decimal c.targetBlockTime.toNat ++ [0] ++ decimal c.minimumDifficulty.toNat ++ [0] ++
    decimal c.chainWindowSize.toNat ++ [0] ++ decimal c.unclePenalty.toNat ++ [0]

def calculateId (consensusHash : Bytes → Hash) (c : ConsensusConfig) : Hash := consensusHash c.idText

/-! ## The check -/

def poolNameDefault : Bytes := text "mainnet test 2"

/-- `verify`: the configuration it leaves behind when it returns true, nothing when it
returns false; the error is the panic. -/
def verify (consensusHash : Bytes → Hash) (c : ConsensusConfig) : Except String (Option ConsensusConfig) :=
  -- p2pool's own configuration has "default" for the original name
  let c := if c.poolName = text "default" then { c with poolName := poolNameDefault } else c
  if 128 < c.poolName.length then .ok none
  else if 128 < c.poolPassword.length then .ok none
  else if c.targetBlockTime < 1 ∨ moneroBlockTime < c.targetBlockTime then .ok none
  else if c.networkType = .mainnet ∧ c.minimumDifficulty < smallestMinimumDifficulty ∨
      largestMinimumDifficulty < c.minimumDifficulty then .ok none
  else if c.chainWindowSize < 60 ∨ 2160 < c.chainWindowSize then .ok none
  else if c.unclePenalty < 1 ∨ 99 < c.unclePenalty then .ok none
  else
    let c := { c with id := c.calculateId consensusHash }
    if c.id = zeroHash then .ok none
    else if c.hardForks = [] then
      match defaultHardForks c.networkType with
      | some forks => .ok (some { c with hardForks := forks })
      | none => .error "invalid network type for determining hardfork"
    else .ok (some c)

/-- `NewConsensus`: no hard forks are set, and no id. -/
def newConsensus (consensusHash : Bytes → Hash) (networkType : NetworkType) (poolName poolPassword : Bytes)
    (targetBlockTime minimumDifficulty chainWindowSize unclePenalty : UInt64) :
    Except String (Option ConsensusConfig) :=
  verify consensusHash
    ⟨networkType, poolName, poolPassword, targetBlockTime, minimumDifficulty, chainWindowSize, unclePenalty,
      [], zeroHash⟩

/-- What `verify` has checked. -/
structure Verified (consensusHash : Bytes → Hash) (c : ConsensusConfig) : Prop where
  poolName_length : c.poolName.length ≤ 128
  poolPassword_length : c.poolPassword.length ≤ 128
  targetBlockTime_bounds : 1 ≤ c.targetBlockTime ∧ c.targetBlockTime ≤ moneroBlockTime
  minimumDifficulty_bounds :
    (c.networkType = .mainnet → smallestMinimumDifficulty ≤ c.minimumDifficulty) ∧
      c.minimumDifficulty ≤ largestMinimumDifficulty
  chainWindowSize_bounds : 60 ≤ c.chainWindowSize ∧ c.chainWindowSize ≤ 2160
  unclePenalty_bounds : 1 ≤ c.unclePenalty ∧ c.unclePenalty ≤ 99
  id_eq : c.id = c.calculateId consensusHash
  id_ne_zero : c.id ≠ zeroHash
  hardForks_ne_nil : c.hardForks ≠ []

variable {consensusHash : Bytes → Hash} {raw c : ConsensusConfig}

theorem defaultHardForks_ne_nil {network : NetworkType} {forks : List HardFork}
    (found : defaultHardForks network = some forks) : forks ≠ [] := by
  cases network with
  | invalid => cases found
  | mainnet | testnet | stagenet =>
    cases found
    decide

theorem verified_of_verify (passed : verify consensusHash raw = .ok (some c)) : Verified consensusHash c := by
  unfold verify at passed
  generalize (if raw.poolName = text "default" then { raw with poolName := poolNameDefault } else raw) = named
    at passed
  dsimp only at passed
  split_ifs at passed with name password time difficulty window penalty zero forks
  -- a refusal leaves no configuration
  all_goals try cases passed
  all_goals simp only [not_or, not_and, UInt64.not_lt, Nat.not_lt] at name password time difficulty window penalty
  · split at passed
    · next list found =>
        cases passed
        exact ⟨name, password, time, difficulty, window, penalty, rfl, zero, defaultHardForks_ne_nil found⟩
    · cases passed
  · exact ⟨name, password, time, difficulty, window, penalty, rfl, zero, forks⟩

/-! ## The text decides five fields -/

theorem zero_not_mem_decimal (n : Nat) : (0 : UInt8) ∉ decimal n := by
  intro mem
  have digit := List.all_eq_true.mp (isDecimal_decimal n).2 0 mem
  exact absurd digit (by decide)

theorem zero_not_mem_string (network : NetworkType) : (0 : UInt8) ∉ text network.string := by
  cases network <;> decide

theorem text_string_inj : ∀ {n m : NetworkType}, text n.string = text m.string → n = m := by
  intro n m same
  cases n <;> cases m <;> first | rfl | exact absurd same (by decide)

/-- Two texts are one when the five fields without zero bytes agree and the pool's name and
password, joined, do. -/
theorem idText_eq_iff (c d : ConsensusConfig) : c.idText = d.idText ↔ c.networkType = d.networkType ∧
      c.poolName ++ [0] ++ c.poolPassword = d.poolName ++ [0] ++ d.poolPassword ∧
      c.targetBlockTime = d.targetBlockTime ∧ c.minimumDifficulty = d.minimumDifficulty ∧
      c.chainWindowSize = d.chainWindowSize ∧ c.unclePenalty = d.unclePenalty := by
  constructor
  · intro same
    have same := List.append_cancel_right same
    -- from the right: the four numbers
    obtain ⟨same, penalty⟩ := separated_right (zero_not_mem_decimal _) (zero_not_mem_decimal _) same
    obtain ⟨same, window⟩ := separated_right (zero_not_mem_decimal _) (zero_not_mem_decimal _) same
    obtain ⟨same, difficulty⟩ := separated_right (zero_not_mem_decimal _) (zero_not_mem_decimal _) same
    obtain ⟨same, time⟩ := separated_right (zero_not_mem_decimal _) (zero_not_mem_decimal _) same
    -- from the left: the network
    have front : text c.networkType.string ++ [0] ++ (c.poolName ++ [0] ++ c.poolPassword) =
        text d.networkType.string ++ [0] ++ (d.poolName ++ [0] ++ d.poolPassword) := by
      simpa only [List.append_assoc] using same
    obtain ⟨network, middle⟩ := separated_left (zero_not_mem_string _) (zero_not_mem_string _) front
    exact ⟨text_string_inj network, middle, UInt64.toNat_inj.mp (decimal_inj time),
      UInt64.toNat_inj.mp (decimal_inj difficulty), UInt64.toNat_inj.mp (decimal_inj window),
      UInt64.toNat_inj.mp (decimal_inj penalty)⟩
  · rintro ⟨network, middle, time, difficulty, window, penalty⟩
    have front : text c.networkType.string ++ [0] ++ c.poolName ++ [0] ++ c.poolPassword =
        text d.networkType.string ++ [0] ++ d.poolName ++ [0] ++ d.poolPassword := by
      rw [network]
      simpa only [List.append_assoc, List.append_cancel_left_eq] using middle
    unfold idText
    rw [front, time, difficulty, window, penalty]

/-! ## Different parameters -/

structure SameParameters (c d : ConsensusConfig) : Prop where
  networkType : c.networkType = d.networkType
  poolName : c.poolName = d.poolName
  poolPassword : c.poolPassword = d.poolPassword
  targetBlockTime : c.targetBlockTime = d.targetBlockTime
  minimumDifficulty : c.minimumDifficulty = d.minimumDifficulty
  chainWindowSize : c.chainWindowSize = d.chainWindowSize
  unclePenalty : c.unclePenalty = d.unclePenalty

/-- `d` ends the pool's name at a zero byte that is part of the password in `c`: its name
goes on with a zero byte and `middle`, and the password of `c` starts with `middle` and a
zero byte.  All else agrees. -/
structure NulShifted (c d : ConsensusConfig) : Prop where
  networkType : c.networkType = d.networkType
  shifted : ∃ middle, d.poolName = c.poolName ++ [0] ++ middle ∧ c.poolPassword = middle ++ [0] ++ d.poolPassword
  targetBlockTime : c.targetBlockTime = d.targetBlockTime
  minimumDifficulty : c.minimumDifficulty = d.minimumDifficulty
  chainWindowSize : c.chainWindowSize = d.chainWindowSize
  unclePenalty : c.unclePenalty = d.unclePenalty

theorem NulShifted.not_same {c d : ConsensusConfig} (shift : NulShifted c d) : ¬ SameParameters c d := by
  intro same
  obtain ⟨middle, longer, _⟩ := shift.shifted
  have lengths := congrArg List.length (same.poolName.trans longer)
  simp only [List.length_append, List.length_singleton] at lengths
  omega

theorem SameParameters.symm {c d : ConsensusConfig} (same : SameParameters c d) : SameParameters d c :=
  ⟨same.networkType.symm, same.poolName.symm, same.poolPassword.symm, same.targetBlockTime.symm,
    same.minimumDifficulty.symm, same.chainWindowSize.symm, same.unclePenalty.symm⟩

theorem idText_eq_iff_shifted (c d : ConsensusConfig) : c.idText = d.idText ↔
    SameParameters c d ∨ NulShifted c d ∨ NulShifted d c := by
  rw [idText_eq_iff, separated_eq_iff]
  constructor
  · rintro ⟨network, ⟨name, password⟩ | shift | shift, time, difficulty, window, penalty⟩
    · exact .inl ⟨network, name, password, time, difficulty, window, penalty⟩
    · exact .inr (.inl ⟨network, shift, time, difficulty, window, penalty⟩)
    · exact .inr (.inr ⟨network.symm, shift, time.symm, difficulty.symm, window.symm, penalty.symm⟩)
  · rintro (same | shift | shift)
    · exact ⟨same.networkType, .inl ⟨same.poolName, same.poolPassword⟩, same.targetBlockTime,
        same.minimumDifficulty, same.chainWindowSize, same.unclePenalty⟩
    · exact ⟨shift.networkType, .inr (.inl shift.shifted), shift.targetBlockTime,
        shift.minimumDifficulty, shift.chainWindowSize, shift.unclePenalty⟩
    · exact ⟨shift.networkType.symm, .inr (.inr shift.shifted), shift.targetBlockTime.symm,
        shift.minimumDifficulty.symm, shift.chainWindowSize.symm, shift.unclePenalty.symm⟩

structure DifferentIds (consensusHash : Bytes → Hash) (c d : ConsensusConfig) : Prop where
  calculated : ¬ SameParameters c d → c.calculateId consensusHash ≠ d.calculateId consensusHash
  stored : ¬ SameParameters c d → c.id ≠ d.id

/-- Two configurations that pass, where the hash has no collision on their two texts, have
different ids for different parameters, save when the one's name and password are the
other's with the boundary at another zero byte.  (No function to 32 bytes is injective on
all byte strings, so the hypothesis names the two texts alone.) -/
theorem differentIds_iff {rawC rawD c d : ConsensusConfig}
    (passedC : verify consensusHash rawC = .ok (some c)) (passedD : verify consensusHash rawD = .ok (some d))
    (collisionFree : consensusHash c.idText = consensusHash d.idText → c.idText = d.idText) :
    DifferentIds consensusHash c d ↔ ¬ (NulShifted c d ∨ NulShifted d c) := by
  have idC : c.id = consensusHash c.idText := (verified_of_verify passedC).id_eq
  have idD : d.id = consensusHash d.idText := (verified_of_verify passedD).id_eq
  constructor
  · intro different shift
    have same : c.idText = d.idText := (idText_eq_iff_shifted c d).mpr (.inr shift)
    have apart : ¬ SameParameters c d := shift.elim NulShifted.not_same fun back same => back.not_same same.symm
    exact different.calculated apart (congrArg consensusHash same)
  · intro unshifted
    have differ : ¬ SameParameters c d → consensusHash c.idText ≠ consensusHash d.idText := by
      intro apart collide
      rcases (idText_eq_iff_shifted c d).mp (collisionFree collide) with same | shift
      · exact apart same
      · exact unshifted shift
    refine ⟨differ, ?_⟩
    rw [idC, idD]
    exact differ

/-- A pool on the main network with the parameters of `ConsensusDefault` and its own name
and password, as `verify` leaves it. -/
def mainnetPool (consensusHash : Bytes → Hash) (poolName poolPassword : Bytes) : ConsensusConfig :=
  let c : ConsensusConfig :=
    ⟨.mainnet, poolName, poolPassword, 10, 100000, 2160, 20, p2poolMainNetHardForks, zeroHash⟩
  { c with id := c.calculateId consensusHash }

theorem newConsensus_mainnetPool {poolName poolPassword : Bytes} (own : poolName ≠ text "default")
    (name : ¬ 128 < poolName.length) (password : ¬ 128 < poolPassword.length)
    (nonzero : (mainnetPool consensusHash poolName poolPassword).id ≠ zeroHash) :
    newConsensus consensusHash .mainnet poolName poolPassword 10 100000 2160 20 =
      .ok (some (mainnetPool consensusHash poolName poolPassword)) := by
  unfold newConsensus verify
  rw [if_neg own]
  dsimp only
  rw [if_neg name, if_neg password, if_neg (by decide), if_neg (by decide), if_neg (by decide), if_neg (by decide)]
  exact if_neg nonzero

/-- Two pools of one name, one with a password and one without. -/
theorem differentIds_password :
    DifferentIds Bytes32.ofBytes (mainnetPool Bytes32.ofBytes [109] []) (mainnetPool Bytes32.ofBytes [109] [120]) ↔
      ¬ (NulShifted (mainnetPool Bytes32.ofBytes [109] []) (mainnetPool Bytes32.ofBytes [109] [120]) ∨
        NulShifted (mainnetPool Bytes32.ofBytes [109] [120]) (mainnetPool Bytes32.ofBytes [109] [])) :=
  differentIds_iff (newConsensus_mainnetPool (by decide) (by decide) (by decide) (by decide))
    (newConsensus_mainnetPool (by decide) (by decide) (by decide) (by decide)) (by decide)

/-- The name `a NUL b` with the password `c`, and the name `a` with the password `b NUL c`:
both pass, and their ids are one. -/
theorem differentIds_nul_fails :
    ∃ c d : ConsensusConfig,
      newConsensus Bytes32.ofBytes .mainnet [97, 0, 98] [99] 10 100000 2160 20 = .ok (some c) ∧
      newConsensus Bytes32.ofBytes .mainnet [97] [98, 0, 99] 10 100000 2160 20 = .ok (some d) ∧
      ¬ SameParameters c d ∧ c.calculateId Bytes32.ofBytes = d.calculateId Bytes32.ofBytes ∧ c.id = d.id := by
  refine ⟨mainnetPool Bytes32.ofBytes [97, 0, 98] [99], mainnetPool Bytes32.ofBytes [97] [98, 0, 99],
    newConsensus_mainnetPool (by decide) (by decide) (by decide) (by decide),
    newConsensus_mainnetPool (by decide) (by decide) (by decide) (by decide), ?_, rfl, rfl⟩
  intro same
  have passwords : ([99] : Bytes) = [98, 0, 99] := same.poolPassword
  exact absurd passwords (by decide)

end ConsensusConfig

end P2PoolObserver
