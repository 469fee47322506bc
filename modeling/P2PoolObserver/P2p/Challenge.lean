/-
# P2p.Challenge -- the challenge of the handshake (`p2p/challenge.go`)

The side that connects looks for a salt whose hash meets a small difficulty; the other side
hashes the challenge, the consensus id and the salt again.  The search works on one buffer
that it overwrites, the check writes three slices to the hasher; they hash the same bytes,
so that what the search found passes the check (`solution_ok`).
-/
import P2PoolObserver.Lib.Slice
import P2PoolObserver.Sidechain.PoolBlock

namespace P2PoolObserver

open Lib

/-- Eight bytes, as the integer they spell in little-endian order. -/
abbrev HandshakeChallenge := BitVec 64

def handshakeChallengeSize : Nat := 8

def handshakeChallengeDifficulty : UInt64 := 10000

namespace HandshakeChallenge

def bytes (challenge : HandshakeChallenge) : Bytes := leBytes handshakeChallengeSize challenge.toNat

theorem bytes_length (challenge : HandshakeChallenge) : challenge.bytes.length = 8 := leBytes_length 8 _

end HandshakeChallenge

def meetsChallengeDifficulty (hash : Hash) : Bool :=
  let word := UInt64.ofNat (ofLeBytes (hash.bytes.drop (hashSize - 8)))
  ((Difficulty.difficultyFrom64 word).mul64 handshakeChallengeDifficulty).hi == 0

/-! ## The buffer of the search -/

theorem copyAt_salt {front tail bytes : Bytes} {offset : Nat} (frontLength : front.length = offset)
    (tailLength : tail.length = bytes.length) : copyAt (front ++ tail) offset bytes = front ++ bytes := by
  subst frontLength
  rw [copyAt_append _ _ _ tailLength.ge, ← tailLength, List.drop_length, List.append_nil]

theorem searchBuffer_eq (challenge : HandshakeChallenge) (consensusId : Hash) :
    copyAt (copyAt (List.replicate (handshakeChallengeSize * 2 + hashSize) 0) 0 challenge.bytes)
        handshakeChallengeSize consensusId.bytes =
      (challenge.bytes ++ consensusId.bytes) ++ List.replicate 8 0 := by
  have front := challenge.bytes_length
  have first : copyAt (List.replicate (handshakeChallengeSize * 2 + hashSize) 0) 0 challenge.bytes =
      challenge.bytes ++ List.replicate 40 0 := by
    refine (copyAt_append [] _ _ (by rw [front]; decide)).trans ?_
    rw [front]
    rfl
  rw [first, show handshakeChallengeSize = challenge.bytes.length from front.symm,
    copyAt_append _ _ _ (by rw [Bytes32.bytes_length]; decide), Bytes32.bytes_length]
  rfl

section Hashing

variable [Crypto]

/-- The loop of `FindChallengeSolution` from `salt` on.  It returns `none` if it is still
searching after `fuel` rounds. -/
def searchSalt (stop : Bool) : Nat → Bytes → UInt64 → Option (UInt64 × Hash × Bool)
  | 0, _, _ => none
  | fuel + 1, buf, salt =>
    let buf := copyAt buf (hashSize + handshakeChallengeSize) (leBytes 8 salt.toNat)
    let sum := Crypto.keccak256 buf
    if stop then some (salt, sum, false)
    else if meetsChallengeDifficulty sum then some (salt, sum, true)
    else searchSalt stop fuel buf (salt + 1)

def findChallengeSolution (fuel : Nat) (challenge : HandshakeChallenge) (consensusId : Hash) (stop : Bool)
    (salt : UInt64) : Option (UInt64 × Hash × Bool) :=
  let buf := List.replicate (handshakeChallengeSize * 2 + hashSize) 0
  let buf := copyAt buf 0 challenge.bytes
  let buf := copyAt buf handshakeChallengeSize consensusId.bytes
  searchSalt stop fuel buf salt

def calculateChallengeHash (challenge : HandshakeChallenge) (consensusId : Hash) (solution : UInt64) : Hash × Bool :=
  let hash := Crypto.keccak256 (challenge.bytes ++ consensusId.bytes ++ leBytes 8 solution.toNat)
  (hash, meetsChallengeDifficulty hash)

/-! ## What the search returns -/

/-- By induction on the rounds: only the last eight bytes of the buffer change, and they are
those of the salt that is tried. -/
theorem searchSalt_spec {stop : Bool} {front : Bytes} (frontLength : front.length = 40) :
    ∀ {fuel : Nat} {tail : Bytes} {salt solution : UInt64} {hash : Hash} {ok : Bool}, tail.length = 8 →
      searchSalt stop fuel (front ++ tail) salt = some (solution, hash, ok) →
      hash = Crypto.keccak256 (front ++ leBytes 8 solution.toNat) ∧ (ok = true → meetsChallengeDifficulty hash = true) ∧
        ok = !stop := by
  intro fuel
  induction fuel with
  | zero => nofun
  | succ fuel later =>
    intro tail salt solution hash ok tailLength found
    unfold searchSalt at found
    have offset : front.length = hashSize + handshakeChallengeSize := frontLength
    rw [copyAt_salt offset (tailLength.trans (leBytes_length 8 _).symm)] at found
    dsimp only at found
    split_ifs at found with stopped met
    · cases found
      exact ⟨rfl, nofun, by rw [stopped]; rfl⟩
    · cases found
      exact ⟨rfl, fun _ => met, by rw [Bool.eq_false_of_not_eq_true stopped]; rfl⟩
    · exact later (leBytes_length 8 _) found

variable {fuel : Nat} {challenge : HandshakeChallenge} {consensusId : Hash} {stop ok : Bool} {salt solution : UInt64}
  {hash : Hash}

theorem findChallengeSolution_spec
    (found : findChallengeSolution fuel challenge consensusId stop salt = some (solution, hash, ok)) :
    hash = (calculateChallengeHash challenge consensusId solution).1 ∧
      (ok = true → meetsChallengeDifficulty hash = true) ∧ ok = !stop := by
  unfold findChallengeSolution at found
  dsimp only at found
  rw [searchBuffer_eq] at found
  exact searchSalt_spec (by rw [List.length_append, challenge.bytes_length, Bytes32.bytes_length]) rfl found

theorem solution_ok (found : findChallengeSolution fuel challenge consensusId stop salt = some (solution, hash, true)) :
    calculateChallengeHash challenge consensusId solution = (hash, true) := by
  obtain ⟨same, meets, -⟩ := findChallengeSolution_spec found
  refine Prod.ext same.symm ?_
  rw [← meets rfl, same]
  rfl

theorem findChallengeSolution_stop (fuel : Nat) (challenge : HandshakeChallenge) (consensusId : Hash) (salt : UInt64) :
    ∃ hash, findChallengeSolution (fuel + 1) challenge consensusId true salt = some (salt, hash, false) :=
  ⟨_, rfl⟩

end Hashing

end P2PoolObserver
