/-
# Sidechain.Verify -- the consensus rules of one block (`SideChain.verifyBlock`)

`verifyBlock` reads the blocks through a `View`, the current tip and difficulty
and the main chain difficulties of the server; it changes nothing.  The source
returns two errors, of which at most one is set: `unverifiable` when the block
cannot be judged yet and `invalid` when it breaks a rule.
-/
import P2PoolObserver.Sidechain.Shares
import P2PoolObserver.Sidechain.NextDifficulty
import P2PoolObserver.Sidechain.LongerChain

namespace P2PoolObserver

open Lib

inductive Stop where
  | unverifiable (message : String)
  | invalid (message : String)
  | fault (f : Fault)
  deriving DecidableEq

/-- What `verifyBlock` reads besides the blocks themselves. -/
structure VerifyContext where
  view : View
  chainTip : Option Ptr
  currentDifficulty : Difficulty
  getDifficultyByHeight : UInt64 → Difficulty

def requireVerifiable (ok : Prop) [Decidable ok] (message : String) : Except Stop Unit :=
  if ok then .ok () else .error (.unverifiable message)

def requireValid (ok : Prop) [Decidable ok] (message : String) : Except Stop Unit :=
  if ok then .ok () else .error (.invalid message)

@[simp] theorem requireValid_eq_ok (ok : Prop) [Decidable ok] (message : String) (u : Unit) :
    requireValid ok message = .ok u ↔ ok := by
  unfold requireValid
  split_ifs with h <;> simp [h]

@[simp] theorem requireVerifiable_eq_ok (ok : Prop) [Decidable ok] (message : String) (u : Unit) :
    requireVerifiable ok message = .ok u ↔ ok := by
  unfold requireVerifiable
  split_ifs with h <;> simp [h]

/-! ## Uncles -/

section Uncles

def unclesSorted : List Hash → Bool
  | a :: b :: rest => Hash.compare a b == .lt && unclesSorted (b :: rest)
  | _ => true

variable (V : View)

def descend (uncleHeight : UInt64) : Nat → Ptr → Except Stop Ptr
  | 0, _ => .error (.fault .outOfFuel)
  | fuel + 1, tmp =>
    if (V.block tmp).side.height > uncleHeight then
      match V.iteratorGetParent tmp with
      | none => .error (.invalid "uncle from different chain (check 1)")
      | some parent => descend uncleHeight fuel parent
    else .ok tmp

def sameChain (blockHeight : UInt64) : Nat → Option Ptr → Option Ptr → Bool
  | n + 1, some tmp, some tmp2 =>
    if (V.block tmp).side.height + uncleBlockDepth ≥ blockHeight then
      if (V.block tmp).side.parent = (V.block tmp2).side.parent then true
      else sameChain blockHeight n (V.iteratorGetParent tmp) (V.iteratorGetParent tmp2)
    else false
  | _, _, _ => false

def checkUncle (fuel : Nat) (b : PoolBlock) (parent uncle : Ptr) : Except Stop Unit := do
  let u := V.block uncle
  requireVerifiable u.verified "uncle is not verified"
  requireValid (¬ u.invalid) "uncle is invalid"
  requireValid (¬ (u.side.height ≥ b.side.height ∨ u.side.height + uncleBlockDepth < b.side.height))
    ("uncle at the wrong height (" ++ toString u.side.height ++ ")")
  let tmp ← descend V u.side.height fuel parent
  requireValid (¬ (V.block tmp).side.height < u.side.height) "uncle from different chain (check 2)"
  requireValid (sameChain V b.side.height uncleBlockDepth.toNat (some tmp) (some uncle))
    "uncle from different chain (check 3)"

def checkUncles (fuel : Nat) (b : PoolBlock) (parent : Ptr) (mined : List Hash) :
    List Hash → Difficulty → Except Stop Difficulty
  | [], expected => .ok expected
  | id :: ids, expected => do
    requireValid (id ≠ zeroHash) "empty uncle hash"
    requireValid (id ∉ mined) ("uncle " ++ Bytes32.string id ++ " has already been mined")
    match V.getByTemplateId id with
    | none => .error (.unverifiable "uncle does not exist")
    | some uncle => do
      checkUncle V fuel b parent uncle
      checkUncles fuel b parent mined ids (expected.add (V.block uncle).side.difficulty)

theorem checkUncles_eq_ok (fuel : Nat) (b : PoolBlock) (parent : Ptr) (mined : List Hash) :
    ∀ (ids : List Hash) (expected total : Difficulty),
      checkUncles V fuel b parent mined ids expected = .ok total ↔
        ∃ uncles, List.Forall₂ (fun id u => id ≠ zeroHash ∧ id ∉ mined ∧
            V.getByTemplateId id = some u ∧ checkUncle V fuel b parent u = .ok ()) ids uncles ∧
          total = uncles.foldl (fun d u => d.add (V.block u).side.difficulty) expected
  | [], expected, total => by
    simp only [checkUncles, Except.ok.injEq, List.forall₂_nil_left_iff, exists_eq_left,
      List.foldl_nil]
    exact eq_comm
  | id :: ids, expected, total => by
    have rest := checkUncles_eq_ok fuel b parent mined ids
    cases found : V.getByTemplateId id with
    | none =>
      simp only [checkUncles, found, except_bind_eq_ok, requireValid_eq_ok,
        List.forall₂_cons_left_iff]
      simp
    | some uncle =>
      simp only [checkUncles, found, except_bind_eq_ok, requireValid_eq_ok, rest,
        List.forall₂_cons_left_iff]
      constructor
      · rintro ⟨_, nonzero, _, fresh, _, accepted, uncles, others, rfl⟩
        exact ⟨uncle :: uncles, ⟨uncle, uncles, ⟨nonzero, fresh, rfl, accepted⟩, others, rfl⟩, rfl⟩
      · rintro ⟨-, ⟨u, uncles, ⟨nonzero, fresh, same, accepted⟩, others, rfl⟩, rfl⟩
        cases same
        exact ⟨(), nonzero, (), fresh, (), accepted, uncles, others, rfl⟩

end Uncles

section Rules

variable [Uint128Package] [Crypto] (consensus : Consensus) (V : View)

/-! ## Genesis and regular blocks -/

def verifyGenesis (b : PoolBlock) : Except Stop Unit :=
  requireValid (¬ (b.side.parent ≠ zeroHash ∨ b.side.uncles.length ≠ 0 ∨
      b.side.difficulty.cmp64 consensus.minimumDifficulty ≠ .eq ∨
      b.side.cumulativeDifficulty.cmp64 consensus.minimumDifficulty ≠ .eq ∨
      (b.shareVersion > shareVersionV1 ∧ b.side.coinbasePrivateKeySeed ≠ consensus.id)))
    "genesis block has invalid parameters"

def minedBlocks : Nat → Option Ptr → List Hash
  | 0, _ => []
  | _ + 1, none => []
  | n + 1, some tmp =>
    (V.block tmp).sideTemplateId consensus :: (V.block tmp).side.uncles ++
      minedBlocks n (V.iteratorGetParent tmp)

def checkSeed (b parent : PoolBlock) : Except Stop Unit :=
  let expectedSeed :=
    if parent.main.previousId ≠ b.main.previousId then parent.calculateTransactionPrivateKeySeed
    else parent.side.coinbasePrivateKeySeed
  requireValid (b.shareVersion > shareVersionV1 → b.side.coinbasePrivateKeySeed = expectedSeed)
    ("invalid tx key seed: expected " ++ Bytes32.string expectedSeed ++ ", got " ++
      Bytes32.string b.side.coinbasePrivateKeySeed)

/-- Parent, height and uncles: everything that is checked at any depth. -/
def checkLinks (fuel : Nat) (b : PoolBlock) (parent : Ptr) : Except Stop Unit := do
  let p := V.block parent
  requireVerifiable p.verified "parent is not verified"
  requireValid (¬ p.invalid) "parent is invalid"
  checkSeed b p
  requireValid (p.side.height + 1 = b.side.height)
    ("wrong height, expected " ++ toString (p.side.height + 1))
  requireValid (unclesSorted b.side.uncles) "invalid uncle order"
  let mined := minedBlocks consensus V (min uncleBlockDepth (b.side.height + 1)).toNat (some parent)
  let expected ← checkUncles V fuel b parent mined b.side.uncles
    (p.side.cumulativeDifficulty.add b.side.difficulty)
  requireValid (b.side.cumulativeDifficulty.equals expected)
    ("wrong cumulative difficulty, got " ++ b.side.cumulativeDifficulty.stringNumeric ++
      ", expected " ++ expected.stringNumeric)

theorem checkLinks_eq_ok (fuel : Nat) (b : PoolBlock) (parent : Ptr) (u : Unit) :
    checkLinks consensus V fuel b parent = .ok u ↔
      (V.block parent).verified = true ∧ (V.block parent).invalid = false ∧
      checkSeed b (V.block parent) = .ok () ∧ (V.block parent).side.height + 1 = b.side.height ∧
      unclesSorted b.side.uncles = true ∧ checkUncles V fuel b parent
          (minedBlocks consensus V (min uncleBlockDepth (b.side.height + 1)).toNat (some parent))
          b.side.uncles ((V.block parent).side.cumulativeDifficulty.add b.side.difficulty) =
        .ok b.side.cumulativeDifficulty := by
  simp only [checkLinks, except_bind_eq_ok, requireValid_eq_ok, requireVerifiable_eq_ok,
    Difficulty.equals_iff, Bool.not_eq_true]
  constructor
  · rintro ⟨_, verified, _, valid, _, seed, _, height, _, sorted, total, uncles, rfl⟩
    exact ⟨verified, valid, seed, height, sorted, uncles⟩
  · rintro ⟨verified, valid, seed, height, sorted, uncles⟩
    exact ⟨(), verified, (), valid, (), seed, (), height, (), sorted, _, uncles, rfl⟩

end Rules

section Block

variable [Uint128Package] [Crypto] (consensus : Consensus) (ctx : VerifyContext)

/-- The difficulty a block on top of `parent` must have: the cached one when the
parent is the chain tip. -/
def expectedDifficulty (parent : Ptr) : Except Stop Difficulty :=
  if ctx.chainTip = some parent then .ok ctx.currentDifficulty
  else match getDifficultyForNextBlock consensus ctx.view parent with
    | .error (.verify e) => .error (.unverifiable e.text)
    | .error (.invalid message) => .error (.invalid message)
    | .ok diff =>
      if diff = Difficulty.zeroDifficulty then .error (.invalid "could not get difficulty")
      else .ok diff

/-- Difficulty and miner rewards, for blocks in the PPLNS window only. -/
def checkWindow (block parent : Ptr) : Except Stop Unit := do
  let diff ← expectedDifficulty consensus ctx parent
  requireValid (diff = (ctx.view.block block).side.difficulty)
    ("wrong difficulty, got " ++ (ctx.view.block block).side.difficulty.stringNumeric ++
      ", expected " ++ diff.stringNumeric)
  match checkPayouts ctx.view consensus ctx.getDifficultyByHeight block with
  | .error message => .error (.invalid message)
  | .ok () => .ok ()

def deepBlockDepth : UInt64 := (consensus.chainWindowSize - 1) * 2 + uncleBlockDepth

def verifyBlock (fuel : Nat) (block : Ptr) : Except Stop Unit :=
  let b := ctx.view.block block
  if b.side.height = 0 then verifyGenesis consensus b
  -- so many blocks on top mean that the network has verified it
  else if b.depth > deepBlockDepth consensus then .ok ()
  else if b.side.parent = zeroHash then .error (.invalid "block must have a parent")
  else match ctx.view.iteratorGetParent block with
    | none => .error (.unverifiable "parent does not exist")
    | some parent => do
      checkLinks consensus ctx.view fuel b parent
      if b.depth ≥ consensus.chainWindowSize then .ok ()
      else checkWindow consensus ctx block parent

theorem verifyBlock_regular {fuel : Nat} {block : Ptr} (u : Unit)
    (height : (ctx.view.block block).side.height ≠ 0)
    (shallow : ¬ (ctx.view.block block).depth > deepBlockDepth consensus) :
    verifyBlock consensus ctx fuel block = .ok u ↔ (ctx.view.block block).side.parent ≠ zeroHash ∧
      ∃ parent, ctx.view.iteratorGetParent block = some parent ∧
        checkLinks consensus ctx.view fuel (ctx.view.block block) parent = .ok () ∧
        ((ctx.view.block block).depth < consensus.chainWindowSize →
          checkWindow consensus ctx block parent = .ok ()) := by
  unfold verifyBlock
  simp only [height, shallow, if_false]
  by_cases orphan : (ctx.view.block block).side.parent = zeroHash
  · simp [orphan]
  · simp only [orphan, if_false, ne_eq, not_false_eq_true, true_and]
    cases ctx.view.iteratorGetParent block with
    | none => simp
    | some parent =>
      simp only [except_bind_eq_ok, Option.some.injEq, exists_eq_left']
      by_cases old : (ctx.view.block block).depth ≥ consensus.chainWindowSize
      · have notYoung : ¬ (ctx.view.block block).depth < consensus.chainWindowSize :=
          UInt64.not_lt.mpr old
        simp [old, notYoung, Unique.exists_iff]
      · have young : (ctx.view.block block).depth < consensus.chainWindowSize :=
          UInt64.not_le.mp old
        simp [old, young, Unique.exists_iff]

end Block

end P2PoolObserver
