/-
# Sidechain.UniqueShares -- no share counts twice on an accepted chain

`verifyBlock` compares the uncles of a block with its last three ancestors only.  Together with
the height bounds on uncles this is enough for the whole chain: an uncle of `b (i+1)` has height
`i - 2` to `i`, and whatever carries that height on the chain, as a block or as an uncle, sits in
the look-back window.
-/
import P2PoolObserver.Sidechain.Verify
import P2PoolObserver.Lib.Lists
import Mathlib.Data.List.Nodup

namespace P2PoolObserver

theorem pairwise_of_unclesSorted : ∀ {ids : List Hash}, unclesSorted ids = true →
    ids.Pairwise fun a b => a.toNat < b.toNat
  | [], _ => List.Pairwise.nil
  | [_], _ => by simp
  | a :: b :: rest, sorted => by
    simp only [unclesSorted, Bool.and_eq_true, beq_iff_eq, Hash.compare_eq_lt_iff] at sorted
    have tail := pairwise_of_unclesSorted sorted.2
    refine List.pairwise_cons.mpr ⟨fun c mem => ?_, tail⟩
    rcases List.mem_cons.mp mem with rfl | mem
    · exact sorted.1
    · exact Nat.lt_trans sorted.1 (List.rel_of_pairwise_cons tail mem)

section Unique

variable [Uint128Package] [Crypto]

/-- Blocks `p 0`, .., `p n`, each accepted on top of the one before it.  Each was
accepted in its own context; template ids resolve to fixed blocks (`resolve`),
whose side data (`side`) and id (`id`) do not change. -/
structure AcceptedChain (consensus : Consensus) (ctx : Nat → VerifyContext) (fuel : Nat → Nat)
    (resolve : Hash → Option Ptr) (side : Ptr → SideData) (id : Ptr → Hash) (p : Nat → Ptr)
    (n : Nat) : Prop where
  content : ∀ i ≤ n, ∀ q, ((ctx i).view.block q).side = side q ∧
    ((ctx i).view.block q).sideTemplateId consensus = id q
  resolves : ∀ i ≤ n, ∀ h q, (ctx i).view.getByTemplateId h = some q → resolve h = some q
  cached : ∀ i ≤ n, ∀ q cache, ((ctx i).view.block q).iterationCache = some cache →
    resolve (side q).parent = some cache.parent
  stored : ∀ i ≤ n, ∀ j ≤ i, (ctx i).view.getByTemplateId (id (p j)) = some (p j)
  links : ∀ i < n, (side (p (i + 1))).parent = id (p i)
  genesis : (side (p 0)).height = 0 ∧ verifyBlock consensus (ctx 0) (fuel 0) (p 0) = .ok ()
  regular : ∀ i < n, (side (p (i + 1))).height ≠ 0 ∧
    ¬ ((ctx (i + 1)).view.block (p (i + 1))).depth > deepBlockDepth consensus ∧
    verifyBlock consensus (ctx (i + 1)) (fuel (i + 1)) (p (i + 1)) = .ok ()

variable {consensus : Consensus} {ctx : Nat → VerifyContext} {fuel : Nat → Nat}
  {resolve : Hash → Option Ptr} {side : Ptr → SideData} {id : Ptr → Hash} {p : Nat → Ptr} {n : Nat}

/-- The template ids of the blocks up to `p m` and of the uncles they list. -/
def shareIds (side : Ptr → SideData) (id : Ptr → Hash) (p : Nat → Ptr) : Nat → List Hash
  | 0 => id (p 0) :: (side (p 0)).uncles
  | m + 1 => shareIds side id p m ++ id (p (m + 1)) :: (side (p (m + 1))).uncles

/-- The difficulty of the block behind a template id. -/
def shareDifficulty (resolve : Hash → Option Ptr) (side : Ptr → SideData) (h : Hash) : Nat :=
  ((resolve h).map fun q => (side q).difficulty.toNat).getD 0

/-- No uncle of `p m` is among the three blocks before it or their uncles. -/
def LookbackFresh (side : Ptr → SideData) (id : Ptr → Hash) (p : Nat → Ptr) (m : Nat) : Prop :=
  ∀ x ∈ (side (p m)).uncles, ∀ k < 3, k + 1 ≤ m →
    x ∉ id (p (m - 1 - k)) :: (side (p (m - 1 - k))).uncles

omit [Uint128Package] [Crypto] in
theorem mem_shareIds_of_le {x : Hash} {j : Nat} (mem : x ∈ id (p j) :: (side (p j)).uncles) :
    ∀ {m : Nat}, j ≤ m → x ∈ shareIds side id p m
  | 0, hj => by
    obtain rfl : j = 0 := by omega
    exact mem
  | m + 1, hj => by
    by_cases last : j = m + 1
    · subst last
      exact List.mem_append.mpr (.inr mem)
    · exact List.mem_append.mpr (.inl (mem_shareIds_of_le mem (by omega)))

namespace AcceptedChain

variable (chain : AcceptedChain consensus ctx fuel resolve side id p n)
include chain

variable {j m : Nat} {x : Hash}

theorem resolve_id (hj : j ≤ n) : resolve (id (p j)) = some (p j) :=
  chain.resolves j hj _ _ (chain.stored j hj j (Nat.le_refl j))

theorem iteratorGetParent {i j : Nat} (hi : i ≤ n) (hj : j < i) :
    (ctx i).view.iteratorGetParent (p (j + 1)) = some (p j) := by
  have parentId := chain.links j (by omega)
  unfold View.iteratorGetParent
  cases cache : ((ctx i).view.block (p (j + 1))).iterationCache with
  | none =>
    rw [(chain.content i hi (p (j + 1))).1, parentId]
    exact chain.stored i hi j (by omega)
  | some cache' =>
    have resolved := chain.cached i hi _ _ cache
    rw [parentId, chain.resolve_id (by omega)] at resolved
    exact resolved.symm

theorem mem_minedBlocks {i : Nat} (hi : i ≤ n) {x : Hash} : ∀ {m j k : Nat}, j < i → k < m → k ≤ j →
    x ∈ id (p (j - k)) :: (side (p (j - k))).uncles → x ∈ minedBlocks consensus (ctx i).view m (some (p j))
  | m + 1, j, 0, _, _, _, mem => by
    obtain ⟨sideEq, idEq⟩ := chain.content i hi (p j)
    simp only [minedBlocks, sideEq, idEq, List.mem_append]
    exact .inl mem
  | m + 1, j + 1, k + 1, hj, hk, hkj, mem => by
    simp only [minedBlocks, List.mem_append]
    refine Or.inr ?_
    rw [chain.iteratorGetParent hi (by omega)]
    exact mem_minedBlocks hi (k := k) (by omega) (by omega) (by omega) (by simpa using mem)

theorem step {i : Nat} (hi : i < n) :
    (side (p i)).height + 1 = (side (p (i + 1))).height ∧
    unclesSorted (side (p (i + 1))).uncles = true ∧
    ∃ us, List.Forall₂ (fun x u =>
        x ∉ minedBlocks consensus (ctx (i + 1)).view
          (min uncleBlockDepth ((side (p (i + 1))).height + 1)).toNat (some (p i)) ∧
        resolve x = some u ∧ (side u).height < (side (p (i + 1))).height ∧
        ¬ (side u).height + uncleBlockDepth < (side (p (i + 1))).height)
      (side (p (i + 1))).uncles us ∧
    (side (p (i + 1))).cumulativeDifficulty = us.foldl (fun d u => d.add (side u).difficulty)
      ((side (p i)).cumulativeDifficulty.add (side (p (i + 1))).difficulty) := by
  obtain ⟨height, shallow, accepted⟩ := chain.regular i hi
  have content := chain.content (i + 1) hi
  rw [← (content (p (i + 1))).1] at height
  obtain ⟨-, parent, link, linksOk, -⟩ := (verifyBlock_regular consensus _ () height shallow).mp accepted
  rw [chain.iteratorGetParent hi (Nat.lt_succ_self i)] at link
  cases link
  obtain ⟨-, -, -, heightEq, sorted, uncles⟩ := (checkLinks_eq_ok consensus _ _ _ _ ()).mp linksOk
  obtain ⟨us, each, total⟩ := (checkUncles_eq_ok _ _ _ _ _ _ _ _).mp uncles
  simp only [(content _).1] at heightEq sorted each total
  refine ⟨heightEq, sorted, us, each.imp ?_, total⟩
  rintro x u ⟨-, fresh, found, ok⟩
  refine ⟨fresh, chain.resolves (i + 1) hi x u found, ?_⟩
  simp only [checkUncle, Lib.except_bind_eq_ok, requireValid_eq_ok, requireVerifiable_eq_ok,
    (content _).1, not_or] at ok
  obtain ⟨_, -, _, -, _, ⟨below, above⟩, -⟩ := ok
  exact ⟨UInt64.not_le.mp below, above⟩

theorem height_toNat : ∀ {i : Nat}, i ≤ n → (side (p i)).height.toNat = i
  | 0, _ => by rw [chain.genesis.1]; rfl
  | i + 1, hi => by
    have before := height_toNat (i := i) (by omega)
    obtain ⟨heightEq, -⟩ := chain.step hi
    have nonzero := (chain.regular i hi).1
    have small := (side (p i)).height.toNat_lt
    rw [← heightEq] at nonzero ⊢
    rw [ne_eq, ← UInt64.toNat_inj, UInt64.toNat_add, before] at nonzero
    rw [UInt64.toNat_add, before]
    have one : (1 : UInt64).toNat = 1 := rfl
    have zero : (0 : UInt64).toNat = 0 := rfl
    omega

theorem uncle_height (hj : j ≤ n) (mem : x ∈ (side (p j)).uncles) :
    ∃ u, resolve x = some u ∧ (side u).height.toNat < j ∧ j ≤ (side u).height.toNat + 3 := by
  cases j with
  | zero =>
    have accepted := chain.genesis.2
    have content := (chain.content 0 hj (p 0)).1
    simp only [verifyBlock, content, chain.genesis.1, if_true, verifyGenesis, requireValid_eq_ok,
      not_or, ne_eq, not_not] at accepted
    have none := List.length_eq_zero_iff.mp accepted.2.1
    simp [none] at mem
  | succ i =>
    obtain ⟨-, -, us, each, -⟩ := chain.step hj
    obtain ⟨u, -, -, found, below, above⟩ := Lib.forall₂_exists_of_mem_left each mem
    have height := chain.height_toNat hj
    refine ⟨u, found, ?_, ?_⟩
    · rw [UInt64.lt_iff_toNat_lt, height] at below
      exact below
    · rw [UInt64.lt_iff_toNat_lt, UInt64.toNat_add, height] at above
      rw [UInt64.lt_iff_toNat_lt, height] at below
      have three : uncleBlockDepth.toNat = 3 := rfl
      have small := (side u).height.toNat_lt
      omega

theorem genesis_side : (side (p 0)).uncles = [] ∧
    (side (p 0)).cumulativeDifficulty = (side (p 0)).difficulty := by
  have accepted := chain.genesis.2
  have content := (chain.content 0 (Nat.zero_le n) (p 0)).1
  simp only [verifyBlock, content, chain.genesis.1, if_true, verifyGenesis, requireValid_eq_ok,
    not_or, ne_eq, not_not, Difficulty.cmp64_eq_eq_iff] at accepted
  obtain ⟨-, none, difficulty, cumulative, -⟩ := accepted
  exact ⟨List.length_eq_zero_iff.mp none, by rw [difficulty, cumulative]⟩

/-- Every share up to `p m` resolves to a block of height at most `m`; one of
height `h` belongs to a block at most three above `h`. -/
theorem mem_shareIds : ∀ {m : Nat}, m ≤ n → x ∈ shareIds side id p m →
    ∃ j ≤ m, x ∈ id (p j) :: (side (p j)).uncles ∧
      ∃ u, resolve x = some u ∧ (side u).height.toNat ≤ j ∧ j ≤ (side u).height.toNat + 3 := by
  have here : ∀ {j : Nat}, j ≤ n → x ∈ id (p j) :: (side (p j)).uncles →
      ∃ u, resolve x = some u ∧ (side u).height.toNat ≤ j ∧ j ≤ (side u).height.toNat + 3 := by
    intro j hj mem
    rcases List.mem_cons.mp mem with rfl | mem
    · exact ⟨p j, chain.resolve_id hj, by rw [chain.height_toNat hj], by
        rw [chain.height_toNat hj]; omega⟩
    · obtain ⟨u, found, below, above⟩ := chain.uncle_height hj mem
      exact ⟨u, found, by omega, above⟩
  intro m
  induction m with
  | zero =>
    intro hm mem
    exact ⟨0, Nat.le_refl 0, mem, here hm mem⟩
  | succ m ih =>
    intro hm mem
    rcases List.mem_append.mp mem with earlier | now
    · obtain ⟨j, hj, rest⟩ := ih (by omega) earlier
      exact ⟨j, by omega, rest⟩
    · exact ⟨m + 1, Nat.le_refl _, now, here hm now⟩

theorem repeated_uncle_recent (hm : m < n) (old : x ∈ shareIds side id p m)
    (mem : x ∈ (side (p (m + 1))).uncles) :
    ∃ k < 3, k ≤ m ∧ x ∈ id (p (m - k)) :: (side (p (m - k))).uncles := by
  obtain ⟨j, hj, listed, u, found, low, high⟩ := chain.mem_shareIds (by omega) old
  obtain ⟨v, same, below, above⟩ := chain.uncle_height hm mem
  rw [found] at same
  cases same
  refine ⟨m - j, by omega, by omega, ?_⟩
  rwa [show m - (m - j) = j by omega]

theorem lookbackFresh (hm : m < n) (bound : m + 2 < 2 ^ 64) : LookbackFresh side id p (m + 1) := by
  intro x mem k hk hkm listed
  obtain ⟨-, -, us, each, -⟩ := chain.step hm
  obtain ⟨-, -, fresh, -⟩ := Lib.forall₂_exists_of_mem_left each mem
  have lookback : (min uncleBlockDepth ((side (p (m + 1))).height + 1)).toNat = min 3 (m + 2) := by
    have three : uncleBlockDepth.toNat = 3 := rfl
    have one : (1 : UInt64).toNat = 1 := rfl
    rw [uint64_toNat_min, three, UInt64.toNat_add, chain.height_toNat hm]
    omega
  rw [lookback] at fresh
  refine fresh (chain.mem_minedBlocks hm (k := k) (by omega) (by omega) (by omega) ?_)
  simpa using listed

theorem new_shares_fresh (hm : m < n) (lookback : LookbackFresh side id p (m + 1))
    (old : x ∈ shareIds side id p m) : x ∉ id (p (m + 1)) :: (side (p (m + 1))).uncles := by
  intro mem
  rcases List.mem_cons.mp mem with rfl | mem
  · -- the block itself is higher than everything before it
    obtain ⟨j, hj, -, u, found, low, -⟩ := chain.mem_shareIds (by omega) old
    rw [chain.resolve_id hm] at found
    cases found
    rw [chain.height_toNat hm] at low
    omega
  · obtain ⟨k, hk, hkm, listed⟩ := chain.repeated_uncle_recent hm old mem
    exact lookback x mem k hk (by omega) (by simpa using listed)

theorem shareIds_nodup (last : n + 1 < 2 ^ 64 ∨ LookbackFresh side id p n) :
    ∀ {m : Nat}, m ≤ n → (shareIds side id p m).Nodup
  | 0, _ => by simp [shareIds, chain.genesis_side.1]
  | m + 1, hm => by
    have earlier := shareIds_nodup last (m := m) (by omega)
    obtain ⟨-, sorted, -⟩ := chain.step hm
    have own : (id (p (m + 1)) :: (side (p (m + 1))).uncles).Nodup := by
      refine List.nodup_cons.mpr ⟨fun mem => ?_, ?_⟩
      · obtain ⟨u, found, below, -⟩ := chain.uncle_height hm mem
        rw [chain.resolve_id hm] at found
        cases found
        rw [chain.height_toNat hm] at below
        omega
      · exact (pairwise_of_unclesSorted sorted).imp fun less same => by
          rw [same] at less
          exact Nat.lt_irrefl _ less
    have lookback : LookbackFresh side id p (m + 1) := by
      have top := chain.height_toNat (Nat.le_refl n)
      have small := (side (p n)).height.toNat_lt
      rcases Nat.lt_or_ge (m + 2) (2 ^ 64) with below | above
      · exact chain.lookbackFresh hm below
      · have whole : m + 1 = n := by omega
        rcases last with short | fresh
        · omega
        · exact whole ▸ fresh
    exact List.nodup_append.mpr ⟨earlier, own, fun x old y new same =>
      chain.new_shares_fresh hm lookback old (same ▸ new)⟩

theorem shareDifficulty_id (hm : m ≤ n) :
    shareDifficulty resolve side (id (p m)) = (side (p m)).difficulty.toNat := by
  simp [shareDifficulty, chain.resolve_id hm]

theorem cumulativeDifficulty_eq : ∀ {m : Nat}, m ≤ n → (side (p m)).cumulativeDifficulty.toNat =
      ((shareIds side id p m).map (shareDifficulty resolve side)).sum % 2 ^ 128
  | 0, hm => by
    obtain ⟨uncles, cumulative⟩ := chain.genesis_side
    have small := (side (p 0)).difficulty.toNat_lt
    simp only [shareIds, uncles, List.map_cons, List.map_nil, List.sum_cons, List.sum_nil,
      chain.shareDifficulty_id hm, cumulative]
    omega
  | m + 1, hm => by
    have before := cumulativeDifficulty_eq (m := m) (by omega)
    obtain ⟨-, -, us, each, total⟩ := chain.step hm
    have uncles : (side (p (m + 1))).uncles.map (shareDifficulty resolve side) =
        us.map fun u => (side u).difficulty.toNat := by
      refine List.forall₂_eq_eq_eq ▸ List.forall₂_map_left_iff.mpr
        (List.forall₂_map_right_iff.mpr (each.imp ?_))
      rintro x u ⟨-, found, -⟩
      simp [shareDifficulty, found]
    rw [total, Difficulty.toNat_foldl_add, Difficulty.toNat_add, before]
    simp only [shareIds, List.map_append, List.map_cons, List.sum_append, List.sum_cons, uncles,
      chain.shareDifficulty_id hm]
    omega

end AcceptedChain

/-- On an accepted chain block `i` has height `i`, the template ids of its blocks
and of all uncles they list are pairwise distinct, and the cumulative difficulty
of the last block is, modulo `2 ^ 128`, the sum of the difficulties of exactly
these -- if and only if the chain ends below the last height of all or the uncles
of that block are not among the three blocks before it and their uncles. -/
theorem acceptedChain_unique_iff (chain : AcceptedChain consensus ctx fuel resolve side id p n) :
    ((∀ i ≤ n, (side (p i)).height.toNat = i) ∧ (shareIds side id p n).Nodup ∧
      (side (p n)).cumulativeDifficulty.toNat =
        ((shareIds side id p n).map (shareDifficulty resolve side)).sum % 2 ^ 128) ↔
    (n + 1 < 2 ^ 64 ∨ LookbackFresh side id p n) := by
  constructor
  · rintro ⟨-, distinct, -⟩
    cases n with
    | zero => exact .inl (by norm_num)
    | succ m =>
      refine .inr fun x mem k hk hkm listed => ?_
      have old : x ∈ shareIds side id p m := mem_shareIds_of_le listed (by omega)
      exact (List.nodup_append.mp distinct).2.2 x old x (by simp [mem]) rfl
  · intro last
    exact ⟨fun _ hi => chain.height_toNat hi, chain.shareIds_nodup last (Nat.le_refl n),
      chain.cumulativeDifficulty_eq (Nat.le_refl n)⟩

end Unique

/-! ## The chain that reaches the last height

One block for each height, the last of which lists the block three below it as an
uncle.  A block's id is read off its timestamp; all blocks lie below the payout
window, so that only links are checked. -/

namespace LongChain

open Lib

variable {q : Nat}

-- irreducible, so that no unifier counts up to it
@[irreducible] def lastHeight : Nat := 2 ^ 64 - 1

theorem lastHeight_eq : lastHeight = 2 ^ 64 - 1 := by
  unfold lastHeight
  rfl

def timestampHash : Except ReadError (UInt64 × Bytes) → Hash
  | .ok (timestamp, _) => BitVec.ofNat 256 (timestamp.toNat + 1)
  | .error _ => zeroHash

@[reducible] def crypto : Crypto where
  keccak256 bytes := timestampHash (Reader.readUvarint (bytes.drop 2))
  deterministicTransactionPrivateKey _ _ := 0
  publicKey _ := 0
  ephemeralPublicKey _ _ _ := (0, 0)

def block (q : Ptr) : PoolBlock :=
  { (default : PoolBlock) with
    main := { (default : MainBlock) with timestamp := UInt64.ofNat q }
    side := { (default : SideData) with
      parent := BitVec.ofNat 256 q
      uncles := if q = lastHeight then [BitVec.ofNat 256 (lastHeight - 2)] else []
      height := UInt64.ofNat q
      difficulty := .difficultyFrom64 100000
      cumulativeDifficulty :=
        .ofNat (if q = lastHeight then 100000 * (q + 2) else 100000 * (q + 1)) }
    depth := 2160
    verified := true
    cachedShareVersion := shareVersionV1 }

def view : View where
  block := block
  getByTemplateId h := if 1 ≤ h.toNat ∧ h.toNat ≤ 2 ^ 64 then some (h.toNat - 1) else none

theorem view_block : view.block = block := rfl

def context : VerifyContext := ⟨view, none, .zeroDifficulty, fun _ => .zeroDifficulty⟩

def templateId (q : Ptr) : Hash := @PoolBlock.sideTemplateId crypto (block q) consensusMini

theorem templateIdBlob_timestamp (consensus : Consensus) (b : PoolBlock)
    (known : b.main.coinbase.outputs.Known) : ∃ rest, (PoolBlock.templateIdBlob consensus b).drop 2 =
      uvarint b.main.timestamp.toNat ++ rest := by
  unfold PoolBlock.templateIdBlob
  rw [MainBlock.sideChainHashingBlob_of_known known]
  unfold MainBlock.headerBlob
  simp only [List.append_assoc, List.cons_append, List.nil_append, List.drop_succ_cons,
    List.drop_zero]
  exact ⟨_, rfl⟩

theorem templateId_eq (hq : q < 2 ^ 64) : templateId q = BitVec.ofNat 256 (q + 1) := by
  have timestamp : (UInt64.ofNat q).toNat = q := by rw [UInt64.toNat_ofNat']; omega
  obtain ⟨rest, dropped⟩ := templateIdBlob_timestamp consensusMini (block q)
    (by intro o mem; exact nomatch mem)
  have read := Reader.reads_uvarint64 (block q).main.timestamp rest
  rw [← dropped] at read
  calc templateId q
      = timestampHash (.ok ((block q).main.timestamp, rest)) := congrArg timestampHash read
    _ = BitVec.ofNat 256 (q + 1) := by simp only [timestampHash, block, timestamp]

theorem templateId_toNat (hq : q < 2 ^ 64) : (templateId q).toNat = q + 1 := by
  rw [templateId_eq hq, BitVec.toNat_ofNat]
  omega

theorem getByTemplateId_templateId (hq : q < 2 ^ 64) : view.getByTemplateId (templateId q) = some q := by
  simp only [view, templateId_toNat hq]
  rw [if_pos (by omega), Nat.add_sub_cancel]

theorem iteratorGetParent_succ (hq : q + 1 < 2 ^ 64) : view.iteratorGetParent (q + 1) = some q := by
  have parent : (block (q + 1)).side.parent = templateId q := by rw [templateId_eq (by omega)]; rfl
  have lookup : view.iteratorGetParent (q + 1) =
      view.getByTemplateId (block (q + 1)).side.parent := rfl
  rw [lookup, parent, getByTemplateId_templateId (by omega)]

theorem height_toNat (hq : q < 2 ^ 64) : (block q).side.height.toNat = q := by
  show (UInt64.ofNat q).toNat = q
  rw [UInt64.toNat_ofNat']
  omega

theorem height_succ_ne_zero (hq : q + 1 < 2 ^ 64) : (block (q + 1)).side.height ≠ 0 := by
  intro zero
  have := congrArg UInt64.toNat zero
  rw [height_toNat hq] at this
  exact absurd this (Nat.succ_ne_zero q)

theorem shallow (q : Nat) : ¬ (block q).depth > deepBlockDepth consensusMini := by
  show ¬ (2160 : UInt64) > deepBlockDepth consensusMini
  decide

theorem checkLinks_succ (hq : q + 1 < 2 ^ 64) (uncles : checkUncles view 4 (block (q + 1)) q
        (@minedBlocks crypto consensusMini view
          (min uncleBlockDepth ((block (q + 1)).side.height + 1)).toNat (some q)) (block (q + 1)).side.uncles
        ((block q).side.cumulativeDifficulty.add (block (q + 1)).side.difficulty) =
      .ok (block (q + 1)).side.cumulativeDifficulty) :
    @checkLinks .exact crypto consensusMini view 4 (block (q + 1)) q = .ok () := by
  refine (@checkLinks_eq_ok .exact crypto _ _ _ _ _ ()).mpr ⟨rfl, rfl, ?_, ?_, ?_, uncles⟩
  · unfold checkSeed
    simp only [requireValid_eq_ok]
    intro newer
    exact absurd newer (UInt8.lt_irrefl _)
  · apply UInt64.toNat_inj.mp
    rw [UInt64.toNat_add, height_toNat hq]
    have := height_toNat (q := q) (by omega)
    simp only [view, this, UInt64.toNat_one]
    omega
  · simp only [block]
    split_ifs <;> rfl

theorem difficulty_toNat (q : Nat) : (block q).side.difficulty.toNat = 100000 := by
  show (Difficulty.difficultyFrom64 100000).toNat = 100000
  decide +kernel

theorem cumulative_below (hq : q < lastHeight) :
    (block q).side.cumulativeDifficulty.toNat = 100000 * (q + 1) := by
  have notLast : q ≠ lastHeight := by omega
  simp only [block, notLast, if_false, Difficulty.toNat_ofNat]
  rw [lastHeight_eq] at hq
  omega

theorem cumulative_last : (block lastHeight).side.cumulativeDifficulty.toNat = 100000 * (lastHeight + 2) := by
  simp only [block, if_true, Difficulty.toNat_ofNat]
  rw [lastHeight_eq]
  norm_num

theorem uncles_below (hq : q + 1 < lastHeight) (mined : List Hash) :
    checkUncles view 4 (block (q + 1)) q mined (block (q + 1)).side.uncles
        ((block q).side.cumulativeDifficulty.add (block (q + 1)).side.difficulty) =
      .ok (block (q + 1)).side.cumulativeDifficulty := by
  have none : (block (q + 1)).side.uncles = [] := by
    have notLast : q + 1 ≠ lastHeight := by omega
    simp only [block, notLast, if_false]
  rw [none]
  refine congrArg Except.ok (Difficulty.toNat_inj.mp ?_)
  rw [Difficulty.toNat_add, cumulative_below (by omega), cumulative_below hq]
  rw [difficulty_toNat]
  rw [lastHeight_eq] at hq
  omega

theorem descend_add {u : Nat} : ∀ {k fuel : Nat}, k < fuel → u + k < 2 ^ 64 →
    descend view (block u).side.height fuel (u + k) = .ok u
  | 0, fuel + 1, _, _ => by
    rw [descend, Nat.add_zero, view_block]
    exact if_neg (UInt64.lt_irrefl _)
  | k + 1, fuel + 1, hk, bound => by
    have above : (view.block (u + (k + 1))).side.height > (block u).side.height := by
      rw [gt_iff_lt, UInt64.lt_iff_toNat_lt, height_toNat (by omega)]
      have := height_toNat bound
      simp only [view, this]
      omega
    rw [descend, if_pos above, ← Nat.add_assoc, iteratorGetParent_succ (by omega)]
    exact descend_add (by omega) (by omega)

theorem checkUncle_last {u : Nat} (hu : u + 3 = lastHeight) :
    checkUncle view 4 (block lastHeight) (u + 2) u = .ok () := by
  have last := lastHeight_eq
  have low := height_toNat (q := u) (by omega)
  have high := height_toNat (q := lastHeight) (by omega)
  have three : uncleBlockDepth.toNat = 3 := rfl
  have below : ¬ (block u).side.height ≥ (block lastHeight).side.height := by
    rw [ge_iff_le, UInt64.le_iff_toNat_le, low, high]
    omega
  have reach : ((block u).side.height + uncleBlockDepth).toNat = lastHeight := by
    rw [UInt64.toNat_add, low, three]
    omega
  have near : ¬ (block u).side.height + uncleBlockDepth < (block lastHeight).side.height := by
    rw [UInt64.lt_iff_toNat_lt, reach, high]
    exact Nat.lt_irrefl _
  have same : sameChain view (block lastHeight).side.height uncleBlockDepth.toNat (some u) (some u) =
      true := by
    rw [three]
    unfold sameChain
    rw [view_block, if_pos (ge_iff_le.mpr (UInt64.not_lt.mp near)), if_pos rfl]
  simp only [checkUncle, except_bind_eq_ok, requireValid_eq_ok, requireVerifiable_eq_ok]
  exact ⟨(), rfl, (), Bool.false_ne_true, (), not_or.mpr ⟨below, near⟩, u,
    descend_add (by omega) (by omega), (), UInt64.lt_irrefl _, same⟩

/-- At the last height the look-back has no block, and the uncle is accepted
although it is the block two before the parent. -/
theorem uncles_last (hq : q + 1 = lastHeight) : checkUncles view 4 (block (q + 1)) q
        (@minedBlocks crypto consensusMini view
          (min uncleBlockDepth ((block (q + 1)).side.height + 1)).toNat (some q)) (block (q + 1)).side.uncles
        ((block q).side.cumulativeDifficulty.add (block (q + 1)).side.difficulty) =
      .ok (block (q + 1)).side.cumulativeDifficulty := by
  have last := lastHeight_eq
  obtain ⟨u, rfl⟩ : ∃ u, q = u + 2 := ⟨q - 2, by omega⟩
  have lookback : (min uncleBlockDepth ((block (u + 2 + 1)).side.height + 1)).toNat = 0 := by
    rw [uint64_toNat_min, UInt64.toNat_add, height_toNat (by omega), hq, last]
    rfl
  have uncles : (block (u + 2 + 1)).side.uncles = [templateId u] := by
    rw [templateId_eq (by omega)]
    simp only [block, hq, if_true]
    rw [show lastHeight - 2 = u + 1 by omega]
  have nonzero : templateId u ≠ zeroHash := by
    intro zero
    have := congrArg BitVec.toNat zero
    rw [templateId_toNat (by omega)] at this
    exact absurd this (by simp [zeroHash])
  rw [lookback, uncles]
  refine (checkUncles_eq_ok view 4 _ _ _ _ _ _).mpr ⟨[u], ?_, ?_⟩
  · rw [hq]
    exact .cons ⟨nonzero, List.not_mem_nil, getByTemplateId_templateId (by omega),
      checkUncle_last hq⟩ .nil
  · apply Difficulty.toNat_inj.mp
    rw [List.foldl_cons, List.foldl_nil, Difficulty.toNat_add, Difficulty.toNat_add, view_block,
      cumulative_below (q := u + 2) (by omega), difficulty_toNat, difficulty_toNat, hq,
      cumulative_last, ← hq]
    have bound : u + 2 + 1 < 2 ^ 64 := by omega
    clear hq last
    omega

theorem verifyBlock_succ (hq : q + 1 < 2 ^ 64) :
    @verifyBlock .exact crypto consensusMini context 4 (q + 1) = .ok () := by
  have last := lastHeight_eq
  have links : @checkLinks .exact crypto consensusMini view 4 (block (q + 1)) q = .ok () := by
    by_cases top : q + 1 = lastHeight
    · exact checkLinks_succ hq (uncles_last top)
    · exact checkLinks_succ hq (uncles_below (by omega) _)
  have parent : (block (q + 1)).side.parent ≠ zeroHash := by
    intro zero
    have := congrArg BitVec.toNat zero
    rw [show (block (q + 1)).side.parent = templateId q by rw [templateId_eq (by omega)]; rfl,
      templateId_toNat (by omega)] at this
    exact absurd this (Nat.succ_ne_zero q)
  refine (@verifyBlock_regular .exact crypto _ _ _ _ () (height_succ_ne_zero hq)
    (shallow _)).mpr
    ⟨parent, q, iteratorGetParent_succ hq, links, fun young => ?_⟩
  exact absurd young (UInt64.lt_irrefl _)

theorem verifyBlock_zero : @verifyBlock .exact crypto consensusMini context 4 0 = .ok () := by
  decide +kernel

theorem acceptedChain {n : Nat} (hn : n < 2 ^ 64) :
    @AcceptedChain .exact crypto consensusMini (fun _ => context) (fun _ => 4) view.getByTemplateId
      (fun q => (block q).side) templateId (fun i => i) n := by
  refine @AcceptedChain.mk .exact crypto _ _ _ _ _ _ _ _ (fun _ _ _ => ⟨rfl, rfl⟩)
    (fun _ _ _ _ found => found) (fun _ _ _ _ cache => nomatch cache)
    (fun i hi j hj => getByTemplateId_templateId (by omega)) ?_ ⟨rfl, verifyBlock_zero⟩ ?_
  · intro i hi
    rw [templateId_eq (by omega)]
    rfl
  · intro i hi
    refine ⟨height_succ_ne_zero (by omega), shallow _, verifyBlock_succ (by omega)⟩

end LongChain

/-- The chain of all heights is accepted, and its last block counts the block
three below it a second time. -/
theorem wrappedChain_repeats :
    @AcceptedChain .exact LongChain.crypto consensusMini (fun _ => LongChain.context) (fun _ => 4)
        LongChain.view.getByTemplateId (fun q => (LongChain.block q).side) LongChain.templateId
        (fun i => i) (2 ^ 64 - 1) ∧
      ¬ (shareIds (fun q => (LongChain.block q).side) LongChain.templateId (fun i => i)
        (2 ^ 64 - 1)).Nodup := by
  refine ⟨LongChain.acceptedChain (by omega), ?_⟩
  rw [← LongChain.lastHeight_eq]
  have last := LongChain.lastHeight_eq
  obtain ⟨m, hm⟩ : ∃ m, LongChain.lastHeight = m + 1 := ⟨LongChain.lastHeight - 1, by omega⟩
  have uncles : (LongChain.block (m + 1)).side.uncles = [LongChain.templateId (m - 2)] := by
    rw [LongChain.templateId_eq (by omega), ← hm]
    simp only [LongChain.block, if_true]
    rw [show LongChain.lastHeight - 2 = m - 2 + 1 by omega]
  have old : LongChain.templateId (m - 2) ∈ shareIds (fun q => (LongChain.block q).side)
      LongChain.templateId (fun i => i) m :=
    mem_shareIds_of_le (j := m - 2) (.head _) (by omega)
  rw [hm]
  intro distinct
  refine (List.nodup_append.mp distinct).2.2 _ old (LongChain.templateId (m - 2)) ?_ rfl
  exact .tail _ (uncles ▸ List.mem_singleton_self _)

namespace FamilyExample

open LongChain (crypto)

/-- A chain of three blocks, of which the last lists block 3, a second one at height 1. -/
def block (q : Ptr) : PoolBlock :=
  { LongChain.block q with side := { (LongChain.block q).side with
      parent := if q = 3 then 1 else BitVec.ofNat 256 q
      uncles := if q = 2 then [4] else []
      height := if q = 3 then 1 else UInt64.ofNat q
      cumulativeDifficulty := .ofNat (100000 * if q = 3 then 2 else if q = 2 then 4 else q + 1) } }

def view : View where
  block := block
  getByTemplateId h := if 1 ≤ h.toNat ∧ h.toNat ≤ 4 then some (h.toNat - 1) else none

def context : VerifyContext := ⟨view, none, .zeroDifficulty, fun _ => .zeroDifficulty⟩

def side (q : Ptr) : SideData := (block q).side

def templateId (q : Ptr) : Hash := @PoolBlock.sideTemplateId crypto (block q) consensusMini

theorem acceptedChain : @AcceptedChain .exact crypto consensusMini (fun _ => context) (fun _ => 4)
    view.getByTemplateId side templateId (fun i => i) 2 :=
  @AcceptedChain.mk .exact crypto _ _ _ _ _ _ _ _ (fun _ _ _ => ⟨rfl, rfl⟩)
    (fun _ _ _ _ found => found) (fun _ _ _ _ cache => nomatch cache)
    (by decide +kernel) (by decide +kernel) (by decide +kernel) (by decide +kernel)

end FamilyExample

open FamilyExample in
theorem acceptedChain_unique_iff_family :
    shareIds side templateId (fun i => i) 2 = [1, 2, 3, 4] ∧ (∀ i ≤ 2, (side i).height.toNat = i) ∧
      (shareIds side templateId (fun i => i) 2).Nodup ∧ (side 2).cumulativeDifficulty.toNat =
        ((shareIds side templateId (fun i => i) 2).map (shareDifficulty view.getByTemplateId side)).sum % 2 ^ 128 :=
  ⟨by decide +kernel, (@acceptedChain_unique_iff .exact LongChain.crypto _ _ _ _ _ _ _ _ acceptedChain).mpr
    (.inl (by omega))⟩

end P2PoolObserver
