/-
# Sidechain.Coherence -- the store index in every run, and what pruning misses

`Coherent` is the invariant that makes pruning safe: the indexes agree, the keys are in
order when the flag says so, and above every block that is no longer stored there are
two heights in use, so the loop over the heights of `pruneOldBlocks` always stops before
the end of the keys.
-/
import P2PoolObserver.Sidechain.Pruning
import P2PoolObserver.Sidechain.UniqueShares

namespace P2PoolObserver

open Lib

set_option linter.unusedSectionVars false

namespace SideChain

section Coherence

variable [Uint128Package] [Crypto] (consensus : Consensus) {s s' t : SideChain}

def TwoKeysFrom (s : SideChain) (n : Nat) : Prop :=
  ∃ k ∈ s.blocksByHeightKeys, ∃ l ∈ s.blocksByHeightKeys, k ≠ l ∧ n ≤ k.toNat ∧ n ≤ l.toNat

theorem TwoKeysFrom.mono {m n : Nat} (two : TwoKeysFrom s n) (le : m ≤ n) : TwoKeysFrom s m := by
  obtain ⟨k, hk, l, hl, other, fromK, fromL⟩ := two
  exact ⟨k, hk, l, hl, other, le.trans fromK, le.trans fromL⟩

/-- The invariant of the store between two calls. -/
structure Coherent (s : SideChain) : Prop where
  indexed : Indexed consensus s
  ordered : s.blocksByHeightKeysSorted = true → s.blocksByHeightKeys.Pairwise (· < ·)
  consistent : ∀ k id, .inconsistent k id ∉ s.events
  /-- A block that can become the tip was verified on top of a parent. -/
  based : ∀ p, p < s.next → (s.mem p).verified = true → (s.mem p).invalid = false →
    (s.mem p).side.height ≠ 0 → (s.mem p).depth < consensus.chainWindowSize →
      ∃ q, q < s.next ∧ (s.mem q).side.height + 1 = (s.mem p).side.height
  /-- A block that is not stored any more went when a tip was far above it. -/
  above : ∀ p, p < s.next → ¬ s.Stored consensus p →
    TwoKeysFrom s ((s.mem p).side.height.toNat + (pruneDistance consensus).toNat - 1)

variable {consensus}
variable {p N : Ptr} {server : Server}

theorem two_le_pruneDistance : 2 ≤ (pruneDistance consensus).toNat := by
  obtain ⟨low, high⟩ := consensus.chainWindowSize_bounds
  rw [UInt64.le_iff_toNat_le] at low high
  have quotient : (moneroBlockTime / consensus.targetBlockTime).toNat ≤ 120 := by
    rw [UInt64.toNat_div]
    exact Nat.div_le_self _ _
  have sixty : (60 : UInt64).toNat = 60 := rfl
  have most : (2160 : UInt64).toNat = 2160 := rfl
  have double : (2 : UInt64).toNat = 2 := rfl
  rw [pruneDistance, UInt64.toNat_add, UInt64.toNat_mul, double]
  omega

theorem height_pred {a b : UInt64} (next : a + 1 = b) (pos : b ≠ 0) : a.toNat + 1 = b.toNat := by
  have one : (1 : UInt64).toNat = 1 := rfl
  have bound := a.toNat_lt
  subst next
  rw [UInt64.toNat_add, one]
  rw [ne_eq, ← UInt64.toNat_inj, UInt64.toNat_add, one] at pos
  have zero : (0 : UInt64).toNat = 0 := rfl
  omega

theorem Coherent.twoKeys (coherent : Coherent consensus s) (alloc : p < s.next)
    (verified : (s.mem p).verified = true) (valid : (s.mem p).invalid = false)
    (shallow : (s.mem p).depth < consensus.chainWindowSize)
    (high : pruneDistance consensus ≤ (s.mem p).side.height) :
    TwoKeysFrom s ((s.mem p).side.height.toNat - 1) := by
  have two : 2 ≤ (pruneDistance consensus).toNat := two_le_pruneDistance
  rw [UInt64.le_iff_toNat_le] at high
  have pos : (s.mem p).side.height ≠ 0 := by
    intro zero
    rw [zero] at high
    have : (0 : UInt64).toNat = 0 := rfl
    omega
  by_cases stored : s.Stored consensus p
  · obtain ⟨q, allocQ, next⟩ := coherent.based p alloc verified valid pos shallow
    have below := height_pred next pos
    by_cases storedQ : s.Stored consensus q
    · refine ⟨_, coherent.indexed.mem_keys stored, _, coherent.indexed.mem_keys storedQ, ?_, ?_, ?_⟩
      · intro same
        rw [same] at below
        omega
      · omega
      · omega
    · exact (coherent.above q allocQ storedQ).mono (by omega)
  · exact (coherent.above p alloc stored).mono (by omega)

/-! ## A pass of pruning -/

theorem sortKeys_ordered (coherent : Coherent consensus s) :
    s.sortKeys.blocksByHeightKeys.Pairwise (· < ·) := by
  rw [sortKeys_keys]
  split_ifs with sorted
  · exact coherent.ordered sorted
  · have once : (s.blocksByHeightKeys.insertionSort (· ≤ ·)).Nodup :=
      (List.perm_insertionSort _ _).nodup_iff.mpr coherent.indexed.keysOnce
    refine ((List.pairwise_insertionSort (· ≤ ·) s.blocksByHeightKeys).and once).imp ?_
    rintro a b ⟨le, ne⟩
    exact UInt64.lt_of_le_of_ne le ne

theorem visitedHeights_isSome (coherent : Coherent consensus s) (server : Server) (h : UInt64)
    (two : TwoKeysFrom s (h.toNat + 1)) : (visitedHeights consensus server h s).isSome = true := by
  obtain ⟨k, hk, l, hl, other, fromK, fromL⟩ := two
  rw [← (sortKeys_perm s).mem_iff] at hk hl
  have ends : EndsWith (fun k => decide (k > h) = true) s.sortKeys.blocksByHeightKeys := by
    refine endsWith_of_pairwise (fun x y above less => ?_) (sortKeys_ordered coherent) hk hl other ?_ ?_
    · rw [decide_eq_true_eq] at above ⊢
      exact UInt64.lt_trans above less
    · rw [decide_eq_true_eq, gt_iff_lt, UInt64.lt_iff_toNat_lt]
      omega
    · rw [decide_eq_true_eq, gt_iff_lt, UInt64.lt_iff_toNat_lt]
      omega
  refine rangeDelete_isSome _ 0 ends ?_
  have := ends.two_le
  omega

theorem mem_keys_of_visited {h : UInt64} {visited keys : List UInt64} (indexed : Indexed consensus s)
    (visits : visitedHeights consensus server h s = some (visited, keys)) {k : UInt64}
    (mem : k ∈ s.blocksByHeightKeys) (above : h < k) : k ∈ keys := by
  have once : s.sortKeys.blocksByHeightKeys.Nodup := (sortKeys_perm s).nodup_iff.mpr indexed.keysOnce
  rw [mem_rangeDelete_left once visits, (sortKeys_perm s).mem_iff]
  refine ⟨mem, fun ⟨seen, _⟩ => ?_⟩
  have low := rangeDelete_visited_stop visits k seen
  rw [decide_eq_false_iff_not] at low
  exact low above

theorem coherent_pruneOldBlocks (coherent : Coherent consensus s) {tip : Ptr} (isTip : s.chainTip = some tip)
    (two : pruneDistance consensus ≤ (s.mem tip).side.height →
      TwoKeysFrom s ((s.mem tip).side.height.toNat - 1)) (server : Server) :
    ∃ t, pruneOldBlocks consensus server s = .ok t ∧ Coherent consensus t := by
  have distance : 2 ≤ (pruneDistance consensus).toNat := two_le_pruneDistance
  by_cases high : pruneDistance consensus ≤ (s.mem tip).side.height
  · replace two := two high
    generalize prune : (s.mem tip).side.height - pruneDistance consensus = h
    have height : (s.mem tip).side.height.toNat = h.toNat + (pruneDistance consensus).toNat := by
      rw [← prune, UInt64.toNat_sub_of_le _ _ high]
      rw [UInt64.le_iff_toNat_le] at high
      omega
    have some' := visitedHeights_isSome coherent server h (two.mono (by omega))
    have pass := pruneOldBlocks_spec server coherent.indexed isTip high
    rw [prune] at pass
    cases visits : visitedHeights consensus server h s with
    | none =>
      rw [visits] at some'
      cases some'
    | some r =>
      obtain ⟨visited, keys⟩ := r
      rw [visits] at pass
      obtain ⟨t, run, indexed, pruned, same, sorted⟩ := pass
      have stays : ∀ n, h.toNat < n → TwoKeysFrom s n → TwoKeysFrom t n := by
        rintro n above ⟨k, hk, l, hl, other, fromK, fromL⟩
        have kept : ∀ k ∈ s.blocksByHeightKeys, n ≤ k.toNat → k ∈ t.blocksByHeightKeys := by
          intro k hk fromK
          rw [same]
          refine mem_keys_of_visited coherent.indexed visits hk ?_
          rw [UInt64.lt_iff_toNat_lt]
          omega
        exact ⟨k, kept k hk fromK, l, kept l hl fromL, other, fromK, fromL⟩
      have top := stays _ (by omega) two
      refine ⟨t, run, indexed, fun _ => ?_, ?_, fun p alloc verified valid pos shallow => ?_,
        fun p alloc gone => ?_⟩
      · rw [same]
        exact (sortKeys_ordered coherent).sublist (rangeDelete_sublist visits)
      · rw [pruned.events]
        exact coherent.consistent
      · rw [pruned.evolves.next] at alloc ⊢
        rw [pruned.keeps (g := PoolBlock.verified) (fun _ => rfl)] at verified
        rw [pruned.keeps (g := PoolBlock.invalid) (fun _ => rfl)] at valid
        rw [pruned.keeps (g := PoolBlock.depth) (fun _ => rfl)] at shallow
        simp only [pruned.evolves.side] at pos ⊢
        exact coherent.based p alloc verified valid pos shallow
      · rw [pruned.evolves.next] at alloc
        rw [pruned.stored_iff, not_and, not_not] at gone
        rw [pruned.evolves.side]
        by_cases stored : s.Stored consensus p
        · -- pruned in this pass, at a height that was visited
          have low := rangeDelete_visited_stop visits _ (gone stored).2.1
          rw [decide_eq_false_iff_not, gt_iff_lt, UInt64.lt_iff_toNat_lt] at low
          exact top.mono (by omega)
        · have before := coherent.above p alloc stored
          by_cases above : h.toNat < (s.mem p).side.height.toNat + (pruneDistance consensus).toNat - 1
          · exact stays _ above before
          · exact top.mono (by omega)
  · refine ⟨s, ?_, coherent⟩
    unfold pruneOldBlocks
    rw [isTip]
    dsimp only
    rw [if_pos (UInt64.not_le.mp high)]

/-! ## The steps of a call -/

def verdict (b : PoolBlock) : Bool × Bool := (b.verified, b.invalid)

theorem ChainStep.verdict_cases (step : ChainStep consensus server N s s')
    (p : Ptr) : verdict (s'.mem p) = verdict (s.mem p) ∨ verdict (s'.mem p) = (true, true) ∨
      verdict (s'.mem p) = (false, false) ∨
      ∃ fuel, verifyBlock consensus (s.context server) fuel p = .ok () := by
  have judged : ∀ (block : Ptr) (f : PoolBlock → PoolBlock), p ≠ block →
      verdict ((s.modify block f).mem p) = verdict (s.mem p) :=
    fun block f other => by rw [modify_mem_ne s f other]
  cases step with
  | depth q d =>
    left
    unfold updateDepth
    split_ifs
    · exact modify_keeps rfl p
    · rfl
  | @reject block =>
    by_cases here : p = block
    · subst here
      exact .inr (.inl (congrArg verdict (modify_mem_self s p _)))
    · exact .inl (judged block _ here)
  | @postpone block =>
    by_cases here : p = block
    · subst here
      exact .inr (.inr (.inl (congrArg verdict (modify_mem_self s p _))))
    · exact .inl (judged block _ here)
  | @accept block fuel _ _ _ accepted =>
    by_cases here : p = block
    · subst here
      exact .inr (.inr (.inr ⟨fuel, accepted⟩))
    · obtain ⟨indices, eq⟩ := s.markVerified_eq block
      rw [eq]
      exact .inl (judged block _ here)
  | broadcast q send =>
    left
    have marked : verdict ((s.modify q fun b => { b with broadcasted := true }).mem p) = _ :=
      modify_keeps rfl p
    unfold broadcastOnce
    split_ifs
    · exact marked
    · exact marked
    · rfl
  | store q => exact .inl rfl
  | syncTip q =>
    left
    unfold updateSyncTip
    split_ifs <;> rfl
  | adopt adopts pruned =>
    exact .inl (adoptTip_keeps (fun _ => rfl) (fun _ _ => rfl) pruned p)

theorem chainWindowSize_le_deepBlockDepth : consensus.chainWindowSize ≤ deepBlockDepth consensus := by
  obtain ⟨low, high⟩ := consensus.chainWindowSize_bounds
  unfold deepBlockDepth uncleBlockDepth
  grind

theorem parent_of_verifyBlock {fuel : Nat} (wf : Wf N s)
    (accepted : verifyBlock consensus (s.context server) fuel p = .ok ())
    (pos : (s.mem p).side.height ≠ 0) (shallow : (s.mem p).depth < consensus.chainWindowSize) :
    ∃ q, q < s.next ∧ (s.mem q).side.height + 1 = (s.mem p).side.height := by
  have notDeep : ¬ (s.mem p).depth > deepBlockDepth consensus :=
    UInt64.not_lt.mpr (UInt64.le_trans (UInt64.le_of_lt shallow) chainWindowSize_le_deepBlockDepth)
  obtain ⟨-, q, parent, links, -⟩ :=
    (verifyBlock_regular consensus (s.context server) () pos notDeep).mp accepted
  obtain ⟨-, -, -, height, -⟩ := (checkLinks_eq_ok consensus _ fuel _ q ()).mp links
  exact ⟨q, wf.iteratorGetParent parent, height⟩

theorem based_step (wf : Wf N s) (coherent : Coherent consensus s)
    (step : ChainStep consensus server N s s') (alloc : p < s'.next)
    (verified : (s'.mem p).verified = true) (valid : (s'.mem p).invalid = false)
    (pos : (s'.mem p).side.height ≠ 0) (shallow : (s'.mem p).depth < consensus.chainWindowSize) :
    ∃ q, q < s'.next ∧ (s'.mem q).side.height + 1 = (s'.mem p).side.height := by
  have evolves := step.evolves
  rw [evolves.next] at alloc ⊢
  simp only [evolves.side] at pos ⊢
  have young := UInt64.lt_of_le_of_lt (evolves.depth p) shallow
  have now : verdict (s'.mem p) = (true, false) := Prod.ext verified valid
  rcases step.verdict_cases p with same | rejected | postponed | ⟨fuel, accepted⟩
  · rw [now] at same
    exact coherent.based p alloc (congrArg Prod.fst same).symm (congrArg Prod.snd same).symm pos young
  · exact absurd (now.symm.trans rejected) (by decide)
  · exact absurd (now.symm.trans postponed) (by decide)
  · exact parent_of_verifyBlock wf accepted pos young

theorem coherent_quiet (wf : Wf N s) (coherent : Coherent consensus s)
    (step : ChainStep consensus server N s s') (quiet : Quiet s s') : Coherent consensus s' where
  indexed := coherent.indexed.quiet step.evolves quiet
  ordered sorted := by
    rw [quiet.keys]
    exact coherent.ordered (quiet.sorted ▸ sorted)
  consistent k id mem := coherent.consistent k id (quiet.reports k id mem)
  based p := based_step wf coherent step
  above p alloc gone := by
    rw [step.evolves.next] at alloc
    rw [Stored, step.evolves.templateId consensus, quiet.lookup] at gone
    rw [step.evolves.side, TwoKeysFrom, quiet.keys]
    exact coherent.above p alloc gone

theorem coherent_withTip (coherent : Coherent consensus s) (block : Ptr) (diff : Difficulty)
    (isAlternative : Bool) : Coherent consensus (s.withTip block diff isAlternative) := by
  have evolves := evolves_withTip s block diff isAlternative
  have keeps : ∀ {α : Type} (g : PoolBlock → α), (∀ (b : PoolBlock) w, g { b with wantBroadcast := w } = g b) →
      ∀ p, g ((s.withTip block diff isAlternative).mem p) = g (s.mem p) := by
    intro α g wanted p
    obtain ⟨w, same⟩ := s.withTip_mem block diff isAlternative p
    rw [same, wanted]
  refine ⟨indexed_withTip s block diff isAlternative coherent.indexed, fun sorted => ?_,
    fun k id mem => ?_, fun p alloc verified valid pos shallow => ?_, fun p alloc gone => ?_⟩
  · rw [withTip_frame] at sorted ⊢
    exact coherent.ordered sorted
  · rw [withTip_frame] at mem
    rcases List.mem_append.mp mem with old | new
    · exact coherent.consistent k id old
    · cases List.mem_singleton.mp new
  · rw [evolves.next] at alloc ⊢
    rw [keeps PoolBlock.verified (fun _ _ => rfl)] at verified
    rw [keeps PoolBlock.invalid (fun _ _ => rfl)] at valid
    rw [keeps PoolBlock.depth (fun _ _ => rfl)] at shallow
    simp only [evolves.side] at pos ⊢
    exact coherent.based p alloc verified valid pos shallow
  · have twoKeys := coherent.above p (evolves.next ▸ alloc) (by
      rw [Stored, evolves.templateId consensus] at gone
      rwa [withTip_frame] at gone)
    rw [evolves.side, TwoKeysFrom]
    rw [withTip_frame]
    exact twoKeys

theorem coherent_adoptTip {block : Ptr} {diff : Difficulty} {isAlternative : Bool}
    (coherent : Coherent consensus s) (adopts : Adopts consensus server N s block diff isAlternative) :
    ∃ t, adoptTip consensus server s block diff isAlternative = .ok t ∧ Coherent consensus t := by
  have isTip : (s.withTip block diff isAlternative).chainTip = some block := by
    rw [withTip_frame]
  rw [adoptTip_eq]
  refine coherent_pruneOldBlocks (coherent_withTip coherent block diff isAlternative) isTip
    (fun high => ?_) server
  rw [(evolves_withTip s block diff isAlternative).side] at high ⊢
  have two := coherent.twoKeys adopts.alloc adopts.verified adopts.valid adopts.shallow high
  rw [TwoKeysFrom, withTip_frame]
  exact two

theorem coherent_step (wf : Wf N s) (coherent : Coherent consensus s)
    (step : ChainStep consensus server N s s') : Coherent consensus s' := by
  rcases step.quiet_or_adopts with quiet | ⟨block, diff, isAlternative, adopts, run⟩
  · exact coherent_quiet wf coherent step quiet
  · obtain ⟨t, run', coherent'⟩ := coherent_adoptTip coherent adopts
    rw [run] at run'
    cases run'
    exact coherent'

theorem not_stuck (coherent : Coherent consensus s) (message : String) :
    ¬ Stuck consensus server N s message := by
  rintro ⟨block, diff, isAlternative, adopts, fails⟩
  obtain ⟨t, run, -⟩ := coherent_adoptTip coherent adopts
  rw [run] at fails
  cases fails

/-! ## Insertion -/

variable {b : PoolBlock}

/-- The new height is taken to follow the last key although the sum has wrapped around. -/
def KeysWrap (s : SideChain) (b : PoolBlock) : Prop :=
  s.blocksByHeightKeysSorted = true ∧ s.blocksByHeightKeys.getLast? = some (0 - 1) ∧
    b.side.height = 0 ∧ s.blocksByHeight 0 = none

theorem insertBlock_inconsistent (k : UInt64) (id : Hash)
    (mem : .inconsistent k id ∈ (s.insertBlock consensus b).events) : .inconsistent k id ∈ s.events := by
  unfold insertBlock at mem
  dsimp only at mem
  split_ifs at mem <;> split at mem <;> simpa [emit] using mem

theorem ordered_insertBlock
    (ordered : s.blocksByHeightKeysSorted = true → s.blocksByHeightKeys.Pairwise (· < ·))
    (noWrap : ¬ KeysWrap s b) (sorted : (s.insertBlock consensus b).blocksByHeightKeysSorted = true) :
    (s.insertBlock consensus b).blocksByHeightKeys.Pairwise (· < ·) := by
  rw [insertBlock_blocksByHeightKeysSorted] at sorted
  rw [insertBlock_blocksByHeightKeys]
  split_ifs at sorted ⊢ with used
  · exact ordered sorted
  · rw [Bool.and_eq_true] at sorted
    obtain ⟨flag, follows⟩ := sorted
    rcases List.eq_nil_or_concat' s.blocksByHeightKeys with none | ⟨front, last, keys⟩
    · rw [none] at follows
      cases follows
    · have next : last + 1 = b.side.height := by simpa [keys] using follows
      -- the sum does not wrap, so the new key is above the last one
      have above : last < b.side.height := by
        have noTop : last ≠ 0 - 1 := by
          rintro rfl
          refine noWrap ⟨flag, by rw [keys, List.getLast?_concat], next.symm, ?_⟩
          have zero : (0 - 1 + 1 : UInt64) = 0 := rfl
          rw [zero] at next
          rw [next]
          simpa using used
        rw [← next]
        grind
      have before := ordered flag
      rw [keys] at before ⊢
      rw [List.pairwise_append] at before ⊢
      refine ⟨List.pairwise_append.mpr before, List.pairwise_singleton _ _, fun k mem l new => ?_⟩
      rw [List.mem_singleton.mp new]
      rcases List.mem_append.mp mem with early | isLast
      · exact UInt64.lt_trans (before.2.2 k early last (List.mem_singleton_self last)) above
      · exact List.mem_singleton.mp isLast ▸ above

theorem coherent_insertBlock (wf : Wf s.next s) (coherent : Coherent consensus s) (decoded : b.Decoded)
    (noWrap : ¬ KeysWrap s b) (fresh : s.blocksByTemplateId (b.sideTemplateId consensus) = none) :
    Coherent consensus (s.insertBlock consensus b) where
  indexed := indexed_insertBlock wf coherent.indexed fresh
  ordered := ordered_insertBlock coherent.ordered noWrap
  consistent k id mem := coherent.consistent k id (insertBlock_inconsistent k id mem)
  based p alloc verified valid pos shallow := by
    rw [insertBlock_next] at alloc ⊢
    rcases Nat.lt_succ_iff_lt_or_eq.mp alloc with old | rfl
    · rw [insertBlock_mem_of_lt old] at verified valid pos shallow ⊢
      obtain ⟨q, allocQ, next⟩ := coherent.based p old verified valid pos shallow
      refine ⟨q, Nat.lt_succ_of_lt allocQ, ?_⟩
      rwa [insertBlock_mem_of_lt allocQ]
    · rw [insertBlock_mem_self, decoded.verified] at verified
      cases verified
  above p alloc gone := by
    rw [insertBlock_next] at alloc
    rcases Nat.lt_succ_iff_lt_or_eq.mp alloc with old | rfl
    · have goneBefore : ¬ s.Stored consensus p := by
        intro stored
        rw [Stored, templateId_insertBlock_of_lt old] at gone
        exact gone (lookup_insertBlock_of_some fresh stored)
      obtain ⟨k, hk, l, hl, rest⟩ := coherent.above p old goneBefore
      have grows : ∀ k ∈ s.blocksByHeightKeys, k ∈ (s.insertBlock consensus b).blocksByHeightKeys := by
        intro k mem
        rw [insertBlock_blocksByHeightKeys]
        split_ifs
        · exact mem
        · exact List.mem_append_left _ mem
      rw [insertBlock_mem_of_lt old]
      exact ⟨k, grows k hk, l, grows l hl, rest⟩
    · exact absurd stored_insertBlock_self gone

theorem coherent_newSideChain : Coherent consensus (newSideChain consensus) where
  indexed := indexed_newSideChain
  ordered := nofun
  consistent _ _ := nofun
  based _ alloc := absurd alloc (Nat.not_lt_zero _)
  above _ alloc := absurd alloc (Nat.not_lt_zero _)

variable (consensus) in
def NoKeysWrap (s : SideChain) (b : PoolBlock) : Prop := Enters consensus s b → ¬ KeysWrap s b

theorem coherent_reachable (reachable : ReachableWhen consensus (NoKeysWrap consensus) s) :
    Coherent consensus s :=
  reachable.inv coherent_newSideChain
    (fun _ _ wf coherent decoded noWrap enters =>
      coherent_insertBlock wf coherent decoded (noWrap enters) enters.fresh)
    (fun _ _ _ _ wf coherent step => coherent_step wf coherent step)

theorem addPoolBlock_ne_panic (wf : Wf s.next s) (coherent : Coherent consensus s) (decoded : b.Decoded)
    (noWrap : NoKeysWrap consensus s b) (server : Server) (fuel : Nat) (message : String) :
    addPoolBlock consensus server fuel s b ≠ .error (.panic message) := by
  intro panics
  have call : (∃ err, addPoolBlock consensus server fuel s b = .ok (s, err)) ∨ _ ∧ _ :=
    addPoolBlock_cases wf decoded
  rw [panics] at call
  rcases call with ⟨err, returns⟩ | ⟨enters, u, reach, stuck⟩
  · cases returns
  · have start : Wf s.next (s.insertBlock consensus b) ∧ Coherent consensus (s.insertBlock consensus b) :=
      ⟨wf_insertBlock wf decoded, coherent_insertBlock wf coherent decoded (noWrap enters) enters.fresh⟩
    have keep : ∀ u u', Wf s.next u ∧ Coherent consensus u → ChainStep consensus server s.next u u' →
        Wf s.next u' ∧ Coherent consensus u' :=
      fun u u' inv one => ⟨inv.1.evolves one.evolves, coherent_step inv.1 inv.2 one⟩
    exact not_stuck (reaches_inv keep start reach).2 message stuck

theorem addPoolBlock_stored {id : Hash} (named : b.sideTemplateId consensus = id)
    (stored : (s.blocksByTemplateId id).isSome = true) (server : Server) (fuel : Nat) :
    addPoolBlock consensus server fuel s b = .ok (s, none) := by
  unfold addPoolBlock
  rw [named, if_pos stored]

/-- In every run whose calls do not wrap the keys around: the indexes agree, the keys are
in order whenever the flag says so, a stored id is not added again, no broken index is
reported, and no further such call panics. -/
theorem store_coherent (reachable : ReachableWhen consensus (NoKeysWrap consensus) s) :
    Indexed consensus s ∧
    (∀ p, s.Stored consensus p ↔ (s.getPoolBlocksByHeight (s.mem p).side.height).count p = 1) ∧
    (s.blocksByHeightKeysSorted = true → s.blocksByHeightKeys.Pairwise (· < ·)) ∧
    (∀ server fuel (b : PoolBlock), (s.blocksByTemplateId (b.sideTemplateId consensus)).isSome = true →
      addPoolBlock consensus server fuel s b = .ok (s, none)) ∧
    (∀ k id, .inconsistent k id ∉ s.events) ∧
    (∀ server fuel (b : PoolBlock), b.Decoded → NoKeysWrap consensus s b → ∀ message,
      addPoolBlock consensus server fuel s b ≠ .error (.panic message)) := by
  have coherent := coherent_reachable reachable
  refine ⟨coherent.indexed, fun p => ?_, coherent.ordered, fun server fuel b stored => ?_,
    coherent.consistent, fun server fuel b decoded noWrap => ?_⟩
  · have listed := coherent.indexed.mem_iff (s.mem p).side.height p
    rw [(coherent.indexed.once _).count]
    simp only [and_true] at listed
    simp [listed]
  · exact addPoolBlock_stored rfl stored server fuel
  · exact addPoolBlock_ne_panic reachable.wf coherent decoded noWrap server fuel

end Coherence

namespace LadderExample

open LongChain (crypto)

/-- The smallest window, and a share version at which few shares are paid. -/
def consensus : Consensus :=
  { consensusMini with
    targetBlockTime := 120
    chainWindowSize := 60
    hardForks := p2poolStageNetHardForks
    hardForks_ne_nil := by decide
    targetBlockTime_bounds := by decide
    chainWindowSize_bounds := by decide }

def templateIdAt (timestamp : Nat) : Hash := BitVec.ofNat 256 (timestamp + 1)

def block (timestamp : Nat) (height : UInt64) (parent : Hash) (uncles : List Hash)
    (difficulty cumulativeDifficulty : UInt64) : PoolBlock :=
  { (default : PoolBlock) with
    main := { (default : MainBlock) with
      timestamp := UInt64.ofNat timestamp
      coinbase := { (default : CoinbaseTransaction) with
        outputs := [{ (default : Output) with type := txOutToKey }] } }
    side := { (default : SideData) with
      parent := parent
      uncles := uncles
      height := height
      difficulty := .difficultyFrom64 difficulty
      cumulativeDifficulty := .difficultyFrom64 cumulativeDifficulty }
    cachedShareVersion := shareVersionV2 }

def missing : Hash := 999

/-- Each rung has the one below as an uncle.  They are never verified; they only make the
block below all of them deep.  The second uncle keeps the depth of a later block at zero. -/
def rung (k : Nat) : PoolBlock :=
  block (10 + k) (UInt64.ofNat (124 + 3 * k)) missing
    (if k = 0 then [templateIdAt 2, templateIdAt 4]
      else if k = 1 then [templateIdAt 10, templateIdAt 8]
      else [templateIdAt (9 + k)]) 1 1

def highest : PoolBlock := block 1 (0 - 1) missing [] 1 1
def deep : PoolBlock := block 2 122 (templateIdAt 3) [] 100000 100000
def bottom : PoolBlock := block 3 0 missing [] 100000 100000
def tip : PoolBlock := block 4 123 (templateIdAt 2) [] 100000 200000
def second : PoolBlock := block 5 1 missing [] 1 1
def third : PoolBlock := block 6 2 missing [] 1 1
def taller : PoolBlock := block 8 124 (templateIdAt 4) [] 6000000 6200000
def again : PoolBlock := block 7 0 missing [] 1 1

def serverAt (now : UInt64) : Server where
  getDifficultyByHeight _ := ⟨1, 0⟩
  getChainMainTip := none
  getChainMainByHash _ := none
  now := now

def early : Server := serverAt 0
def late : Server := serverAt 1000000

def addAll (server : Server) : SideChain → List PoolBlock → Except Fault SideChain
  | s, [] => .ok s
  | s, b :: rest =>
    match @addPoolBlock .exact crypto consensus server 60 s b with
    | .error fault => .error fault
    | .ok (t, _) => addAll server t rest

theorem reachableWhen_addAll {Allowed : SideChain → PoolBlock → Prop} {server : Server} :
    ∀ {bs : List PoolBlock} {s t : SideChain}, @ReachableWhen .exact crypto consensus Allowed s →
      (∀ b ∈ bs, b.Decoded ∧ ∀ u, Allowed u b) → addAll server s bs = .ok t →
        @ReachableWhen .exact crypto consensus Allowed t
  | [], s, t, reachable, _, run => by
    cases run
    exact reachable
  | b :: rest, s, t, reachable, each, run => by
    unfold addAll at run
    split at run
    · cases run
    · rename_i u err call
      obtain ⟨decoded, allowed⟩ := each b (.head _)
      exact reachableWhen_addAll
        (@ReachableWhen.add .exact crypto _ _ _ _ _ _ _ _ reachable decoded (allowed s) call)
        (fun b' mem => each b' (.tail b mem)) run

theorem reachable_addAll {server : Server} {bs : List PoolBlock} {s t : SideChain}
    (reachable : @Reachable .exact crypto consensus s) (decoded : ∀ b ∈ bs, b.Decoded)
    (run : addAll server s bs = .ok t) : @Reachable .exact crypto consensus t :=
  reachableWhen_addAll reachable (fun b mem => ⟨decoded b mem, fun _ => trivial⟩) run

theorem decoded_block (timestamp : Nat) (height : UInt64) (parent : Hash) (uncles : List Hash)
    (difficulty cumulativeDifficulty : UInt64) :
    (block timestamp height parent uncles difficulty cumulativeDifficulty).Decoded :=
  ⟨rfl, rfl, rfl, rfl⟩

def ladder : List PoolBlock :=
  (List.range 41).reverse.map rung ++ [deep, highest, bottom, second, third, rung 41, tip]

/-- What is seen where the run up to the first tip leads, and where the run goes on to. -/
def observed : Except Fault SideChain → Bool
  | .error _ => false
  | .ok s =>
    decide (s.chainTip = some 47) &&
    decide (pruneDistance consensus ≤ (s.mem 47).side.height) &&
    decide (@Stored crypto consensus s 44) &&
    decide ((s.mem 44).side.height ≤ (s.mem 47).side.height - pruneDistance consensus) &&
    prunable consensus late (s.mem 44) &&
    (match @pruneOldBlocks crypto consensus late s with
      | .error _ => false
      | .ok t => decide (@Stored crypto consensus t 44)) &&
    match addAll late s [taller, again] with
    | .error _ => false
    | .ok t => t.blocksByHeightKeysSorted && !decide (t.blocksByHeightKeys.Pairwise (· < ·))

set_option maxRecDepth 100000 in
theorem observed_ladder : observed (addAll early (newSideChain consensus) ladder) = true := by
  decide +kernel

theorem decoded_ladder {b : PoolBlock} (mem : b ∈ ladder) : b.Decoded := by
  rcases List.mem_append.mp mem with isRung | isOther
  · obtain ⟨k, -, rfl⟩ := List.mem_map.mp isRung
    exact decoded_block _ _ _ _ _ _
  · simp only [List.mem_cons, List.not_mem_nil, or_false] at isOther
    rcases isOther with rfl | rfl | rfl | rfl | rfl | rfl | rfl <;> exact decoded_block _ _ _ _ _ _

theorem reachable_ladder {s : SideChain} (run : addAll early (newSideChain consensus) ladder = .ok s) :
    @Reachable .exact crypto consensus s :=
  reachable_addAll (@ReachableWhen.new .exact crypto consensus _) (fun _ => decoded_ladder) run

theorem of_observed {run : Except Fault SideChain} (seen : observed run = true) : ∃ s, run = .ok s ∧
    s.chainTip = some 47 ∧ pruneDistance consensus ≤ (s.mem 47).side.height ∧ @Stored crypto consensus s 44 ∧
    (s.mem 44).side.height ≤ (s.mem 47).side.height - pruneDistance consensus ∧
    prunable consensus late (s.mem 44) = true ∧
    (∃ t, @pruneOldBlocks crypto consensus late s = .ok t ∧ @Stored crypto consensus t 44) ∧
    ∃ t, addAll late s [taller, again] = .ok t ∧ t.blocksByHeightKeysSorted = true ∧
      ¬ t.blocksByHeightKeys.Pairwise (· < ·) := by
  cases run with
  | error fault => cases seen
  | ok s =>
    simp only [observed, Bool.and_eq_true, decide_eq_true_eq] at seen
    obtain ⟨⟨⟨⟨⟨⟨isTip, high⟩, stored⟩, low⟩, old⟩, pass⟩, onward⟩ := seen
    refine ⟨s, rfl, isTip, high, stored, low, old, ?_, ?_⟩
    · split at pass
      · cases pass
      · rename_i t run
        exact ⟨t, run, by simpa using pass⟩
    · split at onward
      · cases onward
      · rename_i t run
        simp only [Bool.and_eq_true, Bool.not_eq_true', decide_eq_false_iff_not] at onward
        exact ⟨t, run, onward.1, onward.2⟩

end LadderExample

open LongChain (crypto)
open LadderExample (consensus late)

/-- A run after which the keys count as sorted but end with the largest height and zero. -/
theorem keys_out_of_order : ∃ s, @Reachable .exact crypto consensus s ∧
    s.blocksByHeightKeysSorted = true ∧ ¬ s.blocksByHeightKeys.Pairwise (· < ·) := by
  obtain ⟨s, run, -, -, -, -, -, -, t, more, sorted, unordered⟩ :=
    LadderExample.of_observed LadderExample.observed_ladder
  refine ⟨t, ?_, sorted, unordered⟩
  refine LadderExample.reachable_addAll (LadderExample.reachable_ladder run) (fun b mem => ?_) more
  simp only [List.mem_cons, List.not_mem_nil, or_false] at mem
  rcases mem with rfl | rfl <;> exact LadderExample.decoded_block _ _ _ _ _ _

open LadderExample in
/-- The run up to the largest height, before the block that wraps the keys around. -/
theorem store_coherent_ladder : ∃ s, addAll early (newSideChain consensus) (ladder.take 43) = .ok s ∧
    s.blocksByHeightKeys.length = 43 ∧ @Indexed crypto consensus s ∧
    (s.blocksByHeightKeysSorted = true → s.blocksByHeightKeys.Pairwise (· < ·)) ∧
    ∀ k id, .inconsistent k id ∉ s.events := by
  have seen : (match addAll early (newSideChain consensus) (ladder.take 43) with
    | .error _ => false
    | .ok s => decide (s.blocksByHeightKeys.length = 43)) = true := by decide +kernel
  have high : ∀ b ∈ ladder.take 43, b.side.height ≠ 0 := by decide +kernel
  split at seen
  · cases seen
  · rename_i s run
    have reachable := reachableWhen_addAll (@ReachableWhen.new .exact crypto consensus
      (@NoKeysWrap crypto consensus)) (fun b mem => ⟨decoded_ladder (List.mem_of_mem_take mem),
        fun _ _ wrap => high b mem wrap.2.2.1⟩) run
    obtain ⟨indexed, -, ordered, -, consistent, -⟩ := @store_coherent .exact crypto _ _ reachable
    exact ⟨s, run, of_decide_eq_true seen, indexed, ordered, consistent⟩

section Exact

variable [Uint128Package] [Crypto] {consensus : Consensus} {s : SideChain}

/-! ## Exactness of pruning -/

variable (consensus) in
def Due (server : Server) (h : UInt64) (b : PoolBlock) : Prop :=
  b.side.height ≤ h ∧ prunable consensus server b = true

/-- A pass removes exactly the blocks that are due if and only if every one of them is at
a height that the loop over the keys visits: it passes over the key that follows an
emptied one. -/
theorem pruneOldBlocks_exact_iff (reachable : Reachable consensus s) {tip : Ptr}
    (isTip : s.chainTip = some tip) (high : pruneDistance consensus ≤ (s.mem tip).side.height)
    (server : Server) :
    (∃ t, pruneOldBlocks consensus server s = .ok t ∧
      (∀ p, t.Stored consensus p ↔ s.Stored consensus p ∧
        ¬ Due consensus server ((s.mem tip).side.height - pruneDistance consensus) (s.mem p)) ∧
      ∀ p, t.Stored consensus p →
        ¬ Due consensus server ((s.mem tip).side.height - pruneDistance consensus) (t.mem p)) ↔
    ∃ visited keys, visitedHeights consensus server
        ((s.mem tip).side.height - pruneDistance consensus) s = some (visited, keys) ∧
      ∀ p, s.Stored consensus p →
        Due consensus server ((s.mem tip).side.height - pruneDistance consensus) (s.mem p) →
          (s.mem p).side.height ∈ visited := by
  have pass := pruneOldBlocks_spec server (indexed_reachable reachable) isTip high
  generalize (s.mem tip).side.height - pruneDistance consensus = h at pass ⊢
  cases visits : visitedHeights consensus server h s with
  | none =>
    rw [visits] at pass
    constructor
    · rintro ⟨t, run, -⟩
      exact absurd (run.symm.trans pass) nofun
    · rintro ⟨visited, keys, none, -⟩
      cases none
  | some r =>
    obtain ⟨visited, keys⟩ := r
    rw [visits] at pass
    obtain ⟨t, run, -, pruned, -, -⟩ := pass
    have low : ∀ k ∈ visited, k ≤ h := by
      intro k seen
      have := rangeDelete_visited_stop visits k seen
      rw [decide_eq_false_iff_not] at this
      exact UInt64.not_lt.mp this
    constructor
    · rintro ⟨t', run', exact', -⟩
      rw [run] at run'
      cases run'
      refine ⟨visited, keys, rfl, fun p stored due => ?_⟩
      by_contra missed
      have kept : t.Stored consensus p :=
        (pruned.stored_iff p).mpr ⟨stored, fun gone => missed gone.2.1⟩
      exact ((exact' p).mp kept).2 due
    · rintro ⟨visited', keys', same, all⟩
      cases same
      have exact' : ∀ p, t.Stored consensus p ↔
          s.Stored consensus p ∧ ¬ Due consensus server h (s.mem p) := by
        intro p
        rw [pruned.stored_iff]
        refine and_congr_right fun stored => not_congr ⟨fun gone => ?_, fun due => ?_⟩
        · exact ⟨low _ gone.2.1, gone.2.2⟩
        · exact ⟨stored, all p stored due, due.2⟩
      refine ⟨t, run, exact', fun p kept due => ((exact' p).mp kept).2 ?_⟩
      rw [Due, pruned.prunable_eq, pruned.evolves.side] at due
      exact due

end Exact

/-- A reachable state and a time at which a pass leaves a block that is due. -/
theorem pruneOldBlocks_skips : ∃ (s t : SideChain) (tip p : Ptr),
    @Reachable .exact crypto consensus s ∧ s.chainTip = some tip ∧
    pruneDistance consensus ≤ (s.mem tip).side.height ∧
    @Stored crypto consensus s p ∧
    Due consensus late
      ((s.mem tip).side.height - pruneDistance consensus) (s.mem p) ∧
    @pruneOldBlocks crypto consensus late s = .ok t ∧
    @Stored crypto consensus t p := by
  obtain ⟨s, run, isTip, high, stored, low, old, ⟨t, pass, kept⟩, -⟩ :=
    LadderExample.of_observed LadderExample.observed_ladder
  exact ⟨s, t, 47, 44, LadderExample.reachable_ladder run, isTip, high, stored, ⟨low, old⟩, pass, kept⟩

theorem pruneOldBlocks_exact_iff_ladder : ∃ s : SideChain,
    @Reachable .exact crypto consensus s ∧ s.chainTip = some 47 ∧
    pruneDistance consensus ≤ (s.mem 47).side.height ∧
    ¬ ∃ visited keys, visitedHeights consensus late
        ((s.mem 47).side.height - pruneDistance consensus) s = some (visited, keys) ∧
      ∀ p, @Stored crypto consensus s p →
        Due consensus late
          ((s.mem 47).side.height - pruneDistance consensus) (s.mem p) →
            (s.mem p).side.height ∈ visited := by
  obtain ⟨s, run, isTip, high, stored, low, old, ⟨t, pass, kept⟩, -⟩ :=
    LadderExample.of_observed LadderExample.observed_ladder
  have reachable := LadderExample.reachable_ladder run
  refine ⟨s, reachable, isTip, high, fun visits => ?_⟩
  obtain ⟨t', pass', exact', -⟩ := (@pruneOldBlocks_exact_iff .exact crypto
    consensus s reachable 47 isTip high late).mpr visits
  rw [pass] at pass'
  cases pass'
  exact ((exact' 44).mp kept).2 ⟨low, old⟩

end SideChain

end P2PoolObserver
