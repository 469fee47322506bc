/-
# Sidechain.Apart -- what an insertion does apart from the store

Once `AddPoolBlock` has entered a block, the rest of the call reports no found
Monero block, leaves the watched block alone and at most forgets stored blocks.  It
forgets full ids of seen blocks only after that, those whose template id is no longer
stored.  This holds from any state, well formed or not.
-/
import P2PoolObserver.Sidechain.ChainSteps

namespace P2PoolObserver

open Lib

def Event.isFound : Event → Bool
  | .updateBlockFound _ _ => true
  | _ => false

namespace SideChain

def reports (s : SideChain) : List Event := s.events.filter Event.isFound

/-- A block has left the store on the way from `s` to `t`. -/
def LosesBlock (s t : SideChain) : Prop :=
  ∃ h, (s.blocksByTemplateId h).isSome ∧ t.blocksByTemplateId h = none

/-- `cleanupSeenBlocks` has run since: it has dropped `k` if its template id is not stored. -/
structure Cleaned (s t : SideChain) : Prop where
  pruned : LosesBlock s t
  seen : ∀ k, t.seenBlocks k = (s.seenBlocks k && (t.blocksByTemplateId k.templateId).isSome)

/-- What `t` may differ in from `s` as long as no block is added: what watches and reports see is the same. -/
structure Apart (s t : SideChain) : Prop where
  watchBlock : t.watchBlock = s.watchBlock
  watchBlockSidechainId : t.watchBlockSidechainId = s.watchBlockSidechainId
  reports : t.reports = s.reports
  lookup : ∀ h p, t.blocksByTemplateId h = some p → s.blocksByTemplateId h = some p
  seen : (t.seenBlocks = s.seenBlocks ∧ t.blocksByTemplateId = s.blocksByTemplateId) ∨ Cleaned s t

namespace Apart

variable {s t u : SideChain}

theorem of_eq (watchBlock : t.watchBlock = s.watchBlock)
    (watchBlockSidechainId : t.watchBlockSidechainId = s.watchBlockSidechainId)
    (events : t.events = s.events) (seenBlocks : t.seenBlocks = s.seenBlocks)
    (lookup : t.blocksByTemplateId = s.blocksByTemplateId) : Apart s t where
  watchBlock
  watchBlockSidechainId
  reports := congrArg (List.filter Event.isFound) events
  lookup h p found := by rwa [← lookup]
  seen := .inl ⟨seenBlocks, lookup⟩

theorem refl (s : SideChain) : Apart s s := .of_eq rfl rfl rfl rfl rfl

theorem trans (first : Apart s t) (second : Apart t u) : Apart s u where
  watchBlock := second.watchBlock.trans first.watchBlock
  watchBlockSidechainId := second.watchBlockSidechainId.trans first.watchBlockSidechainId
  reports := second.reports.trans first.reports
  lookup h p found := first.lookup h p (second.lookup h p found)
  seen := by
    rcases first.seen with ⟨seen, index⟩ | cleaned
    · rw [← seen, ← index]
      exact second.seen.imp id fun ⟨⟨h, there, gone⟩, kept⟩ => ⟨⟨h, index ▸ there, gone⟩, seen ▸ kept⟩
    · rcases second.seen with ⟨seen, index⟩ | ⟨⟨h, there, gone⟩, kept⟩
      · obtain ⟨⟨h, there, gone⟩, kept⟩ := cleaned
        exact .inr ⟨⟨h, there, index ▸ gone⟩, by rwa [seen, index]⟩
      · obtain ⟨p, found⟩ := Option.isSome_iff_exists.mp there
        refine .inr ⟨⟨h, Option.isSome_of_eq_some (first.lookup h p found), gone⟩, fun k => ?_⟩
        rw [kept, cleaned.seen]
        cases stored : u.blocksByTemplateId k.templateId with
        | none => simp
        | some p => simp [second.lookup _ _ stored]

theorem ite {c : Prop} [Decidable c] (yes : Apart s t) (no : Apart s u) :
    Apart s (if c then t else u) := by
  split_ifs
  · exact yes
  · exact no

end Apart

/-! ## Changes to one object, and to the indexes -/

theorem apart_modify (s : SideChain) (p : Ptr) (f : PoolBlock → PoolBlock) : Apart s (s.modify p f) :=
  .of_eq rfl rfl rfl rfl rfl

theorem apart_setVerdict (s : SideChain) (p : Ptr) (verified invalid : Bool) :
    Apart s (s.setVerdict p verified invalid) := apart_modify s p _

theorem apart_emit (s : SideChain) {e : Event} (silent : e.isFound = false) : Apart s (s.emit e) := by
  refine ⟨rfl, rfl, ?_, fun _ _ => id, .inl ⟨rfl, rfl⟩⟩
  simp [reports, emit, silent]

theorem apart_broadcastOnce (s : SideChain) (p : Ptr) (send : Bool) : Apart s (s.broadcastOnce p send) := by
  unfold broadcastOnce
  split_ifs
  · exact (apart_modify s p _).trans (apart_emit _ rfl)
  · exact apart_modify s p _
  · exact .refl s

theorem apart_updateDepth (s : SideChain) (p : Ptr) (d : UInt64) : Apart s (s.updateDepth p d) := by
  unfold updateDepth
  split_ifs
  · exact apart_modify s p _
  · exact .refl s

theorem apart_markVerified (s : SideChain) (p : Ptr) : Apart s (s.markVerified p) := by
  unfold markVerified fillPoolBlockTransactionParentIndices fillIterationCache setVerdict
  split
  · exact (apart_modify s p _).trans (apart_modify _ p _)
  · exact ((apart_modify s p _).trans (apart_modify _ p _)).trans (apart_modify _ p _)

theorem apart_updateSyncTip (s : SideChain) (p : Ptr) : Apart s (s.updateSyncTip p) := by
  unfold updateSyncTip
  split_ifs <;> exact .of_eq rfl rfl rfl rfl rfl

/-- Pruning before its last line: `n` blocks have left the store. -/
structure Prunes (s t : SideChain) (n : Nat) : Prop where
  frame : t.watchBlock = s.watchBlock ∧ t.watchBlockSidechainId = s.watchBlockSidechainId ∧
    t.reports = s.reports ∧ t.seenBlocks = s.seenBlocks
  lookup : ∀ h p, t.blocksByTemplateId h = some p → s.blocksByTemplateId h = some p
  kept : n = 0 → t.blocksByTemplateId = s.blocksByTemplateId
  pruned : n ≠ 0 → LosesBlock s t

namespace Prunes

variable {s t u : SideChain} {n m : Nat}

theorem refl (s : SideChain) : Prunes s s 0 :=
  ⟨⟨rfl, rfl, rfl, rfl⟩, fun _ _ => id, fun _ => rfl, fun some => absurd rfl some⟩

theorem trans (first : Prunes s t n) (second : Prunes t u m) : Prunes s u (n + m) := by
  obtain ⟨⟨block, id, reports, seen⟩, lookup, kept, pruned⟩ := first
  obtain ⟨⟨block', id', reports', seen'⟩, lookup', kept', pruned'⟩ := second
  refine ⟨⟨block'.trans block, id'.trans id, reports'.trans reports, seen'.trans seen⟩,
    fun h p found => lookup h p (lookup' h p found), fun none => ?_, fun some => ?_⟩
  · obtain ⟨none, none'⟩ := Nat.add_eq_zero_iff.mp none
    exact (kept' none').trans (kept none)
  · by_cases none : m = 0
    · obtain ⟨h, there, gone⟩ := pruned (by omega)
      exact ⟨h, there, kept' none ▸ gone⟩
    · obtain ⟨h, there, gone⟩ := pruned' none
      obtain ⟨p, found⟩ := Option.isSome_iff_exists.mp there
      exact ⟨h, Option.isSome_of_eq_some (lookup h p found), gone⟩

theorem apart (prunes : Prunes s t 0) : Apart s t :=
  ⟨prunes.frame.1, prunes.frame.2.1, prunes.frame.2.2.1, prunes.lookup,
    .inl ⟨prunes.frame.2.2.2, prunes.kept rfl⟩⟩

end Prunes

section Pruning

variable [Crypto] (consensus : Consensus) (server : Server)

theorem prunes_deleteBlock (s : SideChain) (height : UInt64) (p : Ptr) :
    Prunes s (s.deleteBlock consensus height p)
      (if (s.blocksByTemplateId (s.templateId consensus p)).isSome then 1 else 0) := by
  unfold deleteBlock
  dsimp only
  split_ifs with found
  · refine ⟨⟨rfl, rfl, rfl, rfl⟩, fun h q there => ?_, fun none => absurd none Nat.one_ne_zero, fun _ => ?_⟩
    · by_cases gone : h = s.templateId consensus p
      · subst gone
        simp [modify] at there
      · simpa [modify, gone] using there
    · exact ⟨s.templateId consensus p, found, by simp [modify]⟩
  · have silent := apart_emit s (e := .inconsistent height (s.templateId consensus p)) rfl
    exact ⟨⟨rfl, rfl, silent.reports, rfl⟩, fun _ _ => id, fun _ => rfl, fun some => absurd rfl some⟩

theorem prunes_pruneBlocks (height : UInt64) : ∀ (l : List Ptr) (s : SideChain),
    Prunes s (pruneBlocks consensus server height s l).1 (pruneBlocks consensus server height s l).2.2
  | [], s => .refl s
  | p :: rest, s => by
    have tail := prunes_pruneBlocks height rest s
    unfold pruneBlocks
    dsimp only
    split
    · have both := tail.trans (prunes_deleteBlock consensus _ height p)
      split_ifs at both ⊢ <;> exact both
    · exact tail

variable {consensus server}

theorem prunes_pruneKeys (h : UInt64) : ∀ (slots keyIndex : Nat) (s t : SideChain) (n m : Nat),
    pruneKeys consensus server h slots keyIndex s n = .ok (t, m) → ∃ k, m = n + k ∧ Prunes s t k
  | 0, _, s, _, _, _, run => by
    cases run
    exact ⟨0, rfl, .refl s⟩
  | slots + 1, keyIndex, s, t, n, m, run => by
    have first := prunes_pruneBlocks consensus server (s.blocksByHeightKeys.getD keyIndex 0)
      (s.getPoolBlocksByHeight (s.blocksByHeightKeys.getD keyIndex 0)) s
    unfold pruneKeys at run
    dsimp only at run
    split_ifs at run with beyond emptied inside
    · cases run
      exact ⟨0, rfl, .refl s⟩
    all_goals
      obtain ⟨k, rfl, more⟩ := prunes_pruneKeys h slots _ _ t _ m run
      refine ⟨_, Nat.add_assoc _ _ _, first.trans (t := (pruneBlocks consensus server _ s _).1) ?_⟩
      exact ⟨more.frame, more.lookup, more.kept, more.pruned⟩

theorem apart_pruneOldBlocks {s t : SideChain} (run : pruneOldBlocks consensus server s = .ok t) :
    Apart s t := by
  unfold pruneOldBlocks at run
  split at run
  · cases run
    exact .refl s
  · split_ifs at run with low
    · cases run
      exact .refl s
    · obtain ⟨⟨u, n⟩, pruned, done⟩ := except_bind_eq_ok.mp run
      have sorted : Prunes s s.sortKeys 0 := by
        unfold sortKeys
        split_ifs
        · exact .refl s
        · exact ⟨⟨rfl, rfl, rfl, rfl⟩, fun _ _ => id, fun _ => rfl, fun some => absurd rfl some⟩
      obtain ⟨k, rfl, keys⟩ := prunes_pruneKeys _ _ _ _ _ _ _ pruned
      have before := sorted.trans keys
      rw [Nat.zero_add] at before done
      dsimp only at done
      split_ifs at done with some <;> cases done
      · refine ⟨before.frame.1, before.frame.2.1, before.frame.2.2.1, before.lookup,
          .inr ⟨before.pruned some.ne', fun k => ?_⟩⟩
        rw [← before.frame.2.2.2]
        rfl
      · rw [Nat.eq_zero_of_not_pos some] at before
        exact before.apart

theorem apart_adoptTip {s t : SideChain} {block : Ptr} {diff : Difficulty} {isAlternative : Bool}
    (run : adoptTip consensus server s block diff isAlternative = .ok t) : Apart s t := by
  unfold adoptTip at run
  refine Apart.trans ?_ (apart_pruneOldBlocks run)
  have moved : Apart s { s with chainTip := some block, syncTip := some block
                                currentDifficulty := diff } :=
    .of_eq rfl rfl rfl rfl rfl
  have told : (Event.updateTip block).isFound = false := rfl
  have marked := (moved.trans (apart_modify _ block fun b => { b with wantBroadcast := true })).trans
    (apart_emit _ told)
  split_ifs
  · exact marked.trans (.of_eq rfl rfl rfl rfl rfl)
  · exact marked

end Pruning

/-! ## Tip, verification and depths -/

section Calls

variable [Uint128Package] [Crypto] {consensus : Consensus} {server : Server} {fuel : Nat}
  {s t : SideChain}
variable {block : Ptr} {err : Option String}

theorem apart_updateChainTip
    (run : updateChainTip consensus server fuel s block = .ok t) : Apart s t := by
  unfold updateChainTip at run
  split_ifs at run
  · cases run
    exact .refl s
  · cases run
    exact .refl s
  · cases run
    exact .refl s
  · obtain ⟨⟨isLonger, isAlternative⟩, -, run⟩ := except_bind_eq_ok.mp run
    obtain ⟨u, moved, run⟩ := except_bind_eq_ok.mp run
    cases run
    refine Apart.trans ?_ (apart_broadcastOnce u block true)
    unfold moveTip at moved
    split at moved
    · split at moved
      · cases moved
        exact .refl s
      · split_ifs at moved
        · cases moved
          exact .refl s
        · exact apart_adoptTip moved
    · split at moved <;> cases moved
      exact .refl s

theorem apart_verifyLoop
    (run : verifyLoop consensus server fuel s block = .ok (t, err)) : Apart s t := by
  obtain ⟨v, looped, run⟩ := except_bind_eq_ok.mp run
  have keep : ∀ v v' : VerifyState, Apart s v.chain →
      verifyStep consensus server fuel block v = .ok (.next v') → Apart s v'.chain := by
    intro v v' before step
    obtain ⟨top, rest, -, pops⟩ := verifyStep_next step
    cases pops with
    | known _ => exact before
    | rejected _ _ => exact before.trans (apart_setVerdict _ top true true)
    | postponed _ _ => exact before.trans (apart_setVerdict _ top false false)
    | accepted _ _ accept =>
      obtain ⟨send, chain, -⟩ := acceptBlock_eq_ok accept
      rw [chain]
      exact ((before.trans (apart_markVerified _ top)).trans (apart_broadcastOnce _ top send)).trans
        (apart_emit _ rfl)
  have ends : ∀ v r : VerifyState, Apart s v.chain →
      verifyStep consensus server fuel block v = .ok (.done r) → Apart s r.chain := by
    intro v r before step
    rw [← (verifyStep_done step).1]
    exact before
  have settled : Apart s v.chain := loop_inv keep ends (.refl s) looped
  split at run
  · cases run
    exact settled
  · obtain ⟨u, moved, run⟩ := except_bind_eq_ok.mp run
    cases run
    exact settled.trans (apart_updateChainTip moved)

variable (consensus) in
omit [Uint128Package] in
theorem apart_depthFromChildren (s : SideChain) (block : Ptr) :
    Outcome (Apart s) (Apart s) (depthFromChildren consensus block s) := by
  refine outcome_foldlM (fun i _ t before => outcome_foldlM (fun child _ t before => ?_) before) (.refl s)
  unfold depthFromChild
  dsimp only
  split_ifs
  · exact before
  · exact (before.trans (apart_updateDepth _ _ _)).trans (apart_updateDepth _ _ _)
  · exact before.trans (apart_updateDepth _ _ _)
  · exact before.trans (apart_updateDepth _ _ _)
  · exact before

variable (consensus) in
omit [Uint128Package] in
theorem apart_depthToNeighbours {d : DepthState} (before : Apart s d.chain) (block : Ptr)
    (blockDepth : UInt64) :
    Outcome (Apart s) (fun d => Apart s d.chain) (depthToNeighbours consensus block blockDepth d) := by
  have raise {d : DepthState} (before : Apart s d.chain) (p : Ptr) (depth : UInt64) :
      Apart s (d.chain.updateDepth p depth) := before.trans (apart_updateDepth _ p depth)
  refine Outcome.bind (Q := fun d => Apart s d.chain) ?_ fun d before =>
    Outcome.bind (Q := fun d => Apart s d.chain) ?_ fun d before => ?_
  · refine outcome_foldlM (fun i _ d before => outcome_foldlM (fun child _ d before => ?_) before) before
    unfold depthToChild
    dsimp only
    split
    · exact before
    · have first := Apart.ite (c := (d.chain.mem child).side.parent = d.chain.templateId consensus block ∧
        blockDepth > 0) (raise before child (blockDepth - 1)) before
      exact Apart.ite (first.trans (apart_updateDepth _ _ _)) first
  · unfold depthToParent
    split
    · exact before
    · split_ifs
      · exact before
      · exact raise before _ _
      · exact before
  · have uncles : ∀ (l : List Ptr) (r : DepthState × Bool), Apart s r.1.chain →
        Apart s (l.foldl (depthToUncle block blockDepth) r).1.chain := by
      intro l
      induction l with
      | nil => exact fun _ before => before
      | cons uncle rest ih =>
        intro r before
        refine ih _ ?_
        unfold depthToUncle
        dsimp only
        split_ifs
        · exact before
        · exact raise before _ _
        · exact before
    unfold depthToUncles
    dsimp only
    split_ifs <;> exact uncles _ _ before

theorem apart_depthStep {d : DepthState} {r : Step DepthState SideChain} (before : Apart s d.chain)
    (step : depthStep consensus server fuel d = .ok r) : Apart s (Step.state DepthState.chain id r) := by
  unfold depthStep at step
  split at step
  · cases step
    exact before
  · rename_i top rest _
    obtain ⟨u, verified, step⟩ := except_bind_eq_ok.mp step
    have verified' : Apart s u := by
      unfold verifyDeep at verified
      dsimp only at verified
      split_ifs at verified
      · obtain ⟨⟨w, err⟩, looped, verified⟩ := except_bind_eq_ok.mp verified
        cases verified
        exact before.trans (apart_verifyLoop looped)
      · cases verified
        exact before
    have next := apart_depthToNeighbours consensus (d := ⟨u, rest⟩) verified' top
      (d.chain.mem top).depth
    cases step
    split <;> rename_i passed <;> rw [passed] at next <;> exact next

theorem apart_updateDepths
    (run : updateDepths consensus server fuel s block = .ok t) : Apart s t := by
  unfold updateDepths at run
  have first := apart_depthFromChildren consensus s block
  cases fromChildren : depthFromChildren consensus block s with
  | error u =>
    rw [fromChildren] at run first
    cases run
    exact first
  | ok u =>
    rw [fromChildren] at run first
    have next : ∀ d d', Apart s d.chain →
        depthStep consensus server fuel d = .ok (.next d') → Apart s d'.chain :=
      fun d d' before onward => apart_depthStep before onward
    have start : Apart s (⟨u, [block]⟩ : DepthState).chain := first
    exact loop_inv next (fun d r before done => apart_depthStep before done) start run

theorem apart_settleBlock
    (run : settleBlock consensus server fuel s block = .ok (t, err)) : Apart s t := by
  unfold settleBlock at run
  split_ifs at run
  · cases run
    exact .refl s
  · obtain ⟨u, moved, run⟩ := except_bind_eq_ok.mp run
    cases run
    exact apart_updateChainTip moved
  · exact apart_verifyLoop run

/-- A call of a stored or unencodable block leaves the state as it is; any other
does what `insertBlock` does and nothing else besides. -/
theorem apart_addPoolBlock {b : PoolBlock}
    (run : addPoolBlock consensus server fuel s b = .ok (t, err)) :
    (((s.blocksByTemplateId (b.sideTemplateId consensus)).isSome ∨ b.marshalBinary.isOk = false) ∧ t = s) ∨
      (b.marshalBinary.isOk = true ∧ Apart (s.insertBlock consensus b) t) := by
  unfold addPoolBlock at run
  split_ifs at run with stored
  · cases run
    exact .inl ⟨.inl stored, rfl⟩
  · unfold PoolBlock.marshalBinary
    split at run
    · rename_i failed
      cases run
      exact .inl ⟨.inr (by rw [failed]; rfl), rfl⟩
    · rename_i encoded
      obtain ⟨u, depths, run⟩ := except_bind_eq_ok.mp run
      obtain ⟨⟨w, err'⟩, settle, done⟩ := except_bind_eq_ok.mp run
      cases done
      refine .inr ⟨by rw [encoded]; rfl, ?_⟩
      exact ((apart_updateDepths depths).trans (apart_settleBlock settle)).trans
        (apart_updateSyncTip w s.next)

end Calls

end SideChain

end P2PoolObserver
