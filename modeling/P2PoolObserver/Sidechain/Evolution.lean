/-
# Sidechain.Evolution -- what no operation on stored blocks can change

Between two insertions the side chain changes flags, depths and caches of block
objects, moves its tip and drops blocks from its indexes.  The content of an
object (`PoolBlock.core`) stays, depths grow, a verdict once given stays, and the
indexes only lose entries (`Evolves`).
-/
import P2PoolObserver.Sidechain.SideChain
import P2PoolObserver.Lib.Lists

namespace P2PoolObserver

open Lib

/-- The part of a block object that never changes: its working state is cleared. -/
def PoolBlock.core (b : PoolBlock) : PoolBlock :=
  { b with
    main := { b.main with transactionParentIndices := [] }
    depth := 0
    verified := false
    invalid := false
    wantBroadcast := false
    broadcasted := false
    iterationCache := none }

theorem PoolBlock.fillTransactionParentIndices_eq (b : PoolBlock) (parent : Option PoolBlock) :
    ∃ indices, b.fillTransactionParentIndices parent =
      { b with main := { b.main with transactionParentIndices := indices } } := by
  unfold fillTransactionParentIndices
  split_ifs with missing
  · cases parent with
    | none => exact ⟨_, rfl⟩
    | some p =>
      dsimp only
      split_ifs <;> exact ⟨_, rfl⟩
  · exact ⟨_, rfl⟩

namespace SideChain

/-- The cache has the blocks that the ids of the side data stand for in the store. -/
structure Resolves (s : SideChain) (side : SideData) (c : IterationCache) : Prop where
  parent : s.blocksByTemplateId side.parent = some c.parent
  uncles : List.Forall₂ (fun h u => s.blocksByTemplateId h = some u) side.uncles c.uncles

/-- What holds between a state and a later one without an insertion in between. -/
structure Evolves (s s' : SideChain) : Prop where
  next : s'.next = s.next
  core : ∀ p, (s'.mem p).core = (s.mem p).core
  lookup : ∀ h p, s'.blocksByTemplateId h = some p → s.blocksByTemplateId h = some p
  atHeight : ∀ k p, p ∈ s'.getPoolBlocksByHeight k → p ∈ s.getPoolBlocksByHeight k
  depth : ∀ p, (s.mem p).depth ≤ (s'.mem p).depth
  verdict : ∀ p, (s.mem p).verified = true →
    (s'.mem p).verified = true ∧ (s'.mem p).invalid = (s.mem p).invalid
  /-- A cache is filled at verification and otherwise only emptied. -/
  cache : ∀ p, (s'.mem p).iterationCache = (s.mem p).iterationCache ∨
    (s'.mem p).iterationCache = none ∨
    ((s.mem p).verified = false ∧ (s'.mem p).verified = true ∧
      ∀ c, (s'.mem p).iterationCache = some c → s.Resolves (s.mem p).side c)

namespace Evolves

variable {s s' s'' : SideChain}

theorem of_same (next : s'.next = s.next) (mem : s'.mem = s.mem)
    (lookup : s'.blocksByTemplateId = s.blocksByTemplateId)
    (atHeight : s'.blocksByHeight = s.blocksByHeight) : Evolves s s' := by
  refine ⟨next, fun p => by rw [mem], fun _ _ found => lookup ▸ found, fun _ _ found => ?_,
    fun p => by rw [mem]; exact UInt64.le_refl _, fun p h => by rw [mem]; exact ⟨h, rfl⟩,
    fun p => by rw [mem]; exact .inl rfl⟩
  rwa [getPoolBlocksByHeight, ← atHeight]

theorem refl (s : SideChain) : Evolves s s := of_same rfl rfl rfl rfl

theorem trans (first : Evolves s s') (second : Evolves s' s'') : Evolves s s'' where
  next := second.next.trans first.next
  core p := (second.core p).trans (first.core p)
  lookup h p found := first.lookup h p (second.lookup h p found)
  atHeight k p mem := first.atHeight k p (second.atHeight k p mem)
  depth p := UInt64.le_trans (first.depth p) (second.depth p)
  verdict p h := by
    obtain ⟨h', same⟩ := first.verdict p h
    obtain ⟨h'', same'⟩ := second.verdict p h'
    exact ⟨h'', same'.trans same⟩
  cache p := by
    rcases second.cache p with kept | emptied | ⟨late, now, resolves⟩
    · rcases first.cache p with kept' | emptied' | ⟨before, now, resolves⟩
      · exact .inl (kept.trans kept')
      · exact .inr (.inl (kept.trans emptied'))
      · exact .inr (.inr ⟨before, (second.verdict p now).1, fun c h => resolves c (kept ▸ h)⟩)
    · exact .inr (.inl emptied)
    · refine .inr (.inr ⟨?_, now, fun c h => ?_⟩)
      · -- not verified in the middle, so not before
        cases before : (s.mem p).verified with
        | false => rfl
        | true => exact absurd (first.verdict p before).1 (by simp [late])
      · have same : (s'.mem p).side = (s.mem p).side := by
          show (s'.mem p).core.side = (s.mem p).core.side
          rw [first.core p]
        rw [← same]
        obtain ⟨parent, uncles⟩ := resolves c h
        exact ⟨first.lookup _ _ parent, uncles.imp fun h u found => first.lookup h u found⟩

theorem side (e : Evolves s s') (p : Ptr) : (s'.mem p).side = (s.mem p).side := by
  show (s'.mem p).core.side = (s.mem p).core.side
  rw [e.core p]

theorem templateId [Crypto] (e : Evolves s s') (consensus : Consensus) (p : Ptr) :
    s'.templateId consensus p = s.templateId consensus p := by
  show (s'.mem p).core.sideTemplateId consensus = (s.mem p).core.sideTemplateId consensus
  rw [e.core p]

end Evolves

/-! ## Changes to one object -/

@[simp] theorem modify_blocksByTemplateId (s : SideChain) (p : Ptr) (f : PoolBlock → PoolBlock) :
    (s.modify p f).blocksByTemplateId = s.blocksByTemplateId := rfl

@[simp] theorem modify_mem_self (s : SideChain) (p : Ptr) (f : PoolBlock → PoolBlock) :
    (s.modify p f).mem p = f (s.mem p) := by
  simp [modify]

theorem modify_mem_ne (s : SideChain) {p q : Ptr} (f : PoolBlock → PoolBlock) (ne : q ≠ p) :
    (s.modify p f).mem q = s.mem q := by
  simp [modify, ne]

theorem evolves_modify (s : SideChain) (p : Ptr) (f : PoolBlock → PoolBlock)
    (core : (f (s.mem p)).core = (s.mem p).core) (depth : (s.mem p).depth ≤ (f (s.mem p)).depth)
    (verdict : (s.mem p).verified = true →
      (f (s.mem p)).verified = true ∧ (f (s.mem p)).invalid = (s.mem p).invalid)
    (cache : (f (s.mem p)).iterationCache = (s.mem p).iterationCache ∨ (f (s.mem p)).iterationCache = none ∨
      ((s.mem p).verified = false ∧ (f (s.mem p)).verified = true ∧
        ∀ c, (f (s.mem p)).iterationCache = some c → s.Resolves (s.mem p).side c)) :
    Evolves s (s.modify p f) where
  next := rfl
  core q := by
    by_cases same : q = p
    · subst same
      rw [modify_mem_self, core]
    · rw [modify_mem_ne s f same]
  lookup _ _ := id
  atHeight _ _ := id
  depth q := by
    by_cases same : q = p
    · subst same
      rwa [modify_mem_self]
    · rw [modify_mem_ne s f same]
      exact UInt64.le_refl _
  verdict q h := by
    by_cases same : q = p
    · subst same
      rw [modify_mem_self]
      exact verdict h
    · rw [modify_mem_ne s f same]
      exact ⟨h, rfl⟩
  cache q := by
    by_cases same : q = p
    · subst same
      rwa [modify_mem_self]
    · rw [modify_mem_ne s f same]
      exact .inl rfl

theorem evolves_emit (s : SideChain) (e : Event) : Evolves s (s.emit e) :=
  .of_same rfl rfl rfl rfl

theorem evolves_updateDepth (s : SideChain) (p : Ptr) (d : UInt64) : Evolves s (s.updateDepth p d) := by
  unfold updateDepth
  split_ifs with deeper
  · exact evolves_modify s p _ rfl (UInt64.le_of_lt deeper) (fun h => ⟨h, rfl⟩) (.inl rfl)
  · exact .refl s

theorem evolves_broadcastOnce (s : SideChain) (p : Ptr) (send : Bool) : Evolves s (s.broadcastOnce p send) := by
  have marked : Evolves s (s.modify p fun b => { b with broadcasted := true }) :=
    evolves_modify s p _ rfl (UInt64.le_refl _) (fun h => ⟨h, rfl⟩) (.inl rfl)
  unfold broadcastOnce
  split_ifs
  · exact marked.trans (evolves_emit _ _)
  · exact marked
  · exact .refl s

theorem evolves_setVerdict {s : SideChain} {block : Ptr} (open' : (s.mem block).verified = false)
    (verified invalid : Bool) : Evolves s (s.setVerdict block verified invalid) :=
  evolves_modify s block _ rfl (UInt64.le_refl _) (fun h => absurd h (by simp [open'])) (.inl rfl)

theorem modify_modify (s : SideChain) (p : Ptr) (f g : PoolBlock → PoolBlock) :
    (s.modify p f).modify p g = s.modify p fun b => g (f b) := by
  simp [modify]

theorem modify_congr {s : SideChain} {p : Ptr} {f g : PoolBlock → PoolBlock}
    (same : f (s.mem p) = g (s.mem p)) : s.modify p f = s.modify p g := by
  simp only [modify, same]

def verifiedCache (s : SideChain) (block : Ptr) : Option IterationCache :=
  match s.view.iteratorGetParent block with
  | none => (s.mem block).iterationCache
  | some parent =>
    match (View.visitUncles s.blocksByTemplateId (s.mem block).side.uncles).missing with
    | some _ => none
    | none =>
      some ⟨parent, (View.visitUncles s.blocksByTemplateId (s.mem block).side.uncles).visited⟩

theorem setVerdict_fillIterationCache (s : SideChain) (block : Ptr) :
    (s.setVerdict block true false).fillIterationCache block =
      s.modify block fun b => { b with
        verified := true, invalid := false, iterationCache := s.verifiedCache block } := by
  have parent : (s.setVerdict block true false).view.iteratorGetParent block =
      s.view.iteratorGetParent block := by
    simp only [View.iteratorGetParent, view, setVerdict, modify_mem_self, modify_blocksByTemplateId]
  unfold fillIterationCache
  rw [parent]
  unfold verifiedCache
  cases s.view.iteratorGetParent block with
  | none =>
    simp only [setVerdict, modify]
  | some parent =>
    dsimp only
    rw [show (s.setVerdict block true false).mem block = _ from modify_mem_self s block _]
    exact modify_modify s block _ _

theorem markVerified_eq (s : SideChain) (block : Ptr) : ∃ indices,
    s.markVerified block = s.modify block fun b => { b with
      main := { b.main with transactionParentIndices := indices }
      verified := true
      invalid := false
      iterationCache := s.verifiedCache block } := by
  unfold markVerified
  rw [setVerdict_fillIterationCache]
  unfold fillPoolBlockTransactionParentIndices
  rw [modify_modify]
  generalize Option.map _ _ = parentBlock
  obtain ⟨indices, filled⟩ := PoolBlock.fillTransactionParentIndices_eq
    { s.mem block with verified := true, invalid := false, iterationCache := s.verifiedCache block }
    parentBlock
  exact ⟨indices, modify_congr filled⟩

theorem visitUncles_resolves {get : Hash → Option Ptr} : ∀ {ids : List Hash},
    (View.visitUncles get ids).missing = none →
      List.Forall₂ (fun h u => get h = some u) ids (View.visitUncles get ids).visited
  | [], _ => .nil
  | id :: ids, all => by
    unfold View.visitUncles at all ⊢
    cases found : get id with
    | none => simp [found] at all
    | some uncle =>
      simp only [found] at all ⊢
      exact .cons found (visitUncles_resolves all)

theorem visitUncles_missing {get : Hash → Option Ptr} : ∀ {ids : List Hash},
    (∀ id ∈ ids, ∃ u, get id = some u) → (View.visitUncles get ids).missing = none
  | [], _ => rfl
  | id :: ids, found => by
    obtain ⟨u, first⟩ := found id (.head _)
    unfold View.visitUncles
    rw [first]
    exact visitUncles_missing fun id' mem => found id' (.tail id mem)

theorem verifiedCache_resolves {s : SideChain} {block : Ptr} {c : IterationCache}
    (empty : (s.mem block).iterationCache = none) (filled : s.verifiedCache block = some c) :
    s.Resolves (s.mem block).side c := by
  have parent : s.view.iteratorGetParent block = s.blocksByTemplateId (s.mem block).side.parent := by
    simp only [View.iteratorGetParent, view, empty]
  unfold verifiedCache at filled
  rw [parent] at filled
  cases found : s.blocksByTemplateId (s.mem block).side.parent with
  | none => simp [found, empty] at filled
  | some q =>
    simp only [found] at filled
    split at filled
    · cases filled
    · rename_i all
      cases filled
      exact ⟨found, visitUncles_resolves all⟩

theorem evolves_markVerified {s : SideChain} {block : Ptr} (open' : (s.mem block).verified = false)
    (empty : (s.mem block).iterationCache = none) : Evolves s (s.markVerified block) := by
  obtain ⟨indices, eq⟩ := s.markVerified_eq block
  rw [eq]
  exact evolves_modify s block _ rfl (UInt64.le_refl _) (fun h => absurd h (by simp [open']))
    (.inr (.inr ⟨open', rfl, fun c filled => verifiedCache_resolves empty filled⟩))

theorem evolves_updateSyncTip (s : SideChain) (block : Ptr) : Evolves s (s.updateSyncTip block) := by
  unfold updateSyncTip
  split_ifs
  · exact .of_same rfl rfl rfl rfl
  · exact .refl s

/-! ## Pruning -/

def withTip (s : SideChain) (block : Ptr) (diff : Difficulty) (isAlternative : Bool) : SideChain :=
  let s := { s with chainTip := some block, syncTip := some block, currentDifficulty := diff }
  let s := (s.modify block fun b => { b with wantBroadcast := true }).emit (.updateTip block)
  if isAlternative then { s with precalcFinished := true } else s

theorem evolves_withTip (s : SideChain) (block : Ptr) (diff : Difficulty) (isAlternative : Bool) :
    Evolves s (s.withTip block diff isAlternative) := by
  have moved : Evolves s { s with chainTip := some block, syncTip := some block
                                  currentDifficulty := diff } :=
    .of_same rfl rfl rfl rfl
  have marked := (moved.trans (evolves_modify _ block (fun b => { b with wantBroadcast := true }) rfl
    (UInt64.le_refl _) (fun h => ⟨h, rfl⟩) (.inl rfl))).trans (evolves_emit _ (.updateTip block))
  unfold withTip
  dsimp only
  split_ifs
  · exact marked.trans (.of_same rfl rfl rfl rfl)
  · exact marked

section Pruning

variable [Crypto] (consensus : Consensus) (server : Server)

theorem evolves_deleteBlock (s : SideChain) (height : UInt64) (p : Ptr) :
    Evolves s (s.deleteBlock consensus height p) := by
  have emptied : ∀ t : SideChain, Evolves t (t.modify p fun b => { b with iterationCache := none }) :=
    fun t => evolves_modify t p _ rfl (UInt64.le_refl _) (fun h => ⟨h, rfl⟩) (.inr (.inl rfl))
  have dropped : Evolves s { s with
      blocksByTemplateId := Function.update s.blocksByTemplateId (s.templateId consensus p) none } := by
    refine ⟨rfl, fun _ => rfl, fun h q found => ?_, fun _ _ => id, fun _ => UInt64.le_refl _,
      fun _ h => ⟨h, rfl⟩, fun _ => .inl rfl⟩
    dsimp only at found
    by_cases same : h = s.templateId consensus p
    · subst same
      rw [Function.update_self] at found
      cases found
    · rwa [Function.update_of_ne same] at found
  unfold deleteBlock
  dsimp only
  split_ifs
  · exact dropped.trans (emptied _)
  · exact (evolves_emit s _).trans (emptied _)

theorem deleteBlock_frame (s : SideChain) (height : UInt64) (p : Ptr) :
    s.deleteBlock consensus height p = { s with
      mem := (s.deleteBlock consensus height p).mem
      blocksByTemplateId := (s.deleteBlock consensus height p).blocksByTemplateId
      events := (s.deleteBlock consensus height p).events } := by
  unfold deleteBlock
  dsimp only
  split_ifs <;> rfl

theorem pruneBlocks_cons (height : UInt64) (s : SideChain) (p : Ptr) (rest : List Ptr) :
    ((pruneBlocks consensus server height s (p :: rest)).1,
      (pruneBlocks consensus server height s (p :: rest)).2.1) =
    if prunable consensus server ((pruneBlocks consensus server height s rest).1.mem p) then
      ((pruneBlocks consensus server height s rest).1.deleteBlock consensus height p,
        (pruneBlocks consensus server height s rest).2.1)
    else ((pruneBlocks consensus server height s rest).1,
      p :: (pruneBlocks consensus server height s rest).2.1) := by
  rw [pruneBlocks]
  dsimp only
  split_ifs <;> rfl

theorem evolves_pruneBlocks (height : UInt64) (s : SideChain) : ∀ v : List Ptr,
    Evolves s (pruneBlocks consensus server height s v).1 ∧
      (pruneBlocks consensus server height s v).2.1.Sublist v
  | [] => ⟨.refl s, List.Sublist.refl _⟩
  | p :: rest => by
    obtain ⟨evolves, kept⟩ := evolves_pruneBlocks height s rest
    have cons := pruneBlocks_cons consensus server height s p rest
    split_ifs at cons <;> obtain ⟨chain, list⟩ := Prod.mk.inj cons <;> rw [chain, list]
    · exact ⟨evolves.trans (evolves_deleteBlock consensus _ height p), kept.cons p⟩
    · exact ⟨evolves, kept.cons_cons p⟩

theorem pruneBlocks_frame (height : UInt64) (s : SideChain) : ∀ v : List Ptr,
    (pruneBlocks consensus server height s v).1 = { s with
      mem := (pruneBlocks consensus server height s v).1.mem
      blocksByTemplateId := (pruneBlocks consensus server height s v).1.blocksByTemplateId
      events := (pruneBlocks consensus server height s v).1.events }
  | [] => rfl
  | p :: rest => by
    have ih := pruneBlocks_frame height s rest
    have cons := pruneBlocks_cons consensus server height s p rest
    split_ifs at cons <;> obtain ⟨chain, -⟩ := Prod.mk.inj cons <;> rw [chain]
    · rw [deleteBlock_frame, ih]
    · exact ih

omit [Crypto] in
theorem evolves_putHeight (s : SideChain) (height : UInt64) (v : Option (List Ptr)) (keys : List UInt64)
    (sub : ∀ p ∈ v.getD [], p ∈ s.getPoolBlocksByHeight height) :
    Evolves s { s with blocksByHeight := Function.update s.blocksByHeight height v
                       blocksByHeightKeys := keys } := by
  refine ⟨rfl, fun _ => rfl, fun _ _ => id, fun k p mem => ?_, fun _ => UInt64.le_refl _,
    fun _ h => ⟨h, rfl⟩, fun _ => .inl rfl⟩
  by_cases same : k = height
  · subst same
    simp only [getPoolBlocksByHeight, Function.update_self] at mem
    exact sub p mem
  · simpa only [getPoolBlocksByHeight, Function.update_of_ne same] using mem

theorem evolves_pruneKeys (h : UInt64) : ∀ (slots keyIndex : Nat) (s s' : SideChain) (n n' : Nat),
    pruneKeys consensus server h slots keyIndex s n = .ok (s', n') → Evolves s s'
  | 0, _, s, s', n, n', run => by
    cases run
    exact .refl s
  | slots + 1, keyIndex, s, s', n, n', run => by
    unfold pruneKeys at run
    dsimp only at run
    split_ifs at run with high emptied inRange
    · cases run
      exact .refl s
    · obtain ⟨evolves, -⟩ := evolves_pruneBlocks consensus server
        (s.blocksByHeightKeys.getD keyIndex 0) s (s.getPoolBlocksByHeight _)
      refine (evolves.trans ?_).trans (evolves_pruneKeys h _ _ _ _ _ _ run)
      exact evolves_putHeight _ _ none _ (fun p mem => nomatch mem)
    · obtain ⟨evolves, kept⟩ := evolves_pruneBlocks consensus server
        (s.blocksByHeightKeys.getD keyIndex 0) s (s.getPoolBlocksByHeight _)
      refine (evolves.trans ?_).trans (evolves_pruneKeys h _ _ _ _ _ _ run)
      refine evolves_putHeight _ _ (some _) _ fun p mem => ?_
      rw [pruneBlocks_frame]
      exact kept.subset mem

omit [Crypto] in
theorem evolves_sortKeys (s : SideChain) : Evolves s s.sortKeys := by
  unfold sortKeys
  split_ifs
  · exact .refl s
  · exact .of_same rfl rfl rfl rfl

theorem evolves_pruneOldBlocks {s s' : SideChain}
    (run : pruneOldBlocks consensus server s = .ok s') : Evolves s s' := by
  unfold pruneOldBlocks at run
  split at run
  · cases run
    exact .refl s
  · split_ifs at run with low
    · cases run
      exact .refl s
    · obtain ⟨⟨t, n⟩, pruned, done⟩ := except_bind_eq_ok.mp run
      have evolves := (evolves_sortKeys s).trans (evolves_pruneKeys consensus server _ _ _ _ _ _ _ pruned)
      dsimp only at done
      split_ifs at done <;> cases done
      · exact evolves.trans (.of_same rfl rfl rfl rfl)
      · exact evolves

theorem evolves_adoptTip {s s' : SideChain} {block : Ptr} {diff : Difficulty} {isAlternative : Bool}
    (run : adoptTip consensus server s block diff isAlternative = .ok s') : Evolves s s' := by
  exact (evolves_withTip s block diff isAlternative).trans (evolves_pruneOldBlocks consensus server run)

end Pruning

end SideChain

end P2PoolObserver
