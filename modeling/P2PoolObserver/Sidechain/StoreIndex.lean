/-
# Sidechain.StoreIndex -- the indexes of the store describe one set of blocks

The store is held three times: by template id, by height, and as the list of the
heights in use.  Nothing but an insertion and a
pruning pass touches the indexes (`Indexed.congr`), and an insertion keeps them in
agreement (`indexed_insertBlock`).
-/
import P2PoolObserver.Sidechain.ChainSteps

namespace P2PoolObserver

open Lib

namespace SideChain

section Quiet

variable {s s' : SideChain}

/-! ## Changes that leave the indexes alone -/

structure Quiet (s s' : SideChain) : Prop where
  lookup : s'.blocksByTemplateId = s.blocksByTemplateId
  atHeight : s'.blocksByHeight = s.blocksByHeight
  keys : s'.blocksByHeightKeys = s.blocksByHeightKeys
  sorted : s'.blocksByHeightKeysSorted = s.blocksByHeightKeysSorted
  chainTip : s'.chainTip = s.chainTip
  currentDifficulty : s'.currentDifficulty = s.currentDifficulty
  reports : ∀ k id, .inconsistent k id ∈ s'.events → .inconsistent k id ∈ s.events

theorem Quiet.refl (s : SideChain) : Quiet s s := ⟨rfl, rfl, rfl, rfl, rfl, rfl, fun _ _ mem => mem⟩

theorem Quiet.trans {s'' : SideChain} (first : Quiet s s') (second : Quiet s' s'') : Quiet s s'' where
  lookup := second.lookup.trans first.lookup
  atHeight := second.atHeight.trans first.atHeight
  keys := second.keys.trans first.keys
  sorted := second.sorted.trans first.sorted
  chainTip := second.chainTip.trans first.chainTip
  currentDifficulty := second.currentDifficulty.trans first.currentDifficulty
  reports k id mem := first.reports k id (second.reports k id mem)

theorem quiet_modify (s : SideChain) (p : Ptr) (f : PoolBlock → PoolBlock) : Quiet s (s.modify p f) :=
  ⟨rfl, rfl, rfl, rfl, rfl, rfl, fun _ _ mem => mem⟩

theorem quiet_emit (s : SideChain) {e : Event} (other : ∀ k id, e ≠ .inconsistent k id) :
    Quiet s (s.emit e) := by
  refine ⟨rfl, rfl, rfl, rfl, rfl, rfl, fun k id mem => ?_⟩
  rcases List.mem_append.mp mem with old | new
  · exact old
  · exact absurd (List.mem_singleton.mp new).symm (other k id)

theorem quiet_broadcastOnce (s : SideChain) (p : Ptr) (send : Bool) : Quiet s (s.broadcastOnce p send) := by
  unfold broadcastOnce
  split_ifs
  · exact (quiet_modify s p _).trans (quiet_emit _ nofun)
  · exact quiet_modify s p _
  · exact .refl s

theorem modify_keeps {α : Type} {g : PoolBlock → α} {f : PoolBlock → PoolBlock} {p : Ptr}
    (same : g (f (s.mem p)) = g (s.mem p)) (q : Ptr) : g ((s.modify p f).mem q) = g (s.mem q) := by
  by_cases here : q = p
  · subst here
    rw [modify_mem_self, same]
  · rw [modify_mem_ne s f here]

end Quiet

section Index

variable [Crypto] (consensus : Consensus)

def Stored (s : SideChain) (p : Ptr) : Prop :=
  s.blocksByTemplateId (s.templateId consensus p) = some p

instance (s : SideChain) (p : Ptr) : Decidable (s.Stored consensus p) :=
  inferInstanceAs (Decidable (s.blocksByTemplateId (s.templateId consensus p) = some p))

/-- The two indexes name the same blocks, each once. -/
structure Indexed (s : SideChain) : Prop where
  lookup : ∀ {id : Hash} {p : Ptr}, s.blocksByTemplateId id = some p →
    s.templateId consensus p = id ∧ p ∈ s.getPoolBlocksByHeight (s.mem p).side.height
  listed : ∀ {k : UInt64} {p : Ptr}, p ∈ s.getPoolBlocksByHeight k →
    (s.mem p).side.height = k ∧ s.Stored consensus p
  once : ∀ k, (s.getPoolBlocksByHeight k).Nodup
  nonempty : ∀ k, s.blocksByHeight k ≠ some []
  keysOnce : s.blocksByHeightKeys.Nodup
  keys : ∀ k, k ∈ s.blocksByHeightKeys ↔ (s.blocksByHeight k).isSome = true

variable {consensus} {s s' : SideChain}

namespace Indexed

theorem mem_iff (indexed : Indexed consensus s) (k : UInt64) (p : Ptr) :
    p ∈ s.getPoolBlocksByHeight k ↔ s.Stored consensus p ∧ (s.mem p).side.height = k := by
  constructor
  · exact fun mem => ⟨(indexed.listed mem).2, (indexed.listed mem).1⟩
  · rintro ⟨stored, rfl⟩
    exact (indexed.lookup stored).2

theorem stored (indexed : Indexed consensus s) {id : Hash} {p : Ptr}
    (found : s.blocksByTemplateId id = some p) : s.Stored consensus p := by
  rwa [Stored, (indexed.lookup found).1]

theorem isSome_iff (indexed : Indexed consensus s) (k : UInt64) :
    (s.blocksByHeight k).isSome = true ↔ s.getPoolBlocksByHeight k ≠ [] := by
  unfold getPoolBlocksByHeight
  cases found : s.blocksByHeight k with
  | none => simp
  | some v =>
    have := indexed.nonempty k
    rw [found] at this
    simpa using this

theorem mem_keys_iff (indexed : Indexed consensus s) (k : UInt64) :
    k ∈ s.blocksByHeightKeys ↔ ∃ p, s.Stored consensus p ∧ (s.mem p).side.height = k := by
  rw [indexed.keys, indexed.isSome_iff]
  simp only [← indexed.mem_iff]
  exact ⟨List.exists_mem_of_ne_nil _, fun ⟨_, mem⟩ => List.ne_nil_of_mem mem⟩

theorem mem_keys (indexed : Indexed consensus s) {p : Ptr} (stored : s.Stored consensus p) :
    (s.mem p).side.height ∈ s.blocksByHeightKeys :=
  (indexed.mem_keys_iff _).mpr ⟨p, stored, rfl⟩

theorem congr (indexed : Indexed consensus s) (e : Evolves s s')
    (lookup : s'.blocksByTemplateId = s.blocksByTemplateId) (atHeight : s'.blocksByHeight = s.blocksByHeight)
    (keys : s'.blocksByHeightKeys.Perm s.blocksByHeightKeys) : Indexed consensus s' where
  lookup := by
    intro id p found
    rw [e.templateId consensus, e.side, getPoolBlocksByHeight, atHeight]
    exact indexed.lookup (lookup ▸ found)
  listed := by
    intro k p mem
    rw [getPoolBlocksByHeight, atHeight] at mem
    rw [Stored, e.templateId consensus, e.side, lookup]
    exact indexed.listed mem
  once k := by
    rw [getPoolBlocksByHeight, atHeight]
    exact indexed.once k
  nonempty k := by
    rw [atHeight]
    exact indexed.nonempty k
  keysOnce := keys.nodup_iff.mpr indexed.keysOnce
  keys k := by
    rw [keys.mem_iff, atHeight]
    exact indexed.keys k

end Indexed

theorem indexed_newSideChain : Indexed consensus (newSideChain consensus) where
  lookup found := nomatch found
  listed mem := nomatch mem
  once _ := List.nodup_nil
  nonempty _ := nofun
  keysOnce := List.nodup_nil
  keys _ := ⟨nofun, nofun⟩

/-! ## Insertion -/

variable {b : PoolBlock}
variable {p : Ptr} {id : Hash}

theorem insertBlock_blocksByHeightKeys : (s.insertBlock consensus b).blocksByHeightKeys =
    if (s.blocksByHeight b.side.height).isSome then s.blocksByHeightKeys
    else s.blocksByHeightKeys ++ [b.side.height] := by
  unfold insertBlock
  dsimp only
  split_ifs <;> split <;> simp_all [emit]

theorem insertBlock_blocksByHeightKeysSorted :
    (s.insertBlock consensus b).blocksByHeightKeysSorted =
      if (s.blocksByHeight b.side.height).isSome then s.blocksByHeightKeysSorted
      else s.blocksByHeightKeysSorted && s.blocksByHeightKeys.getLast?.any (· + 1 == b.side.height) := by
  unfold insertBlock
  dsimp only
  split_ifs <;> split <;> simp_all [emit]

theorem insertBlock_mem_self : (s.insertBlock consensus b).mem s.next = b := by
  rw [insertBlock_mem, Function.update_self]

theorem insertBlock_mem_of_lt (alloc : p < s.next) : (s.insertBlock consensus b).mem p = s.mem p := by
  rw [insertBlock_mem, Function.update_of_ne (Nat.ne_of_lt alloc)]

theorem templateId_insertBlock_of_lt (alloc : p < s.next) :
    (s.insertBlock consensus b).templateId consensus p = s.templateId consensus p := by
  rw [templateId, insertBlock_mem_of_lt alloc, templateId]

theorem templateId_insertBlock_self :
    (s.insertBlock consensus b).templateId consensus s.next = b.sideTemplateId consensus := by
  rw [templateId, insertBlock_mem_self]

theorem stored_insertBlock_self : (s.insertBlock consensus b).Stored consensus s.next := by
  rw [Stored, templateId_insertBlock_self, insertBlock_blocksByTemplateId, Function.update_self]

theorem lookup_insertBlock (found : (s.insertBlock consensus b).blocksByTemplateId id = some p) :
    (id = b.sideTemplateId consensus ∧ p = s.next) ∨ s.blocksByTemplateId id = some p := by
  rw [insertBlock_blocksByTemplateId] at found
  by_cases same : id = b.sideTemplateId consensus
  · rw [same, Function.update_self] at found
    exact .inl ⟨same, (Option.some.inj found).symm⟩
  · rw [Function.update_of_ne same] at found
    exact .inr found

theorem lookup_insertBlock_of_some (fresh : s.blocksByTemplateId (b.sideTemplateId consensus) = none)
    (found : s.blocksByTemplateId id = some p) :
    (s.insertBlock consensus b).blocksByTemplateId id = some p := by
  rw [insertBlock_blocksByTemplateId, Function.update_of_ne, found]
  rintro rfl
  rw [fresh] at found
  cases found

theorem mem_atHeight_insertBlock {k : UInt64} : p ∈ (s.insertBlock consensus b).getPoolBlocksByHeight k ↔
      p ∈ s.getPoolBlocksByHeight k ∨ (k = b.side.height ∧ p = s.next) := by
  rw [getPoolBlocksByHeight_insertBlock]
  split_ifs with same
  · simp [same]
  · simp [same]

theorem indexed_insertBlock {N : Ptr} (wf : Wf N s) (indexed : Indexed consensus s)
    (fresh : s.blocksByTemplateId (b.sideTemplateId consensus) = none) :
    Indexed consensus (s.insertBlock consensus b) where
  lookup := by
    intro id p found
    rcases lookup_insertBlock found with ⟨rfl, rfl⟩ | old
    · rw [templateId_insertBlock_self, insertBlock_mem_self]
      exact ⟨rfl, mem_atHeight_insertBlock.mpr (.inr ⟨rfl, rfl⟩)⟩
    · have alloc := wf.lookup id p old
      rw [templateId_insertBlock_of_lt alloc, insertBlock_mem_of_lt alloc]
      exact ⟨(indexed.lookup old).1, mem_atHeight_insertBlock.mpr (.inl (indexed.lookup old).2)⟩
  listed := by
    intro k p mem
    rcases mem_atHeight_insertBlock.mp mem with old | ⟨rfl, rfl⟩
    · have alloc := wf.atHeight k p old
      obtain ⟨height, stored⟩ := indexed.listed old
      rw [Stored, templateId_insertBlock_of_lt alloc, insertBlock_mem_of_lt alloc]
      exact ⟨height, lookup_insertBlock_of_some fresh stored⟩
    · rw [insertBlock_mem_self]
      exact ⟨rfl, stored_insertBlock_self⟩
  once k := by
    rw [getPoolBlocksByHeight_insertBlock]
    split_ifs
    · refine List.Nodup.append (indexed.once k) (List.nodup_singleton _) ?_
      rw [List.disjoint_singleton]
      exact fun mem => Nat.lt_irrefl _ (wf.atHeight k _ mem)
    · exact indexed.once k
  nonempty k := by
    rw [insertBlock_blocksByHeight]
    by_cases same : k = b.side.height
    · subst same
      simp
    · rw [Function.update_of_ne same]
      exact indexed.nonempty k
  keysOnce := by
    rw [insertBlock_blocksByHeightKeys]
    split_ifs with used
    · exact indexed.keysOnce
    · refine List.Nodup.append indexed.keysOnce (List.nodup_singleton _) ?_
      rw [List.disjoint_singleton, indexed.keys]
      exact used
  keys k := by
    rw [insertBlock_blocksByHeightKeys, insertBlock_blocksByHeight]
    by_cases same : k = b.side.height
    · subst same
      split_ifs with used
      · simp [indexed.keys, used]
      · simp
    · rw [Function.update_of_ne same, ← indexed.keys k]
      split_ifs
      · rfl
      · simp [same]

theorem Indexed.quiet (indexed : Indexed consensus s) (e : Evolves s s') (q : Quiet s s') :
    Indexed consensus s' :=
  indexed.congr e q.lookup q.atHeight (by rw [q.keys])

end Index

/-! ## Steps of a call -/

section Calls

variable [Uint128Package] [Crypto] {consensus : Consensus} {s s' : SideChain}

theorem ChainStep.quiet_or_adopts {server : Server} {N : Ptr} (step : ChainStep consensus server N s s') :
    Quiet s s' ∨ ∃ block diff isAlternative, Adopts consensus server N s block diff isAlternative ∧
      adoptTip consensus server s block diff isAlternative = .ok s' := by
  cases step with
  | depth p d =>
    left
    unfold updateDepth
    split_ifs
    · exact quiet_modify s p _
    · exact .refl s
  | reject | postpone => exact .inl (quiet_modify s _ _)
  | @accept block =>
    obtain ⟨indices, eq⟩ := s.markVerified_eq block
    rw [eq]
    exact .inl (quiet_modify s _ _)
  | broadcast p send => exact .inl (quiet_broadcastOnce s p send)
  | store p => exact .inl (quiet_emit s nofun)
  | syncTip p =>
    left
    unfold updateSyncTip
    split_ifs
    · exact ⟨rfl, rfl, rfl, rfl, rfl, rfl, fun _ _ mem => mem⟩
    · exact .refl s
  | adopt adopts pruned => exact .inr ⟨_, _, _, adopts, pruned⟩

/-! ## Runs of calls -/

variable (consensus) in
/-- The states between the calls of a run: each call adds a freshly decoded block, for which
`Allowed` holds in the state it finds, and returns. -/
inductive ReachableWhen (Allowed : SideChain → PoolBlock → Prop) : SideChain → Prop
  | new : ReachableWhen Allowed (newSideChain consensus)
  | add {s t : SideChain} {b : PoolBlock} {server : Server} {fuel : Nat} {err : Option String}
      (before : ReachableWhen Allowed s) (decoded : b.Decoded) (allowed : Allowed s b)
      (run : addPoolBlock consensus server fuel s b = .ok (t, err)) : ReachableWhen Allowed t

variable (consensus) in
abbrev Reachable : SideChain → Prop := ReachableWhen consensus fun _ _ => True

omit [Uint128Package] [Crypto] in
theorem wf_newSideChain : Wf (newSideChain consensus).next (newSideChain consensus) where
  lookup _ _ found := nomatch found
  atHeight _ _ mem := nomatch mem
  cached _ _ filled := nomatch filled
  fresh _ _ := rfl
  settled _ alloc := absurd alloc (Nat.not_lt_zero _)

theorem ReachableWhen.wf {Allowed : SideChain → PoolBlock → Prop}
    (reachable : ReachableWhen consensus Allowed s) : Wf s.next s := by
  induction reachable with
  | new => exact wf_newSideChain
  | add _ decoded _ run wf => exact wf_addPoolBlock wf decoded run

theorem ReachableWhen.inv {Allowed : SideChain → PoolBlock → Prop} {P : SideChain → Prop}
    (reachable : ReachableWhen consensus Allowed s) (new : P (newSideChain consensus))
    (insert : ∀ s b, Wf s.next s → P s → b.Decoded → Allowed s b →
      Enters consensus s b → P (s.insertBlock consensus b))
    (step : ∀ server N s s', Wf N s → P s → ChainStep consensus server N s s' → P s') : P s := by
  induction reachable with
  | new => exact new
  | @add s t b server fuel err before decoded allowed run holds =>
    have call : (∃ err, addPoolBlock consensus server fuel s b = .ok (s, err)) ∨ _ ∧ _ :=
      addPoolBlock_cases before.wf decoded
    rw [run] at call
    rcases call with ⟨err', same⟩ | ⟨enters, runs⟩
    · cases same
      exact holds
    · have keep : ∀ u u', Wf s.next u ∧ P u → ChainStep consensus server s.next u u' →
          Wf s.next u' ∧ P u' :=
        fun u u' inv one => ⟨inv.1.evolves one.evolves, step server _ u u' inv.1 inv.2 one⟩
      have start : Wf s.next (s.insertBlock consensus b) ∧ P (s.insertBlock consensus b) :=
        ⟨wf_insertBlock before.wf decoded, insert s b before.wf holds decoded allowed enters⟩
      exact (reaches_inv keep start runs).2

end Calls

end SideChain

end P2PoolObserver
