/-
# Sidechain.Pruning -- what one pass of `pruneOldBlocks` removes

`pruneOldBlocks` visits heights and, at each of them, removes the blocks that are
`prunable`.  Which heights it visits depends only on the keys and on which heights
become empty (`rangeDelete`), so the pass is: compute the visited heights, then prune
each of them (`pruneOldBlocks_spec`).
-/
import P2PoolObserver.Sidechain.StoreIndex
import P2PoolObserver.Lib.Slots

namespace P2PoolObserver

open Lib

namespace SideChain

/-! ## The state around the loop over the heights -/

section Frames

variable (s : SideChain)

theorem sortKeys_keys : s.sortKeys.blocksByHeightKeys =
    if s.blocksByHeightKeysSorted then s.blocksByHeightKeys
    else s.blocksByHeightKeys.insertionSort (· ≤ ·) := by
  unfold sortKeys
  split_ifs <;> rfl

@[simp] theorem sortKeys_sorted : s.sortKeys.blocksByHeightKeysSorted = true := by
  unfold sortKeys
  split_ifs with sorted
  · exact sorted
  · rfl

theorem sortKeys_frame : s.sortKeys = { s with
    blocksByHeightKeys := s.sortKeys.blocksByHeightKeys
    blocksByHeightKeysSorted := s.sortKeys.blocksByHeightKeysSorted } := by
  unfold sortKeys
  split_ifs <;> rfl

theorem sortKeys_perm : s.sortKeys.blocksByHeightKeys.Perm s.blocksByHeightKeys := by
  rw [sortKeys_keys]
  split_ifs
  · exact List.Perm.refl _
  · exact List.perm_insertionSort _ _

variable (block : Ptr) (diff : Difficulty) (isAlternative : Bool)

theorem withTip_frame : s.withTip block diff isAlternative = { s with
    mem := Function.update s.mem block { s.mem block with wantBroadcast := true }
    chainTip := some block
    syncTip := some block
    currentDifficulty := diff
    precalcFinished := s.precalcFinished || isAlternative
    events := s.events ++ [.updateTip block] } := by
  unfold withTip
  cases isAlternative with
  | false | true => simp [emit, modify]

theorem withTip_mem (p : Ptr) : ∃ wanted,
    (s.withTip block diff isAlternative).mem p = { s.mem p with wantBroadcast := wanted } := by
  rw [withTip_frame]
  by_cases same : p = block
  · subst same
    exact ⟨true, by simp⟩
  · exact ⟨(s.mem p).wantBroadcast, by simp [same]⟩

end Frames

section Heights

variable [Crypto] (consensus : Consensus) (server : Server)

/-! ## One height -/

def emptyCache (b : PoolBlock) : PoolBlock := { b with iterationCache := none }

theorem deleteBlock_mem (s : SideChain) (height : UInt64) (p : Ptr) :
    (s.deleteBlock consensus height p).mem = Function.update s.mem p (emptyCache (s.mem p)) := by
  unfold deleteBlock
  dsimp only
  split_ifs <;> rfl

theorem deleteBlock_lookup (s : SideChain) (height : UInt64) (p : Ptr) :
    (s.deleteBlock consensus height p).blocksByTemplateId =
      Function.update s.blocksByTemplateId (s.templateId consensus p) none := by
  unfold deleteBlock
  dsimp only
  split_ifs with found
  · rfl
  · rw [Option.not_isSome_iff_eq_none] at found
    show s.blocksByTemplateId = _
    rw [← found, Function.update_eq_self]

variable (height : UInt64) (s : SideChain)

theorem pruneBlocks_mem : ∀ (v : List Ptr) (p : Ptr),
    (pruneBlocks consensus server height s v).1.mem p =
      if p ∈ v ∧ prunable consensus server (s.mem p) then emptyCache (s.mem p) else s.mem p
  | [], p => by simp [pruneBlocks]
  | q :: rest, p => by
    have before := pruneBlocks_mem rest
    have same : prunable consensus server ((pruneBlocks consensus server height s rest).1.mem q) =
        prunable consensus server (s.mem q) := by
      rw [before q]
      split_ifs <;> rfl
    have cons := pruneBlocks_cons consensus server height s q rest
    rw [same] at cons
    split_ifs at cons with old <;> obtain ⟨chain, -⟩ := Prod.mk.inj cons <;> rw [chain]
    · rw [deleteBlock_mem]
      by_cases here : p = q
      · subst here
        rw [Function.update_self, before p]
        simp only [List.mem_cons, true_or, old, and_self, if_true]
        split_ifs <;> rfl
      · rw [Function.update_of_ne here, before p]
        simp [here]
    · rw [before p]
      by_cases here : p = q
      · subst here
        simp [old]
      · simp [here]

theorem prunable_pruneBlocks (v : List Ptr) (p : Ptr) :
    prunable consensus server ((pruneBlocks consensus server height s v).1.mem p) =
      prunable consensus server (s.mem p) := by
  rw [pruneBlocks_mem]
  split_ifs <;> rfl

theorem pruneBlocks_kept : ∀ v : List Ptr,
    (pruneBlocks consensus server height s v).2.1 =
      v.filter fun p => !prunable consensus server (s.mem p)
  | [] => rfl
  | q :: rest => by
    have cons := pruneBlocks_cons consensus server height s q rest
    rw [prunable_pruneBlocks] at cons
    split_ifs at cons with old <;> obtain ⟨-, kept⟩ := Prod.mk.inj cons <;>
      rw [kept, pruneBlocks_kept rest]
    · simp [old]
    · simp [old]

theorem pruneBlocks_lookup : ∀ (v : List Ptr) (id : Hash),
    (pruneBlocks consensus server height s v).1.blocksByTemplateId id =
      if ∃ p ∈ v, prunable consensus server (s.mem p) ∧ s.templateId consensus p = id then none
      else s.blocksByTemplateId id
  | [], id => by simp [pruneBlocks]
  | q :: rest, id => by
    have before := pruneBlocks_lookup rest id
    have named := (evolves_pruneBlocks consensus server height s rest).1.templateId consensus q
    have cons := pruneBlocks_cons consensus server height s q rest
    rw [prunable_pruneBlocks] at cons
    simp only [List.exists_mem_cons_iff]
    split_ifs at cons with old <;> obtain ⟨chain, -⟩ := Prod.mk.inj cons <;> rw [chain]
    · rw [deleteBlock_lookup, named]
      by_cases here : id = s.templateId consensus q
      · rw [here, Function.update_self, if_pos (.inl ⟨old, rfl⟩)]
      · rw [Function.update_of_ne here, before]
        simp only [old, true_and, Ne.symm here, false_or]
    · rw [before]
      simp only [old, Bool.false_eq_true, false_and, false_or]

theorem pruneBlocks_events : ∀ (v : List Ptr), v.Nodup →
    (∀ p ∈ v, s.blocksByTemplateId (s.templateId consensus p) = some p) →
      (pruneBlocks consensus server height s v).1.events = s.events
  | [], _, _ => rfl
  | q :: rest, nodup, stored => by
    obtain ⟨fresh, nodup⟩ := List.nodup_cons.mp nodup
    have before := pruneBlocks_events rest nodup fun p mem => stored p (.tail q mem)
    have named := (evolves_pruneBlocks consensus server height s rest).1.templateId consensus q
    have cons := pruneBlocks_cons consensus server height s q rest
    split_ifs at cons with old <;> obtain ⟨chain, -⟩ := Prod.mk.inj cons <;> rw [chain]
    · have found : (pruneBlocks consensus server height s rest).1.blocksByTemplateId
          (s.templateId consensus q) = some q := by
        rw [pruneBlocks_lookup, if_neg, stored q List.mem_cons_self]
        -- another block of the same id would be this one
        rintro ⟨p, mem, -, same⟩
        have twice := stored p (.tail q mem)
        rw [same, stored q List.mem_cons_self] at twice
        cases twice
        exact fresh mem
      rw [← before]
      unfold deleteBlock
      dsimp only
      rw [named, if_pos (by rw [found]; rfl)]
      rfl
    · exact before

def pruneHeight : SideChain :=
  let r := pruneBlocks consensus server height s (s.getPoolBlocksByHeight height)
  { r.1 with
    blocksByHeight := Function.update s.blocksByHeight height (if r.2.1 = [] then none else some r.2.1) }

def emptied : Bool := (s.getPoolBlocksByHeight height).all fun p => prunable consensus server (s.mem p)

variable {height s}

theorem pruneBlocks_nil_iff : (pruneBlocks consensus server height s
    (s.getPoolBlocksByHeight height)).2.1 = [] ↔ emptied consensus server height s = true := by
  rw [pruneBlocks_kept, List.filter_eq_nil_iff, emptied, List.all_eq_true]
  simp

@[simp] theorem pruneHeight_sorted :
    (pruneHeight consensus server height s).blocksByHeightKeysSorted = s.blocksByHeightKeysSorted := by
  unfold pruneHeight
  dsimp only
  rw [pruneBlocks_frame]

theorem pruneHeight_mem (p : Ptr) : (pruneHeight consensus server height s).mem p =
    if p ∈ s.getPoolBlocksByHeight height ∧ prunable consensus server (s.mem p) then emptyCache (s.mem p)
    else s.mem p :=
  pruneBlocks_mem consensus server height s _ p

theorem prunable_pruneHeight (p : Ptr) :
    prunable consensus server ((pruneHeight consensus server height s).mem p) =
      prunable consensus server (s.mem p) :=
  prunable_pruneBlocks consensus server height s _ p

theorem pruneHeight_lookup (id : Hash) : (pruneHeight consensus server height s).blocksByTemplateId id =
    if ∃ p ∈ s.getPoolBlocksByHeight height, prunable consensus server (s.mem p) ∧
      s.templateId consensus p = id then none else s.blocksByTemplateId id :=
  pruneBlocks_lookup consensus server height s _ id

theorem pruneHeight_blocksByHeight (k : UInt64) :
    (pruneHeight consensus server height s).blocksByHeight k =
      if k = height then
        if emptied consensus server height s then none
        else some ((s.getPoolBlocksByHeight k).filter fun p => !prunable consensus server (s.mem p))
      else s.blocksByHeight k := by
  unfold pruneHeight
  dsimp only
  by_cases here : k = height
  · subst here
    rw [Function.update_self, if_pos rfl]
    simp only [pruneBlocks_nil_iff]
    rw [pruneBlocks_kept]
  · rw [Function.update_of_ne here, if_neg here]

theorem pruneHeight_atHeight (k : UInt64) :
    (pruneHeight consensus server height s).getPoolBlocksByHeight k =
      if k = height then (s.getPoolBlocksByHeight k).filter fun p => !prunable consensus server (s.mem p)
      else s.getPoolBlocksByHeight k := by
  unfold getPoolBlocksByHeight
  rw [pruneHeight_blocksByHeight]
  split_ifs with here empty
  · subst here
    rw [← pruneBlocks_nil_iff, pruneBlocks_kept] at empty
    exact empty.symm
  · rfl
  · rfl

theorem emptied_pruneHeight (k : UInt64) :
    emptied consensus server k (pruneHeight consensus server height s) = emptied consensus server k s := by
  unfold emptied
  simp only [prunable_pruneHeight]
  rw [pruneHeight_atHeight]
  split_ifs with here
  · rw [Bool.eq_iff_iff, List.all_eq_true, List.all_eq_true]
    constructor
    · intro all p mem
      by_contra young
      exact young (all p (List.mem_filter.mpr ⟨mem, by simpa using young⟩))
    · exact fun all p mem => all p (List.mem_of_mem_filter mem)
  · rfl

/-! ## What a pass does to the store -/

variable (s) in
def Gone (visited : List UInt64) (p : Ptr) : Prop :=
  s.Stored consensus p ∧ (s.mem p).side.height ∈ visited ∧ prunable consensus server (s.mem p) = true

/-- `t` is `s` without the old blocks at the visited heights. -/
structure Pruned (s : SideChain) (visited : List UInt64) (t : SideChain) : Prop where
  evolves : Evolves s t
  lookup : ∀ id p, t.blocksByTemplateId id = some p ↔
    s.blocksByTemplateId id = some p ∧ ¬ Gone consensus server s visited p
  gone : ∀ p, Gone consensus server s visited p → t.mem p = emptyCache (s.mem p)
  kept : ∀ p, ¬ Gone consensus server s visited p → t.mem p = s.mem p
  events : t.events = s.events
  chainTip : t.chainTip = s.chainTip
  currentDifficulty : t.currentDifficulty = s.currentDifficulty

variable {consensus server} {t u : SideChain} {visited : List UInt64}

theorem gone_nil (p : Ptr) : ¬ Gone consensus server s [] p := fun gone => nomatch gone.2.1

theorem Pruned.nil (s : SideChain) : Pruned consensus server s [] s where
  evolves := .refl s
  lookup _ p := ⟨fun found => ⟨found, gone_nil p⟩, fun found => found.1⟩
  gone p gone := absurd gone (gone_nil p)
  kept _ _ := rfl
  events := rfl
  chainTip := rfl
  currentDifficulty := rfl

namespace Pruned

theorem stored_iff (pruned : Pruned consensus server s visited t) (p : Ptr) :
    t.Stored consensus p ↔ s.Stored consensus p ∧ ¬ Gone consensus server s visited p := by
  rw [Stored, pruned.evolves.templateId consensus, pruned.lookup, Stored]

theorem keeps {α : Type} {g : PoolBlock → α} (pruned : Pruned consensus server s visited t)
    (same : ∀ b, g (emptyCache b) = g b) (p : Ptr) : g (t.mem p) = g (s.mem p) := by
  by_cases gone : Gone consensus server s visited p
  · rw [pruned.gone p gone, same]
  · rw [pruned.kept p gone]

theorem prunable_eq (pruned : Pruned consensus server s visited t) (p : Ptr) :
    prunable consensus server (t.mem p) = prunable consensus server (s.mem p) :=
  pruned.keeps (fun _ => rfl) p

theorem gone_cons_iff {k : UInt64} (first : Pruned consensus server s [k] t) (visited : List UInt64)
    (p : Ptr) : Gone consensus server s (k :: visited) p ↔
      Gone consensus server s [k] p ∨ Gone consensus server t visited p := by
  unfold Gone
  rw [first.stored_iff, first.evolves.side, first.prunable_eq, List.mem_cons, List.mem_singleton]
  constructor
  · rintro ⟨stored, here | later, old⟩
    · exact .inl ⟨stored, here, old⟩
    · by_cases gone : Gone consensus server s [k] p
      · exact .inl ⟨stored, List.mem_singleton.mp gone.2.1, old⟩
      · exact .inr ⟨⟨stored, gone⟩, later, old⟩
  · rintro (⟨stored, here, old⟩ | ⟨⟨stored, -⟩, later, old⟩)
    · exact ⟨stored, .inl here, old⟩
    · exact ⟨stored, .inr later, old⟩

theorem cons {k : UInt64} (first : Pruned consensus server s [k] t)
    (second : Pruned consensus server t visited u) : Pruned consensus server s (k :: visited) u where
  evolves := first.evolves.trans second.evolves
  lookup id p := by
    rw [second.lookup, first.lookup, first.gone_cons_iff visited, not_or, and_assoc]
  gone p gone := by
    rcases (first.gone_cons_iff visited p).mp gone with here | later
    · have notLater : ¬ Gone consensus server t visited p := fun later =>
        ((first.stored_iff p).mp later.1).2 here
      rw [second.kept p notLater, first.gone p here]
    · have notHere : ¬ Gone consensus server s [k] p := ((first.stored_iff p).mp later.1).2
      rw [second.gone p later, first.kept p notHere]
  kept p kept := by
    rw [first.gone_cons_iff, not_or] at kept
    rw [second.kept p kept.2, first.kept p kept.1]
  events := second.events.trans first.events
  chainTip := second.chainTip.trans first.chainTip
  currentDifficulty := second.currentDifficulty.trans first.currentDifficulty

end Pruned

def withKeys (s : SideChain) (keys : List UInt64) : SideChain := { s with blocksByHeightKeys := keys }

theorem gone_singleton_iff (indexed : Indexed consensus s) (p : Ptr) : Gone consensus server s [height] p ↔
      p ∈ s.getPoolBlocksByHeight height ∧ prunable consensus server (s.mem p) = true := by
  rw [Gone, indexed.mem_iff, List.mem_singleton, and_assoc]

theorem pruned_pruneHeight (indexed : Indexed consensus s) (height : UInt64) (keys : List UInt64) :
    Pruned consensus server s [height] ((pruneHeight consensus server height s).withKeys keys) where
  evolves := by
    obtain ⟨blocks, kept⟩ :=
      evolves_pruneBlocks consensus server height s (s.getPoolBlocksByHeight height)
    have lists : (pruneBlocks consensus server height s
        (s.getPoolBlocksByHeight height)).1.blocksByHeight = s.blocksByHeight := by
      rw [pruneBlocks_frame]
    refine blocks.trans ?_
    unfold pruneHeight withKeys
    dsimp only
    rw [← lists]
    refine evolves_putHeight _ height _ keys fun p mem => ?_
    rw [getPoolBlocksByHeight, lists]
    split_ifs at mem
    · cases mem
    · exact kept.subset mem
  lookup id p := by
    show (pruneHeight consensus server height s).blocksByTemplateId id = some p ↔ _
    rw [pruneHeight_lookup, gone_singleton_iff indexed]
    split_ifs with removed
    · obtain ⟨q, mem, old, rfl⟩ := removed
      have stored := (indexed.listed mem).2
      refine ⟨fun found => (by cases found), fun found => ?_⟩
      rw [stored] at found
      cases found.1
      exact absurd ⟨mem, old⟩ found.2
    · refine ⟨fun found => ⟨found, fun old => removed ⟨p, old.1, old.2, ?_⟩⟩, fun found => found.1⟩
      exact (indexed.lookup found).1
  gone p gone := by
    rw [gone_singleton_iff indexed] at gone
    exact (pruneHeight_mem consensus server p).trans (if_pos gone)
  kept p kept := by
    rw [gone_singleton_iff indexed] at kept
    exact (pruneHeight_mem consensus server p).trans (if_neg kept)
  events := pruneBlocks_events consensus server height s _ (indexed.once height)
    fun p mem => (indexed.listed mem).2
  chainTip := by
    show (pruneBlocks consensus server height s _).1.chainTip = _
    rw [pruneBlocks_frame]
  currentDifficulty := by
    show (pruneBlocks consensus server height s _).1.currentDifficulty = _
    rw [pruneBlocks_frame]

theorem indexed_pruneHeight (indexed : Indexed consensus s) {height : UInt64} {keys : List UInt64}
    (once : keys.Nodup) (left : ∀ k, k ∈ keys ↔
      k ∈ s.blocksByHeightKeys ∧ ¬ (k = height ∧ emptied consensus server height s = true)) :
    Indexed consensus ((pruneHeight consensus server height s).withKeys keys) := by
  have pruned : Pruned consensus server s [height] ((pruneHeight consensus server height s).withKeys keys) :=
    pruned_pruneHeight indexed height keys
  have lists : ∀ k, ((pruneHeight consensus server height s).withKeys keys).getPoolBlocksByHeight k = _ :=
    pruneHeight_atHeight consensus server
  have mem_iff : ∀ k p, p ∈ ((pruneHeight consensus server height s).withKeys keys).getPoolBlocksByHeight k ↔
      p ∈ s.getPoolBlocksByHeight k ∧ ¬ Gone consensus server s [height] p := by
    intro k p
    rw [lists, gone_singleton_iff indexed]
    split_ifs with here
    · subst here
      rw [List.mem_filter, Bool.not_eq_true', ← Bool.not_eq_true]
      exact and_congr_right fun mem => ⟨fun young gone => young gone.2, fun kept old => kept ⟨mem, old⟩⟩
    · refine ⟨fun mem => ⟨mem, fun gone => here ?_⟩, And.left⟩
      exact (indexed.listed mem).1.symm.trans (indexed.listed gone.1).1
  refine ⟨fun {id p} found => ?_, fun {k p} mem => ?_, fun k => ?_, fun k => ?_, once, fun k => ?_⟩
  · obtain ⟨found, kept⟩ := (pruned.lookup id p).mp found
    rw [pruned.evolves.templateId consensus, pruned.evolves.side, mem_iff]
    exact ⟨(indexed.lookup found).1, (indexed.lookup found).2, kept⟩
  · obtain ⟨mem, kept⟩ := (mem_iff k p).mp mem
    rw [pruned.stored_iff, pruned.evolves.side]
    exact ⟨(indexed.listed mem).1, (indexed.listed mem).2, kept⟩
  · rw [lists]
    split_ifs
    · exact (indexed.once k).filter _
    · exact indexed.once k
  · show (pruneHeight consensus server height s).blocksByHeight k ≠ some []
    rw [pruneHeight_blocksByHeight]
    split_ifs with here empty
    · nofun
    · subst here
      rw [← pruneBlocks_nil_iff, pruneBlocks_kept] at empty
      simpa using empty
    · exact indexed.nonempty k
  · show k ∈ keys ↔ ((pruneHeight consensus server height s).blocksByHeight k).isSome = true
    rw [pruneHeight_blocksByHeight, left, indexed.keys]
    split_ifs with here empty
    · simp [here, empty]
    · subst here
      simp only [Option.isSome_some, iff_true]
      refine ⟨(indexed.isSome_iff k).mpr fun none => empty ?_, fun ⟨_, all⟩ => empty all⟩
      rw [emptied, none]
      rfl
    · simp [here]

/-! ## The loop over the heights -/

variable (consensus server) in
def visitKeys (h : UInt64) (slots keyIndex : Nat) (s : SideChain) : Option (List UInt64 × List UInt64) :=
  rangeDelete 0 (fun k => decide (k > h)) (fun k => emptied consensus server k s) slots keyIndex
    s.blocksByHeightKeys

theorem visitKeys_withKeys (h height : UInt64) (slots keyIndex : Nat) (s : SideChain) (keys : List UInt64) :
    visitKeys consensus server h slots keyIndex ((pruneHeight consensus server height s).withKeys keys) =
      rangeDelete 0 (fun k => decide (k > h)) (fun k => emptied consensus server k s) slots keyIndex keys := by
  have same : ∀ k, emptied consensus server k ((pruneHeight consensus server height s).withKeys keys) =
      emptied consensus server k s := fun k => emptied_pruneHeight consensus server k
  unfold visitKeys
  simp only [same]
  rfl

theorem pruneKeys_succ (h : UInt64) (slots : Nat) {keyIndex : Nat} {s : SideChain} {height : UInt64}
    (key : s.blocksByHeightKeys.getD keyIndex 0 = height) (n : Nat) : ∃ n',
    pruneKeys consensus server h (slots + 1) keyIndex s n =
      if height > h then .ok (s, n)
      else if emptied consensus server height s then
        if keyIndex < s.blocksByHeightKeys.length then
          pruneKeys consensus server h slots (keyIndex + 1)
            ((pruneHeight consensus server height s).withKeys
              (s.blocksByHeightKeys.eraseIdx keyIndex)) n'
        else .error (.panic "slice bounds out of range")
      else pruneKeys consensus server h slots (keyIndex + 1)
        ((pruneHeight consensus server height s).withKeys s.blocksByHeightKeys) n' := by
  have keys : (pruneBlocks consensus server height s
      (s.getPoolBlocksByHeight height)).1.blocksByHeightKeys = s.blocksByHeightKeys := by
    rw [pruneBlocks_frame]
  have lists : (pruneBlocks consensus server height s
      (s.getPoolBlocksByHeight height)).1.blocksByHeight = s.blocksByHeight := by
    rw [pruneBlocks_frame]
  refine ⟨n + (pruneBlocks consensus server height s (s.getPoolBlocksByHeight height)).2.2, ?_⟩
  simp only [pruneKeys, key, pruneHeight, withKeys, ← pruneBlocks_nil_iff, keys, lists]
  split_ifs with high empty
  · rfl
  · rfl
  · rfl
  · rw [← keys]

theorem pruneKeys_keeps {α : Type} {g : PoolBlock → α} (same : ∀ b, g (emptyCache b) = g b) (h : UInt64) :
    ∀ (slots keyIndex : Nat) {s t : SideChain} {n n' : Nat},
      pruneKeys consensus server h slots keyIndex s n = .ok (t, n') → ∀ p, g (t.mem p) = g (s.mem p)
  | 0, _, s, t, n, n', run, p => by
    cases run
    rfl
  | slots + 1, keyIndex, s, t, n, n', run, p => by
    have once : ∀ height, g ((pruneHeight consensus server height s).mem p) = g (s.mem p) := by
      intro height
      rw [pruneHeight_mem]
      split_ifs
      · exact same _
      · rfl
    obtain ⟨m, unfolded⟩ : ∃ m, pruneKeys consensus server h (slots + 1) keyIndex s n = _ :=
      pruneKeys_succ h slots rfl n
    rw [unfolded] at run
    split_ifs at run
    · cases run
      rfl
    · exact (pruneKeys_keeps same h slots _ run p).trans (once _)
    · exact (pruneKeys_keeps same h slots _ run p).trans (once _)

theorem pruneKeys_spec (server : Server) (h : UInt64) : ∀ (slots keyIndex : Nat) {s : SideChain} (n : Nat),
    Indexed consensus s →
    match visitKeys consensus server h slots keyIndex s with
    | none => pruneKeys consensus server h slots keyIndex s n =
        .error (.panic "slice bounds out of range")
    | some (visited, keys) => ∃ t n', pruneKeys consensus server h slots keyIndex s n = .ok (t, n') ∧
        Indexed consensus t ∧ Pruned consensus server s visited t ∧ t.blocksByHeightKeys = keys ∧
        t.blocksByHeightKeysSorted = s.blocksByHeightKeysSorted
  | 0, _, s, n, indexed => ⟨s, n, rfl, indexed, .nil s, rfl, rfl⟩
  | slots + 1, keyIndex, s, n, indexed => by
    unfold visitKeys rangeDelete
    dsimp only
    generalize key : s.blocksByHeightKeys.getD keyIndex 0 = height
    obtain ⟨n', unfolded⟩ : ∃ n', pruneKeys consensus server h (slots + 1) keyIndex s n = _ :=
      pruneKeys_succ h slots key n
    rw [unfolded]
    by_cases high : height > h
    · rw [if_pos (by simpa using high), if_pos high]
      exact ⟨s, n, rfl, indexed, .nil s, rfl, rfl⟩
    · rw [if_neg (by simpa using high), if_neg high]
      -- one height pruned, and the loop goes on with the keys `keys`
      have onward : ∀ keys : List UInt64, keys.Nodup →
          (∀ k, k ∈ keys ↔ k ∈ s.blocksByHeightKeys ∧
            ¬ (k = height ∧ emptied consensus server height s = true)) →
          match (rangeDelete 0 (fun k => decide (k > h)) (fun k => emptied consensus server k s) slots
            (keyIndex + 1) keys).map fun r => (height :: r.1, r.2) with
          | none => pruneKeys consensus server h slots (keyIndex + 1)
              ((pruneHeight consensus server height s).withKeys keys) n' =
                .error (.panic "slice bounds out of range")
          | some (visited, left) => ∃ t n'', pruneKeys consensus server h slots (keyIndex + 1)
              ((pruneHeight consensus server height s).withKeys keys) n' = .ok (t, n'') ∧
              Indexed consensus t ∧ Pruned consensus server s visited t ∧ t.blocksByHeightKeys = left ∧
              t.blocksByHeightKeysSorted = s.blocksByHeightKeysSorted := by
        intro keys once left
        have rest := pruneKeys_spec server h slots (keyIndex + 1) n' (indexed_pruneHeight indexed once left)
        rw [visitKeys_withKeys] at rest
        cases more : rangeDelete 0 (fun k => decide (k > h)) (fun k => emptied consensus server k s)
            slots (keyIndex + 1) keys with
        | none =>
          rw [more] at rest
          exact rest
        | some r =>
          rw [more] at rest
          obtain ⟨t, n'', run, indexed', pruned, same, sorted⟩ := rest
          refine ⟨t, n'', run, indexed', (pruned_pruneHeight indexed height keys).cons pruned, same, ?_⟩
          rw [sorted]
          exact pruneHeight_sorted consensus server
      by_cases empty : emptied consensus server height s = true
      · rw [if_pos empty, if_pos empty]
        by_cases inRange : keyIndex < s.blocksByHeightKeys.length
        · rw [if_pos inRange, if_pos inRange]
          refine onward _ (indexed.keysOnce.eraseIdx keyIndex) fun k => ?_
          rw [List.getD_eq_getElem _ _ inRange] at key
          simp only [mem_eraseIdx_of_nodup indexed.keysOnce inRange, key, empty, and_true, ne_eq]
        · rw [if_neg inRange, if_neg inRange]
      · rw [if_neg empty, if_neg empty]
        refine onward _ indexed.keysOnce fun k => ?_
        simp [empty]

/-! ## The whole pass -/

theorem indexed_sortKeys (indexed : Indexed consensus s) : Indexed consensus s.sortKeys := by
  refine indexed.congr (evolves_sortKeys s) ?_ ?_ (sortKeys_perm s)
  · rw [sortKeys_frame]
  · rw [sortKeys_frame]

variable (consensus server) in
/-- The heights that a pass at prune height `h` visits and the keys it leaves; `none`
when the loop over the heights panics. -/
def visitedHeights (h : UInt64) (s : SideChain) : Option (List UInt64 × List UInt64) :=
  visitKeys consensus server h s.sortKeys.blocksByHeightKeys.length 0 s.sortKeys

theorem Pruned.of_sortKeys (pruned : Pruned consensus server s.sortKeys visited t) :
    Pruned consensus server s visited t := by
  obtain ⟨evolves, lookup, gone, kept, events, chainTip, currentDifficulty⟩ := pruned
  have evolves' := (evolves_sortKeys s).trans evolves
  rw [sortKeys_frame] at lookup gone kept events chainTip currentDifficulty
  exact ⟨evolves', lookup, gone, kept, events, chainTip, currentDifficulty⟩

theorem pruneOldBlocks_spec (server : Server) (indexed : Indexed consensus s) {tip : Ptr}
    (isTip : s.chainTip = some tip) (high : pruneDistance consensus ≤ (s.mem tip).side.height) :
    match visitedHeights consensus server ((s.mem tip).side.height - pruneDistance consensus) s with
    | none => pruneOldBlocks consensus server s = .error (.panic "slice bounds out of range")
    | some (visited, keys) => ∃ t, pruneOldBlocks consensus server s = .ok t ∧ Indexed consensus t ∧
        Pruned consensus server s visited t ∧ t.blocksByHeightKeys = keys ∧
        t.blocksByHeightKeysSorted = true := by
  have loop := pruneKeys_spec server ((s.mem tip).side.height - pruneDistance consensus)
    s.sortKeys.blocksByHeightKeys.length 0 0 (indexed_sortKeys indexed)
  unfold pruneOldBlocks visitedHeights
  rw [isTip]
  dsimp only
  rw [if_neg (UInt64.not_lt.mpr high)]
  cases visits : visitKeys consensus server ((s.mem tip).side.height - pruneDistance consensus)
      s.sortKeys.blocksByHeightKeys.length 0 s.sortKeys with
  | none =>
    rw [visits] at loop
    dsimp only at loop ⊢
    rw [loop]
    rfl
  | some r =>
    rw [visits] at loop
    obtain ⟨t, n, run, indexed', pruned, keys, sorted⟩ := loop
    rw [sortKeys_sorted] at sorted
    dsimp only
    rw [run]
    refine ⟨_, rfl, ?_⟩
    -- what is left to do concerns neither blocks nor indexes
    split_ifs
    · refine ⟨indexed'.congr (.of_same rfl rfl rfl rfl) rfl rfl (List.Perm.refl _), ?_, keys, sorted⟩
      obtain ⟨evolves, lookup, gone, kept, events, chainTip, currentDifficulty⟩ := pruned.of_sortKeys
      exact ⟨evolves.trans (.of_same rfl rfl rfl rfl), lookup, gone, kept, events, chainTip,
        currentDifficulty⟩
    · exact ⟨indexed', pruned.of_sortKeys, keys, sorted⟩

theorem pruned_pruneOldBlocks (indexed : Indexed consensus s)
    (run : pruneOldBlocks consensus server s = .ok t) :
    Indexed consensus t ∧ ∃ visited, Pruned consensus server s visited t := by
  cases isTip : s.chainTip with
  | none =>
    unfold pruneOldBlocks at run
    rw [isTip] at run
    cases run
    exact ⟨indexed, [], .nil s⟩
  | some tip =>
    by_cases high : pruneDistance consensus ≤ (s.mem tip).side.height
    · have pass := pruneOldBlocks_spec server indexed isTip high
      cases visits : visitedHeights consensus server
          ((s.mem tip).side.height - pruneDistance consensus) s with
      | none =>
        rw [visits] at pass
        exact absurd (run.symm.trans pass) nofun
      | some r =>
        rw [visits] at pass
        obtain ⟨t', run', indexed', pruned, -, -⟩ := pass
        rw [run] at run'
        cases run'
        exact ⟨indexed', r.1, pruned⟩
    · unfold pruneOldBlocks at run
      rw [isTip] at run
      dsimp only at run
      rw [if_pos (UInt64.not_le.mp high)] at run
      cases run
      exact ⟨indexed, [], .nil s⟩

/-! ## A new tip -/

theorem adoptTip_eq (s : SideChain) (block : Ptr) (diff : Difficulty) (isAlternative : Bool) :
    adoptTip consensus server s block diff isAlternative =
      pruneOldBlocks consensus server (s.withTip block diff isAlternative) := rfl

section WithTip

variable (s) (block : Ptr) (diff : Difficulty) (isAlternative : Bool)

theorem indexed_withTip (indexed : Indexed consensus s) :
    Indexed consensus (s.withTip block diff isAlternative) := by
  refine indexed.congr (evolves_withTip s block diff isAlternative) ?_ ?_ ?_
  · rw [withTip_frame]
  · rw [withTip_frame]
  · rw [withTip_frame]

end WithTip

theorem adoptTip_keeps {α : Type} {g : PoolBlock → α} (cache : ∀ b, g (emptyCache b) = g b)
    (wanted : ∀ (b : PoolBlock) w, g { b with wantBroadcast := w } = g b) {block : Ptr}
    {diff : Difficulty} {isAlternative : Bool}
    (run : adoptTip consensus server s block diff isAlternative = .ok t) (p : Ptr) :
    g (t.mem p) = g (s.mem p) := by
  have tipped : g ((s.withTip block diff isAlternative).mem p) = g (s.mem p) := by
    obtain ⟨w, same⟩ := s.withTip_mem block diff isAlternative p
    rw [same, wanted]
  have sorted : (s.withTip block diff isAlternative).sortKeys.mem =
      (s.withTip block diff isAlternative).mem := by
    rw [sortKeys_frame]
  rw [adoptTip_eq] at run
  unfold pruneOldBlocks at run
  split at run
  · cases run
    exact tipped
  · split_ifs at run
    · cases run
      exact tipped
    · obtain ⟨⟨u, n⟩, loop, done⟩ := except_bind_eq_ok.mp run
      have kept := pruneKeys_keeps cache _ _ _ loop p
      rw [sorted, tipped] at kept
      dsimp only at done
      split_ifs at done <;> cases done <;> exact kept

end Heights

section Calls

variable [Uint128Package] [Crypto] {consensus : Consensus} {server : Server} {s : SideChain}

theorem indexed_step {N : Ptr} {s' : SideChain} (indexed : Indexed consensus s)
    (step : ChainStep consensus server N s s') : Indexed consensus s' := by
  rcases step.quiet_or_adopts with quiet | ⟨block, diff, isAlternative, -, run⟩
  · exact indexed.quiet step.evolves quiet
  · exact (pruned_pruneOldBlocks (indexed_withTip s block diff isAlternative indexed) run).1

theorem indexed_reachable {Allowed : SideChain → PoolBlock → Prop}
    (reachable : ReachableWhen consensus Allowed s) : Indexed consensus s :=
  reachable.inv indexed_newSideChain
    (fun _ _ wf indexed _ _ enters => indexed_insertBlock wf indexed enters.fresh)
    (fun _ _ _ _ _ indexed step => indexed_step indexed step)

end Calls

end SideChain

end P2PoolObserver
