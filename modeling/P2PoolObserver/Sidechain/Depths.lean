/-
# Sidechain.Depths -- what the worklist of `updateDepths` does to depths

One iteration takes a block from the worklist and passes its depth on: to children and
nephews, to the parent, to the uncles.  Nothing but depths
changes (`Raised`).
-/
import P2PoolObserver.Sidechain.StoreIndex

namespace P2PoolObserver

open Lib

namespace SideChain

/-! ## Changes of depths only -/

/-- Depths have grown, and everything else is the same. -/
structure Raised (s s' : SideChain) : Prop where
  mem : ∀ p, s'.mem p = { s.mem p with depth := (s'.mem p).depth }
  depth : ∀ p, (s.mem p).depth ≤ (s'.mem p).depth
  frame : s' = { s with mem := s'.mem }

namespace Raised

variable {s s' s'' : SideChain}

theorem refl (s : SideChain) : Raised s s := ⟨fun _ => rfl, fun _ => UInt64.le_refl _, rfl⟩

theorem trans (first : Raised s s') (second : Raised s' s'') : Raised s s'' where
  mem p := by rw [second.mem p, first.mem p]
  depth p := UInt64.le_trans (first.depth p) (second.depth p)
  frame := by rw [second.frame, first.frame]

theorem keeps {α : Type} {g : PoolBlock → α} (raised : Raised s s')
    (same : ∀ (b : PoolBlock) d, g { b with depth := d } = g b) (p : Ptr) :
    g (s'.mem p) = g (s.mem p) := by
  rw [raised.mem p, same]

theorem side (raised : Raised s s') (p : Ptr) : (s'.mem p).side = (s.mem p).side :=
  raised.keeps (g := PoolBlock.side) (fun _ _ => rfl) p

theorem lookup (raised : Raised s s') : s'.blocksByTemplateId = s.blocksByTemplateId := by
  rw [raised.frame]

theorem atHeight (raised : Raised s s') (k : UInt64) :
    s'.getPoolBlocksByHeight k = s.getPoolBlocksByHeight k := by
  rw [raised.frame]
  rfl

theorem templateId [Crypto] (raised : Raised s s') (consensus : Consensus) (p : Ptr) :
    s'.templateId consensus p = s.templateId consensus p :=
  raised.keeps (g := fun b => b.sideTemplateId consensus) (fun _ _ => rfl) p

theorem iteratorGetParent (raised : Raised s s') (p : Ptr) :
    s'.view.iteratorGetParent p = s.view.iteratorGetParent p := by
  simp only [View.iteratorGetParent, view, raised.side, raised.lookup,
    raised.keeps (g := PoolBlock.iterationCache) (fun _ _ => rfl)]

theorem iteratorUncles (raised : Raised s s') (p : Ptr) :
    s'.view.iteratorUncles p = s.view.iteratorUncles p := by
  have uncles : (s'.view.block p).side = (s.view.block p).side := raised.side p
  have cache : (s'.view.block p).iterationCache = (s.view.block p).iterationCache :=
    raised.keeps (g := PoolBlock.iterationCache) (fun _ _ => rfl) p
  have lookup : s'.view.getByTemplateId = s.view.getByTemplateId := raised.lookup
  unfold View.iteratorUncles
  rw [cache, lookup]
  simp only [uncles]

end Raised

variable {s : SideChain} {q : Ptr} {n : UInt64}

theorem updateDepth_of_lt (deeper : (s.mem q).depth < n) :
    s.updateDepth q n = s.modify q fun b => { b with depth := n } := by
  rw [updateDepth, if_pos deeper]

theorem updateDepth_of_le (deep : n ≤ (s.mem q).depth) : s.updateDepth q n = s := by
  rw [updateDepth, if_neg (UInt64.not_lt.mpr deep)]

theorem updateDepth_depth_self (deeper : (s.mem q).depth < n) : ((s.updateDepth q n).mem q).depth = n := by
  rw [updateDepth_of_lt deeper, modify_mem_self]

theorem updateDepth_mem_ne (s : SideChain) {p : Ptr} (n : UInt64) (other : p ≠ q) :
    (s.updateDepth q n).mem p = s.mem p := by
  unfold updateDepth
  split_ifs
  · exact modify_mem_ne s _ other
  · rfl

theorem raised_updateDepth (s : SideChain) (q : Ptr) (n : UInt64) : Raised s (s.updateDepth q n) := by
  refine ⟨fun p => ?_, fun p => (evolves_updateDepth s q n).depth p, ?_⟩
  · by_cases here : p = q
    · subst here
      unfold updateDepth
      split_ifs
      · rw [modify_mem_self]
      · rfl
    · rw [updateDepth_mem_ne s n here]
  · unfold updateDepth
    split_ifs <;> rfl

theorem raise_cases (c : Prop) [Decidable c] (s : SideChain) (q : Ptr) (n : UInt64) :
    (if c then s.updateDepth q n else s) = s ∨
      c ∧ (s.mem q).depth < n ∧ (if c then s.updateDepth q n else s) = s.updateDepth q n := by
  split_ifs with holds
  · by_cases deeper : (s.mem q).depth < n
    · exact .inr ⟨holds, deeper, rfl⟩
    · exact .inl (updateDepth_of_le (UInt64.not_lt.mp deeper))
  · exact .inl rfl

theorem updateDepth_deeper (deeper : (s.mem q).depth < n) :
    (s.mem q).depth < ((s.updateDepth q n).mem q).depth := by
  rwa [updateDepth_depth_self deeper]

section Rules

variable [Crypto] (consensus : Consensus)

/-! ## The depth of a new block -/

/-- A block that the first loop of `updateDepths` finds above `block` and counts as on top
of it: a child, or, because of the comparison of the index with one, nearly any block. -/
structure CountsAbove (s : SideChain) (block child : Ptr) (i : UInt64) : Prop where
  near : i = 1 ∨ i = 2 ∨ i = 3
  listed : child ∈ s.getPoolBlocksByHeight ((s.mem block).side.height + i)
  counted : (s.mem child).side.parent = s.templateId consensus block ∧ i = 1 ∨
    slicesIndex (s.mem child).side.uncles (s.templateId consensus block) ≠ 1

theorem fromChildren_rule {P : SideChain → Prop} {s : SideChain} {block : Ptr} (start : P s)
    (raise : ∀ u child i, Raised s u → P u → CountsAbove consensus s block child i →
      P (u.updateDepth block ((u.mem child).depth + 1))) :
    Outcome (fun t => Raised s t ∧ P t) (fun t => Raised s t ∧ P t)
      (depthFromChildren consensus block s) := by
  refine outcome_foldlM (fun i near u inv => ?_) ⟨.refl s, start⟩
  refine outcome_foldlM (fun child listed w inv => ?_) inv
  have near : i = 1 ∨ i = 2 ∨ i = 3 := by simpa using near
  rename_i outer
  rw [outer.1.side, outer.1.atHeight] at listed
  obtain ⟨raised, holds⟩ := inv
  unfold depthFromChild
  dsimp only
  split
  · exact ⟨raised, holds⟩
  · rename_i regular
    -- first as a parent, then as an uncle
    have first : ∀ w', w' = (if (w.mem child).side.parent = w.templateId consensus block then
          w.updateDepth block ((w.mem child).depth + 1) else w) → Raised s w' ∧ P w' := by
      rintro w' rfl
      split_ifs with isChild
      · refine ⟨raised.trans (raised_updateDepth _ _ _), raise w child i raised holds ⟨near, listed, ?_⟩⟩
        rw [raised.side, raised.templateId] at isChild
        refine .inl ⟨isChild, ?_⟩
        by_contra far
        rw [raised.side, raised.templateId] at regular
        exact regular ⟨isChild, far⟩
      · exact ⟨raised, holds⟩
    obtain ⟨raised', holds'⟩ := first _ rfl
    generalize hw : (if (w.mem child).side.parent = w.templateId consensus block then
          w.updateDepth block ((w.mem child).depth + 1) else w) = w' at raised' holds'
    have unclesSame : (w'.mem child).side = (s.mem child).side := raised'.side child
    have idSame : w.templateId consensus block = s.templateId consensus block :=
      raised.templateId consensus block
    show Raised s _ ∧ P _
    rw [unclesSame, idSame]
    split_ifs with counted
    · exact ⟨raised'.trans (raised_updateDepth _ _ _),
        raise w' child i raised' holds' ⟨near, listed, .inr counted⟩⟩
    · exact ⟨raised', holds'⟩

/-! ## One iteration of the worklist -/

inductive Passes (s : SideChain) (block : Ptr) (blockDepth : UInt64) : Ptr → UInt64 → Prop
  | child {child : Ptr} (listed : child ∈ s.getPoolBlocksByHeight ((s.mem block).side.height + 1))
      (isChild : (s.mem child).side.parent = s.templateId consensus block) (pos : blockDepth > 0) :
      Passes s block blockDepth child (blockDepth - 1)
  | nephew {child : Ptr} {i : UInt64} (near : i = 1 ∨ i = 2 ∨ i = 3)
      (listed : child ∈ s.getPoolBlocksByHeight ((s.mem block).side.height + i))
      (isNephew : s.templateId consensus block ∈ (s.mem child).side.uncles) (deeper : blockDepth > i) :
      Passes s block blockDepth child (blockDepth - i)
  | parent {parent : Ptr} (found : s.view.iteratorGetParent block = some parent)
      (below : (s.mem parent).side.height + 1 = (s.mem block).side.height) :
      Passes s block blockDepth parent (blockDepth + 1)
  | uncle {uncle : Ptr} (found : uncle ∈ (s.view.iteratorUncles block).visited)
      (below : ¬ ((s.mem uncle).side.height ≥ (s.mem block).side.height ∨
        (s.mem uncle).side.height + uncleBlockDepth < (s.mem block).side.height)) :
      Passes s block blockDepth uncle
        (blockDepth + ((s.mem block).side.height - (s.mem uncle).side.height))

section Iteration

variable {consensus} {P : DepthState → Prop} {t : SideChain} {block : Ptr} {blockDepth : UInt64}
  (pass : ∀ (d : DepthState) q n, P d → Raised t d.chain → Passes consensus t block blockDepth q n →
    (d.chain.mem q).depth < n → P ⟨d.chain.updateDepth q n, q :: d.blocksToUpdate⟩)

variable (once : ∀ (u : SideChain) q l, P ⟨u, q :: q :: l⟩ → P ⟨u, q :: l⟩)

include pass once in
theorem toChild_rule {d : DepthState} {child : Ptr} {i : UInt64} (near : i = 1 ∨ i = 2 ∨ i = 3)
    (listed : child ∈ t.getPoolBlocksByHeight ((t.mem block).side.height + i))
    (raised : Raised t d.chain) (holds : P d) :
    Outcome (fun u => Raised t u ∧ ∃ l, P ⟨u, l⟩) (fun d => Raised t d.chain ∧ P d)
      (depthToChild consensus block blockDepth i d child) := by
  unfold depthToChild
  dsimp only
  split
  · exact ⟨raised, _, holds⟩
  · rename_i regular
    rw [raised.side, raised.templateId] at regular
    have asChild := raise_cases ((d.chain.mem child).side.parent = d.chain.templateId consensus block ∧
      blockDepth > 0) d.chain child (blockDepth - 1)
    generalize (if (d.chain.mem child).side.parent = d.chain.templateId consensus block ∧ blockDepth > 0
      then d.chain.updateDepth child (blockDepth - 1) else d.chain) = u at asChild
    -- after the first raise the block is on the worklist if it had an effect
    have first : Raised t u ∧ (u = d.chain ∨
        (d.chain.mem child).depth < (u.mem child).depth ∧ P ⟨u, child :: d.blocksToUpdate⟩) := by
      rcases asChild with rfl | ⟨⟨isChild, pos⟩, deeper, rfl⟩
      · exact ⟨raised, .inl rfl⟩
      · rw [raised.side, raised.templateId] at isChild
        have one : i = 1 := by
          by_contra far
          exact regular ⟨isChild, far⟩
        subst one
        exact ⟨raised.trans (raised_updateDepth _ _ _), .inr ⟨updateDepth_deeper deeper,
          pass d child _ holds raised (.child listed isChild pos) deeper⟩⟩
    obtain ⟨raised', first⟩ := first
    have asNephew := raise_cases (d.chain.templateId consensus block ∈ (u.mem child).side.uncles ∧
      blockDepth > i) u child (blockDepth - i)
    show Raised t (if _ then _ else u) ∧ P ⟨if _ then _ else u, _⟩
    generalize (if d.chain.templateId consensus block ∈ (u.mem child).side.uncles ∧ blockDepth > i
      then u.updateDepth child (blockDepth - i) else u) = w at asNephew
    rcases asNephew with rfl | ⟨⟨isNephew, above⟩, deeper, rfl⟩
    · refine ⟨raised', ?_⟩
      rcases first with rfl | ⟨deeper, holds'⟩
      · rw [if_neg (UInt64.lt_irrefl _)]
        exact holds
      · rw [if_pos deeper]
        exact holds'
    · rw [raised'.side, raised.templateId] at isNephew
      have passes := Passes.nephew near listed isNephew above
      refine ⟨raised'.trans (raised_updateDepth _ _ _), ?_⟩
      rcases first with rfl | ⟨deeper', holds'⟩
      · rw [if_pos (updateDepth_deeper deeper)]
        exact pass d child _ holds raised passes deeper
      · rw [if_pos (UInt64.lt_trans deeper' (updateDepth_deeper deeper))]
        exact once _ _ _ (pass ⟨u, _⟩ child _ holds' raised' passes deeper)

include pass once in
theorem toChildren_rule {d : DepthState} (raised : Raised t d.chain) (holds : P d) :
    Outcome (fun u => Raised t u ∧ ∃ l, P ⟨u, l⟩) (fun d => Raised t d.chain ∧ P d)
      (depthToChildren consensus block blockDepth d) := by
  refine outcome_foldlM (fun i near e outer => ?_) ⟨raised, holds⟩
  refine outcome_foldlM (fun child listed e inner => ?_) outer
  have near : i = 1 ∨ i = 2 ∨ i = 3 := by simpa using near
  rw [outer.1.side, outer.1.atHeight] at listed
  exact toChild_rule pass once near listed inner.1 inner.2

include pass in
theorem toParent_rule {d : DepthState} (raised : Raised t d.chain) (holds : P d) :
    Outcome (fun u => Raised t u ∧ ∃ l, P ⟨u, l⟩) (fun d => Raised t d.chain ∧ P d)
      (depthToParent block blockDepth d) := by
  unfold depthToParent
  rw [raised.iteratorGetParent]
  cases found : t.view.iteratorGetParent block with
  | none => exact ⟨raised, holds⟩
  | some q =>
    dsimp only
    rw [raised.side, raised.side]
    split_ifs with wrong deeper
    · exact ⟨raised, _, holds⟩
    · exact ⟨raised.trans (raised_updateDepth _ _ _),
        pass d q _ holds raised (.parent found (not_not.mp wrong)) deeper⟩
    · exact ⟨raised, holds⟩

include pass in
theorem toUncles_rule {d : DepthState} (raised : Raised t d.chain) (holds : P d) :
    Outcome (fun u => Raised t u ∧ ∃ l, P ⟨u, l⟩) (fun d => Raised t d.chain ∧ P d)
      (depthToUncles block blockDepth d) := by
  have fold : ∀ (uncles : List Ptr) (r : DepthState × Bool),
      (∀ u ∈ uncles, u ∈ (t.view.iteratorUncles block).visited) → Raised t r.1.chain ∧ P r.1 →
        Raised t (uncles.foldl (depthToUncle block blockDepth) r).1.chain ∧
          P (uncles.foldl (depthToUncle block blockDepth) r).1 := by
    intro uncles
    induction uncles with
    | nil => exact fun r _ inv => inv
    | cons u uncles ih =>
      rintro r found ⟨raised, holds⟩
      refine ih _ (fun v mem => found v (.tail u mem)) ?_
      unfold depthToUncle
      dsimp only
      rw [raised.side, raised.side]
      split_ifs with wrong deeper
      · exact ⟨raised, holds⟩
      · exact ⟨raised.trans (raised_updateDepth _ _ _),
          pass r.1 u _ holds raised (.uncle (found u (.head _)) wrong) deeper⟩
      · exact ⟨raised, holds⟩
  unfold depthToUncles
  rw [raised.iteratorUncles]
  have all := fold _ (d, false) (fun u mem => mem) ⟨raised, holds⟩
  dsimp only
  split_ifs
  · exact ⟨all.1, _, all.2⟩
  · exact all

include pass once in
theorem neighbours_rule {rest : List Ptr} (start : P ⟨t, rest⟩) :
    Outcome (fun u => Raised t u ∧ ∃ l, P ⟨u, l⟩) (fun d => Raised t d.chain ∧ P d)
      (depthToNeighbours consensus block blockDepth ⟨t, rest⟩) :=
  (toChildren_rule pass once (.refl t) start).bind fun _ inv =>
    (toParent_rule pass inv.1 inv.2).bind fun _ inv => toUncles_rule pass inv.1 inv.2

end Iteration

theorem raised_toNeighbours (t : SideChain) (block : Ptr) (blockDepth : UInt64) (rest : List Ptr) :
    Outcome (Raised t) (fun d => Raised t d.chain)
      (depthToNeighbours consensus block blockDepth ⟨t, rest⟩) := by
  have all : Outcome (fun u => Raised t u ∧ ∃ l : List Ptr, True) (fun d => Raised t d.chain ∧ True)
      (depthToNeighbours consensus block blockDepth ⟨t, rest⟩) :=
    neighbours_rule (P := fun _ => True) (fun _ _ _ _ _ _ _ => trivial) (fun _ _ _ _ => trivial) trivial
  exact all.imp (fun _ inv => inv.1) fun _ inv => inv.1

theorem raised_fromChildren (s : SideChain) (block : Ptr) :
    Outcome (Raised s) (Raised s) (depthFromChildren consensus block s) :=
  (fromChildren_rule consensus (P := fun _ => True) trivial fun _ _ _ _ _ _ => trivial).imp
    (fun _ inv => inv.1) fun _ inv => inv.1

end Rules

section Loop

variable [Uint128Package] [Crypto] {consensus : Consensus} {server : Server} {fuel : Nat}

theorem depthStep_cases {d : DepthState} {r : Step DepthState SideChain}
    (run : depthStep consensus server fuel d = .ok r) : (d.blocksToUpdate = [] ∧ r = .done d.chain) ∨
    ∃ block rest t, d.blocksToUpdate = block :: rest ∧ verifyDeep consensus server fuel d.chain block = .ok t ∧
      ((∃ u, depthToNeighbours consensus block (d.chain.mem block).depth ⟨t, rest⟩ = .error u ∧ r = .done u) ∨
        ∃ d', depthToNeighbours consensus block (d.chain.mem block).depth ⟨t, rest⟩ = .ok d' ∧
          r = .next d') := by
  unfold depthStep at run
  cases top : d.blocksToUpdate with
  | nil =>
    rw [top] at run
    cases run
    exact .inl ⟨rfl, rfl⟩
  | cons block rest =>
    rw [top] at run
    obtain ⟨t, verified, done⟩ := except_bind_eq_ok.mp run
    refine .inr ⟨block, rest, t, rfl, verified, ?_⟩
    split at done
    · rename_i u early
      cases done
      exact .inl ⟨u, early, rfl⟩
    · rename_i d' go
      cases done
      exact .inr ⟨d', go, rfl⟩

end Loop

end SideChain

end P2PoolObserver
