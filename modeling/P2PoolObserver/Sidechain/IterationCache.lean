/-
# Sidechain.IterationCache -- the iteration cache is transparent

A verified block remembers the objects of its parent and uncles.  The cache outlives the
store: a pruned parent stays in the caches of its children, and a pruned block can come
back as another object.  If equal ids mean equal data, a walk through the caches sees what a
walk through the store sees (`covers_storeView`), and returns the same wherever the latter
finds all it needs.
-/
import P2PoolObserver.Sidechain.Coherence
import P2PoolObserver.Sidechain.ViewRefinement

namespace P2PoolObserver

open Lib

namespace SideChain

/-- The state as the walks see it when every cache is ignored. -/
def storeView (s : SideChain) : View :=
  ⟨fun p => { s.mem p with iterationCache := none }, s.blocksByTemplateId⟩

section Named

variable [Crypto] (consensus : Consensus)

/-- The remembered objects have the ids of the side data. -/
structure CacheNames (s : SideChain) (side : SideData) (c : IterationCache) : Prop where
  parent : s.templateId consensus c.parent = side.parent
  uncles : c.uncles.map (s.templateId consensus) = side.uncles

/-- Every cache carries the ids of its block's side data. -/
def Named (s : SideChain) : Prop :=
  ∀ p c, (s.mem p).iterationCache = some c → CacheNames consensus s (s.mem p).side c

variable {consensus} {s s' : SideChain}

theorem resolved_ids (indexed : Indexed consensus s) {ids : List Hash} {us : List Ptr}
    (resolved : List.Forall₂ (fun h u => s.blocksByTemplateId h = some u) ids us) :
    us.map (s.templateId consensus) = ids := by
  induction resolved with
  | nil => rfl
  | cons found _ ih => rw [List.map_cons, ih, (indexed.lookup found).1]

theorem Resolves.names (indexed : Indexed consensus s) {side : SideData} {c : IterationCache}
    (resolves : s.Resolves side c) : CacheNames consensus s side c where
  parent := (indexed.lookup resolves.parent).1
  uncles := resolved_ids indexed resolves.uncles

theorem CacheNames.congr {side : SideData} {c : IterationCache} (names : CacheNames consensus s side c)
    (same : ∀ p, p = c.parent ∨ p ∈ c.uncles → s'.templateId consensus p = s.templateId consensus p) :
    CacheNames consensus s' side c where
  parent := (same _ (.inl rfl)).trans names.parent
  uncles := by
    rw [← names.uncles]
    exact List.map_congr_left fun u mem => same u (.inr mem)

theorem Named.evolves (named : Named consensus s) (indexed : Indexed consensus s)
    (e : Evolves s s') : Named consensus s' := by
  intro p c filled
  have names : CacheNames consensus s (s.mem p).side c := by
    rcases e.cache p with kept | emptied | ⟨-, -, resolves⟩
    · exact named p c (kept ▸ filled)
    · rw [emptied] at filled
      cases filled
    · exact (resolves c filled).names indexed
  rw [e.side]
  exact names.congr fun q _ => e.templateId consensus q

theorem named_insertBlock {N : Ptr} {b : PoolBlock} (wf : Wf N s) (named : Named consensus s)
    (decoded : b.Decoded) : Named consensus (s.insertBlock consensus b) := by
  intro p c filled
  rw [insertBlock_mem] at filled ⊢
  by_cases new : p = s.next
  · rw [new, Function.update_self, decoded.iterationCache] at filled
    cases filled
  · rw [Function.update_of_ne new] at filled ⊢
    obtain ⟨parent, uncles⟩ := wf.cached p c filled
    refine (named p c filled).congr fun q mem => templateId_insertBlock_of_lt ?_
    rcases mem with rfl | mem
    · exact parent
    · exact uncles q mem

/-! ## Walks with and without the caches -/

variable (consensus) in
/-- The same object, or two objects of one template id. -/
def Twin (s : SideChain) (p q : Ptr) : Prop :=
  p = q ∨ (p < s.next ∧ q < s.next ∧ s.templateId consensus p = s.templateId consensus q)

variable (consensus) in
def IdsDetermine (s : SideChain) : Prop :=
  ∀ p q, p < s.next → q < s.next → s.templateId consensus p = s.templateId consensus q →
    (s.mem q).side = (s.mem p).side ∧ (s.mem q).main.timestamp = (s.mem p).main.timestamp

theorem Twin.side {p q : Ptr} (twin : Twin consensus s p q) (determine : IdsDetermine consensus s) :
    (s.mem q).side = (s.mem p).side ∧ (s.mem q).main.timestamp = (s.mem p).main.timestamp := by
  rcases twin with rfl | ⟨allocP, allocQ, same⟩
  · exact ⟨rfl, rfl⟩
  · exact determine p q allocP allocQ same

theorem Twin.templateId {p q : Ptr} (twin : Twin consensus s p q) :
    s.templateId consensus p = s.templateId consensus q := by
  rcases twin with rfl | ⟨-, -, same⟩
  · rfl
  · exact same

theorem twins_of_ids {us vs : List Ptr} (allocU : ∀ u ∈ us, u < s.next) (allocV : ∀ v ∈ vs, v < s.next)
    (same : us.map (s.templateId consensus) = vs.map (s.templateId consensus)) :
    List.Forall₂ (Twin consensus s) us vs := by
  induction us generalizing vs with
  | nil =>
    rw [List.map_nil, eq_comm, List.map_eq_nil_iff] at same
    rw [same]
    exact .nil
  | cons u us ih =>
    cases vs with
    | nil => cases same
    | cons v vs =>
      obtain ⟨first, rest⟩ := List.cons.inj same
      exact .cons (.inr ⟨allocU u (.head _), allocV v (.head _), first⟩)
        (ih (fun w mem => allocU w (.tail u mem))
          (fun w mem => allocV w (.tail v mem)) rest)

omit [Crypto] in
theorem storeView_iteratorGetParent (p : Ptr) :
    s.storeView.iteratorGetParent p = s.blocksByTemplateId (s.mem p).side.parent := rfl

omit [Crypto] in
theorem storeView_iteratorUncles (p : Ptr) :
    s.storeView.iteratorUncles p = View.visitUncles s.blocksByTemplateId (s.mem p).side.uncles := by
  show (if (s.mem p).side.uncles = [] then _ else _) = _
  split_ifs with none
  · rw [none]
    rfl
  · rfl

theorem covers_storeView (wf : Wf s.next s) (indexed : Indexed consensus s) (named : Named consensus s)
    (determine : IdsDetermine consensus s) : s.storeView.Covers s.view (Twin consensus s) where
  side twin := (twin.side determine).1
  timestamp twin := (twin.side determine).2
  parent := by
    intro p q r twin found
    rw [storeView_iteratorGetParent, ← (twin.side determine).1] at found
    unfold View.iteratorGetParent
    cases filled : (s.view.block q).iterationCache with
    | none => exact ⟨r, found, .inl rfl⟩
    | some c =>
      refine ⟨c.parent, rfl, .inr ⟨wf.lookup _ _ found, (wf.cached q c filled).1, ?_⟩⟩
      rw [(indexed.lookup found).1, (named q c filled).parent]
  uncles := by
    intro p q twin found
    rw [storeView_iteratorUncles, ← (twin.side determine).1] at found ⊢
    have resolved := visitUncles_resolves found
    unfold View.iteratorUncles
    split_ifs with empty
    · have empty : (s.mem q).side.uncles = [] := empty
      rw [empty]
      exact ⟨rfl, .nil⟩
    · cases filled : (s.view.block q).iterationCache with
      | none =>
        refine ⟨found, twins_of_ids ?_ ?_ rfl⟩ <;>
        · intro u mem
          obtain ⟨h, -, stored⟩ := forall₂_exists_of_mem_right resolved mem
          exact wf.lookup h u stored
      | some c =>
        refine ⟨rfl, twins_of_ids (fun u mem => ?_) (wf.cached q c filled).2 ?_⟩
        · obtain ⟨h, -, stored⟩ := forall₂_exists_of_mem_right resolved mem
          exact wf.lookup h u stored
        · rw [(named q c filled).uncles]
          exact resolved_ids indexed resolved

end Named

section Transparent

variable [Uint128Package] [Crypto] {consensus : Consensus} {s : SideChain}

/-! ## Reachable states -/

theorem named_reachable {Allowed : SideChain → PoolBlock → Prop}
    (reachable : ReachableWhen consensus Allowed s) : Named consensus s := by
  have both : Indexed consensus s ∧ Named consensus s := by
    refine reachable.inv (P := fun s => Indexed consensus s ∧ Named consensus s)
      ⟨indexed_newSideChain, fun p c filled => nomatch filled⟩ ?_ ?_
    · exact fun s b wf inv decoded _ enters =>
        ⟨indexed_insertBlock wf inv.1 enters.fresh, named_insertBlock wf inv.2 decoded⟩
    · exact fun server N s s' _ inv step =>
        ⟨indexed_step inv.1 step, inv.2.evolves inv.1 step.evolves⟩
  exact both.2

/-- In every reachable state a cache names the parent and uncles of its block, and walks
through the caches return what walks through the store return when the latter succeed.
Whether two tips have a common ancestor is such a result when one is found, and when both
chains are known down to their roots and no block has the zero id of a missing parent. -/
theorem iterationCache_transparent (reachable : Reachable consensus s) :
    (∀ p, s.Stored consensus p → ∀ c, (s.mem p).iterationCache = some c →
      s.templateId consensus c.parent = (s.mem p).side.parent ∧
      c.uncles.map (s.templateId consensus) = (s.mem p).side.uncles) ∧
    (IdsDetermine consensus s → ∀ tip : Ptr,
      (∀ difficultyByHeight bottom,
        (blocksInPPLNSWindow s.storeView consensus tip difficultyByHeight).result = .ok bottom →
          (blocksInPPLNSWindow s.view consensus tip difficultyByHeight).result = .ok bottom ∧
          List.Forall₂ (fun a b => s.templateId consensus a.block = s.templateId consensus b.block ∧
              (s.mem b.block).side = (s.mem a.block).side ∧ a.weight = b.weight)
            (blocksInPPLNSWindow s.storeView consensus tip difficultyByHeight).calls
            (blocksInPPLNSWindow s.view consensus tip difficultyByHeight).calls) ∧
      (∀ result, (∀ e, result ≠ .error (.verify e)) →
        getDifficultyForNextBlock consensus s.storeView tip = result →
          getDifficultyForNextBlock consensus s.view tip = result) ∧
      (∀ getChainMainByHash fuel candidate, haveSameRoot s.storeView fuel tip candidate = .ok true →
        haveSameRoot s.view fuel tip candidate = .ok true ∧
        isLongerChain s.view consensus getChainMainByHash fuel (some tip) (some candidate) =
          isLongerChain s.storeView consensus getChainMainByHash fuel (some tip) (some candidate)) ∧
      ((∀ p, p < s.next → s.templateId consensus p ≠ zeroHash) → ∀ fuel candidate,
        s.storeView.Rooted tip → s.storeView.Rooted candidate →
          haveSameRoot s.view fuel tip candidate = haveSameRoot s.storeView fuel tip candidate)) := by
  have wf := reachable.wf
  have indexed := indexed_reachable reachable
  have named := named_reachable reachable
  refine ⟨fun p _ c filled => ⟨(named p c filled).parent, (named p c filled).uncles⟩,
    fun determine tip => ?_⟩
  have covers := covers_storeView wf indexed named determine
  have sameTip : Twin consensus s tip tip := .inl rfl
  refine ⟨fun difficultyByHeight bottom run => ?_, fun result collected run => ?_,
    fun getChainMainByHash fuel candidate run => ?_, fun nonzero fuel candidate rooted rooted' => ?_⟩
  · obtain ⟨result, calls⟩ :=
      blocksInPPLNSWindow_covers covers consensus sameTip rfl rfl difficultyByHeight bottom run
    refine ⟨result, calls.imp fun a b same => ?_⟩
    exact ⟨same.1.templateId, (same.1.side determine).1, same.2⟩
  · exact getDifficultyForNextBlock_covers covers consensus sameTip collected run
  · have related := haveSameRoot_covers covers sameTip (.inl rfl) run
    refine ⟨related, ?_⟩
    unfold isLongerChain
    dsimp only
    rw [run, related]
    rfl
  · refine haveSameRoot_linked covers (fun {p q} twin orphan last => ?_) fuel ⟨sameTip, rooted⟩
      ⟨.inl rfl, rooted'⟩
    -- a cache would name an object of the zero id
    have orphan' : (s.mem q).side.parent = zeroHash := (congrArg _ (twin.side determine).1).trans orphan
    unfold View.iteratorGetParent
    cases filled : (s.view.block q).iterationCache with
    | none =>
      show s.blocksByTemplateId (s.mem q).side.parent = none
      rw [(twin.side determine).1]
      exact last
    | some c =>
      refine absurd ?_ (nonzero c.parent (wf.cached q c filled).1)
      rw [(named q c filled).parent]
      exact orphan'

end Transparent

namespace PairExample

open LongChain (crypto)
open LadderExample (consensus block templateIdAt addAll early)

def seeded (b : PoolBlock) : PoolBlock :=
  { b with side := { b.side with coinbasePrivateKeySeed := consensus.id } }

def genesis : PoolBlock := seeded (block 1 0 zeroHash [] 100000 100000)
def child : PoolBlock := seeded (block 2 1 (templateIdAt 1) [] 100000 200000)
def sibling : PoolBlock := seeded (block 3 1 (templateIdAt 1) [] 100000 200000)
def nephew : PoolBlock := seeded (block 4 2 (templateIdAt 2) [templateIdAt 3] 12000000 12300000)

def observed : Except Fault SideChain → Bool
  | .error _ => false
  | .ok s =>
    decide (s.next = 4) && decide (@Stored crypto consensus s 3) &&
    decide ((s.mem 3).iterationCache = some ⟨1, [2]⟩) &&
    decide ((List.range 4).map (@templateId crypto consensus s)).Nodup &&
    decide (@getDifficultyForNextBlock .exact consensus s.storeView 3 = .ok (.difficultyFrom64 488000000))

theorem observed_nephew :
    observed (addAll early (newSideChain consensus) [genesis, child, sibling, nephew]) = true := by
  decide +kernel

theorem reachable_nephew {s : SideChain}
    (run : addAll early (newSideChain consensus) [genesis, child, sibling, nephew] = .ok s) :
    @Reachable .exact crypto consensus s := by
  refine LadderExample.reachable_addAll (@ReachableWhen.new .exact crypto consensus _) (fun b mem => ?_) run
  simp only [List.mem_cons, List.not_mem_nil, or_false] at mem
  rcases mem with rfl | rfl | rfl | rfl <;> exact ⟨rfl, rfl, rfl, rfl⟩

theorem of_observed {run : Except Fault SideChain} (seen : observed run = true) : ∃ s, run = .ok s ∧
    @Stored crypto consensus s 3 ∧ (s.mem 3).iterationCache = some ⟨1, [2]⟩ ∧ @IdsDetermine crypto consensus s ∧
    @getDifficultyForNextBlock .exact consensus s.storeView 3 = .ok (.difficultyFrom64 488000000) := by
  cases run with
  | error fault => cases seen
  | ok s =>
    simp only [observed, Bool.and_eq_true, decide_eq_true_eq] at seen
    obtain ⟨⟨⟨⟨four, stored⟩, cached⟩, apart⟩, next⟩ := seen
    refine ⟨s, rfl, stored, cached, fun p q allocP allocQ same => ?_, next⟩
    rw [four] at allocP allocQ
    -- the ids are distinct, so only equal objects have one id
    rw [List.inj_on_of_nodup_map apart (List.mem_range.mpr allocP) (List.mem_range.mpr allocQ) same]
    exact ⟨rfl, rfl⟩

end PairExample

open LongChain (crypto)
open LadderExample (consensus)

theorem iterationCache_transparent_nephew : ∃ s : SideChain,
    @Reachable .exact crypto consensus s ∧
    @IdsDetermine crypto consensus s ∧ (s.mem 3).iterationCache = some ⟨1, [2]⟩ ∧
    @templateId crypto consensus s 1 = (s.mem 3).side.parent ∧
    [@templateId crypto consensus s 2] = (s.mem 3).side.uncles ∧
    @getDifficultyForNextBlock .exact consensus s.view 3 = .ok (.difficultyFrom64 488000000) := by
  obtain ⟨s, run, stored, cached, determine, next⟩ := PairExample.of_observed PairExample.observed_nephew
  have reachable := PairExample.reachable_nephew run
  obtain ⟨names, walks⟩ := @iterationCache_transparent .exact crypto _ _ reachable
  have named := names 3 stored _ cached
  exact ⟨s, reachable, determine, cached, named.1, named.2, (walks determine 3).2.1 _ nofun next⟩

end SideChain

end P2PoolObserver
