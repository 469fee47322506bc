/-
# Sidechain.Histories -- what whole runs of `AddPoolBlock` keep

Blocks come in any order, are verified late and are pruned.  In every run an object keeps its
content and its verdict (`run_keeps`); an accepted block leads from accepted parent to accepted
parent to a genesis block or to one too deep to be checked (`accepted_rooted`); and the server
hears of every new tip and is told to broadcast no block twice (`events_sound`).
-/
import P2PoolObserver.Sidechain.VerifyFixpoint

namespace P2PoolObserver.SideChain

open Relation (ReflTransGen)

section Runs

variable [Uint128Package] [Crypto] (consensus : Consensus)

/-! ## Objects -/

/-- Nothing that has been settled about an object is taken back. -/
structure Continues (s t : SideChain) : Prop where
  next : s.next ≤ t.next
  core : ∀ p < s.next, (t.mem p).core = (s.mem p).core
  depth : ∀ p < s.next, (s.mem p).depth ≤ (t.mem p).depth
  verdict : ∀ p < s.next, (s.mem p).verified = true →
    (t.mem p).verified = true ∧ (t.mem p).invalid = (s.mem p).invalid

variable {consensus} {s t : SideChain} {p q : Ptr}

section Core

omit [Uint128Package]

omit [Crypto] in
theorem Continues.of_evolves (e : Evolves s t) : Continues s t where
  next := e.next.ge
  core p _ := e.core p
  depth p _ := e.depth p
  verdict p _ := e.verdict p

theorem Continues.insertBlock (b : PoolBlock) : Continues s (s.insertBlock consensus b) := by
  have old : ∀ {p}, p < s.next → (s.insertBlock consensus b).mem p = s.mem p := insertBlock_mem_of_lt
  refine ⟨insertBlock_next s b ▸ Nat.le_succ _, fun p alloc => ?_, fun p alloc => ?_, fun p alloc verified => ?_⟩
  · rw [old alloc]
  · exact old alloc ▸ UInt64.le_refl _
  · rw [old alloc]
    exact ⟨verified, rfl⟩

omit [Crypto] in
theorem Continues.trans {u : SideChain} (first : Continues s t) (second : Continues t u) : Continues s u where
  next := first.next.trans second.next
  core p old := (second.core p (old.trans_le first.next)).trans (first.core p old)
  depth p old := UInt64.le_trans (first.depth p old) (second.depth p (old.trans_le first.next))
  verdict p old verified := by
    obtain ⟨still, same⟩ := first.verdict p old verified
    obtain ⟨now, same'⟩ := second.verdict p (old.trans_le first.next) still
    exact ⟨now, same'.trans same⟩

end Core

theorem Call.reachable (call : Call consensus s t) (before : Reachable consensus s) : Reachable consensus t := by
  obtain ⟨server, fuel, b, err, decoded, run⟩ := call
  exact .add before decoded trivial run

theorem Call.continues (call : Call consensus s t) (wf : Wf s.next s) : Continues s t := by
  obtain ⟨server, fuel, b, err, decoded, run⟩ := call
  have outcome : (∃ err, addPoolBlock consensus server fuel s b = .ok (s, err)) ∨ _ ∧ _ :=
    addPoolBlock_cases wf decoded
  rw [run] at outcome
  rcases outcome with ⟨err', same⟩ | ⟨-, runs⟩
  · cases same
    exact .of_evolves (.refl s)
  · exact (Continues.insertBlock b).trans (.of_evolves (reaches_evolves runs))

/-- From any reachable state on, objects keep content and verdict and get deeper, in the store or
pruned from it.  Each call enters a freshly decoded object. -/
theorem run_keeps (reachable : Reachable consensus s) (run : ReflTransGen (Call consensus) s t) :
    Continues s t := by
  have both : Reachable consensus t ∧ Continues s t := by
    induction run with
    | refl => exact ⟨reachable, .of_evolves (.refl s)⟩
    | tail _ last ih => exact ⟨last.reachable ih.1, ih.2.trans (last.continues ih.1.wf)⟩
  exact both.2

/-! ## Lineage -/

variable (consensus) in
/-- An accepted object of this id, which may have left the store. -/
def AcceptedAs (s : SideChain) (id : Hash) (p : Ptr) : Prop :=
  p < s.next ∧ s.Accepted p ∧ s.templateId consensus p = id

variable (consensus) in
/-- `p` was accepted on the accepted parent `q` and on accepted uncles, with their difficulties added. -/
structure StandsOn (s : SideChain) (p q : Ptr) : Prop where
  parent : AcceptedAs consensus s (s.mem p).side.parent q
  height : (s.mem q).side.height.toNat + 1 = (s.mem p).side.height.toNat
  uncles : ∃ added, List.Forall₂ (fun id d => ∃ u, AcceptedAs consensus s id u ∧ (s.mem u).side.difficulty = d ∧
      (s.mem u).side.height.toNat < (s.mem p).side.height.toNat ∧
      (s.mem p).side.height.toNat ≤ (s.mem u).side.height.toNat + uncleBlockDepth.toNat) (s.mem p).side.uncles added ∧
    (s.mem p).side.cumulativeDifficulty =
      added.foldl Difficulty.add ((s.mem q).side.cumulativeDifficulty.add (s.mem p).side.difficulty)

variable (consensus) in
def IsRoot (s : SideChain) (p : Ptr) : Prop :=
  ((s.mem p).side.height = 0 ∧ verifyGenesis consensus (s.mem p) = .ok ()) ∨ Skips consensus s p

variable (consensus) in
def Founded (s : SideChain) (p : Ptr) : Prop := IsRoot consensus s p ∨ ∃ q, StandsOn consensus s p q

section Core

omit [Uint128Package]

omit [Crypto] in
theorem Continues.side (later : Continues s t) (alloc : p < s.next) : (t.mem p).side = (s.mem p).side := by
  show (t.mem p).core.side = (s.mem p).core.side
  rw [later.core p alloc]

theorem AcceptedAs.later {id : Hash} (accepted : AcceptedAs consensus s id p) (later : Continues s t) :
    AcceptedAs consensus t id p := by
  obtain ⟨alloc, good, named⟩ := accepted
  obtain ⟨verified, same⟩ := later.verdict p alloc good.1
  refine ⟨alloc.trans_le later.next, ⟨verified, same.trans good.2⟩, Eq.trans ?_ named⟩
  show (t.mem p).core.sideTemplateId consensus = (s.mem p).core.sideTemplateId consensus
  rw [later.core p alloc]

theorem StandsOn.later (stands : StandsOn consensus s p q) (alloc : p < s.next) (later : Continues s t) :
    StandsOn consensus t p q := by
  obtain ⟨parent, height, added, uncles, total⟩ := stands
  have below := later.side parent.1
  refine ⟨?_, ?_, added, ?_, ?_⟩ <;> rw [later.side alloc]
  · exact parent.later later
  · rwa [below]
  · refine uncles.imp fun id d ⟨u, accepted, difficulty, heights⟩ => ⟨u, accepted.later later, ?_⟩
    rw [later.side accepted.1]
    exact ⟨difficulty, heights⟩
  · rwa [below]

end Core

omit [Crypto] in
theorem IsRoot.later (root : IsRoot consensus s p) (alloc : p < s.next) (later : Continues s t) :
    IsRoot consensus t p := by
  rcases root with ⟨height, genesis⟩ | ⟨height, deep⟩
  · refine .inl ⟨by rwa [later.side alloc], Eq.trans ?_ genesis⟩
    show verifyGenesis consensus (t.mem p).core = verifyGenesis consensus (s.mem p).core
    rw [later.core p alloc]
  · exact .inr ⟨by rwa [later.side alloc], UInt64.lt_of_lt_of_le deep (later.depth p alloc)⟩

theorem Founded.later (founded : Founded consensus s p) (alloc : p < s.next) (later : Continues s t) :
    Founded consensus t p :=
  founded.imp (·.later alloc later) (Exists.imp fun _ stands => stands.later alloc later)

theorem founded_of_verifyBlock {server : Server} {N : Ptr} {fuel : Nat} (wf : Wf N s) (indexed : Indexed consensus s)
    (empty : (s.mem p).iterationCache = none) (run : verifyBlock consensus (s.context server) fuel p = .ok ()) :
    Founded consensus s p := by
  by_cases root : (s.mem p).side.height = 0
  · exact .inl (.inl ⟨root, (verifyBlock_genesis root).symm.trans run⟩)
  by_cases deep : (s.mem p).depth > deepBlockDepth consensus
  · exact .inl (.inr ⟨root, deep⟩)
  obtain ⟨-, q, parent, links, -⟩ := (verifyBlock_regular consensus (s.context server) () root deep).mp run
  obtain ⟨verified, valid, -, height, -, uncles⟩ := (checkLinks_eq_ok consensus _ fuel _ q ()).mp links
  obtain ⟨us, all, total⟩ := (checkUncles_eq_ok _ fuel _ q _ _ _ _).mp uncles
  have found : s.blocksByTemplateId (s.mem p).side.parent = some q := by
    simpa only [View.iteratorGetParent, context, view, empty] using parent
  refine .inr ⟨q, ⟨wf.lookup _ _ found, ⟨verified, valid⟩, (indexed.lookup found).1⟩, height_pred height root,
    us.map fun u => (s.mem u).side.difficulty, ?_, by rwa [List.foldl_map]⟩
  refine List.forall₂_map_right_iff.mpr (all.imp ?_)
  rintro id u ⟨_, _, stored, accepted⟩
  obtain ⟨good, heights⟩ := height_near_of_checkUncle accepted
  exact ⟨u, ⟨wf.lookup _ _ stored, good, (indexed.lookup stored).1⟩, rfl, heights⟩

theorem founded_step {server : Server} {N : Ptr} (wf : Wf N s) (indexed : Indexed consensus s)
    (step : ChainStep consensus server N s t) (lineage : s.Accepted p → Founded consensus s p)
    (alloc : p < s.next) (accepted : t.Accepted p) : Founded consensus t p := by
  have evolves := step.evolves
  refine Founded.later ?_ alloc (.of_evolves evolves)
  cases verified : (s.mem p).verified with
  | true => exact lineage ⟨verified, (evolves.verdict p verified).2.symm.trans accepted.2⟩
  | false =>
    -- only an acceptance turns an open verdict into this one
    have now : verdict (t.mem p) = (true, false) := Prod.ext accepted.1 accepted.2
    rcases step.verdict_cases p with same | rejected | postponed | ⟨fuel, judged⟩
    · exact absurd ((congrArg Prod.fst (now.symm.trans same)).trans verified) nofun
    · exact absurd (now.symm.trans rejected) (by decide)
    · exact absurd (now.symm.trans postponed) (by decide)
    · exact founded_of_verifyBlock wf indexed (wf.fresh p verified) judged

theorem founded_reachable (reachable : Reachable consensus s) :
    ∀ p < s.next, s.Accepted p → Founded consensus s p := by
  suffices both : Indexed consensus s ∧ ∀ p < s.next, s.Accepted p → Founded consensus s p from both.2
  refine reachable.inv (P := fun s => Indexed consensus s ∧ ∀ p < s.next, s.Accepted p → Founded consensus s p)
    ⟨indexed_newSideChain, fun p alloc => absurd alloc (Nat.not_lt_zero p)⟩ ?_ ?_
  · intro s b wf inv decoded _ enters
    refine ⟨indexed_insertBlock wf inv.1 enters.fresh, fun p alloc accepted => ?_⟩
    rw [insertBlock_next] at alloc
    rcases Nat.lt_succ_iff_lt_or_eq.mp alloc with old | rfl
    · rw [Accepted, insertBlock_mem_of_lt old] at accepted
      exact (inv.2 p old accepted).later old (.insertBlock b)
    · rw [Accepted, insertBlock_mem_self, decoded.verified] at accepted
      exact absurd accepted.1 Bool.false_ne_true
  · intro server N s t wf inv step
    refine ⟨indexed_step inv.1 step, fun p alloc => ?_⟩
    rw [step.evolves.next] at alloc
    exact founded_step wf inv.1 step (inv.2 p alloc) alloc

/-- An accepted block stands on a line of accepted blocks that ends at a root. -/
theorem accepted_rooted (reachable : Reachable consensus s) (alloc : p < s.next) (accepted : s.Accepted p) :
    ∃ root, ReflTransGen (StandsOn consensus s) p root ∧ s.Accepted root ∧ IsRoot consensus s root := by
  -- the height falls with every parent
  induction height : (s.mem p).side.height.toNat using Nat.strong_induction_on generalizing p with
  | _ n ih =>
    rcases founded_reachable reachable p alloc accepted with root | ⟨q, stands⟩
    · exact ⟨p, .refl, accepted, root⟩
    · obtain ⟨allocQ, acceptedQ, -⟩ := stands.parent
      have lower := stands.height
      obtain ⟨root, line, rest⟩ := ih _ (by omega) allocQ acceptedQ rfl
      exact ⟨root, .head stands line, rest⟩

/-! ## Events -/

def tips (s : SideChain) : List Ptr :=
  s.events.filterMap fun
    | .updateTip p => some p
    | _ => none

def broadcasts (s : SideChain) : List Ptr :=
  s.events.filterMap fun
    | .broadcast p => some p
    | _ => none

def flags (b : PoolBlock) : Bool × Bool := (b.wantBroadcast, b.broadcasted)

/-- What the server has been told; `fresh` is about memory that holds no block yet. -/
structure Announced (s : SideChain) : Prop where
  tip : s.tips.getLast? = s.chainTip
  accepted : ∀ p ∈ s.tips, p < s.next ∧ s.Accepted p
  once : ∀ p, s.broadcasts.count p ≤ if (s.mem p).broadcasted then 1 else 0
  fresh : ∀ p, s.next ≤ p → flags (s.mem p) = (false, false)

section Core

omit [Uint128Package] [Crypto]

theorem Announced.told (announced : Announced s) (e : Evolves s t) (broadcasts : t.broadcasts = s.broadcasts)
    (sent : ∀ p, (t.mem p).broadcasted = (s.mem p).broadcasted) (tip : t.tips.getLast? = t.chainTip)
    (fresh : ∀ p, s.next ≤ p → flags (t.mem p) = flags (s.mem p))
    (accepted : ∀ p ∈ t.tips, p ∈ s.tips ∨ p < s.next ∧ s.Accepted p) : Announced t where
  tip := tip
  accepted p told := ((accepted p told).elim (announced.accepted p) id).imp (e.next ▸ ·) (·.evolves e)
  once p := by
    rw [broadcasts, sent]
    exact announced.once p
  fresh p above := (fresh p (e.next ▸ above)).trans (announced.fresh p (e.next ▸ above))

theorem Announced.silent (announced : Announced s) (e : Evolves s t) (tips : t.tips = s.tips)
    (broadcasts : t.broadcasts = s.broadcasts) (tip : t.chainTip = s.chainTip)
    (same : ∀ p, flags (t.mem p) = flags (s.mem p)) : Announced t :=
  announced.told e broadcasts (fun p => congrArg Prod.snd (same p)) (by rw [tips, tip, announced.tip])
    (fun p _ => same p) fun _ told => .inl (tips ▸ told)

theorem Announced.broadcastOnce (announced : Announced s) (p : Ptr) (send : Bool) :
    Announced (s.broadcastOnce p send) := by
  by_cases wanted : (s.mem p).wantBroadcast = true
  · have told : (s.broadcastOnce p send).tips = s.tips ∧ (s.broadcastOnce p send).broadcasts =
        s.broadcasts ++ if !(s.mem p).broadcasted && send then [p] else [] := by
      unfold SideChain.broadcastOnce tips broadcasts
      rw [if_pos wanted]
      split_ifs <;> simp [emit, modify]
    have mem : (s.broadcastOnce p send).mem = Function.update s.mem p { s.mem p with broadcasted := true } := by
      unfold SideChain.broadcastOnce
      rw [if_pos wanted]
      split_ifs <;> rfl
    have e := evolves_broadcastOnce s p send
    refine ⟨?_, fun q mem => (announced.accepted q (told.1 ▸ mem)).imp (e.next ▸ ·) (·.evolves e), fun q => ?_, fun q above => ?_⟩
    · rw [told.1, announced.tip, (quiet_broadcastOnce s p send).chainTip]
    · have before := announced.once q
      rw [told.2, mem, List.count_append]
      by_cases here : q = p
      · subst here
        rw [Function.update_self]
        cases sent : (s.mem q).broadcasted <;> cases send <;> simp_all
      · have other : List.count q (if !(s.mem p).broadcasted && send then [p] else []) = 0 := by
          split_ifs <;> simp [Ne.symm here]
        rwa [Function.update_of_ne here, other]
    · have before := announced.fresh q (e.next ▸ above)
      have here : q ≠ p := by
        rintro rfl
        exact absurd ((congrArg Prod.fst before).symm.trans wanted) Bool.false_ne_true
      rwa [mem, Function.update_of_ne here]
  · rwa [SideChain.broadcastOnce, if_neg wanted]

end Core

omit [Uint128Package] in
theorem Announced.insertBlock (announced : Announced s) (b : PoolBlock) : Announced (s.insertBlock consensus b) := by
  have told : (s.insertBlock consensus b).tips = s.tips ∧ (s.insertBlock consensus b).broadcasts = s.broadcasts ∧
      (s.insertBlock consensus b).chainTip = s.chainTip := by
    unfold SideChain.insertBlock tips broadcasts
    dsimp only
    split_ifs <;> split <;> simp [emit]
  obtain ⟨tips, broadcasts, tip⟩ := told
  have old : ∀ {p}, p ≠ s.next → (s.insertBlock consensus b).mem p = s.mem p := fun other => by
    rw [insertBlock_mem, Function.update_of_ne other]
  refine ⟨by rw [tips, tip, announced.tip], fun p mem => ?_, fun p => ?_, fun p above => ?_⟩
  · obtain ⟨alloc, accepted⟩ := announced.accepted p (tips ▸ mem)
    rw [insertBlock_next, Accepted, old alloc.ne]
    exact ⟨Nat.lt_succ_of_lt alloc, accepted⟩
  · have before := announced.once p
    rw [broadcasts]
    by_cases new : p = s.next
    · rw [show (s.mem p).broadcasted = false from congrArg Prod.snd (announced.fresh p new.ge)] at before
      exact before.trans (Nat.zero_le _)
    · rwa [old new]
  · rw [insertBlock_next] at above
    exact old (Nat.ne_of_gt above) ▸ announced.fresh p (Nat.le_of_succ_le above)

theorem Announced.adoptTip {server : Server} {N block : Ptr} {diff : Difficulty} {isAlternative : Bool}
    (announced : Announced s) (indexed : Indexed consensus s)
    (adopts : Adopts consensus server N s block diff isAlternative)
    (run : adoptTip consensus server s block diff isAlternative = .ok t) : Announced t := by
  obtain ⟨-, visited, pruned⟩ := pruned_pruneOldBlocks (indexed_withTip s block diff isAlternative indexed) run
  have events := pruned.events
  have tip := pruned.chainTip
  have same : ∀ p, flags (t.mem p) = flags ((s.withTip block diff isAlternative).mem p) := by
    intro p
    by_cases gone : Gone consensus server (s.withTip block diff isAlternative) visited p
    · rw [pruned.gone p gone]
      rfl
    · rw [pruned.kept p gone]
  rw [withTip_frame] at events tip same
  have told : t.tips = s.tips ++ [block] ∧ t.broadcasts = s.broadcasts := by
    unfold tips broadcasts
    rw [events]
    simp
  refine announced.told (evolves_adoptTip consensus server run) told.2 ?_ ?_ (fun p above => ?_) fun p mem => ?_
  · exact adoptTip_keeps (fun _ => rfl) (fun _ _ => rfl) run
  · rw [told.1, tip, List.getLast?_concat]
  · refine (same p).trans ?_
    show flags (Function.update s.mem block _ p) = _
    rw [Function.update_of_ne (adopts.alloc.trans_le above).ne']
  · rw [told.1, List.mem_append, List.mem_singleton] at mem
    refine mem.imp_right fun new => ?_
    subst new
    exact ⟨adopts.alloc, adopts.verified, adopts.valid⟩

theorem announced_step {server : Server} {N : Ptr} (indexed : Indexed consensus s) (announced : Announced s)
    (step : ChainStep consensus server N s t) : Announced t := by
  have e := step.evolves
  cases step with
  | depth p d =>
    unfold updateDepth at e ⊢
    split_ifs at e ⊢
    · exact announced.silent e rfl rfl rfl (modify_keeps rfl)
    · exact announced
  | reject | postpone => exact announced.silent e rfl rfl rfl (modify_keeps rfl)
  | @accept block =>
    obtain ⟨indices, marked⟩ := s.markVerified_eq block
    rw [marked] at e ⊢
    exact announced.silent e rfl rfl rfl (modify_keeps rfl)
  | broadcast p send => exact announced.broadcastOnce p send
  | store p =>
    refine announced.silent e ?_ ?_ rfl fun _ => rfl
    · simp [tips, emit]
    · simp [broadcasts, emit]
  | syncTip p =>
    unfold updateSyncTip at e ⊢
    split_ifs at e ⊢ <;> exact announced.silent e rfl rfl rfl fun _ => rfl
  | adopt adopts pruned => exact announced.adoptTip indexed adopts pruned

/-- The last tip that the server was told of is the chain tip, every tip it was told of is verified
and valid, and no block was broadcast twice. -/
theorem events_sound (reachable : Reachable consensus s) : s.tips.getLast? = s.chainTip ∧
    (∀ p ∈ s.tips, s.Accepted p) ∧ s.broadcasts.Nodup := by
  have both : Indexed consensus s ∧ Announced s :=
    reachable.inv (P := fun s => Indexed consensus s ∧ Announced s)
      ⟨indexed_newSideChain, rfl, nofun, fun _ => Nat.zero_le _, fun _ _ => rfl⟩
      (fun s b wf inv _ _ enters => ⟨indexed_insertBlock wf inv.1 enters.fresh, inv.2.insertBlock b⟩)
      fun server N s t _ inv step => ⟨indexed_step inv.1 step, announced_step inv.1 inv.2 step⟩
  obtain ⟨tip, accepted, once, -⟩ := both.2
  refine ⟨tip, fun p told => (accepted p told).2, List.nodup_iff_count_le_one.mpr fun p => (once p).trans ?_⟩
  split_ifs <;> decide

end Runs

section Reversed

open LongChain (crypto)
open LadderExample (consensus)

/-- The child comes before its parent. -/
theorem reversed_pair : ∃ s t, @Reachable .exact crypto consensus s ∧ @Call .exact crypto consensus s t ∧
    @Reachable .exact crypto consensus t ∧ 0 < t.next ∧ t.Accepted 0 := by
  obtain ⟨s, t, first, stored, -, second, accepted⟩ := PairExample.of_seenReversed PairExample.seenReversed_child
  have call := @PlainCall.call .exact crypto _ _ _
    (PairExample.plainCall_of_plainly wf_newSideChain ⟨rfl, rfl, rfl, rfl⟩ first)
  have reachable := @Call.reachable .exact crypto _ _ _ call (@ReachableWhen.new .exact crypto _ _)
  have wf := @ReachableWhen.wf .exact crypto _ _ _ reachable
  have call' := @PlainCall.call .exact crypto _ _ _
    (PairExample.plainCall_of_plainly wf ⟨rfl, rfl, rfl, rfl⟩ second)
  have grows := Continues.next (@Call.continues .exact crypto _ _ _ call' wf)
  exact ⟨s, t, reachable, call', @Call.reachable .exact crypto _ _ _ call' reachable,
    (wf.lookup _ _ stored).trans_le grows, accepted⟩

theorem run_keeps_reversed : ∃ s t, @Reachable .exact crypto consensus s ∧ @Call .exact crypto consensus s t ∧
    t.Accepted 0 ∧ Continues s t := by
  obtain ⟨s, t, reachable, call, -, -, accepted⟩ := reversed_pair
  exact ⟨s, t, reachable, call, accepted, @run_keeps .exact crypto _ _ _ reachable (.single call)⟩

theorem accepted_rooted_reversed : ∃ t, @Reachable .exact crypto consensus t ∧ t.Accepted 0 ∧
    ∃ root, ReflTransGen (@StandsOn crypto consensus t) 0 root ∧ t.Accepted root ∧ @IsRoot .exact consensus t root := by
  obtain ⟨-, t, -, -, reachable, alloc, accepted⟩ := reversed_pair
  exact ⟨t, reachable, accepted, @accepted_rooted .exact crypto _ _ _ reachable alloc accepted⟩

theorem events_sound_reversed : ∃ t, @Reachable .exact crypto consensus t ∧ t.Accepted 0 ∧
    t.tips.getLast? = t.chainTip ∧ t.broadcasts.Nodup := by
  obtain ⟨-, t, -, -, reachable, -, accepted⟩ := reversed_pair
  have sound := @events_sound .exact crypto _ _ reachable
  exact ⟨t, reachable, accepted, sound.1, sound.2.2⟩

end Reversed

end P2PoolObserver.SideChain
