/-
# Sidechain.Verifications -- which blocks an insertion judges, and in which state

`verifyBlock` accepts a block without any check once enough blocks are on top of it
(`Skips`).  `addPoolBlockJudged` lists each call of `verifyBlock` during an `AddPoolBlock`, with
the state it is made in.  An insertion that skips no check takes regular steps only
(`regular_verifyLoop`, `regular_depthStep`), those that verify a block by its parent and uncles.
-/
import P2PoolObserver.Sidechain.Pruning
import P2PoolObserver.Sidechain.Depths

namespace P2PoolObserver

open Lib
open Relation (ReflTransGen)

namespace SideChain

/-! ## The calls of `verifyBlock` -/

def VerifyState.judged (v : VerifyState) : List (SideChain × Ptr) :=
  match v.blocksToVerify with
  | [] => []
  | block :: _ => if (v.chain.mem block).verified then [] else [(v.chain, block)]

section Judged

variable [Uint128Package] [Crypto] (consensus : Consensus) (server : Server)

def verifyLoopJudged (fuel : Nat) (s : SideChain) (blockToVerify : Ptr) : List (SideChain × Ptr) :=
  (loopStates (verifyStep consensus server fuel blockToVerify) fuel
    ⟨s, [blockToVerify], none, none⟩).flatMap VerifyState.judged

def verifyDeepJudged (fuel : Nat) (s : SideChain) (block : Ptr) : List (SideChain × Ptr) :=
  let b := s.mem block
  if !b.verified && (b.depth ≥ consensus.chainWindowSize * 2 || b.side.height == 0) then
    verifyLoopJudged consensus server fuel s block
  else []

def depthStepJudged (fuel : Nat) (d : DepthState) : List (SideChain × Ptr) :=
  match d.blocksToUpdate with
  | [] => []
  | block :: _ => verifyDeepJudged consensus server fuel d.chain block

def updateDepthsJudged (fuel : Nat) (s : SideChain) (block : Ptr) : List (SideChain × Ptr) :=
  match depthFromChildren consensus block s with
  | .error _ => []
  | .ok s =>
    (loopStates (depthStep consensus server fuel) fuel ⟨s, [block]⟩).flatMap
      (depthStepJudged consensus server fuel)

def settleBlockJudged (fuel : Nat) (s : SideChain) (block : Ptr) : List (SideChain × Ptr) :=
  if (s.mem block).verified then [] else verifyLoopJudged consensus server fuel s block

/-- Every call of `verifyBlock` during an `AddPoolBlock`, with the state it reads. -/
def addPoolBlockJudged (fuel : Nat) (s : SideChain) (b : PoolBlock) : List (SideChain × Ptr) :=
  if (s.blocksByTemplateId (b.sideTemplateId consensus)).isSome then []
  else match b.appendBinaryFlags false false with
    | .error _ => []
    | .ok _ =>
      updateDepthsJudged consensus server fuel (s.insertBlock consensus b) s.next ++
        match updateDepths consensus server fuel (s.insertBlock consensus b) s.next with
        | .error _ => []
        | .ok t => settleBlockJudged consensus server fuel t s.next

end Judged

def Skips (consensus : Consensus) (s : SideChain) (p : Ptr) : Prop :=
  (s.mem p).side.height ≠ 0 ∧ (s.mem p).depth > deepBlockDepth consensus

instance (consensus : Consensus) (s : SideChain) (p : Ptr) : Decidable (Skips consensus s p) :=
  inferInstanceAs (Decidable (_ ∧ _))

theorem Skips.evolves {consensus : Consensus} {s s' : SideChain} {p : Ptr} (skips : Skips consensus s p)
    (e : Evolves s s') : Skips consensus s' p := by
  obtain ⟨height, deep⟩ := skips
  exact ⟨by rwa [e.side], UInt64.lt_of_lt_of_le deep (e.depth p)⟩

section Frames

variable {s : SideChain} {α : Type} {g : PoolBlock → α}

theorem broadcastOnce_keeps (sent : ∀ (b : PoolBlock) w, g { b with broadcasted := w } = g b)
    (q : Ptr) (send : Bool) (p : Ptr) : g ((s.broadcastOnce q send).mem p) = g (s.mem p) := by
  have marked : g ((s.modify q fun b => { b with broadcasted := true }).mem p) = g (s.mem p) :=
    modify_keeps (sent _ _) p
  unfold broadcastOnce
  split_ifs
  · exact marked
  · exact marked
  · rfl

theorem broadcastOnce_mem_ne {p q : Ptr} (other : p ≠ q) (send : Bool) :
    (s.broadcastOnce q send).mem p = s.mem p := by
  have marked : (s.modify q fun b => { b with broadcasted := true }).mem p = s.mem p :=
    modify_mem_ne s _ other
  unfold broadcastOnce
  split_ifs
  · exact marked
  · exact marked
  · rfl

theorem setVerdict_mem_ne {p q : Ptr} (other : p ≠ q) (verified invalid : Bool) :
    (s.setVerdict q verified invalid).mem p = s.mem p :=
  modify_mem_ne s _ other

theorem setVerdict_depth (q : Ptr) (verified invalid : Bool) (p : Ptr) :
    ((s.setVerdict q verified invalid).mem p).depth = (s.mem p).depth :=
  modify_keeps (g := PoolBlock.depth) rfl p

theorem quiet_setVerdict (s : SideChain) (q : Ptr) (verified invalid : Bool) :
    Quiet s (s.setVerdict q verified invalid) :=
  quiet_modify s q _

theorem updateSyncTip_mem (s : SideChain) (q : Ptr) : (s.updateSyncTip q).mem = s.mem := by
  unfold updateSyncTip
  split_ifs <;> rfl

theorem markVerified_mem_ne {p q : Ptr} (other : p ≠ q) : (s.markVerified q).mem p = s.mem p := by
  obtain ⟨indices, eq⟩ := s.markVerified_eq q
  rw [eq]
  exact modify_mem_ne s _ other

theorem not_verified_of_evolves {s s' : SideChain} (e : Evolves s s') {p : Ptr}
    (unverified : (s'.mem p).verified = false) : (s.mem p).verified = false := by
  cases verified : (s.mem p).verified with
  | false => rfl
  | true => exact absurd (e.verdict p verified).1 (by simp [unverified])

end Frames

section Regular

variable [Uint128Package] [Crypto] {consensus : Consensus} {server : Server} {N : Ptr} {fuel : Nat}
  {s t : SideChain}

theorem updateChainTip_keeps {α : Type} {g : PoolBlock → α} (cache : ∀ b, g (emptyCache b) = g b)
    (wanted : ∀ (b : PoolBlock) w, g { b with wantBroadcast := w } = g b)
    (sent : ∀ (b : PoolBlock) w, g { b with broadcasted := w } = g b) {block : Ptr}
    (run : updateChainTip consensus server fuel s block = .ok t) (p : Ptr) :
    g (t.mem p) = g (s.mem p) := by
  unfold updateChainTip at run
  split_ifs at run
  · cases run
    rfl
  · cases run
    rfl
  · cases run
    rfl
  · obtain ⟨⟨isLonger, isAlternative⟩, -, run⟩ := except_bind_eq_ok.mp run
    obtain ⟨u, moved, done⟩ := except_bind_eq_ok.mp run
    cases done
    rw [broadcastOnce_keeps sent]
    unfold moveTip at moved
    split_ifs at moved
    · split at moved
      · cases moved
        rfl
      · split_ifs at moved
        · cases moved
          rfl
        · exact adoptTip_keeps cache wanted moved p
    · split at moved
      · cases moved
      · cases moved
        rfl

/-! ## One iteration of `verifyLoop` -/

section Pops

variable {blockToVerify block : Ptr} {rest : List Ptr} {v v' : VerifyState}
  (pops : Pops consensus server fuel blockToVerify v block rest v')

include pops

theorem Pops.mem_ne {p : Ptr} (other : p ≠ block) : v'.chain.mem p = v.chain.mem p := by
  cases pops with
  | known => rfl
  | rejected | postponed => exact setVerdict_mem_ne other _ _
  | accepted _ _ accept =>
    obtain ⟨send, chain, -⟩ := acceptBlock_eq_ok accept
    rw [chain]
    exact (broadcastOnce_mem_ne other send).trans (markVerified_mem_ne other)

theorem Pops.depth (p : Ptr) : (v'.chain.mem p).depth = (v.chain.mem p).depth := by
  cases pops with
  | known => rfl
  | rejected | postponed => exact setVerdict_depth block _ _ p
  | accepted _ _ accept =>
    obtain ⟨send, chain, -⟩ := acceptBlock_eq_ok accept
    obtain ⟨indices, eq⟩ := v.chain.markVerified_eq block
    have marked : ((v.chain.markVerified block).mem p).depth = (v.chain.mem p).depth := by
      rw [eq]
      exact modify_keeps (g := PoolBlock.depth) rfl p
    rw [chain]
    exact (broadcastOnce_keeps (g := PoolBlock.depth) (fun _ _ => rfl) block send p).trans marked

theorem Pops.quiet : Quiet v.chain v'.chain := by
  cases pops with
  | known => exact .refl _
  | rejected | postponed => exact quiet_setVerdict _ block _ _
  | accepted _ _ accept =>
    obtain ⟨send, chain, -⟩ := acceptBlock_eq_ok accept
    obtain ⟨indices, eq⟩ := v.chain.markVerified_eq block
    rw [chain, eq]
    exact ((quiet_modify _ _ _).trans (quiet_broadcastOnce _ block send)).trans (quiet_emit _ nofun)

theorem Pops.verdict_top : (v'.chain.mem block).verified = true ∨ ∃ message,
    verifyBlock consensus (v.chain.context server) fuel block = .error (.unverifiable message) := by
  cases pops with
  | known verified => exact .inl verified
  | rejected => exact .inl (by simp [setVerdict])
  | @postponed message _ judged => exact .inr ⟨message, judged⟩
  | accepted _ _ accept =>
    obtain ⟨send, chain, -⟩ := acceptBlock_eq_ok accept
    rw [chain]
    exact .inl ((evolves_broadcastOnce _ block send).verdict block
      (v.chain.markVerified_verdict block).1).1

end Pops

variable {blockToVerify block : Ptr} {rest : List Ptr} {v v' : VerifyState} {err : Option String}

theorem Pops.evolves (pops : Pops consensus server fuel blockToVerify v block rest v') (wf : Wf N v.chain) :
    Evolves v.chain v'.chain := by
  cases pops with
  | known => exact .refl _
  | rejected unverified _ => exact evolves_setVerdict unverified true true
  | postponed unverified _ => exact evolves_setVerdict unverified false false
  | accepted unverified _ accept =>
    obtain ⟨send, chain, -⟩ := acceptBlock_eq_ok accept
    rw [chain]
    exact ((evolves_markVerified unverified (wf.fresh block unverified)).trans
      (evolves_broadcastOnce _ block send)).trans (evolves_emit _ _)

/-! ## Regular steps -/

variable (consensus server N) in
def RegularStep (s s' : SideChain) : Prop :=
  ChainStep consensus server N s s' ∧
    ∀ p, (s.mem p).verified = false → (s'.mem p).verified = true → ¬ Skips consensus s p

variable (consensus server N) in
abbrev RegularReach := ReflTransGen (RegularStep consensus server N)

theorem regular_of_reaches (reach : ChainReach consensus server N s t)
    (shallow : ∀ p, (s.mem p).verified = false → (t.mem p).verified = true → ¬ Skips consensus t p) :
    RegularReach consensus server N s t := by
  induction reach with
  | refl => exact .refl
  | @tail u t before last ih =>
    have onward := last.evolves
    refine .tail (ih fun p unverified verified => ?_) ⟨last, fun p unverified verified => ?_⟩
    · exact fun skips => shallow p unverified (onward.verdict p verified).1 (skips.evolves onward)
    · have first := not_verified_of_evolves (reaches_evolves before) unverified
      exact fun skips => shallow p first verified (skips.evolves onward)

variable (consensus N s) in
/-- What holds of a loop of `verifyLoop` that started in `s`: depths have not changed, and
what has been verified was not deep. -/
structure Checked (v : VerifyState) : Prop where
  wf : Wf N v.chain
  evolves : Evolves s v.chain
  depth : ∀ p, (v.chain.mem p).depth = (s.mem p).depth
  judged : ∀ p, (s.mem p).verified = false → (v.chain.mem p).verified = true → ¬ Skips consensus s p

theorem checked_verifyStep (inv : Checked consensus N s v) (checked : ∀ x ∈ v.judged, ¬ Skips consensus x.1 x.2)
    (next : verifyStep consensus server fuel blockToVerify v = .ok (.next v')) : Checked consensus N s v' := by
  obtain ⟨top, rest, stack, pops⟩ := verifyStep_next next
  have onward := pops.evolves inv.wf
  refine ⟨inv.wf.evolves onward, inv.evolves.trans onward,
    fun p => (pops.depth p).trans (inv.depth p), fun p unverified verified => ?_⟩
  cases before : (v.chain.mem p).verified with
  | true => exact inv.judged p unverified before
  | false =>
    have here : p = top := by
      by_contra other
      rw [pops.mem_ne other, before] at verified
      cases verified
    subst here
    have seen : (v.chain, p) ∈ v.judged := by
      simp [VerifyState.judged, stack, before]
    exact fun skips => checked _ seen (skips.evolves inv.evolves)

theorem verifyLoop_eq_ok (run : verifyLoop consensus server fuel s block = .ok (t, err)) :
    ∃ v, loop (verifyStep consensus server fuel block) fuel ⟨s, [block], none, none⟩ = .ok v ∧
      (v.highestBlock = none ∧ t = v.chain ∨ ∃ top, v.highestBlock = some top ∧
        updateChainTip consensus server fuel v.chain top = .ok t) := by
  obtain ⟨v, looped, done⟩ := except_bind_eq_ok.mp run
  refine ⟨v, looped, ?_⟩
  cases highest : v.highestBlock with
  | none =>
    rw [highest] at done
    cases done
    exact .inl ⟨rfl, rfl⟩
  | some top =>
    rw [highest] at done
    obtain ⟨u, moved, done⟩ := except_bind_eq_ok.mp done
    cases done
    exact .inr ⟨top, rfl, moved⟩

theorem regular_verifyLoop (wf : Wf N s)
    (cand : Candidate consensus N s block) (run : verifyLoop consensus server fuel s block = .ok (t, err))
    (checked : ∀ x ∈ verifyLoopJudged consensus server fuel s block, ¬ Skips consensus x.1 x.2) :
    RegularReach consensus server N s t := by
  have runs : ChainRuns consensus server N Prod.fst s _ :=
    runs_verifyLoop wf cand fuel
  rw [run] at runs
  refine regular_of_reaches runs fun p unverified verified skips => ?_
  obtain ⟨v, looped, moved⟩ := verifyLoop_eq_ok run
  have inv : Checked consensus N s v := by
    have start : Checked consensus N s ⟨s, [block], none, none⟩ :=
      ⟨wf, .refl s, fun _ => rfl, fun p no yes => absurd (no.symm.trans yes) Bool.false_ne_true⟩
    have each : ∀ v ∈ loopStates (verifyStep consensus server fuel block) fuel ⟨s, [block], none, none⟩,
        ∀ x ∈ v.judged, ¬ Skips consensus x.1 x.2 :=
      fun v mem x judged => checked x (List.mem_flatMap.mpr ⟨v, mem, judged⟩)
    have ends : ∀ v v', Checked consensus N s v →
        verifyStep consensus server fuel block v = .ok (.done v') → Checked consensus N s v' := by
      intro v v' inv done
      rwa [← (verifyStep_done done).1]
    exact loop_inv_states (fun v v' good inv next => checked_verifyStep inv good next)
      (fun v v' _ inv done => ends v v' inv done) each start looped
  have same : ∀ {α : Type} (g : PoolBlock → α), (∀ b, g (emptyCache b) = g b) →
      (∀ (b : PoolBlock) w, g { b with wantBroadcast := w } = g b) →
      (∀ (b : PoolBlock) w, g { b with broadcasted := w } = g b) →
      g (t.mem p) = g (v.chain.mem p) := by
    intro α g cache wanted sent
    rcases moved with ⟨-, rfl⟩ | ⟨top, -, moved⟩
    · rfl
    · exact updateChainTip_keeps cache wanted sent moved p
  have verified' : (v.chain.mem p).verified = true :=
    (same PoolBlock.verified (fun _ => rfl) (fun _ _ => rfl) fun _ _ => rfl).symm.trans verified
  refine inv.judged p unverified verified' ⟨?_, ?_⟩
  · rw [← (reaches_evolves runs).side]
    exact skips.1
  · rw [← inv.depth, ← same PoolBlock.depth (fun _ => rfl) (fun _ _ => rfl) fun _ _ => rfl]
    exact skips.2

/-! ## The other parts of a call -/

theorem regular_of_same (reach : ChainReach consensus server N s t)
    (same : ∀ p, (t.mem p).verified = (s.mem p).verified) : RegularReach consensus server N s t :=
  regular_of_reaches reach fun p unverified verified =>
    absurd (unverified.symm.trans ((same p).symm.trans verified)) Bool.false_ne_true

theorem regular_updateChainTip (cand : Candidate consensus N s block)
    (run : updateChainTip consensus server fuel s block = .ok t) :
    RegularReach consensus server N s t := by
  have runs : ChainRuns consensus server N id s _ :=
    runs_updateChainTip cand fuel
  rw [run] at runs
  exact regular_of_same runs
    (updateChainTip_keeps (fun _ => rfl) (fun _ _ => rfl) (fun _ _ => rfl) run)

omit [Uint128Package] [Crypto] in
theorem candidate_of_due {block : Ptr} (wf : Wf N s) (alloc : block < s.next)
    (due : (!(s.mem block).verified && (decide ((s.mem block).depth ≥ consensus.chainWindowSize * 2) ||
      (s.mem block).side.height == 0)) = true) : Candidate consensus N s block := by
  simp only [Bool.and_eq_true, Bool.not_eq_true', Bool.or_eq_true, decide_eq_true_eq,
    beq_iff_eq] at due
  obtain ⟨unverified, deep | genesis⟩ := due
  · exact ⟨alloc, .inr (.inr deep)⟩
  · refine ⟨alloc, Or.inl ?_⟩
    by_contra other
    exact absurd (wf.settled block alloc other genesis) (by simp [unverified])

theorem regular_verifyDeep (wf : Wf N s) (alloc : block < s.next)
    (run : verifyDeep consensus server fuel s block = .ok t)
    (checked : ∀ x ∈ verifyDeepJudged consensus server fuel s block, ¬ Skips consensus x.1 x.2) :
    RegularReach consensus server N s t := by
  unfold verifyDeep at run
  unfold verifyDeepJudged at checked
  dsimp only at run checked
  split_ifs at run checked with due
  · obtain ⟨⟨u, err⟩, looped, done⟩ := except_bind_eq_ok.mp run
    cases done
    exact regular_verifyLoop wf (candidate_of_due wf alloc due) looped checked
  · cases run
    exact .refl

theorem reaches_of_regular (reach : RegularReach consensus server N s t) :
    ChainReach consensus server N s t :=
  ReflTransGen.mono (fun _ _ (step : RegularStep consensus server N _ _) => step.1) _ _ reach

theorem regular_toNeighbours (block : Ptr) (blockDepth : UInt64) (wf : Wf N s)
    (stack : ∀ p ∈ rest, p < s.next) :
    Outcome (RegularReach consensus server N s)
      (fun d => RegularReach consensus server N s d.chain ∧
        ∀ p ∈ d.blocksToUpdate, p < s.next)
      (depthToNeighbours consensus block blockDepth ⟨s, rest⟩) := by
  have reach : Outcome (ChainReach consensus server N s) (DepthInv consensus server N s)
      (depthToNeighbours consensus block blockDepth ⟨s, rest⟩) :=
    depthInv_toNeighbours wf ⟨.refl, stack⟩ block blockDepth
  have raised := raised_toNeighbours consensus s block blockDepth rest
  have regular : ∀ {t : SideChain}, ChainReach consensus server N s t → Raised s t →
      RegularReach consensus server N s t :=
    fun reach raised => regular_of_same reach (raised.keeps fun _ _ => rfl)
  cases outcome : depthToNeighbours consensus block blockDepth ⟨s, rest⟩ with
  | error u =>
    rw [outcome] at reach raised
    exact regular reach raised
  | ok d =>
    rw [outcome] at reach raised
    exact ⟨regular reach.reach raised, reach.stack⟩

variable (consensus server N s) in
/-- What holds of the worklist of depths in a call that skips no check. -/
structure RegularDepths (d : DepthState) : Prop where
  reach : RegularReach consensus server N s d.chain
  wf : Wf N d.chain
  stack : ∀ p ∈ d.blocksToUpdate, p < d.chain.next

theorem regular_depthStep {d : DepthState} {r : Step DepthState SideChain}
    (inv : RegularDepths consensus server N s d)
    (checked : ∀ x ∈ depthStepJudged consensus server fuel d, ¬ Skips consensus x.1 x.2)
    (run : depthStep consensus server fuel d = .ok r) :
    (∀ t, r = .done t → RegularReach consensus server N s t) ∧
      ∀ d', r = .next d' → RegularDepths consensus server N s d' := by
  rcases depthStep_cases run with ⟨-, rfl⟩ | ⟨block, rest, t, stack, verified, outcome⟩
  · exact ⟨fun t done => by cases done; exact inv.reach, nofun⟩
  · have alloc : ∀ p ∈ block :: rest, p < d.chain.next := stack ▸ inv.stack
    have first : RegularReach consensus server N d.chain t := by
      refine regular_verifyDeep inv.wf (alloc block (.head _)) verified fun x mem => ?_
      refine checked x ?_
      rw [depthStepJudged, stack]
      exact mem
    have evolves := reaches_evolves (reaches_of_regular first)
    have wf := inv.wf.evolves evolves
    have second : Outcome (RegularReach consensus server N t) _
        (depthToNeighbours consensus block (d.chain.mem block).depth ⟨t, rest⟩) :=
      regular_toNeighbours block _ wf fun p mem => evolves.next ▸ alloc p (.tail block mem)
    rcases outcome with ⟨u, early, rfl⟩ | ⟨d', go, rfl⟩
    · rw [early] at second
      refine ⟨fun t done => ?_, nofun⟩
      cases done
      exact (inv.reach.trans first).trans second
    · rw [go] at second
      refine ⟨nofun, fun d' next => ?_⟩
      cases next
      have onward := reaches_evolves (reaches_of_regular second.1)
      exact ⟨(inv.reach.trans first).trans second.1, wf.evolves onward,
        fun p mem => onward.next ▸ second.2 p mem⟩

/-! ## The whole call -/

/-- The stages of a call that inserts its block. -/
structure Inserts (consensus : Consensus) (server : Server) (fuel : Nat) (s : SideChain) (b : PoolBlock)
    (depths settled t : SideChain) (err : Option String) : Prop where
  enters : Enters consensus s b
  updateDepths : updateDepths consensus server fuel (s.insertBlock consensus b) s.next = .ok depths
  settleBlock : settleBlock consensus server fuel depths s.next = .ok (settled, err)
  updateSyncTip : t = settled.updateSyncTip s.next
  judged : addPoolBlockJudged consensus server fuel s b =
    updateDepthsJudged consensus server fuel (s.insertBlock consensus b) s.next ++
      settleBlockJudged consensus server fuel depths s.next

theorem addPoolBlock_inserts {b : PoolBlock} (run : addPoolBlock consensus server fuel s b = .ok (t, err)) :
    t = s ∨ ∃ depths settled, Inserts consensus server fuel s b depths settled t err := by
  unfold addPoolBlock at run
  split_ifs at run with stored
  · cases run
    exact .inl rfl
  · split at run
    · cases run
      exact .inl rfl
    · rename_i bytes encoded
      obtain ⟨u, depths, run⟩ := except_bind_eq_ok.mp run
      obtain ⟨⟨w, err'⟩, settle, done⟩ := except_bind_eq_ok.mp run
      cases done
      have encodes : b.marshalBinary.isOk = true := by
        rw [PoolBlock.marshalBinary, encoded]
        rfl
      refine .inr ⟨u, w, ⟨by simpa using stored, encodes⟩, depths, settle, rfl, ?_⟩
      rw [addPoolBlockJudged, if_neg stored, encoded]
      dsimp only
      rw [depths]

theorem Inserts.alloc {b : PoolBlock} {depths settled : SideChain} {err : Option String}
    (inserts : Inserts consensus server fuel s b depths settled t err) (wf : Wf s.next s)
    (decoded : b.Decoded) : Wf s.next depths ∧ Candidate consensus s.next depths s.next := by
  have wf' : Wf s.next (s.insertBlock consensus b) := wf_insertBlock wf decoded
  have alloc := next_lt_insertBlock consensus s b
  have evolves := evolves_updateDepths wf' alloc inserts.updateDepths
  exact ⟨wf'.evolves evolves, evolves.next ▸ alloc, .inl rfl⟩

end Regular

end SideChain

end P2PoolObserver
