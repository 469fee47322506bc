/-
# Sidechain.ChainSteps -- an insertion as a sequence of small steps

Whatever `AddPoolBlock` does after it has entered the new block into the indexes
is a sequence of `ChainStep`s: a depth is raised, a block gets its verdict, a
block becomes the tip and old blocks are pruned.  An invariant of the steps is an invariant of all
states a run goes through, also of those in the middle of an insertion.
-/
import P2PoolObserver.Sidechain.Evolution
import P2PoolObserver.Lib.Runs

namespace P2PoolObserver

open Lib
open Relation (ReflTransGen)

set_option linter.unusedSectionVars false

/-! ## What cannot panic -/

def Calm {α : Type} (x : Except Stop α) : Prop := ∀ message, x ≠ .error (.fault (.panic message))

theorem calm_ok {α : Type} (a : α) : Calm (.ok a) := nofun

theorem Calm.bind {α β : Type} {x : Except Stop α} {f : α → Except Stop β} (first : Calm x)
    (second : ∀ a, Calm (f a)) : Calm (x >>= f) := by
  intro message
  cases x with
  | ok a => exact second a message
  | error e =>
    intro same
    exact first message (congrArg Except.error (Except.error.inj same))

theorem calm_requireValid (ok : Prop) [Decidable ok] (message : String) : Calm (requireValid ok message) := by
  intro m
  unfold requireValid
  split_ifs <;> nofun

theorem calm_requireVerifiable (ok : Prop) [Decidable ok] (message : String) :
    Calm (requireVerifiable ok message) := by
  intro m
  unfold requireVerifiable
  split_ifs <;> nofun

section Calm

variable (V : View)

theorem calm_descend (height : UInt64) : ∀ (fuel : Nat) (p : Ptr), Calm (descend V height fuel p)
  | 0, _ => nofun
  | fuel + 1, p => by
    unfold descend
    split_ifs
    · split
      · nofun
      · exact calm_descend height fuel _
    · nofun

theorem calm_checkUncle (fuel : Nat) (b : PoolBlock) (parent uncle : Ptr) :
    Calm (checkUncle V fuel b parent uncle) :=
  (calm_requireVerifiable _ _).bind fun _ => (calm_requireValid _ _).bind fun _ =>
    (calm_requireValid _ _).bind fun _ => (calm_descend V _ fuel _).bind fun _ =>
      (calm_requireValid _ _).bind fun _ => calm_requireValid _ _

theorem calm_checkUncles (fuel : Nat) (b : PoolBlock) (parent : Ptr) (mined : List Hash) :
    ∀ (ids : List Hash) (expected : Difficulty), Calm (checkUncles V fuel b parent mined ids expected)
  | [], _ => calm_ok _
  | id :: ids, expected => by
    refine (calm_requireValid _ _).bind fun _ => (calm_requireValid _ _).bind fun _ => ?_
    split
    · nofun
    · exact (calm_checkUncle V fuel b parent _).bind fun _ =>
        calm_checkUncles fuel b parent mined ids _

variable [Uint128Package] [Crypto] (consensus : Consensus) (ctx : VerifyContext)

theorem calm_checkLinks (fuel : Nat) (b : PoolBlock) (parent : Ptr) :
    Calm (checkLinks consensus V fuel b parent) :=
  (calm_requireVerifiable _ _).bind fun _ => (calm_requireValid _ _).bind fun _ =>
    (calm_requireValid _ _).bind fun _ => (calm_requireValid _ _).bind fun _ =>
      (calm_requireValid _ _).bind fun _ => (calm_checkUncles V fuel b parent _ _ _).bind fun _ =>
        calm_requireValid _ _

theorem calm_checkWindow (block parent : Ptr) : Calm (checkWindow consensus ctx block parent) := by
  refine Calm.bind ?_ fun diff => (calm_requireValid _ _).bind fun _ => ?_
  · unfold expectedDifficulty
    split_ifs
    · nofun
    · split
      · nofun
      · nofun
      · split_ifs <;> nofun
  · split <;> nofun

theorem calm_verifyBlock (fuel : Nat) (block : Ptr) : Calm (verifyBlock consensus ctx fuel block) := by
  unfold verifyBlock
  dsimp only
  split_ifs with genesis deep orphan old
  · exact calm_requireValid _ _
  · exact calm_ok _
  · nofun
  · split
    · nofun
    · exact (calm_checkLinks _ consensus fuel _ _).bind fun _ => calm_ok _
  · split
    · nofun
    · exact (calm_checkLinks _ consensus fuel _ _).bind fun _ => calm_checkWindow consensus ctx block _

end Calm

section LongerChain

variable (V : View) (consensus : Consensus)
  (getChainMainByHash : Hash → Option ChainMain)

theorem ancestorAtHeight_ne_panic (height : UInt64) (m : String) : ∀ (fuel : Nat) (p : Option Ptr),
    ancestorAtHeight V height fuel p ≠ .error (.panic m)
  | fuel, none => by cases fuel <;> nofun
  | 0, some _ => nofun
  | fuel + 1, some p => by
    unfold ancestorAtHeight
    split_ifs
    · exact ancestorAtHeight_ne_panic height m fuel _
    · nofun

theorem haveCommonAncestor_ne_panic (m : String) : ∀ (fuel : Nat) (a b : Option Ptr),
    haveCommonAncestor V fuel a b ≠ .error (.panic m)
  | fuel, none, _ => by cases fuel <;> nofun
  | fuel, some _, none => by cases fuel <;> nofun
  | 0, some _, some _ => nofun
  | fuel + 1, some a, some b => by
    unfold haveCommonAncestor
    split_ifs
    · nofun
    · exact haveCommonAncestor_ne_panic m fuel _ _

theorem isLongerChain_ne_panic (fuel : Nat) (block candidate : Option Ptr) (m : String) :
    isLongerChain V consensus getChainMainByHash fuel block candidate ≠ .error (.panic m) := by
  have bind : ∀ {α β : Type} {x : Except Fault α} {f : α → Except Fault β},
      x ≠ .error (.panic m) → (∀ a, f a ≠ .error (.panic m)) → (x >>= f) ≠ .error (.panic m) := by
    intro α β x f first second
    cases x with
    | ok a => exact second a
    | error e => exact fun same => first (congrArg Except.error (Except.error.inj same))
  unfold isLongerChain
  split
  · nofun
  · split_ifs
    · nofun
    · split
      · nofun
      · refine bind (bind (ancestorAtHeight_ne_panic V _ m fuel _) fun ancestor => ?_) fun related => ?_
        · split
          · nofun
          · exact bind (ancestorAtHeight_ne_panic V _ m fuel _) fun _ =>
              haveCommonAncestor_ne_panic V m fuel _ _
        · split_ifs <;> nofun

theorem isLongerChain_none (fuel : Nat) {candidate : Ptr}
    (verified : (V.block candidate).verified = true) (valid : (V.block candidate).invalid = false) :
    isLongerChain V consensus getChainMainByHash fuel none (some candidate) = .ok (true, true) := by
  simp [isLongerChain, verified, valid]

end LongerChain

/-- A block as it comes from a decoder: not judged yet, and with nothing on top. -/
structure PoolBlock.Decoded (b : PoolBlock) : Prop where
  verified : b.verified = false
  invalid : b.invalid = false
  depth : b.depth = 0
  iterationCache : b.iterationCache = none

namespace SideChain

/-! ## Well-formed states -/

/-- What every state satisfies while block `N` is being inserted. -/
structure Wf (N : Ptr) (s : SideChain) : Prop where
  lookup : ∀ h p, s.blocksByTemplateId h = some p → p < s.next
  atHeight : ∀ k p, p ∈ s.getPoolBlocksByHeight k → p < s.next
  cached : ∀ p c, (s.mem p).iterationCache = some c → c.parent < s.next ∧ ∀ u ∈ c.uncles, u < s.next
  /-- Only verified blocks have a cache. -/
  fresh : ∀ p, (s.mem p).verified = false → (s.mem p).iterationCache = none
  /-- A block at height zero gets its verdict when it is inserted. -/
  settled : ∀ p, p < s.next → p ≠ N → (s.mem p).side.height = 0 → (s.mem p).verified = true

theorem Wf.evolves {N : Ptr} {s s' : SideChain} (wf : Wf N s) (e : Evolves s s') : Wf N s' where
  lookup h p found := e.next ▸ wf.lookup h p (e.lookup h p found)
  atHeight k p mem := e.next ▸ wf.atHeight k p (e.atHeight k p mem)
  cached p c filled := by
    rw [e.next]
    rcases e.cache p with kept | emptied | ⟨-, -, resolves⟩
    · exact wf.cached p c (kept ▸ filled)
    · rw [emptied] at filled
      cases filled
    · obtain ⟨parent, uncles⟩ := resolves c filled
      refine ⟨wf.lookup _ _ parent, fun u mem => ?_⟩
      obtain ⟨h, -, found⟩ := forall₂_exists_of_mem_right uncles mem
      exact wf.lookup h u found
  fresh p open' := by
    have before : (s.mem p).verified = false := by
      cases verified : (s.mem p).verified with
      | false => rfl
      | true => exact absurd (e.verdict p verified).1 (by simp [open'])
    rcases e.cache p with kept | emptied | ⟨-, now, -⟩
    · rw [kept, wf.fresh p before]
    · exact emptied
    · exact absurd now (by simp [open'])
  settled p alloc other height := by
    rw [e.next] at alloc
    rw [e.side p] at height
    exact (e.verdict p (wf.settled p alloc other height)).1

theorem Wf.iteratorGetParent {N : Ptr} {s : SideChain} (wf : Wf N s) {p q : Ptr}
    (parent : s.view.iteratorGetParent p = some q) : q < s.next := by
  simp only [View.iteratorGetParent, view] at parent
  cases filled : (s.mem p).iterationCache with
  | none =>
    rw [filled] at parent
    exact wf.lookup _ _ parent
  | some c =>
    rw [filled] at parent
    cases parent
    exact (wf.cached p c filled).1

theorem mem_visitUncles {get : Hash → Option Ptr} {u : Ptr} : ∀ {ids : List Hash},
    u ∈ (View.visitUncles get ids).visited → ∃ h ∈ ids, get h = some u
  | [], mem => nomatch mem
  | id :: ids, mem => by
    unfold View.visitUncles at mem
    cases found : get id with
    | none => simp [found] at mem
    | some uncle =>
      simp only [found, List.mem_cons] at mem
      rcases mem with rfl | mem
      · exact ⟨id, List.mem_cons_self, found⟩
      · obtain ⟨h, listed, found⟩ := mem_visitUncles mem
        exact ⟨h, List.mem_cons_of_mem _ listed, found⟩

theorem Wf.iteratorUncles {N : Ptr} {s : SideChain} (wf : Wf N s) {p u : Ptr}
    (mem : u ∈ (s.view.iteratorUncles p).visited) : u < s.next := by
  unfold View.iteratorUncles at mem
  split_ifs at mem
  · cases mem
  · split at mem
    · obtain ⟨h, -, found⟩ := mem_visitUncles mem
      exact wf.lookup h u found
    · rename_i c filled
      exact (wf.cached p c filled).2 u mem

section Steps

variable [Uint128Package] [Crypto] (consensus : Consensus) (server : Server) (N : Ptr)

/-- What has been checked of a block when it becomes the tip. -/
structure Adopts (s : SideChain) (block : Ptr) (diff : Difficulty) (isAlternative : Bool) : Prop where
  alloc : block < s.next
  tracked : block = N ∨ ∃ k, block ∈ s.getPoolBlocksByHeight k
  verified : (s.mem block).verified = true
  valid : (s.mem block).invalid = false
  shallow : (s.mem block).depth < consensus.chainWindowSize
  longer : ∃ fuel, isLongerChain s.view consensus server.chainMain fuel s.chainTip (some block) =
    .ok (true, isAlternative)
  difficulty : getDifficultyForNextBlock consensus s.view block = .ok diff
  nonzero : diff ≠ Difficulty.zeroDifficulty

inductive ChainStep : SideChain → SideChain → Prop
  | depth {s : SideChain} (p : Ptr) (d : UInt64) : ChainStep s (s.updateDepth p d)
  | reject {s : SideChain} {block : Ptr} {fuel : Nat} {message : String} (alloc : block < s.next)
      (unverified : (s.mem block).verified = false)
      (judged : verifyBlock consensus (s.context server) fuel block = .error (.invalid message)) :
      ChainStep s (s.setVerdict block true true)
  | postpone {s : SideChain} {block : Ptr} {fuel : Nat} {message : String} (alloc : block < s.next)
      (unverified : (s.mem block).verified = false)
      (judged : verifyBlock consensus (s.context server) fuel block = .error (.unverifiable message)) :
      ChainStep s (s.setVerdict block false false)
  | accept {s : SideChain} {block : Ptr} {fuel : Nat} (alloc : block < s.next)
      (unverified : (s.mem block).verified = false) (empty : (s.mem block).iterationCache = none)
      (judged : verifyBlock consensus (s.context server) fuel block = .ok ()) :
      ChainStep s (s.markVerified block)
  | broadcast {s : SideChain} (p : Ptr) (send : Bool) : ChainStep s (s.broadcastOnce p send)
  | store {s : SideChain} (p : Ptr) : ChainStep s (s.emit (.store p))
  | syncTip {s : SideChain} (p : Ptr) : ChainStep s (s.updateSyncTip p)
  | adopt {s s' : SideChain} {block : Ptr} {diff : Difficulty} {isAlternative : Bool}
      (adopts : Adopts consensus server N s block diff isAlternative)
      (pruned : adoptTip consensus server s block diff isAlternative = .ok s') : ChainStep s s'

/-- A state in which the next adoption of a tip panics. -/
def Stuck (s : SideChain) (message : String) : Prop :=
  ∃ block diff isAlternative, Adopts consensus server N s block diff isAlternative ∧
    adoptTip consensus server s block diff isAlternative = .error (.panic message)

abbrev ChainReach := ReflTransGen (ChainStep consensus server N)

abbrev ChainRuns {α : Type} := @Runs _ α (ChainStep consensus server N) (Stuck consensus server N)

variable {consensus server N}
variable {s s' t : SideChain} {p block blockToVerify : Ptr} {v v' : VerifyState} {rest : List Ptr}
  {fuel : Nat} {d : DepthState}

theorem ChainStep.evolves (step : ChainStep consensus server N s s') : Evolves s s' := by
  cases step with
  | depth p d => exact evolves_updateDepth s p d
  | reject _ unverified _ => exact evolves_setVerdict unverified true true
  | postpone _ unverified _ => exact evolves_setVerdict unverified false false
  | accept _ unverified empty _ => exact evolves_markVerified unverified empty
  | broadcast p send => exact evolves_broadcastOnce s p send
  | store p => exact evolves_emit s _
  | syncTip p => exact evolves_updateSyncTip s p
  | adopt _ pruned => exact evolves_adoptTip consensus server pruned

theorem reaches_evolves (reach : ChainReach consensus server N s s') : Evolves s s' := by
  induction reach with
  | refl => exact .refl s
  | tail _ step ih => exact ih.trans step.evolves

/-! ## Tip and verification -/

variable (consensus N) in
/-- Blocks that `updateChainTip` may be asked about: the new one, one stored at
some height, or one that is too deep to become the tip. -/
def Candidate (s : SideChain) (p : Ptr) : Prop :=
  p < s.next ∧ (p = N ∨ (∃ k, p ∈ s.getPoolBlocksByHeight k) ∨
    consensus.chainWindowSize * 2 ≤ (s.mem p).depth)

theorem Candidate.mono (cand : Candidate consensus N s p)
    (e : Evolves s s') (same : s'.blocksByHeight = s.blocksByHeight) : Candidate consensus N s' p := by
  obtain ⟨alloc, new | ⟨k, mem⟩ | deep⟩ := cand
  · exact ⟨e.next ▸ alloc, .inl new⟩
  · refine ⟨e.next ▸ alloc, .inr (.inl ⟨k, ?_⟩)⟩
    rwa [getPoolBlocksByHeight, same]
  · exact ⟨e.next ▸ alloc, .inr (.inr (UInt64.le_trans deep (e.depth p)))⟩

theorem Candidate.tracked (cand : Candidate consensus N s p)
    (shallow : (s.mem p).depth < consensus.chainWindowSize) : p = N ∨ ∃ k, p ∈ s.getPoolBlocksByHeight k := by
  obtain ⟨-, new | stored | deep⟩ := cand
  · exact .inl new
  · exact .inr stored
  · obtain ⟨low, high⟩ := consensus.chainWindowSize_bounds
    grind

theorem runs_updateChainTip (cand : Candidate consensus N s block)
    (fuel : Nat) : ChainRuns consensus server N id s
      (updateChainTip consensus server fuel s block) := by
  unfold updateChainTip
  split_ifs with unfit deep same
  · exact .refl
  · exact .refl
  · exact .refl
  · rw [Bool.or_eq_true, not_or, Bool.not_eq_true', Bool.not_eq_false, Bool.not_eq_true] at unfit
    have shallow : (s.mem block).depth < consensus.chainWindowSize := UInt64.not_le.mp deep
    refine Runs.pureBind (isLongerChain_ne_panic _ _ _ fuel _ _) fun ⟨isLonger, isAlternative⟩ longer => ?_
    refine Runs.bind (o := id) ?_ fun t _ => Runs.ok (.single (ChainStep.broadcast block true))
    unfold moveTip
    cases isLonger with
    | true =>
      rw [if_pos rfl]
      split
      · exact .refl
      · rename_i diff difficulty
        split_ifs with zero
        · exact .refl
        · have adopts : Adopts consensus server N s block diff isAlternative :=
            ⟨cand.1, cand.tracked shallow, unfit.1, unfit.2, shallow, ⟨fuel, longer⟩, difficulty, zero⟩
          cases outcome : adoptTip consensus server s block diff isAlternative with
          | ok s' => exact .single (.adopt adopts outcome)
          | error e =>
            cases e with
            | outOfFuel => trivial
            | panic message => exact ⟨s, .refl, block, diff, isAlternative, adopts, outcome⟩
    | false =>
      rw [if_neg Bool.false_ne_true]
      cases tip : s.chainTip with
      | some _ => exact .refl
      | none =>
        rw [tip, isLongerChain_none s.view consensus _ fuel unfit.1 unfit.2] at longer
        cases longer

variable (consensus N) in
/-- What holds of the local variables of `verifyLoop`. -/
structure VerifyInv (v : VerifyState) : Prop where
  wf : Wf N v.chain
  stack : ∀ p ∈ v.blocksToVerify, Candidate consensus N v.chain p
  highest : ∀ p, v.highestBlock = some p → Candidate consensus N v.chain p

theorem VerifyInv.mono {v : VerifyState} {s : SideChain} {stack : List Ptr} {highest : Option Ptr}
    {err : Option String} (inv : VerifyInv consensus N v) (e : Evolves v.chain s)
    (same : s.blocksByHeight = v.chain.blocksByHeight)
    (pushed : ∀ p ∈ stack, p ∈ v.blocksToVerify ∨ ∃ k, p ∈ v.chain.getPoolBlocksByHeight k)
    (chosen : ∀ p, highest = some p → p ∈ v.blocksToVerify ∨ v.highestBlock = some p) :
    VerifyInv consensus N ⟨s, stack, highest, err⟩ where
  wf := inv.wf.evolves e
  stack p mem := by
    refine Candidate.mono ?_ e same
    rcases pushed p mem with old | ⟨k, stored⟩
    · exact inv.stack p old
    · exact ⟨inv.wf.atHeight k p stored, .inr (.inl ⟨k, stored⟩)⟩
  highest p h := by
    refine Candidate.mono ?_ e same
    rcases chosen p h with old | old
    · exact inv.stack p old
    · exact inv.highest p old

@[simp] theorem markVerified_blocksByHeight (s : SideChain) (block : Ptr) :
    (s.markVerified block).blocksByHeight = s.blocksByHeight := by
  obtain ⟨indices, eq⟩ := s.markVerified_eq block
  rw [eq]
  rfl

@[simp] theorem broadcastOnce_blocksByHeight (s : SideChain) (p : Ptr) (send : Bool) :
    (s.broadcastOnce p send).blocksByHeight = s.blocksByHeight := by
  unfold broadcastOnce
  split_ifs <;> rfl

theorem mem_blocksAbove (mem : p ∈ s.blocksAbove block) : ∃ k, p ∈ s.getPoolBlocksByHeight k := by
  simp only [blocksAbove, List.mem_reverse, List.mem_append] at mem
  rcases mem with (mem | mem) | mem
  · exact ⟨_, mem⟩
  · exact ⟨_, mem⟩
  · exact ⟨_, mem⟩

theorem runs_acceptBlock (inv : VerifyInv consensus N v) (top : v.blocksToVerify = block :: rest)
    (unverified : (v.chain.mem block).verified = false)
    (judged : verifyBlock consensus (v.chain.context server) fuel block = .ok ()) :
    ChainRuns consensus server N VerifyState.chain v.chain
      (acceptBlock consensus server fuel { v with blocksToVerify := rest } block) ∧
    ∀ v', acceptBlock consensus server fuel { v with blocksToVerify := rest } block = .ok v' →
      VerifyInv consensus N v' := by
  have alloc := (inv.stack block (by rw [top]; exact .head _)).1
  have step : ChainStep consensus server N v.chain (v.chain.markVerified block) :=
    .accept alloc unverified (inv.wf.fresh block unverified) judged
  constructor
  · refine Runs.pureBind (isLongerChain_ne_panic _ _ _ fuel _ _) fun ⟨longer, _⟩ _ => ?_
    exact Runs.ok (((ReflTransGen.single step).tail (.broadcast block _)).tail (.store block))
  · intro v' run
    obtain ⟨⟨longer, alternative⟩, -, done⟩ := except_bind_eq_ok.mp run
    cases done
    refine inv.mono ((step.evolves.trans (evolves_broadcastOnce _ block _)).trans (evolves_emit _ _))
      ?_ (fun p mem => ?_) (fun p h => ?_)
    · simp [emit]
    · rcases List.mem_append.mp mem with above | old
      · obtain ⟨k, stored⟩ := mem_blocksAbove above
        refine .inr ⟨k, ?_⟩
        simpa [getPoolBlocksByHeight, emit] using stored
      · exact .inl (top ▸ List.mem_cons_of_mem _ old)
    · dsimp only at h
      split_ifs at h
      · cases h
        exact .inl (top ▸ List.mem_cons_self)
      · exact .inr h

theorem runs_verifyStep (inv : VerifyInv consensus N v) (fuel : Nat) (blockToVerify : Ptr) :
    ChainRuns consensus server N
      (Step.state VerifyState.chain VerifyState.chain) v.chain
      (verifyStep consensus server fuel blockToVerify v) ∧
    ∀ v', verifyStep consensus server fuel blockToVerify v = .ok (.next v') → VerifyInv consensus N v' := by
  unfold verifyStep
  cases top : v.blocksToVerify with
  | nil => exact ⟨.refl, nofun⟩
  | cons block rest =>
    have listed : block ∈ v.blocksToVerify := by rw [top]; exact .head _
    have alloc := (inv.stack block listed).1
    have below : ∀ p ∈ rest, p ∈ v.blocksToVerify ∨ ∃ k, p ∈ v.chain.getPoolBlocksByHeight k :=
      fun p mem => .inl (top ▸ List.mem_cons_of_mem _ mem)
    dsimp only
    cases verified : (v.chain.mem block).verified with
    | true =>
      refine ⟨.refl, fun v' done => ?_⟩
      cases done
      exact inv.mono (.refl _) rfl below fun p h => .inr h
    | false =>
      rw [if_neg Bool.false_ne_true]
      cases judged : verifyBlock consensus (v.chain.context server) fuel block with
      | error stop =>
        cases stop with
        | fault f =>
          cases f with
          | outOfFuel => exact ⟨trivial, nofun⟩
          | panic m => exact absurd judged (calm_verifyBlock consensus _ fuel block m)
        | invalid message =>
          refine ⟨.single (.reject alloc verified judged), fun v' done => ?_⟩
          cases done
          exact inv.mono (evolves_setVerdict verified true true) rfl below fun p h => .inr h
        | unverifiable message =>
          refine ⟨.single (.postpone alloc verified judged), fun v' done => ?_⟩
          cases done
          exact inv.mono (evolves_setVerdict verified false false) rfl below fun p h => .inr h
      | ok u =>
        obtain ⟨runs, keep⟩ := runs_acceptBlock inv top verified judged
        refine ⟨Runs.bind runs fun v' _ => Runs.ok .refl, fun v' done => ?_⟩
        obtain ⟨w, accepted, done⟩ := except_bind_eq_ok.mp done
        cases done
        exact keep _ accepted

/-- What one iteration does with the block it takes from the stack. -/
inductive Pops (consensus : Consensus) (server : Server) (fuel : Nat) (blockToVerify : Ptr)
    (v : VerifyState) (block : Ptr) (rest : List Ptr) : VerifyState → Prop
  | known (verified : (v.chain.mem block).verified = true) :
      Pops consensus server fuel blockToVerify v block rest { v with blocksToVerify := rest }
  | rejected {message : String} (unverified : (v.chain.mem block).verified = false)
      (judged : verifyBlock consensus (v.chain.context server) fuel block = .error (.invalid message)) :
      Pops consensus server fuel blockToVerify v block rest
        { v with
          blocksToVerify := rest
          chain := v.chain.setVerdict block true true
          err := if block = blockToVerify then some message else v.err }
  | postponed {message : String} (unverified : (v.chain.mem block).verified = false)
      (judged : verifyBlock consensus (v.chain.context server) fuel block =
        .error (.unverifiable message)) :
      Pops consensus server fuel blockToVerify v block rest
        { v with
          blocksToVerify := rest, chain := v.chain.setVerdict block false false }
  | accepted {v' : VerifyState} (unverified : (v.chain.mem block).verified = false)
      (judged : verifyBlock consensus (v.chain.context server) fuel block = .ok ())
      (accept : acceptBlock consensus server fuel { v with blocksToVerify := rest } block = .ok v') :
      Pops consensus server fuel blockToVerify v block rest v'

theorem verifyStep_next (next : verifyStep consensus server fuel blockToVerify v = .ok (.next v')) :
    ∃ block rest, v.blocksToVerify = block :: rest ∧
      Pops consensus server fuel blockToVerify v block rest v' := by
  unfold verifyStep at next
  cases top : v.blocksToVerify with
  | nil =>
    rw [top] at next
    cases next
  | cons block rest =>
    rw [top] at next
    dsimp only at next
    refine ⟨block, rest, rfl, ?_⟩
    cases verified : (v.chain.mem block).verified with
    | true =>
      rw [verified, if_pos rfl] at next
      cases next
      exact .known verified
    | false =>
      rw [verified, if_neg Bool.false_ne_true] at next
      split at next
      · cases next
      · rename_i message judged
        cases next
        exact .rejected verified judged
      · rename_i message judged
        cases next
        exact .postponed verified judged
      · rename_i judged
        obtain ⟨w, accept, done⟩ := except_bind_eq_ok.mp next
        cases done
        exact .accepted verified judged accept

theorem acceptBlock_eq_ok (accept : acceptBlock consensus server fuel v block = .ok v') :
    ∃ send, v'.chain = ((v.chain.markVerified block).broadcastOnce block send).emit (.store block) ∧
      v'.blocksToVerify = v'.chain.blocksAbove block ++ v.blocksToVerify := by
  obtain ⟨longer, -, done⟩ := except_bind_eq_ok.mp accept
  cases done
  exact ⟨_, rfl, rfl⟩

theorem markVerified_verdict (s : SideChain) (block : Ptr) :
    ((s.markVerified block).mem block).verified = true ∧
      ((s.markVerified block).mem block).invalid = false := by
  obtain ⟨indices, eq⟩ := s.markVerified_eq block
  rw [eq, modify_mem_self]
  exact ⟨rfl, rfl⟩

theorem Pops.mem_of_rest (pops : Pops consensus server fuel blockToVerify v block rest v')
    (mem : p ∈ rest) : p ∈ v'.blocksToVerify := by
  cases pops with
  | known | rejected | postponed => exact mem
  | accepted _ _ accept =>
    obtain ⟨send, -, stack⟩ := acceptBlock_eq_ok accept
    rw [stack]
    exact List.mem_append_right _ mem

theorem verifyStep_done (done : verifyStep consensus server fuel blockToVerify v = .ok (.done v')) :
    v = v' ∧ v.blocksToVerify = [] := by
  unfold verifyStep at done
  cases top : v.blocksToVerify with
  | nil =>
    rw [top] at done
    cases done
    exact ⟨rfl, rfl⟩
  | cons block rest =>
    rw [top] at done
    dsimp only at done
    split at done
    · cases done
    · split at done
      · cases done
      · cases done
      · cases done
      · obtain ⟨w, -, done⟩ := except_bind_eq_ok.mp done
        cases done

theorem runs_verifyLoop (wf : Wf N s) (cand : Candidate consensus N s block) (fuel : Nat) :
    ChainRuns consensus server N Prod.fst s
      (verifyLoop consensus server fuel s block) := by
  have start : VerifyInv consensus N ⟨s, [block], none, none⟩ :=
    ⟨wf, fun p mem => List.mem_singleton.mp mem ▸ cand, nofun⟩
  have each : ∀ v, VerifyInv consensus N v → _ ∧ ∀ v',
      verifyStep consensus server fuel block v = .ok (.next v') → _ :=
    fun v inv => runs_verifyStep inv fuel block
  refine Runs.bind (runs_loop (fun v inv => (each v inv).1) (fun v v' inv => (each v inv).2 v')
    fuel start) fun v run => ?_
  have inv : VerifyInv consensus N v := by
    refine loop_inv (fun v v' inv => (each v inv).2 v') (fun v v' inv done => ?_) start run
    rwa [← (verifyStep_done done).1]
  cases highest : v.highestBlock with
  | none => exact Runs.ok .refl
  | some top =>
    exact Runs.bind (runs_updateChainTip (inv.highest top highest) fuel) fun t _ => Runs.ok .refl

/-! ## Depths -/

variable (consensus server N) in
structure DepthInv (s : SideChain) (d : DepthState) : Prop where
  reach : ChainReach consensus server N s d.chain
  stack : ∀ p ∈ d.blocksToUpdate, p < s.next

theorem DepthInv.raise (inv : DepthInv consensus server N s d)
    (p : Ptr) (depth : UInt64) {stack : List Ptr} (pushed : ∀ q ∈ stack, q < s.next) :
    DepthInv consensus server N s ⟨d.chain.updateDepth p depth, stack⟩ :=
  ⟨inv.reach.tail (.depth p depth), pushed⟩

theorem reaches_ite (reach : ChainReach consensus server N s t)
    (c : Prop) [Decidable c] (p : Ptr) (depth : UInt64) :
    ChainReach consensus server N s (if c then t.updateDepth p depth else t) := by
  split_ifs
  · exact reach.tail (.depth p depth)
  · exact reach

theorem reaches_depthFromChildren (s : SideChain) (block : Ptr) :
    Outcome (ChainReach consensus server N s)
      (ChainReach consensus server N s) (depthFromChildren consensus block s) := by
  refine outcome_foldlM (fun i _ t reach => outcome_foldlM (fun child _ u reach => ?_) reach) .refl
  unfold depthFromChild
  dsimp only
  split
  · exact reach
  · exact reaches_ite (reaches_ite reach _ _ _) _ _ _

theorem mem_of_mem_ite_cons {α : Type} {c : Prop} [Decidable c] {a b : α} {l : List α}
    (mem : a ∈ if c then b :: l else l) : a = b ∨ a ∈ l := by
  split_ifs at mem
  · exact List.mem_cons.mp mem
  · exact .inr mem

theorem depthInv_toChildren (wf : Wf N s)
    (inv : DepthInv consensus server N s d) (block : Ptr) (blockDepth : UInt64) :
    Outcome (ChainReach consensus server N s) (DepthInv consensus server N s)
      (depthToChildren consensus block blockDepth d) := by
  refine outcome_foldlM (fun i _ d inv => outcome_foldlM (fun child mem e inv' => ?_) inv) inv
  have alloc : child < s.next := by
    have evolves := reaches_evolves inv.reach
    exact evolves.next ▸ (wf.evolves evolves).atHeight _ _ mem
  unfold depthToChild
  dsimp only
  split
  · exact inv'.reach
  · refine ⟨reaches_ite (reaches_ite inv'.reach _ _ _) _ _ _, fun p mem => ?_⟩
    rcases mem_of_mem_ite_cons mem with rfl | old
    · exact alloc
    · exact inv'.stack p old

theorem depthInv_toParent (wf : Wf N s)
    (inv : DepthInv consensus server N s d) (block : Ptr) (blockDepth : UInt64) :
    Outcome (ChainReach consensus server N s) (DepthInv consensus server N s)
      (depthToParent block blockDepth d) := by
  unfold depthToParent
  cases parent : d.chain.view.iteratorGetParent block with
  | none => exact inv
  | some q =>
    have evolves := reaches_evolves inv.reach
    have alloc : q < s.next := evolves.next ▸ (wf.evolves evolves).iteratorGetParent parent
    dsimp only
    split_ifs
    · exact inv.reach
    · refine inv.raise q _ fun p mem => ?_
      rcases List.mem_cons.mp mem with rfl | mem
      · exact alloc
      · exact inv.stack p mem
    · exact inv

theorem depthInv_toUncles (wf : Wf N s)
    (inv : DepthInv consensus server N s d) (block : Ptr) (blockDepth : UInt64) :
    Outcome (ChainReach consensus server N s) (DepthInv consensus server N s)
      (depthToUncles block blockDepth d) := by
  have alloc : ∀ u ∈ (d.chain.view.iteratorUncles block).visited, u < s.next := by
    intro u mem
    have evolves := reaches_evolves inv.reach
    exact evolves.next ▸ (wf.evolves evolves).iteratorUncles mem
  have fold : ∀ (uncles : List Ptr) (r : DepthState × Bool), (∀ u ∈ uncles, u < s.next) →
      DepthInv consensus server N s r.1 →
      DepthInv consensus server N s (uncles.foldl (depthToUncle block blockDepth) r).1 := by
    intro uncles
    induction uncles with
    | nil => exact fun r _ inv => inv
    | cons u uncles ih =>
      intro r alloc inv
      refine ih _ (fun v mem => alloc v (.tail u mem)) ?_
      unfold depthToUncle
      dsimp only
      split_ifs
      · exact inv
      · refine inv.raise u _ fun p mem => ?_
        rcases List.mem_cons.mp mem with rfl | mem
        · exact alloc p (.head _)
        · exact inv.stack p mem
      · exact inv
  have all := fold _ (d, false) alloc inv
  unfold depthToUncles
  dsimp only
  split_ifs
  · exact all.reach
  · exact all

theorem depthInv_toNeighbours (wf : Wf N s)
    (inv : DepthInv consensus server N s d) (block : Ptr) (blockDepth : UInt64) :
    Outcome (ChainReach consensus server N s) (DepthInv consensus server N s)
      (depthToNeighbours consensus block blockDepth d) :=
  (depthInv_toChildren wf inv block blockDepth).bind fun _ inv =>
    (depthInv_toParent wf inv block blockDepth).bind fun _ inv =>
      depthInv_toUncles wf inv block blockDepth

theorem runs_verifyDeep (wf : Wf N s) (alloc : block < s.next)
    (fuel : Nat) : ChainRuns consensus server N id s
      (verifyDeep consensus server fuel s block) := by
  unfold verifyDeep
  dsimp only
  split_ifs with due
  · simp only [Bool.and_eq_true, Bool.not_eq_true', Bool.or_eq_true, decide_eq_true_eq,
      beq_iff_eq] at due
    obtain ⟨unverified, deep | genesis⟩ := due
    · exact Runs.bind (runs_verifyLoop wf ⟨alloc, .inr (.inr deep)⟩ fuel) fun _ _ => Runs.ok .refl
    · have new : block = N := by
        by_contra other
        exact absurd (wf.settled block alloc other genesis) (by simp [unverified])
      exact Runs.bind (runs_verifyLoop wf ⟨alloc, .inl new⟩ fuel) fun _ _ => Runs.ok .refl
  · exact .refl

theorem runs_depthStep (wf : Wf N d.chain) (stack : ∀ p ∈ d.blocksToUpdate, p < d.chain.next) (fuel : Nat) :
    ChainRuns consensus server N
      (Step.state DepthState.chain id) d.chain (depthStep consensus server fuel d) ∧
    ∀ d', depthStep consensus server fuel d = .ok (.next d') →
      Wf N d'.chain ∧ ∀ p ∈ d'.blocksToUpdate, p < d'.chain.next := by
  unfold depthStep
  cases top : d.blocksToUpdate with
  | nil => exact ⟨.refl, nofun⟩
  | cons block rest =>
    dsimp only
    rw [top] at stack
    have verify : ChainRuns consensus server N id d.chain
        (verifyDeep consensus server fuel d.chain block) :=
      runs_verifyDeep wf (stack block (.head _)) fuel
    -- once the block has been verified, the rest of the iteration raises depths
    have rest : ∀ t, verifyDeep consensus server fuel d.chain block = .ok t → Wf N t ∧
        Outcome (ChainReach consensus server N t) (DepthInv consensus server N t)
          (depthToNeighbours consensus block (d.chain.mem block).depth ⟨t, rest⟩) := by
      intro t verified
      rw [verified] at verify
      have evolves := reaches_evolves verify
      have wf' := wf.evolves evolves
      refine ⟨wf', depthInv_toNeighbours wf' ⟨.refl, fun p mem => ?_⟩ block _⟩
      rw [evolves.next]
      exact stack p (.tail _ mem)
    constructor
    · refine Runs.bind verify fun t verified => ?_
      have outcome := (rest t verified).2
      refine Runs.ok ?_
      split
      · rename_i early
        rw [early] at outcome
        exact outcome
      · rename_i go
        rw [go] at outcome
        exact outcome.reach
    · intro d' done
      obtain ⟨t, verified, done⟩ := except_bind_eq_ok.mp done
      obtain ⟨wf', outcome⟩ := rest t verified
      split at done
      · cases done
      · rename_i go
        cases done
        rw [go] at outcome
        have evolves := reaches_evolves outcome.reach
        exact ⟨wf'.evolves evolves, fun p mem => evolves.next ▸ outcome.stack p mem⟩

theorem runs_updateDepths (wf : Wf N s) (alloc : block < s.next)
    (fuel : Nat) : ChainRuns consensus server N id s
      (updateDepths consensus server fuel s block) := by
  have outcome : Outcome (ChainReach consensus server N s)
      (ChainReach consensus server N s) (depthFromChildren consensus block s) :=
    reaches_depthFromChildren s block
  unfold updateDepths
  split
  · rename_i early
    rw [early] at outcome
    exact outcome
  · rename_i t go
    rw [go] at outcome
    have evolves := reaches_evolves outcome
    have start : Wf N t ∧ ∀ p ∈ [block], p < t.next := by
      refine ⟨wf.evolves evolves, fun p mem => ?_⟩
      rw [List.mem_singleton.mp mem, evolves.next]
      exact alloc
    have each : ∀ d : DepthState, (Wf N d.chain ∧ ∀ p ∈ d.blocksToUpdate, p < d.chain.next) →
        _ ∧ ∀ d', depthStep consensus server fuel d = .ok (.next d') → _ :=
      fun d inv => runs_depthStep inv.1 inv.2 fuel
    exact Runs.after outcome (runs_loop (fun d inv => (each d inv).1)
      (fun d d' inv => (each d inv).2 d') fuel start)

/-! ## The whole call -/

theorem runs_settleBlock (wf : Wf N s) (cand : Candidate consensus N s block) (fuel : Nat) :
    ChainRuns consensus server N Prod.fst s
      (settleBlock consensus server fuel s block) := by
  unfold settleBlock
  split_ifs
  · exact .refl
  · exact Runs.bind (runs_updateChainTip cand fuel) fun _ _ => Runs.ok .refl
  · exact runs_verifyLoop wf cand fuel

theorem verifyBlock_genesis {ctx : VerifyContext} (genesis : (ctx.view.block block).side.height = 0) :
    verifyBlock consensus ctx fuel block = verifyGenesis consensus (ctx.view.block block) := by
  unfold verifyBlock
  rw [if_pos genesis]

theorem verifyGenesis_cases (b : PoolBlock) :
    verifyGenesis consensus b = .ok () ∨ ∃ message, verifyGenesis consensus b = .error (.invalid message) := by
  unfold verifyGenesis requireValid
  split
  · exact .inl rfl
  · exact .inr ⟨_, rfl⟩

variable (N) in
/-- The new block has its verdict, or waits for it and will get one. -/
def Settling (v : VerifyState) : Prop :=
  (v.chain.mem N).verified = true ∨ N ∈ v.blocksToVerify ∧ (v.chain.mem N).side.height = 0

theorem settling_verifyStep (inv : VerifyInv consensus N v) (settling : Settling N v)
    (next : verifyStep consensus server fuel blockToVerify v = .ok (.next v')) : Settling N v' := by
  obtain ⟨runs, -⟩ : ChainRuns consensus server N _ v.chain _ ∧ _ :=
    runs_verifyStep inv fuel blockToVerify
  rw [next] at runs
  have evolves : Evolves v.chain v'.chain := reaches_evolves runs
  rcases settling with settled | ⟨waiting, genesis⟩
  · exact .inl (evolves.verdict N settled).1
  · obtain ⟨block, rest, top, pops⟩ := verifyStep_next next
    rw [top] at waiting
    rcases List.mem_cons.mp waiting with rfl | later
    · left
      cases pops with
      | known verified => exact verified
      | rejected => simp [setVerdict]
      | postponed _ judged =>
        rw [verifyBlock_genesis genesis] at judged
        rcases verifyGenesis_cases (v.chain.mem N) with valid | ⟨message, invalid⟩
        · cases judged.symm.trans valid
        · cases judged.symm.trans invalid
      | accepted _ _ accept =>
        obtain ⟨send, chain, -⟩ := acceptBlock_eq_ok accept
        rw [chain]
        exact ((evolves_broadcastOnce _ N send).verdict N (v.chain.markVerified_verdict N).1).1
    · refine .inr ⟨pops.mem_of_rest later, ?_⟩
      rw [evolves.side, genesis]

theorem settled_settleBlock {err : Option String} (wf : Wf N s)
    (cand : Candidate consensus N s N) (genesis : (s.mem N).side.height = 0)
    (run : settleBlock consensus server fuel s N = .ok (t, err)) : (t.mem N).verified = true := by
  have runs : ChainRuns consensus server N Prod.fst s _ :=
    runs_settleBlock wf cand fuel
  rw [run] at runs
  have evolves : Evolves s t := reaches_evolves runs
  cases known : (s.mem N).verified with
  | true => exact (evolves.verdict N known).1
  | false =>
    unfold settleBlock at run
    rw [known, if_neg Bool.false_ne_true] at run
    obtain ⟨v, looped, done⟩ := except_bind_eq_ok.mp run
    have start : VerifyInv consensus N ⟨s, [N], none, none⟩ ∧ Settling N ⟨s, [N], none, none⟩ :=
      ⟨⟨wf, fun p mem => List.mem_singleton.mp mem ▸ cand, nofun⟩,
        .inr ⟨List.mem_singleton_self N, genesis⟩⟩
    obtain ⟨inv, settled⟩ : VerifyInv consensus N v ∧ (v.chain.mem N).verified = true := by
      have keep : ∀ v v', VerifyInv consensus N v ∧ Settling N v →
          verifyStep consensus server fuel N v = .ok (.next v') →
            VerifyInv consensus N v' ∧ Settling N v' := fun v v' inv next =>
        ⟨(runs_verifyStep inv.1 fuel N).2 v' next, settling_verifyStep inv.1 inv.2 next⟩
      have ends : ∀ v v', VerifyInv consensus N v ∧ Settling N v →
          verifyStep consensus server fuel N v = .ok (.done v') →
            VerifyInv consensus N v' ∧ (v'.chain.mem N).verified = true := by
        intro v v' inv done
        obtain ⟨rfl, empty⟩ := verifyStep_done done
        rcases inv.2 with settled | ⟨waiting, -⟩
        · exact ⟨inv.1, settled⟩
        · rw [empty] at waiting
          cases waiting
      exact loop_inv keep ends start looped
    cases highest : v.highestBlock with
    | none =>
      rw [highest] at done
      cases done
      exact settled
    | some top =>
      rw [highest] at done
      obtain ⟨u, moved, done⟩ := except_bind_eq_ok.mp done
      cases done
      have runs : ChainRuns consensus server N id v.chain _ :=
        runs_updateChainTip (inv.highest top highest) fuel
      rw [moved] at runs
      exact ((reaches_evolves runs).verdict N settled).1

end Steps

/-! ## Insertion -/

section Insert

variable [Crypto] {consensus : Consensus} (s : SideChain) (b : PoolBlock)

@[simp] theorem insertBlock_mem : (s.insertBlock consensus b).mem = Function.update s.mem s.next b := by
  unfold insertBlock
  dsimp only
  split_ifs <;> split <;> rfl

@[simp] theorem insertBlock_next : (s.insertBlock consensus b).next = s.next + 1 := by
  unfold insertBlock
  dsimp only
  split_ifs <;> split <;> rfl

variable (consensus) in
theorem next_lt_insertBlock : s.next < (s.insertBlock consensus b).next := insertBlock_next s b ▸ Nat.lt_succ_self _

@[simp] theorem insertBlock_blocksByTemplateId : (s.insertBlock consensus b).blocksByTemplateId =
      Function.update s.blocksByTemplateId (b.sideTemplateId consensus) (some s.next) := by
  unfold insertBlock
  dsimp only
  split_ifs <;> split <;> rfl

@[simp] theorem insertBlock_blocksByHeight : (s.insertBlock consensus b).blocksByHeight =
      Function.update s.blocksByHeight b.side.height
        (some (s.getPoolBlocksByHeight b.side.height ++ [s.next])) := by
  unfold insertBlock getPoolBlocksByHeight
  dsimp only
  split_ifs <;> split <;> simp_all [emit]

theorem getPoolBlocksByHeight_insertBlock (k : UInt64) :
    (s.insertBlock consensus b).getPoolBlocksByHeight k =
      if k = b.side.height then s.getPoolBlocksByHeight k ++ [s.next]
      else s.getPoolBlocksByHeight k := by
  unfold getPoolBlocksByHeight
  rw [insertBlock_blocksByHeight]
  split_ifs with same
  · subst same
    simp [getPoolBlocksByHeight]
  · rw [Function.update_of_ne same]

variable {s b}

theorem wf_insertBlock (wf : Wf s.next s) (decoded : b.Decoded) : Wf s.next (s.insertBlock consensus b) where
  lookup h p found := by
    rw [insertBlock_blocksByTemplateId] at found
    rw [insertBlock_next]
    by_cases same : h = b.sideTemplateId consensus
    · subst same
      rw [Function.update_self, Option.some.injEq] at found
      exact found ▸ Nat.lt_succ_self _
    · rw [Function.update_of_ne same] at found
      exact Nat.lt_succ_of_lt (wf.lookup h p found)
  atHeight k p mem := by
    rw [getPoolBlocksByHeight_insertBlock] at mem
    rw [insertBlock_next]
    split_ifs at mem
    · rcases List.mem_append.mp mem with old | new
      · exact Nat.lt_succ_of_lt (wf.atHeight k p old)
      · exact List.mem_singleton.mp new ▸ Nat.lt_succ_self _
    · exact Nat.lt_succ_of_lt (wf.atHeight k p mem)
  cached p c filled := by
    rw [insertBlock_mem] at filled
    rw [insertBlock_next]
    by_cases same : p = s.next
    · subst same
      rw [Function.update_self, decoded.iterationCache] at filled
      cases filled
    · rw [Function.update_of_ne same] at filled
      obtain ⟨parent, uncles⟩ := wf.cached p c filled
      exact ⟨Nat.lt_succ_of_lt parent, fun u mem => Nat.lt_succ_of_lt (uncles u mem)⟩
  fresh p unverified := by
    rw [insertBlock_mem] at unverified ⊢
    by_cases same : p = s.next
    · subst same
      rw [Function.update_self]
      exact decoded.iterationCache
    · rw [Function.update_of_ne same] at unverified ⊢
      exact wf.fresh p unverified
  settled p alloc other genesis := by
    rw [insertBlock_next] at alloc
    rw [insertBlock_mem, Function.update_of_ne other] at genesis ⊢
    exact wf.settled p (Nat.lt_of_le_of_ne (Nat.lt_succ_iff.mp alloc) other) other genesis

end Insert

section Calls

variable [Uint128Package] [Crypto] {consensus : Consensus} {server : Server} {fuel : Nat}
  {s t : SideChain} {b : PoolBlock} {err : Option String}

theorem evolves_updateDepths {N block : Ptr} (wf : Wf N s) (alloc : block < s.next)
    (run : updateDepths consensus server fuel s block = .ok t) : Evolves s t := by
  have runs : ChainRuns consensus server N id s _ :=
    runs_updateDepths wf alloc fuel
  rw [run] at runs
  exact reaches_evolves runs

theorem evolves_settleBlock {N block : Ptr} (wf : Wf N s) (cand : Candidate consensus N s block)
    (run : settleBlock consensus server fuel s block = .ok (t, err)) : Evolves s t := by
  have runs : ChainRuns consensus server N Prod.fst s _ :=
    runs_settleBlock wf cand fuel
  rw [run] at runs
  exact reaches_evolves runs

theorem addPoolBlock_ok (run : addPoolBlock consensus server fuel s b = .ok (t, err)) :
    t = s ∨ ∃ u w, s.blocksByTemplateId (b.sideTemplateId consensus) = none ∧
      updateDepths consensus server fuel (s.insertBlock consensus b) s.next = .ok u ∧
      settleBlock consensus server fuel u s.next = .ok (w, err) ∧ t = w.updateSyncTip s.next := by
  unfold addPoolBlock at run
  split_ifs at run with stored
  · cases run
    exact .inl rfl
  · split at run
    · cases run
      exact .inl rfl
    · obtain ⟨u, depths, run⟩ := except_bind_eq_ok.mp run
      obtain ⟨⟨w, err'⟩, settle, done⟩ := except_bind_eq_ok.mp run
      cases done
      exact .inr ⟨u, w, by simpa using stored, depths, settle, rfl⟩

variable (consensus s b) in
/-- The block is inserted: its id is not stored, and it encodes. -/
structure Enters : Prop where
  fresh : s.blocksByTemplateId (b.sideTemplateId consensus) = none
  encodes : b.marshalBinary.isOk = true

theorem addPoolBlock_cases (wf : Wf s.next s) (decoded : b.Decoded) :
    (∃ err, addPoolBlock consensus server fuel s b = .ok (s, err)) ∨ (Enters consensus s b ∧
      ChainRuns consensus server s.next Prod.fst
        (s.insertBlock consensus b) (addPoolBlock consensus server fuel s b)) := by
  unfold addPoolBlock
  split_ifs with stored
  · exact .inl ⟨_, rfl⟩
  · split
    · exact .inl ⟨_, rfl⟩
    · rename_i bytes encoded
      have encodes : b.marshalBinary.isOk = true := by
        rw [PoolBlock.marshalBinary, encoded]
        rfl
      refine .inr ⟨⟨by simpa using stored, encodes⟩, ?_⟩
      have wf' : Wf s.next (s.insertBlock consensus b) := wf_insertBlock wf decoded
      have alloc := next_lt_insertBlock consensus s b
      have depths : ChainRuns consensus server s.next id _ _ :=
        runs_updateDepths wf' alloc fuel
      refine Runs.bind depths fun t updated => ?_
      rw [updated] at depths
      have evolves : Evolves _ t := reaches_evolves depths
      refine Runs.bind (runs_settleBlock (wf'.evolves evolves) ⟨evolves.next ▸ alloc, .inl rfl⟩ fuel)
        fun ⟨u, err⟩ _ => ?_
      exact Runs.ok (.single (.syncTip s.next))

theorem wf_addPoolBlock (wf : Wf s.next s) (decoded : b.Decoded)
    (run : addPoolBlock consensus server fuel s b = .ok (t, err)) : Wf t.next t := by
  rcases addPoolBlock_ok run with rfl | ⟨u, w, -, depths, settle, rfl⟩
  · exact wf
  · have wf' : Wf s.next (s.insertBlock consensus b) := wf_insertBlock wf decoded
    have alloc := next_lt_insertBlock consensus s b
    have first := evolves_updateDepths wf' alloc depths
    have cand : Candidate consensus s.next u s.next := ⟨first.next ▸ alloc, .inl rfl⟩
    have second := evolves_settleBlock (wf'.evolves first) cand settle
    have evolves := second.trans (evolves_updateSyncTip w s.next)
    have wf'' := (wf'.evolves first).evolves evolves
    have next : (w.updateSyncTip s.next).next = s.next + 1 := by
      rw [evolves.next, first.next, insertBlock_next]
    refine { wf'' with settled := fun p alloc' _ genesis => ?_ }
    by_cases new : p = s.next
    · subst new
      rw [evolves.side] at genesis
      exact ((evolves_updateSyncTip w s.next).verdict _
        (settled_settleBlock (wf'.evolves first) cand genesis settle)).1
    · exact wf''.settled p alloc' new genesis

end Calls

end SideChain

end P2PoolObserver
