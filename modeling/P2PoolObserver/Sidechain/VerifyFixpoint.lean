/-
# Sidechain.VerifyFixpoint -- verification leaves no block behind that it could judge

`verifyLoop` is a worklist: a block that has been accepted puts the blocks at the next
three heights back on the stack.  As long as nothing is pruned and no check is skipped,
a block whose parent and uncles have been accepted gets a verdict when it is judged
(`decided_verifyBlock`), and the loop ends when the stack is empty.
-/
import P2PoolObserver.Sidechain.Verifications
import P2PoolObserver.Sidechain.IterationCache

namespace P2PoolObserver

open Lib
open Relation (ReflTransGen)

/-! ## Checks that come to a verdict -/

def Decided {α : Type} (x : Except Stop α) : Prop := ∀ message, x ≠ .error (.unverifiable message)

theorem decided_ok {α : Type} (a : α) : Decided (.ok a) := nofun

theorem Decided.bind {α β : Type} {x : Except Stop α} {f : α → Except Stop β} (first : Decided x)
    (second : ∀ a, x = .ok a → Decided (f a)) : Decided (x >>= f) := by
  intro message
  cases x with
  | ok a => exact second a rfl message
  | error e =>
    intro same
    exact first message (congrArg Except.error (Except.error.inj same))

theorem decided_requireValid (ok : Prop) [Decidable ok] (message : String) :
    Decided (requireValid ok message) := by
  intro m
  unfold requireValid
  split_ifs <;> nofun

theorem decided_requireVerifiable {ok : Prop} [Decidable ok] (holds : ok) (message : String) :
    Decided (requireVerifiable ok message) := by
  rw [requireVerifiable, if_pos holds]
  exact decided_ok ()

theorem decided_descend (V : View) (height : UInt64) : ∀ (fuel : Nat) (p : Ptr),
    Decided (descend V height fuel p)
  | 0, _ => nofun
  | fuel + 1, p => by
    unfold descend
    split_ifs
    · split
      · nofun
      · exact decided_descend V height fuel _
    · nofun

theorem decided_checkUncle (V : View) (fuel : Nat) (b : PoolBlock) (parent : Ptr) {uncle : Ptr}
    (verified : (V.block uncle).verified = true) : Decided (checkUncle V fuel b parent uncle) :=
  (decided_requireVerifiable verified _).bind fun _ _ => (decided_requireValid _ _).bind fun _ _ =>
    (decided_requireValid _ _).bind fun _ _ => (decided_descend V _ fuel _).bind fun _ _ =>
      (decided_requireValid _ _).bind fun _ _ => decided_requireValid _ _

theorem decided_checkUncles (V : View) (fuel : Nat) (b : PoolBlock) (parent : Ptr) (mined : List Hash) :
    ∀ (ids : List Hash) (expected : Difficulty),
      (∀ id ∈ ids, ∃ u, V.getByTemplateId id = some u ∧ (V.block u).verified = true) →
        Decided (checkUncles V fuel b parent mined ids expected)
  | [], _, _ => decided_ok _
  | id :: ids, expected, found => by
    refine (decided_requireValid _ _).bind fun _ _ => (decided_requireValid _ _).bind fun _ _ => ?_
    obtain ⟨u, lookup, verified⟩ := found id (.head _)
    rw [lookup]
    exact (decided_checkUncle V fuel b parent verified).bind fun _ _ =>
      decided_checkUncles V fuel b parent mined ids _ fun id' mem =>
        found id' (.tail id mem)

namespace SideChain

/-! ## Accepted blocks stand on accepted blocks -/

def Accepted (s : SideChain) (p : Ptr) : Prop := (s.mem p).verified = true ∧ (s.mem p).invalid = false

/-- Parent and uncles are stored and accepted, at heights that `verifyBlock` allows. -/
structure Ready (s : SideChain) (p : Ptr) : Prop where
  parent : ∃ q, s.blocksByTemplateId (s.mem p).side.parent = some q ∧ s.Accepted q ∧
    (s.mem q).side.height.toNat + 1 = (s.mem p).side.height.toNat
  uncles : ∀ id ∈ (s.mem p).side.uncles, ∃ u, s.blocksByTemplateId id = some u ∧ s.Accepted u ∧
    (s.mem u).side.height.toNat < (s.mem p).side.height.toNat ∧
    (s.mem p).side.height.toNat ≤ (s.mem u).side.height.toNat + uncleBlockDepth.toNat

/-- A root, or a block whose parent and uncles have been accepted. -/
inductive Anchored (s : SideChain) (p : Ptr) : Prop
  | genesis (height : (s.mem p).side.height = 0) (parent : (s.mem p).side.parent = zeroHash)
      (uncles : (s.mem p).side.uncles = [])
  | regular (height : (s.mem p).side.height ≠ 0) (ready : s.Ready p)

def Kept (s s' : SideChain) : Prop :=
  ∀ id p, s.blocksByTemplateId id = some p → s'.blocksByTemplateId id = some p

section Transfer

variable {s s' : SideChain}

theorem Accepted.evolves {p : Ptr} (accepted : s.Accepted p) (e : Evolves s s') : s'.Accepted p := by
  obtain ⟨verified, same⟩ := e.verdict p accepted.1
  exact ⟨verified, same.trans accepted.2⟩

theorem Ready.mono {p : Ptr} (ready : s.Ready p) (self : (s'.mem p).side = (s.mem p).side)
    (kept : Kept s s') (side : ∀ id q, s.blocksByTemplateId id = some q → (s'.mem q).side = (s.mem q).side)
    (accepted : ∀ id q, s.blocksByTemplateId id = some q → s.Accepted q → s'.Accepted q) : s'.Ready p where
  parent := by
    obtain ⟨q, found, good, height⟩ := ready.parent
    refine ⟨q, ?_, accepted _ q found good, ?_⟩
    · rw [self]
      exact kept _ q found
    · rw [self, side _ q found]
      exact height
  uncles id mem := by
    rw [self] at mem ⊢
    obtain ⟨u, found, good, heights⟩ := ready.uncles id mem
    refine ⟨u, kept _ u found, accepted _ u found good, ?_⟩
    rw [side _ u found]
    exact heights

theorem Ready.evolves {p : Ptr} (ready : s.Ready p) (e : Evolves s s') (kept : Kept s s') : s'.Ready p :=
  ready.mono (e.side p) kept (fun _ q _ => e.side q) fun _ _ _ good => good.evolves e

theorem Anchored.evolves {p : Ptr} (anchored : s.Anchored p) (e : Evolves s s') (kept : Kept s s') :
    s'.Anchored p := by
  cases anchored with
  | genesis height parent uncles => exact .genesis (by rwa [e.side]) (by rwa [e.side]) (by rwa [e.side])
  | regular height ready => exact .regular (by rwa [e.side]) (ready.evolves e kept)

theorem Kept.of_evolves {t : SideChain} (kept : Kept s t) (first : Evolves s s') (second : Evolves s' t) :
    Kept s s' ∧ Kept s' t :=
  ⟨fun id p found => second.lookup id p (kept id p found),
    fun id p found => kept id p (first.lookup id p found)⟩

theorem resolved_evolves (resolved : ∀ p c, (s.mem p).iterationCache = some c →
      s.Resolves (s.mem p).side c) (e : Evolves s s') (kept : Kept s s') (p : Ptr) (c : IterationCache)
    (filled : (s'.mem p).iterationCache = some c) : s'.Resolves (s'.mem p).side c := by
  have before : s.Resolves (s.mem p).side c := by
    rcases e.cache p with same | emptied | ⟨-, -, resolves⟩
    · exact resolved p c (same ▸ filled)
    · rw [emptied] at filled
      cases filled
    · exact resolves c filled
  rw [e.side]
  exact ⟨kept _ _ before.parent, before.uncles.imp fun id u found => kept id u found⟩

theorem iteratorUncles_missing {p : Ptr}
    (found : ∀ id ∈ (s.mem p).side.uncles, ∃ u, s.blocksByTemplateId id = some u) :
    (s.view.iteratorUncles p).missing = none := by
  unfold View.iteratorUncles
  split_ifs
  · rfl
  · cases (s.view.block p).iterationCache with
    | none => exact visitUncles_missing found
    | some c => rfl

theorem height_near_of_checkUncle {V : View} {fuel : Nat} {b : PoolBlock} {parent uncle : Ptr}
    (run : checkUncle V fuel b parent uncle = .ok ()) :
    ((V.block uncle).verified = true ∧ (V.block uncle).invalid = false) ∧
      (V.block uncle).side.height.toNat < b.side.height.toNat ∧
      b.side.height.toNat ≤ (V.block uncle).side.height.toNat + uncleBlockDepth.toNat := by
  simp only [checkUncle, except_bind_eq_ok, requireVerifiable_eq_ok, requireValid_eq_ok] at run
  obtain ⟨-, verified, -, valid, -, near, -⟩ := run
  rw [not_or, UInt64.not_le, UInt64.not_lt] at near
  refine ⟨⟨verified, by simpa using valid⟩, ?_⟩
  have low := UInt64.lt_iff_toNat_lt.mp near.1
  have high := UInt64.le_iff_toNat_le.mp near.2
  rw [UInt64.toNat_add] at high
  have bound := (V.block uncle).side.height.toNat_lt
  have depth : uncleBlockDepth.toNat = 3 := rfl
  omega

end Transfer

section Grounded

variable [Crypto] (consensus : Consensus)

/-- The indexes agree, caches hold what is stored, and accepted blocks stand on accepted
blocks. -/
structure Grounded (s : SideChain) : Prop where
  indexed : Indexed consensus s
  resolved : ∀ p c, (s.mem p).iterationCache = some c → s.Resolves (s.mem p).side c
  anchored : ∀ p, s.Accepted p → s.Anchored p

variable {consensus} {s : SideChain}

namespace Grounded

theorem iteratorGetParent (grounded : Grounded consensus s) (p : Ptr) :
    s.view.iteratorGetParent p = s.blocksByTemplateId (s.mem p).side.parent := by
  unfold View.iteratorGetParent
  cases filled : (s.view.block p).iterationCache with
  | none => rfl
  | some c => exact (grounded.resolved p c filled).parent.symm

theorem difficultyLoop_ok (grounded : Grounded consensus s) (tip : Ptr) : ∀ (remaining : Nat) {p : Ptr}
    (data : List DifficultyData), s.Accepted p →
      ∃ result, difficultyLoop consensus s.view tip remaining p data = .ok result
  | remaining, p, data, accepted => by
    have anchored := grounded.anchored p accepted
    have uncles : (s.view.iteratorUncles p).missing = none := by
      refine iteratorUncles_missing fun id mem => ?_
      cases anchored with
      | genesis _ _ none =>
        rw [none] at mem
        cases mem
      | regular _ ready =>
        obtain ⟨u, found, -⟩ := ready.uncles id mem
        exact ⟨u, found⟩
    unfold difficultyLoop
    dsimp only
    rw [uncles]
    cases remaining with
    | zero => exact ⟨_, rfl⟩
    | succ remaining =>
      dsimp only
      split_ifs with root
      · exact ⟨_, rfl⟩
      · cases anchored with
        | genesis height => exact absurd height root
        | regular _ ready =>
          obtain ⟨q, found, good, -⟩ := ready.parent
          rw [grounded.iteratorGetParent, found]
          exact difficultyLoop_ok grounded tip remaining _ good

end Grounded

end Grounded

section Verdicts

variable [Uint128Package] [Crypto] {consensus : Consensus} {server : Server} {N : Ptr} {fuel : Nat}
  {s s' t : SideChain}

theorem Grounded.decided_checkWindow (grounded : Grounded consensus s) (block : Ptr) {parent : Ptr}
    (accepted : s.Accepted parent) : Decided (checkWindow consensus (s.context server) block parent) := by
  refine Decided.bind ?_ fun _ _ => (decided_requireValid _ _).bind fun _ _ => ?_
  · obtain ⟨data, run⟩ := grounded.difficultyLoop_ok parent (consensus.chainWindowSize.toNat - 1) [] accepted
    have collected : ∀ e, getDifficultyForNextBlock consensus s.view parent ≠ .error (.verify e) := by
      intro e
      unfold getDifficultyForNextBlock
      rw [run]
      dsimp only
      split <;> nofun
    intro m
    unfold expectedDifficulty
    split_ifs
    · nofun
    · split
      · rename_i e failed
        exact absurd failed (collected e)
      · nofun
      · split_ifs <;> nofun
  · split <;> nofun

theorem Grounded.decided_verifyBlock (grounded : Grounded consensus s) {p : Ptr} (ready : s.Ready p) :
    Decided (verifyBlock consensus (s.context server) fuel p) := by
  obtain ⟨q, found, accepted, height⟩ := ready.parent
  have root : (s.mem p).side.height ≠ 0 := by
    intro zero
    rw [zero] at height
    exact absurd height (Nat.succ_ne_zero _)
  have parent : s.view.iteratorGetParent p = some q := (grounded.iteratorGetParent p).trans found
  have root' : ¬ ((s.context server).view.block p).side.height = 0 := root
  unfold verifyBlock
  dsimp only
  rw [if_neg root', show (s.context server).view.iteratorGetParent p = some q from parent]
  by_cases deep : ((s.context server).view.block p).depth > deepBlockDepth consensus
  · rw [if_pos deep]
    exact decided_ok ()
  · rw [if_neg deep]
    by_cases orphan : ((s.context server).view.block p).side.parent = zeroHash
    · rw [if_pos orphan]
      nofun
    · rw [if_neg orphan]
      refine Decided.bind ?_ fun _ _ => ?_
      · exact (decided_requireVerifiable accepted.1 _).bind fun _ _ =>
          (decided_requireValid _ _).bind fun _ _ => (decided_requireValid _ _).bind fun _ _ =>
            (decided_requireValid _ _).bind fun _ _ => (decided_requireValid _ _).bind fun _ _ =>
              (decided_checkUncles _ fuel _ _ _ _ _ fun id mem => by
                obtain ⟨u, found, good, -⟩ := ready.uncles id mem
                exact ⟨u, found, good.1⟩).bind fun _ _ => decided_requireValid _ _
      · split_ifs
        · exact decided_ok ()
        · exact grounded.decided_checkWindow p accepted

/-! ## Regular steps keep the ground -/

theorem anchored_of_verifyBlock {p : Ptr} (empty : (s.mem p).iterationCache = none)
    (checked : ¬ Skips consensus s p)
    (run : verifyBlock consensus (s.context server) fuel p = .ok ()) : s.Anchored p := by
  by_cases root : (s.mem p).side.height = 0
  · have genesis : ((s.context server).view.block p).side.height = 0 := root
    rw [verifyBlock_genesis genesis] at run
    simp only [verifyGenesis, requireValid_eq_ok, not_or, not_not] at run
    exact .genesis root run.1 (List.length_eq_zero_iff.mp run.2.1)
  · have shallow : ¬ (s.mem p).depth > deepBlockDepth consensus := fun deep => checked ⟨root, deep⟩
    obtain ⟨-, q, parent, links, -⟩ :=
      (verifyBlock_regular consensus (s.context server) () root shallow).mp run
    obtain ⟨verified, valid, -, height, -, uncles⟩ := (checkLinks_eq_ok consensus _ fuel _ q ()).mp links
    have lookup : s.view.iteratorGetParent p = s.blocksByTemplateId (s.mem p).side.parent := by
      simp only [View.iteratorGetParent, view, empty]
    refine .regular root ⟨⟨q, lookup.symm.trans parent, ⟨verified, valid⟩, ?_⟩, fun id mem => ?_⟩
    · have height : (s.mem q).side.height + 1 = (s.mem p).side.height := height
      have sum := congrArg UInt64.toNat height
      rw [UInt64.toNat_add] at sum
      have nonzero : (s.mem p).side.height.toNat ≠ 0 := fun zero => root (UInt64.toNat_inj.mp zero)
      have one : (1 : UInt64).toNat = 1 := rfl
      have bound := (s.mem q).side.height.toNat_lt
      omega
    · obtain ⟨us, all, -⟩ := (checkUncles_eq_ok _ fuel _ q _ _ _ _).mp uncles
      obtain ⟨u, -, -, -, found, accepted⟩ := forall₂_exists_of_mem_left all mem
      obtain ⟨good, heights⟩ := height_near_of_checkUncle accepted
      exact ⟨u, found, good, heights⟩

theorem Grounded.regular (grounded : Grounded consensus s) (wf : Wf N s)
    (step : RegularStep consensus server N s s') (kept : Kept s s') : Grounded consensus s' where
  indexed := indexed_step grounded.indexed step.1
  resolved := resolved_evolves grounded.resolved step.1.evolves kept
  anchored p accepted := by
    have evolves := step.1.evolves
    refine Anchored.evolves ?_ evolves kept
    cases verified : (s.mem p).verified with
    | true =>
      exact grounded.anchored p ⟨verified, ((evolves.verdict p verified).2.symm.trans accepted.2)⟩
    | false =>
      have now : verdict (s'.mem p) = (true, false) := Prod.ext accepted.1 accepted.2
      rcases step.1.verdict_cases p with same | rejected | postponed | ⟨fuel, judged⟩
      · rw [now] at same
        exact absurd ((congrArg Prod.fst same).trans verified) nofun
      · exact absurd (now.symm.trans rejected) (by decide)
      · exact absurd (now.symm.trans postponed) (by decide)
      · exact anchored_of_verifyBlock (wf.fresh p verified) (step.2 p verified accepted.1) judged

theorem Grounded.reaches (grounded : Grounded consensus s) (wf : Wf N s)
    (reach : RegularReach consensus server N s t) (kept : Kept s t) : Grounded consensus t := by
  induction reach with
  | refl => exact grounded
  | @tail u t before last ih =>
    have evolves := reaches_evolves (reaches_of_regular before)
    obtain ⟨first, second⟩ := kept.of_evolves evolves last.1.evolves
    exact (ih first).regular (wf.evolves evolves) last second

end Verdicts

/-! ## Closure -/

section Closure

variable [Crypto] (consensus : Consensus)

/-- Every stored block that could be judged has been, apart from those in the list. -/
def ClosedExcept (s : SideChain) (waiting : List Ptr) : Prop :=
  ∀ p, s.Stored consensus p → (s.mem p).verified = false → s.Ready p → p ∈ waiting

variable {consensus} {s s' : SideChain}

theorem ClosedExcept.same {waiting : List Ptr} (closed : ClosedExcept consensus s waiting)
    (e : Evolves s s') (verdicts : ∀ p, verdict (s'.mem p) = verdict (s.mem p)) :
    ClosedExcept consensus s' waiting := by
  intro p stored unverified ready
  have accepted : ∀ {q}, s'.Accepted q → s.Accepted q := by
    intro q good
    have same := verdicts q
    exact ⟨(congrArg Prod.fst same).symm.trans good.1, (congrArg Prod.snd same).symm.trans good.2⟩
  refine closed p ?_ ((congrArg Prod.fst (verdicts p)).symm.trans unverified) ⟨?_, fun id mem => ?_⟩
  · rw [Stored, e.templateId consensus] at stored
    exact e.lookup _ _ stored
  · obtain ⟨q, found, good, height⟩ := ready.parent
    rw [e.side, e.side] at height
    rw [e.side] at found
    exact ⟨q, e.lookup _ _ found, accepted good, height⟩
  · rw [← e.side] at mem
    obtain ⟨u, found, good, heights⟩ := ready.uncles id mem
    rw [e.side, e.side] at heights
    exact ⟨u, e.lookup _ _ found, accepted good, heights⟩

theorem mem_blocksAbove_of_near (indexed : Indexed consensus s) {p block : Ptr}
    (stored : s.Stored consensus p) (above : (s.mem block).side.height.toNat < (s.mem p).side.height.toNat)
    (near : (s.mem p).side.height.toNat ≤ (s.mem block).side.height.toNat + 3) : p ∈ s.blocksAbove block := by
  have bound := (s.mem p).side.height.toNat_lt
  have at' : ∀ k : UInt64, k.toNat ≤ 3 → (s.mem block).side.height.toNat + k.toNat = (s.mem p).side.height.toNat →
      p ∈ s.getPoolBlocksByHeight ((s.mem block).side.height + k) := by
    intro k small sum
    refine (indexed.mem_iff _ p).mpr ⟨stored, ?_⟩
    apply UInt64.toNat_inj.mp
    rw [UInt64.toNat_add, sum, Nat.mod_eq_of_lt bound]
  simp only [blocksAbove, List.mem_reverse, List.mem_append]
  have cases : (s.mem block).side.height.toNat + 1 = (s.mem p).side.height.toNat ∨
      (s.mem block).side.height.toNat + 2 = (s.mem p).side.height.toNat ∨
      (s.mem block).side.height.toNat + 3 = (s.mem p).side.height.toNat := by omega
  rcases cases with one | two | three
  · exact .inl (.inl (at' 1 (by decide) one))
  · exact .inl (.inr (at' 2 (by decide) two))
  · exact .inr (at' 3 (by decide) three)

end Closure

section Loop

variable [Uint128Package] [Crypto] {consensus : Consensus} {server : Server} {N : Ptr} {fuel : Nat}
  {s t : SideChain}
variable {blockToVerify block : Ptr} {v v' : VerifyState} {others : List Ptr} {err : Option String}
  {b : PoolBlock} {depths settled : SideChain}

theorem regular_verifyStep (inv : VerifyInv consensus N v) (checked : ∀ x ∈ v.judged, ¬ Skips consensus x.1 x.2)
    (next : verifyStep consensus server fuel blockToVerify v = .ok (.next v')) :
    RegularReach consensus server N v.chain v'.chain := by
  obtain ⟨runs, -⟩ : ChainRuns consensus server N _ v.chain _ ∧ _ :=
    runs_verifyStep inv fuel blockToVerify
  rw [next] at runs
  have start : Checked consensus N v.chain v :=
    ⟨inv.wf, .refl _, fun _ => rfl, fun p no yes => absurd (no.symm.trans yes) Bool.false_ne_true⟩
  have ends := checked_verifyStep start checked next
  refine regular_of_reaches runs fun p unverified verified skips => ?_
  refine ends.judged p unverified verified ⟨?_, ?_⟩
  · rw [← ends.evolves.side]
    exact skips.1
  · rw [← ends.depth]
    exact skips.2

theorem Pops.newly_accepted {q : Ptr} {rest : List Ptr}
    (pops : Pops consensus server fuel blockToVerify v block rest v') (now : v'.chain.Accepted q) :
    v.chain.Accepted q ∨ ∀ p ∈ v'.chain.blocksAbove q, p ∈ v'.blocksToVerify := by
  by_cases here : q = block
  · subst here
    cases pops with
    | known => exact .inl now
    | rejected =>
      have invalid := now.2
      simp [setVerdict] at invalid
    | postponed =>
      have verified := now.1
      simp [setVerdict] at verified
    | accepted _ _ accept =>
      obtain ⟨send, -, stack⟩ := acceptBlock_eq_ok accept
      rw [stack]
      exact .inr fun p mem => List.mem_append_left _ mem
  · rw [Accepted, pops.mem_ne here] at now
    exact .inl now

variable (consensus N) in
structure ClosingLoop (others : List Ptr) (v : VerifyState) : Prop where
  inv : VerifyInv consensus N v
  grounded : Grounded consensus v.chain
  closed : ClosedExcept consensus v.chain (v.blocksToVerify ++ others)

theorem closing_verifyStep
    (loop : ClosingLoop consensus N others v) (checked : ∀ x ∈ v.judged, ¬ Skips consensus x.1 x.2)
    (next : verifyStep consensus server fuel blockToVerify v = .ok (.next v')) :
    ClosingLoop consensus N others v' := by
  have regular : RegularReach consensus server N v.chain v'.chain :=
    regular_verifyStep loop.inv checked next
  obtain ⟨top, rest, stack, pops⟩ := verifyStep_next next
  have evolves := pops.evolves loop.inv.wf
  have lookup := pops.quiet.lookup
  have kept : Kept v.chain v'.chain := fun id p found => by rwa [lookup]
  have grounded := loop.grounded.reaches loop.inv.wf regular kept
  refine ⟨(runs_verifyStep loop.inv fuel blockToVerify).2 v' next, grounded,
    fun p stored unverified ready => ?_⟩
  by_cases waited : v.chain.Ready p
  · -- it was waiting on the stack already
    have before : v.chain.Stored consensus p := by
      rwa [Stored, evolves.templateId consensus, lookup] at stored
    have listed := loop.closed p before (not_verified_of_evolves evolves unverified) waited
    rw [stack, List.cons_append] at listed
    rcases List.mem_cons.mp listed with rfl | later
    · rcases pops.verdict_top with verified | ⟨message, judged⟩
      · cases verified.symm.trans unverified
      · exact absurd judged (loop.grounded.decided_verifyBlock waited message)
    · rcases List.mem_append.mp later with inRest | inOthers
      · exact List.mem_append_left _ (pops.mem_of_rest inRest)
      · exact List.mem_append_right _ inOthers
  · -- it has been waiting for the block just accepted, and is above it
    by_contra unlisted
    have near : ∀ q, v'.chain.Accepted q →
        (v'.chain.mem q).side.height.toNat < (v'.chain.mem p).side.height.toNat →
        (v'.chain.mem p).side.height.toNat ≤ (v'.chain.mem q).side.height.toNat + 3 →
          v.chain.Accepted q := by
      intro q good above close
      rcases pops.newly_accepted good with old | pushed
      · exact old
      · refine absurd (List.mem_append_left _ (pushed p ?_)) unlisted
        exact mem_blocksAbove_of_near grounded.indexed stored above close
    refine waited ⟨?_, fun id mem => ?_⟩
    · obtain ⟨q, found, good, height⟩ := ready.parent
      have old := near q good (by omega) (by omega)
      rw [evolves.side, evolves.side] at height
      rw [evolves.side, lookup] at found
      exact ⟨q, found, old, height⟩
    · rw [← evolves.side] at mem
      obtain ⟨u, found, good, heights⟩ := ready.uncles id mem
      have old := near u good heights.1 heights.2
      rw [evolves.side, evolves.side] at heights
      rw [lookup] at found
      exact ⟨u, found, old, heights⟩

theorem updateChainTip_verdict (run : updateChainTip consensus server fuel s block = .ok t) (p : Ptr) :
    verdict (t.mem p) = verdict (s.mem p) :=
  updateChainTip_keeps (fun _ => rfl) (fun _ _ => rfl) (fun _ _ => rfl) run p

theorem ClosedExcept.updateChainTip {waiting : List Ptr} {block : Ptr}
    (closed : ClosedExcept consensus s waiting) (cand : Candidate consensus N s block)
    (run : updateChainTip consensus server fuel s block = .ok t) : ClosedExcept consensus t waiting :=
  closed.same (reaches_evolves (reaches_of_regular (regular_updateChainTip cand run)))
    (updateChainTip_verdict run)

theorem closing_verifyLoop (wf : Wf N s)
    (cand : Candidate consensus N s block) (grounded : Grounded consensus s)
    (closed : ClosedExcept consensus s (block :: others))
    (run : verifyLoop consensus server fuel s block = .ok (t, err))
    (checked : ∀ x ∈ verifyLoopJudged consensus server fuel s block, ¬ Skips consensus x.1 x.2)
    (kept : Kept s t) : Grounded consensus t ∧ ClosedExcept consensus t others := by
  refine ⟨grounded.reaches wf (regular_verifyLoop wf cand run checked) kept, ?_⟩
  obtain ⟨v, looped, moved⟩ := verifyLoop_eq_ok run
  have start : ClosingLoop consensus N others ⟨s, [block], none, none⟩ :=
    ⟨⟨wf, fun p mem => List.mem_singleton.mp mem ▸ cand, nofun⟩, grounded, closed⟩
  have each : ∀ v ∈ loopStates (verifyStep consensus server fuel block) fuel ⟨s, [block], none, none⟩,
      ∀ x ∈ v.judged, ¬ Skips consensus x.1 x.2 :=
    fun v mem x judged => checked x (List.mem_flatMap.mpr ⟨v, mem, judged⟩)
  have ends : ∀ v v', ClosingLoop consensus N others v →
      verifyStep consensus server fuel block v = .ok (.done v') →
        VerifyInv consensus N v' ∧ ClosedExcept consensus v'.chain others := by
    intro v v' loop done
    obtain ⟨rfl, empty⟩ := verifyStep_done done
    refine ⟨loop.inv, ?_⟩
    have closed := loop.closed
    rwa [empty] at closed
  obtain ⟨inv, closed⟩ : VerifyInv consensus N v ∧ ClosedExcept consensus v.chain others :=
    loop_inv_states (fun v v' good inv next => closing_verifyStep inv good next)
      (fun v v' _ inv done => ends v v' inv done) each start looped
  rcases moved with ⟨-, rfl⟩ | ⟨top, highest, moved⟩
  · exact closed
  · exact closed.updateChainTip (inv.highest top highest) moved

/-! ## The worklist of depths -/

variable (consensus) in
/-- Ready blocks have a verdict, those in `waiting` apart. -/
structure Closed (waiting : List Ptr) (s : SideChain) : Prop where
  grounded : Grounded consensus s
  closed : ClosedExcept consensus s waiting

theorem Closed.raised {waiting : List Ptr} (closed : Closed consensus waiting s) (wf : Wf N s)
    (reach : RegularReach consensus server N s t) (raised : Raised s t) :
    Closed consensus waiting t where
  grounded := closed.grounded.reaches wf reach fun id p found => by rwa [raised.lookup]
  closed := closed.closed.same (reaches_evolves (reaches_of_regular reach)) (raised.keeps fun _ _ => rfl)

theorem closing_verifyDeep (wf : Wf N s) (alloc : block < s.next)
    (closed : Closed consensus [N] s) (run : verifyDeep consensus server fuel s block = .ok t)
    (checked : ∀ x ∈ verifyDeepJudged consensus server fuel s block, ¬ Skips consensus x.1 x.2)
    (kept : Kept s t) : Closed consensus [N] t := by
  unfold verifyDeep at run
  unfold verifyDeepJudged at checked
  dsimp only at run checked
  split_ifs at run checked with due
  · obtain ⟨⟨u, err⟩, looped, done⟩ := except_bind_eq_ok.mp run
    cases done
    have start : ClosedExcept consensus s (block :: [N]) :=
      fun p stored unverified ready => List.mem_cons_of_mem block (closed.closed p stored unverified ready)
    obtain ⟨grounded, closed⟩ := closing_verifyLoop wf (candidate_of_due wf alloc due) closed.grounded
      start looped checked kept
    exact ⟨grounded, closed⟩
  · cases run
    exact closed

variable (consensus server N) in
/-- The invariant of the worklist of depths, started in `s`. -/
structure ClosingDepths (s : SideChain) (d : DepthState) : Prop where
  regular : RegularDepths consensus server N s d
  closed : Kept s d.chain → Closed consensus [N] d.chain

theorem closing_depthStep {d : DepthState} {r : Step DepthState SideChain}
    (inv : ClosingDepths consensus server N s d)
    (checked : ∀ x ∈ depthStepJudged consensus server fuel d, ¬ Skips consensus x.1 x.2)
    (run : depthStep consensus server fuel d = .ok r) : (∀ t, r = .done t → Kept s t → Closed consensus [N] t) ∧
      ∀ d', r = .next d' → ClosingDepths consensus server N s d' := by
  have regular := regular_depthStep inv.regular checked run
  rcases depthStep_cases run with ⟨-, rfl⟩ | ⟨block, rest, t, stack, verified, outcome⟩
  · refine ⟨fun t done => ?_, fun d' next => by cases next⟩
    cases done
    exact inv.closed
  · have alloc : ∀ p ∈ block :: rest, p < d.chain.next := stack ▸ inv.regular.stack
    have judged : ∀ x ∈ verifyDeepJudged consensus server fuel d.chain block,
        ¬ Skips consensus x.1 x.2 := by
      rw [depthStepJudged, stack] at checked
      exact checked
    have first : RegularReach consensus server N d.chain t :=
      regular_verifyDeep inv.regular.wf (alloc block (.head _)) verified judged
    have evolves := reaches_evolves (reaches_of_regular first)
    have wf := inv.regular.wf.evolves evolves
    have before := reaches_evolves (reaches_of_regular inv.regular.reach)
    -- whatever comes after the verification of the block raises depths
    have later : ∀ u, RegularReach consensus server N t u → Raised t u → Kept s u →
        Closed consensus [N] u := by
      intro u reach raised kept
      have kept := (kept.of_evolves (before.trans evolves) (reaches_evolves (reaches_of_regular reach))).1
      obtain ⟨kept, keptT⟩ := kept.of_evolves before evolves
      exact (closing_verifyDeep inv.regular.wf (alloc block (.head _)) (inv.closed kept) verified
        judged keptT).raised wf reach raised
    have reach : Outcome (RegularReach consensus server N t) _
        (depthToNeighbours consensus block (d.chain.mem block).depth ⟨t, rest⟩) :=
      regular_toNeighbours block _ wf fun p mem => evolves.next ▸ alloc p (.tail block mem)
    have raised := raised_toNeighbours consensus t block (d.chain.mem block).depth rest
    rcases outcome with ⟨u, early, rfl⟩ | ⟨d', go, rfl⟩
    · rw [early] at reach raised
      refine ⟨fun t done => ?_, fun d' next => by cases next⟩
      cases done
      exact later u reach raised
    · rw [go] at reach raised
      refine ⟨fun t done => (by cases done), fun d' next => ⟨regular.2 d' next, ?_⟩⟩
      cases next
      exact later d'.chain reach.1 raised

theorem closing_updateDepths (wf : Wf N s) (alloc : block < s.next)
    (closed : Closed consensus [N] s) (run : updateDepths consensus server fuel s block = .ok t)
    (checked : ∀ x ∈ updateDepthsJudged consensus server fuel s block, ¬ Skips consensus x.1 x.2)
    (kept : Kept s t) : Closed consensus [N] t := by
  have reach : Outcome (ChainReach consensus server N s)
      (ChainReach consensus server N s) (depthFromChildren consensus block s) :=
    reaches_depthFromChildren s block
  have raised := raised_fromChildren consensus s block
  unfold updateDepths at run
  unfold updateDepthsJudged at checked
  cases outcome : depthFromChildren consensus block s with
  | error u =>
    rw [outcome] at run reach raised
    cases run
    exact closed.raised wf (regular_of_same reach (raised.keeps fun _ _ => rfl)) raised
  | ok u =>
    rw [outcome] at run checked reach raised
    have regular : RegularReach consensus server N s u :=
      regular_of_same reach (raised.keeps fun _ _ => rfl)
    have evolves := reaches_evolves reach
    have start : ClosingDepths consensus server N s ⟨u, [block]⟩ := by
      refine ⟨⟨regular, wf.evolves evolves, fun p mem => ?_⟩, fun _ => closed.raised wf regular raised⟩
      rw [List.mem_singleton.mp mem, evolves.next]
      exact alloc
    have each : ∀ d ∈ loopStates (depthStep consensus server fuel) fuel ⟨u, [block]⟩,
        ∀ x ∈ depthStepJudged consensus server fuel d, ¬ Skips consensus x.1 x.2 :=
      fun d mem x judged => checked x (List.mem_flatMap.mpr ⟨d, mem, judged⟩)
    have ends : Kept s t → Closed consensus [N] t :=
      loop_inv_states (fun d d' good inv next => (closing_depthStep inv good next).2 d' rfl)
        (fun d r good inv done => (closing_depthStep inv good done).1 r rfl) each start run
    exact ends kept

/-! ## The whole call -/

theorem closing_settleBlock (wf : Wf N s) (cand : Candidate consensus N s N)
    (closed : Closed consensus [N] s) (run : settleBlock consensus server fuel s N = .ok (t, err))
    (checked : ∀ x ∈ settleBlockJudged consensus server fuel s N, ¬ Skips consensus x.1 x.2)
    (kept : Kept s t) : Closed consensus [] t := by
  unfold settleBlock at run
  unfold settleBlockJudged at checked
  split_ifs at run checked with verified invalid
  · cases run
    refine ⟨closed.grounded, fun p stored unverified ready => ?_⟩
    have new := List.mem_singleton.mp (closed.closed p stored unverified ready)
    subst new
    exact absurd (verified.symm.trans unverified) nofun
  · obtain ⟨u, moved, done⟩ := except_bind_eq_ok.mp run
    cases done
    refine ⟨closed.grounded.reaches wf (regular_updateChainTip cand moved) kept, ?_⟩
    refine ClosedExcept.updateChainTip (fun p stored unverified ready => ?_) cand moved
    have new := List.mem_singleton.mp (closed.closed p stored unverified ready)
    subst new
    exact absurd (verified.symm.trans unverified) nofun
  · obtain ⟨grounded, closed⟩ := closing_verifyLoop wf cand closed.grounded closed.closed run checked kept
    exact ⟨grounded, closed⟩

omit [Uint128Package] in
theorem resolved_insertBlock {b : PoolBlock}
    (resolved : ∀ p c, (s.mem p).iterationCache = some c → s.Resolves (s.mem p).side c)
    (decoded : b.Decoded) (fresh : s.blocksByTemplateId (b.sideTemplateId consensus) = none) (p : Ptr)
    (c : IterationCache) (filled : ((s.insertBlock consensus b).mem p).iterationCache = some c) :
    (s.insertBlock consensus b).Resolves ((s.insertBlock consensus b).mem p).side c := by
  have kept : Kept s (s.insertBlock consensus b) := fun id p found => lookup_insertBlock_of_some fresh found
  by_cases here : p = s.next
  · rw [here, insertBlock_mem_self, decoded.iterationCache] at filled
    cases filled
  · rw [insertBlock_mem, Function.update_of_ne here] at filled ⊢
    obtain ⟨parent, uncles⟩ := resolved p c filled
    exact ⟨kept _ _ parent, uncles.imp fun id u found => kept id u found⟩

omit [Uint128Package] in
theorem closed_insertBlock {b : PoolBlock} (wf : Wf s.next s) (closed : Closed consensus [] s)
    (decoded : b.Decoded) (fresh : s.blocksByTemplateId (b.sideTemplateId consensus) = none) :
    Closed consensus [s.next] (s.insertBlock consensus b) := by
  have kept : Kept s (s.insertBlock consensus b) := fun id p found => lookup_insertBlock_of_some fresh found
  have old : ∀ {p}, p ≠ s.next → (s.insertBlock consensus b).mem p = s.mem p := by
    intro p other
    rw [insertBlock_mem, Function.update_of_ne other]
  have new : (s.insertBlock consensus b).mem s.next = b := insertBlock_mem_self
  have oldOf : ∀ {id p}, s.blocksByTemplateId id = some p → p ≠ s.next :=
    fun found => Nat.ne_of_lt (wf.lookup _ _ found)
  refine ⟨⟨indexed_insertBlock wf closed.grounded.indexed fresh,
    resolved_insertBlock closed.grounded.resolved decoded fresh, fun p accepted => ?_⟩,
    fun p stored unverified ready => ?_⟩
  · by_cases here : p = s.next
    · rw [Accepted, here, new, decoded.verified] at accepted
      exact absurd accepted.1 nofun
    · have same := old here
      rw [Accepted, same] at accepted
      cases closed.grounded.anchored p accepted with
      | genesis height parent uncles => exact .genesis (by rwa [same]) (by rwa [same]) (by rwa [same])
      | regular height ready =>
        refine .regular (by rwa [same]) (ready.mono (by rw [same]) kept ?_ ?_)
        · exact fun id q found => by rw [old (oldOf found)]
        · exact fun id q found good => by rwa [Accepted, old (oldOf found)]
  · by_contra other
    have here : p ≠ s.next := fun same => other (List.mem_singleton.mpr same)
    rw [Stored, templateId, old here, ← templateId] at stored
    rw [old here] at unverified
    -- what is accepted was stored before
    have found : ∀ {id q}, (s.insertBlock consensus b).blocksByTemplateId id = some q →
        (s.insertBlock consensus b).Accepted q → s.blocksByTemplateId id = some q ∧ s.Accepted q := by
      intro id q found accepted
      rcases lookup_insertBlock found with ⟨-, rfl⟩ | before
      · rw [Accepted, new, decoded.verified] at accepted
        exact absurd accepted.1 nofun
      · rw [Accepted, old (oldOf before)] at accepted
        exact ⟨before, accepted⟩
    have before : s.Ready p := by
      refine ⟨?_, fun id mem => ?_⟩
      · obtain ⟨q, lookup, accepted, height⟩ := ready.parent
        rw [old here] at lookup height
        obtain ⟨lookup, accepted⟩ := found lookup accepted
        rw [old (oldOf lookup)] at height
        exact ⟨q, lookup, accepted, height⟩
      · rw [← old here] at mem
        obtain ⟨u, lookup, accepted, heights⟩ := ready.uncles id mem
        obtain ⟨lookup, accepted⟩ := found lookup accepted
        rw [old here, old (oldOf lookup)] at heights
        exact ⟨u, lookup, accepted, heights⟩
    have storedBefore : s.Stored consensus p := by
      rcases lookup_insertBlock stored with ⟨-, same⟩ | found
      · exact absurd same here
      · exact found
    exact absurd (closed.closed p storedBefore unverified before) List.not_mem_nil

variable (consensus) in
inductive Call (s t : SideChain) : Prop
  | mk (server : Server) (fuel : Nat) (b : PoolBlock) (err : Option String) (decoded : b.Decoded)
      (run : addPoolBlock consensus server fuel s b = .ok (t, err))

variable (consensus) in
/-- A call that takes nothing out of the store, neither an old block nor the new one, and
in which `verifyBlock` accepts no block for its depth alone. -/
inductive PlainCall (s t : SideChain) : Prop
  | mk (server : Server) (fuel : Nat) (b : PoolBlock) (err : Option String) (decoded : b.Decoded)
      (run : addPoolBlock consensus server fuel s b = .ok (t, err))
      (unpruned : ∀ p, s.Stored consensus p ∨ s.next ≤ p ∧ p < t.next → t.Stored consensus p)
      (checked : ∀ x ∈ addPoolBlockJudged consensus server fuel s b, ¬ Skips consensus x.1 x.2)

theorem PlainCall.call (call : PlainCall consensus s t) : Call consensus s t := by
  obtain ⟨server, fuel, b, err, decoded, run, -, -⟩ := call
  exact ⟨server, fuel, b, err, decoded, run⟩

theorem Call.wf (call : Call consensus s t) (wf : Wf s.next s) : Wf t.next t := by
  obtain ⟨server, fuel, b, err, decoded, run⟩ := call
  exact wf_addPoolBlock wf decoded run

theorem Call.verdict (call : Call consensus s t) (wf : Wf s.next s) {p : Ptr} (alloc : p < s.next)
    (verified : (s.mem p).verified = true) :
    p < t.next ∧ (t.mem p).verified = true ∧ (t.mem p).invalid = (s.mem p).invalid := by
  obtain ⟨server, fuel, b, err, decoded, run⟩ := call
  have outcome : (∃ err, addPoolBlock consensus server fuel s b = .ok (s, err)) ∨ _ ∧ _ :=
    addPoolBlock_cases wf decoded
  rw [run] at outcome
  rcases outcome with ⟨err', same⟩ | ⟨-, runs⟩
  · cases same
    exact ⟨alloc, verified, rfl⟩
  · have evolves : Evolves (s.insertBlock consensus b) t := reaches_evolves runs
    have old : (s.insertBlock consensus b).mem p = s.mem p := insertBlock_mem_of_lt alloc
    have verdict := evolves.verdict p (by rwa [old])
    rw [old] at verdict
    refine ⟨?_, verdict⟩
    rw [evolves.next, insertBlock_next]
    exact Nat.lt_succ_of_lt alloc

theorem Inserts.evolves (inserts : Inserts consensus server fuel s b depths settled t err) (wf : Wf s.next s)
    (decoded : b.Decoded) :
    Evolves (s.insertBlock consensus b) depths ∧ Evolves depths settled ∧ Evolves settled t := by
  have alloc := next_lt_insertBlock consensus s b
  obtain ⟨wfDepths, cand⟩ := inserts.alloc wf decoded
  refine ⟨evolves_updateDepths (wf_insertBlock wf decoded) alloc inserts.updateDepths,
    evolves_settleBlock wfDepths cand inserts.settleBlock, ?_⟩
  rw [inserts.updateSyncTip]
  exact evolves_updateSyncTip settled s.next

theorem Inserts.kept (inserts : Inserts consensus server fuel s b depths settled t err) (wf : Wf s.next s)
    (indexed : Indexed consensus s) (decoded : b.Decoded)
    (unpruned : ∀ p, s.Stored consensus p ∨ s.next ≤ p ∧ p < t.next → t.Stored consensus p) :
    Kept (s.insertBlock consensus b) t := by
  obtain ⟨first, second, third⟩ := inserts.evolves wf decoded
  have all := (first.trans second).trans third
  have indexed' := indexed_insertBlock wf indexed inserts.enters.fresh
  intro id p found
  have stored : t.Stored consensus p := by
    refine unpruned p ?_
    rcases lookup_insertBlock found with ⟨-, rfl⟩ | old
    · refine .inr ⟨Nat.le_refl _, ?_⟩
      rw [all.next, insertBlock_next]
      exact Nat.lt_succ_self _
    · exact .inl (indexed.stored old)
  rw [Stored, all.templateId consensus, (indexed'.lookup found).1] at stored
  exact stored

theorem closed_plainCall (wf : Wf s.next s) (closed : Closed consensus [] s)
    (call : PlainCall consensus s t) : Closed consensus [] t := by
  obtain ⟨server, fuel, b, err, decoded, run, unpruned, checked⟩ := call
  rcases addPoolBlock_inserts run with rfl | ⟨depths, settled, inserts⟩
  · exact closed
  · have start := closed_insertBlock wf closed decoded inserts.enters.fresh
    have wf' : Wf s.next (s.insertBlock consensus b) := wf_insertBlock wf decoded
    have alloc := next_lt_insertBlock consensus s b
    obtain ⟨wfDepths, cand⟩ := inserts.alloc wf decoded
    obtain ⟨first, second, third⟩ := inserts.evolves wf decoded
    have kept := inserts.kept wf closed.grounded.indexed decoded unpruned
    obtain ⟨kept, -⟩ := kept.of_evolves (first.trans second) third
    obtain ⟨keptFirst, keptSecond⟩ := kept.of_evolves first second
    rw [inserts.judged] at checked
    have middle := closing_updateDepths wf' alloc start inserts.updateDepths
      (fun x mem => checked x (List.mem_append_left _ mem)) keptFirst
    have ends := closing_settleBlock wfDepths cand middle inserts.settleBlock
      (fun x mem => checked x (List.mem_append_right _ mem)) keptSecond
    have regular : RegularReach consensus server s.next settled t := by
      rw [inserts.updateSyncTip]
      exact regular_of_same (.single (.syncTip s.next)) fun p => by rw [updateSyncTip_mem]
    have same : t.mem = settled.mem := by rw [inserts.updateSyncTip, updateSyncTip_mem]
    have lookup : t.blocksByTemplateId = settled.blocksByTemplateId := by
      rw [inserts.updateSyncTip, updateSyncTip]
      split_ifs <;> rfl
    exact ⟨ends.grounded.reaches (wfDepths.evolves second) regular fun id p found => by rwa [lookup],
      ends.closed.same third fun p => by rw [same]⟩

omit [Uint128Package] in
theorem closed_newSideChain : Closed consensus [] (newSideChain consensus) where
  grounded := ⟨indexed_newSideChain, fun _ _ => nofun, fun _ accepted => nomatch accepted.1⟩
  closed _ stored := nomatch stored

/-- After every call of a run that prunes nothing and skips no check, each stored block
whose parent and uncles are stored, accepted and at the right heights has its verdict; and
a verdict once given stays. -/
theorem verification_fixpoint (run : ReflTransGen (PlainCall consensus) (newSideChain consensus) s) :
    (∀ p, s.Stored consensus p → (s.mem p).verified = false → ¬ s.Ready p) ∧
    ∀ t, ReflTransGen (PlainCall consensus) s t → ∀ p, s.Stored consensus p →
      (s.mem p).verified = true →
        (t.mem p).verified = true ∧ (t.mem p).invalid = (s.mem p).invalid := by
  have inv : Wf s.next s ∧ Closed consensus [] s := by
    induction run with
    | refl => exact ⟨wf_newSideChain, closed_newSideChain⟩
    | tail _ last ih => exact ⟨last.call.wf ih.1, closed_plainCall ih.1 ih.2 last⟩
  refine ⟨fun p stored unverified ready => ?_, fun t later p stored verified => ?_⟩
  · exact absurd (inv.2.closed p stored unverified ready) List.not_mem_nil
  · have all : Wf t.next t ∧ p < t.next ∧ (t.mem p).verified = true ∧
        (t.mem p).invalid = (s.mem p).invalid := by
      induction later with
      | refl => exact ⟨inv.1, inv.1.lookup _ _ stored, verified, rfl⟩
      | tail _ last ih =>
        obtain ⟨wf, alloc, verified, same⟩ := ih
        obtain ⟨alloc', verified', same'⟩ := last.call.verdict wf alloc verified
        exact ⟨last.call.wf wf, alloc', verified', same'.trans same⟩
    exact all.2.2

end Loop

namespace PairExample

open LongChain (crypto)
open LadderExample (consensus early)

/-- A call, if every block stays stored and no check is skipped. -/
def plainly (s : SideChain) (b : PoolBlock) : Option SideChain :=
  match @addPoolBlock .exact crypto consensus early 60 s b with
  | .error _ => none
  | .ok (t, _) =>
    if s.next ≤ t.next ∧ (∀ p ∈ List.range t.next, @Stored crypto consensus t p) ∧
      (∀ x ∈ @addPoolBlockJudged .exact crypto consensus early 60 s b, ¬ Skips consensus x.1 x.2)
    then some t else none

theorem plainCall_of_plainly {s t : SideChain} {b : PoolBlock} (wf : Wf s.next s) (decoded : b.Decoded)
    (seen : plainly s b = some t) : @PlainCall .exact crypto consensus s t := by
  unfold plainly at seen
  split at seen
  · cases seen
  · rename_i u err run
    split_ifs at seen with plain
    obtain ⟨grows, all, checked⟩ := plain
    cases seen
    refine @PlainCall.mk .exact crypto _ _ _ early 60 b err decoded run (fun p known => all p ?_) checked
    rw [List.mem_range]
    rcases known with stored | ⟨-, alloc⟩
    · exact Nat.lt_of_lt_of_le (wf.lookup _ _ stored) grows
    · exact alloc

/-- What is seen when the child comes before its parent: it waits, and is then accepted. -/
def seenReversed : Option SideChain → Bool
  | none => false
  | some s => decide (@Stored crypto consensus s 0) && !(s.mem 0).verified &&
      match plainly s genesis with
      | none => false
      | some t => (t.mem 0).verified && !(t.mem 0).invalid

theorem seenReversed_child : seenReversed (plainly (newSideChain consensus) child) = true := by
  decide +kernel

theorem of_seenReversed {first : Option SideChain} (seen : seenReversed first = true) :
    ∃ s t, first = some s ∧ @Stored crypto consensus s 0 ∧ (s.mem 0).verified = false ∧
      plainly s genesis = some t ∧ (t.mem 0).verified = true ∧ (t.mem 0).invalid = false := by
  cases first with
  | none => cases seen
  | some s =>
    simp only [seenReversed, Bool.and_eq_true, decide_eq_true_eq, Bool.not_eq_true'] at seen
    obtain ⟨⟨stored, unverified⟩, onward⟩ := seen
    split at onward
    · cases onward
    · rename_i t run
      simp only [Bool.and_eq_true, Bool.not_eq_true'] at onward
      exact ⟨s, t, rfl, stored, unverified, run, onward.1, onward.2⟩

end PairExample

open LongChain (crypto)
open LadderExample (consensus)

/-- A child before its parent: it is not ready until the parent comes. -/
theorem verification_fixpoint_reversed : ∃ s t : SideChain,
    ReflTransGen (@PlainCall .exact crypto consensus)
      (newSideChain consensus) s ∧
    @PlainCall .exact crypto consensus s t ∧
    @Stored crypto consensus s 0 ∧ (s.mem 0).verified = false ∧ ¬ s.Ready 0 ∧
    t.Accepted 0 := by
  obtain ⟨s, t, first, stored, unverified, second, verified, valid⟩ :=
    PairExample.of_seenReversed PairExample.seenReversed_child
  have one := PairExample.plainCall_of_plainly wf_newSideChain ⟨rfl, rfl, rfl, rfl⟩ first
  have wf : Wf s.next s := @Call.wf .exact crypto _ _ _ (@PlainCall.call .exact crypto _ _ _ one) wf_newSideChain
  have two := PairExample.plainCall_of_plainly wf ⟨rfl, rfl, rfl, rfl⟩ second
  have reach : ReflTransGen (@PlainCall .exact crypto consensus) _ s := .single one
  refine ⟨s, t, reach, two, stored, unverified,
    (@verification_fixpoint .exact crypto _ _ reach).1 0 stored unverified, verified, valid⟩

end SideChain

end P2PoolObserver
