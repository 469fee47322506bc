/-
# Mainchain.FoundBlock -- reporting a Monero block of the pool (`HandleMainBlock`)

When Monero brings a block that carries a template id, the main chain looks the id up in the side
chain and reports the block as found, or else leaves a watch that `AddPoolBlock` checks for every
new block.  Lookup and watch are two critical sections of the side chain's lock.
-/
import P2PoolObserver.Sidechain.Apart
import P2PoolObserver.Sidechain.External

namespace P2PoolObserver

open Lib

structure MainChain where
  highest : UInt64
  mainchainByHeight : UInt64 → Option ChainMain
  mainchainByHash : Hash → Option ChainMain

def MainBlock.sidechainId (b : MainBlock) : Option Hash :=
  match b.coinbase.extra.getTag txExtraTagMergeMining with
  | none => none
  | some extraMergeMiningTag =>
    if extraMergeMiningTag.data.length ≠ hashSize then none
    else some (hashFromBytes extraMergeMiningTag.data)

namespace MainChain

variable [Crypto]

def mainData (c : MainChain) (b : MainBlock) : ChainMain where
  difficulty := ((c.mainchainByHeight b.coinbase.genHeight).map ChainMain.difficulty).getD
    Difficulty.zeroDifficulty
  height := b.coinbase.genHeight
  timestamp := b.timestamp
  reward := b.coinbase.totalReward
  id := b.id

def putMainBlock (c : MainChain) (b : MainBlock) : MainChain :=
  match c.mainchainByHeight b.coinbase.genHeight with
  | none => c
  | some _ =>
    let data := c.mainData b
    { highest := if data.height > c.highest then data.height else c.highest
      mainchainByHeight := Function.update c.mainchainByHeight data.height (some data)
      mainchainByHash := Function.update c.mainchainByHash data.id (some data) }

end MainChain

def SideChain.watchMainChainBlock (s : SideChain) (mainData : ChainMain) (possibleId : Hash) :
    SideChain :=
  { s with watchBlock := some mainData, watchBlockSidechainId := possibleId }

/-! ## The sections of `HandleMainBlock` -/

inductive HandleState where
  | entered
  | recorded (mainData : ChainMain)
  | found (mainData : ChainMain) (block : Ptr)
  | missed (mainData : ChainMain) (sidechainId : Hash)
  | returned

structure Chains where
  main : MainChain
  side : SideChain
  handle : HandleState

section Sections

variable [Crypto] (b : MainBlock)

def recordSection (c : Chains) : Chains :=
  match c.handle with
  | .entered =>
    { c with main := c.main.putMainBlock b, handle := .recorded (c.main.mainData b) }
  | _ => c

def lookupSection (c : Chains) : Chains :=
  match c.handle with
  | .recorded mainData =>
    match b.sidechainId with
    | none => { c with handle := .returned }
    | some sidechainId =>
      match c.side.blocksByTemplateId sidechainId with
      | some block => { c with handle := .found mainData block }
      | none => { c with handle := .missed mainData sidechainId }
  | _ => c

def reportSection (c : Chains) : Chains :=
  match c.handle with
  | .found mainData block =>
    { c with side := c.side.emit (.updateBlockFound (some mainData) block), handle := .returned }
  | .missed mainData sidechainId =>
    { c with side := c.side.watchMainChainBlock mainData sidechainId, handle := .returned }
  | _ => c

def handleMainBlock : List (Chains → Chains) := [recordSection b, lookupSection b, reportSection]

def runSections (sections : List (Chains → Chains)) (c : Chains) : Chains :=
  sections.foldl (fun c section' => section' c) c

variable [Uint128Package] (consensus : Consensus) (server : Server)

def interleave (fuel before : Nat) (block : PoolBlock) (c : Chains) : Except Fault Chains := do
  let c := runSections ((handleMainBlock b).take before) c
  let (side, _) ← c.side.addPoolBlock consensus server fuel block
  .ok (runSections ((handleMainBlock b).drop before) { c with side })

end Sections

/-! ## Reports -/

namespace SideChain

variable [Crypto] {consensus : Consensus}

theorem insertBlock_reports (s : SideChain) (b : PoolBlock) :
    (s.insertBlock consensus b).reports = s.reports ++
      if b.sideTemplateId consensus = s.watchBlockSidechainId then
        [.updateBlockFound s.watchBlock s.next] else [] := by
  have events : (s.insertBlock consensus b).events = s.events ++
      if b.sideTemplateId consensus = s.watchBlockSidechainId then
        [.updateBlockFound s.watchBlock s.next] else [] := by
    unfold insertBlock
    dsimp only
    split <;> split_ifs <;> simp [emit]
  unfold reports
  rw [events, List.filter_append]
  split_ifs <;> rfl

end SideChain

section Once

open SideChain

variable [Uint128Package] [Crypto] {consensus : Consensus} {server : Server} {fuel : Nat}
  {b : MainBlock} {block : PoolBlock} {s side : SideChain} {err : Option String} {mainData : ChainMain}

theorem count_addPoolBlock (mainData : ChainMain)
    (unknown : s.blocksByTemplateId (block.sideTemplateId consensus) = none)
    (run : addPoolBlock consensus server fuel s block = .ok (side, err)) :
    side.reports.count (.updateBlockFound (some mainData) s.next) =
      s.reports.count (.updateBlockFound (some mainData) s.next) +
        if block.marshalBinary.isOk = true ∧ block.sideTemplateId consensus = s.watchBlockSidechainId ∧
          s.watchBlock = some mainData then 1 else 0 := by
  rcases apart_addPoolBlock run with ⟨stored | failed, rfl⟩ | ⟨encoded, apart⟩
  · simp [unknown] at stored
  · simp [failed]
  · rw [apart.reports, insertBlock_reports, List.count_append]
    by_cases watched : block.sideTemplateId consensus = s.watchBlockSidechainId
    · by_cases same : s.watchBlock = some mainData
      · simp [encoded, watched, same]
      · have other : ¬ Event.updateBlockFound s.watchBlock s.next =
            .updateBlockFound (some mainData) s.next := fun eq => same (Event.updateBlockFound.inj eq).1
        simp [watched, same, other]
    · simp [watched]

theorem lookup_addPoolBlock (unknown : s.blocksByTemplateId (block.sideTemplateId consensus) = none)
    (run : addPoolBlock consensus server fuel s block = .ok (side, err)) {p : Ptr}
    (found : side.blocksByTemplateId (block.sideTemplateId consensus) = some p) :
    p = s.next ∧ block.marshalBinary.isOk = true := by
  rcases apart_addPoolBlock run with ⟨-, rfl⟩ | ⟨encoded, apart⟩
  · rw [unknown] at found
    cases found
  · have entered := apart.lookup _ p found
    rw [insertBlock_blocksByTemplateId, Function.update_self] at entered
    cases entered
    exact ⟨rfl, encoded⟩

omit [Uint128Package] [Crypto] in
theorem reports_lookup_report {c : Chains} {id : Hash} (recorded : c.handle = .recorded mainData)
    (carries : b.sidechainId = some id) :
    (runSections [lookupSection b, reportSection] c).side.reports = c.side.reports ++
      match c.side.blocksByTemplateId id with
      | some p => [.updateBlockFound (some mainData) p]
      | none => [] := by
  simp only [runSections, List.foldl_cons, List.foldl_nil, lookupSection, recorded, carries]
  split
  · simp [reportSection, reports, emit, Event.isFound]
  · exact (List.append_nil _).symm

theorem count_add_lookup {c : Chains} (recorded : c.handle = .recorded mainData)
    (carries : b.sidechainId = some (block.sideTemplateId consensus))
    (unknown : s.blocksByTemplateId (block.sideTemplateId consensus) = none)
    (unwatched : s.watchBlockSidechainId = block.sideTemplateId consensus → s.watchBlock ≠ some mainData)
    (run : addPoolBlock consensus server fuel s block = .ok (c.side, err)) :
    (runSections [lookupSection b, reportSection] c).side.reports.count
          (.updateBlockFound (some mainData) s.next) =
        s.reports.count (.updateBlockFound (some mainData) s.next) + 1 ↔ block.marshalBinary.isOk = true ∧
        ∀ side err, addPoolBlock consensus server fuel s block = .ok (side, err) →
          side.blocksByTemplateId (block.sideTemplateId consensus) ≠ none := by
  have silent : ¬ (block.marshalBinary.isOk = true ∧
      block.sideTemplateId consensus = s.watchBlockSidechainId ∧ s.watchBlock = some mainData) :=
    fun ⟨_, watched, same⟩ => unwatched watched.symm same
  rw [reports_lookup_report recorded carries, List.count_append,
    count_addPoolBlock mainData unknown run, if_neg silent]
  cases found : c.side.blocksByTemplateId (block.sideTemplateId consensus) with
  | none =>
    refine iff_of_false (by simp) fun ⟨_, stored⟩ => stored _ _ run found
  | some p =>
    obtain ⟨rfl, encoded⟩ := lookup_addPoolBlock unknown run found
    refine iff_of_true (by simp) ⟨encoded, fun side err' run' => ?_⟩
    cases run.symm.trans run'
    simp [found]

/-- `HandleMainBlock` of a Monero block with the template id of a pool block,
interleaved with the `AddPoolBlock` of that block, which was not stored before:
the pair is reported exactly once if and only if the pool block can be encoded,
`AddPoolBlock` does not come between the lookup and the watch, and, where it comes
first, it leaves the block stored. -/
theorem interleave_reports_once_iff {c final : Chains} {before : Nat} (start : c.handle = .entered)
    (sections : before ≤ (handleMainBlock b).length)
    (carries : b.sidechainId = some (block.sideTemplateId consensus))
    (unknown : c.side.blocksByTemplateId (block.sideTemplateId consensus) = none)
    (unwatched : c.side.watchBlockSidechainId = block.sideTemplateId consensus →
      c.side.watchBlock ≠ some (c.main.mainData b))
    (run : interleave b consensus server fuel before block c = .ok final) :
    final.side.reports.count (.updateBlockFound (some (c.main.mainData b)) c.side.next) =
        c.side.reports.count (.updateBlockFound (some (c.main.mainData b)) c.side.next) + 1 ↔
      block.marshalBinary.isOk = true ∧ before ≠ 2 ∧
        (before < 2 → ∀ side err, addPoolBlock consensus server fuel c.side block = .ok (side, err) →
          side.blocksByTemplateId (block.sideTemplateId consensus) ≠ none) := by
  obtain ⟨⟨side, err⟩, added, done⟩ := except_bind_eq_ok.mp run
  have length : (handleMainBlock b).length = 3 := rfl
  obtain rfl | rfl | rfl | rfl : before = 0 ∨ before = 1 ∨ before = 2 ∨ before = 3 := by omega
  · -- before all sections: the first one does not touch the side chain
    simp only [handleMainBlock, runSections, List.take_zero, List.foldl_nil] at added
    have early := count_add_lookup (c := ⟨c.main.putMainBlock b, side, .recorded (c.main.mainData b)⟩)
      rfl carries unknown unwatched added
    cases done
    simpa [handleMainBlock, runSections, recordSection, start] using early
  · simp only [handleMainBlock, runSections, List.take_succ_cons, List.take_zero, List.foldl_cons,
      List.foldl_nil, recordSection, start] at added
    have early := count_add_lookup (c := ⟨c.main.putMainBlock b, side, .recorded (c.main.mainData b)⟩)
      rfl carries unknown unwatched added
    cases done
    simpa [handleMainBlock, runSections, recordSection, start] using early
  · -- the lookup has missed the block, and the watch comes too late
    simp only [handleMainBlock, runSections, List.take_succ_cons, List.take_zero, List.foldl_cons,
      List.foldl_nil, recordSection, start, lookupSection, carries, unknown] at added
    have count := count_addPoolBlock (c.main.mainData b) unknown added
    rw [if_neg fun ⟨_, watched, same⟩ => unwatched watched.symm same] at count
    refine iff_of_false ?_ fun ⟨_, between, _⟩ => between rfl
    cases done
    simp only [handleMainBlock, runSections, List.take_succ_cons, List.take_zero, List.drop_succ_cons,
      List.drop_zero, List.foldl_cons, List.foldl_nil, recordSection, start, lookupSection, carries,
      unknown, reportSection]
    show ¬ side.reports.count _ = _
    omega
  · -- the watch is set when the block comes
    simp only [handleMainBlock, runSections, List.take_succ_cons, List.take_zero, List.foldl_cons,
      List.foldl_nil, recordSection, start, lookupSection, carries, unknown, reportSection] at added
    have unknown' : (c.side.watchMainChainBlock (c.main.mainData b)
        (block.sideTemplateId consensus)).blocksByTemplateId (block.sideTemplateId consensus) = none :=
      unknown
    have count := count_addPoolBlock (c.main.mainData b) unknown' added
    have final : side.reports.count (.updateBlockFound (some (c.main.mainData b)) c.side.next) =
        c.side.reports.count (.updateBlockFound (some (c.main.mainData b)) c.side.next) +
          if block.marshalBinary.isOk = true then 1 else 0 := by
      simpa [watchMainChainBlock, reports] using count
    cases done
    show side.reports.count _ = _ ↔ _
    rw [final]
    split_ifs with encoded <;> simp [encoded]

end Once

/-! ## The three places of `AddPoolBlock` -/

namespace FoundExample

open SideChain AlternateExample

/-- Monero has the block with nonce 0, which the side chain does not know yet. -/
def chains : Chains := ⟨⟨0, fun _ => none, fun _ => none⟩, newSideChain consensusMini, .entered⟩

def call : Event :=
  .updateBlockFound (some (@MainChain.mainData crypto chains.main (block 0).main)) 0

/-- The reports when `AddPoolBlock` comes after `before` sections. -/
def reportsAt (before : Nat) : Except Fault (List Event) :=
  (@interleave crypto (block 0).main .exact consensusMini env.toServer 9 before (block 0) chains).map
    fun final => final.side.reports

theorem reports_once_last : reportsAt 3 = .ok [call] ∧
    ∃ final, @interleave crypto (block 0).main .exact consensusMini env.toServer 9 3 (block 0) chains =
        .ok final ∧ final.side.reports.count call = 1 := by
  refine ⟨by decide +kernel, ?_⟩
  have returned : (reportsAt 3).isOk = true := by decide +kernel
  unfold reportsAt at returned
  cases run : @interleave crypto (block 0).main .exact consensusMini env.toServer 9 3 (block 0) chains with
  | error f => rw [run] at returned; cases returned
  | ok final =>
    have once := @interleave_reports_once_iff .exact crypto consensusMini env.toServer 9 (block 0).main
      (block 0) chains final 3 rfl (by decide) (by decide +kernel) rfl
      (by decide +kernel) run
    exact ⟨final, rfl, once.mpr ⟨by decide +kernel, by decide, fun early => absurd early (by decide)⟩⟩

/-- Between the lookup and the watch: the block is stored, the watch is set and
nobody is told. -/
theorem never_reported_between : reportsAt 2 = .ok [] ∧
    (@interleave crypto (block 0).main .exact consensusMini env.toServer 9 2 (block 0) chains).map
      (fun final => (final.side.blocksByTemplateId templateId, final.side.watchBlockSidechainId)) =
        .ok (some 0, templateId) := by
  decide +kernel

end FoundExample

end P2PoolObserver
