/-
# Mainchain.MainIndex -- Monero blocks by height and by hash (`mainchain.go`)

The two maps of `MainChain` hold pointers to shared entries: `HandleMainHeader` and
`HandleMainBlock` put a new entry into both, `HandleMinerData` changes the difficulty and the id
of entries it finds by height, and `cleanup` walks the map by height and deletes what is old.

The map by hash may become incoherent: an id changed in place leaves the entry under its old
hash, and an entry that a later header replaced is no longer found by `cleanup`.
-/
import P2PoolObserver.Mainchain.FoundBlock
import P2PoolObserver.Lib.Trace
import Mathlib.Data.List.AList

namespace P2PoolObserver

open Lib

structure MainHeader where
  difficulty : Difficulty
  height : UInt64
  timestamp : UInt64
  reward : UInt64
  id : Hash
  deriving DecidableEq

structure MinerData where
  difficulty : Difficulty
  height : UInt64
  prevId : Hash
  deriving DecidableEq

def blockHeadersRequired : UInt64 := 720

structure MainIndex where
  entry : Ptr → ChainMain
  next : Ptr
  highest : UInt64
  mainchainByHeight : AList fun _ : UInt64 => Ptr
  mainchainByHash : AList fun _ : Hash => Ptr

namespace MainIndex

def empty : MainIndex := ⟨fun _ => default, 0, 0, ∅, ∅⟩

def getChainMainByHeight (c : MainIndex) (height : UInt64) : Option ChainMain :=
  (c.mainchainByHeight.lookup height).map c.entry

def getChainMainByHash (c : MainIndex) (hash : Hash) : Option ChainMain :=
  (c.mainchainByHash.lookup hash).map c.entry

/-! ## The handlers -/

def alloc (c : MainIndex) (data : ChainMain) : MainIndex :=
  { c with entry := Function.update c.entry c.next data, next := c.next + 1 }

def modify (c : MainIndex) (p : Ptr) (f : ChainMain → ChainMain) : MainIndex :=
  { c with entry := Function.update c.entry p (f (c.entry p)) }

def putHeight (c : MainIndex) (height : UInt64) (p : Ptr) : MainIndex :=
  { c with mainchainByHeight := c.mainchainByHeight.insert height p }

def putHash (c : MainIndex) (hash : Hash) (p : Ptr) : MainIndex :=
  { c with mainchainByHash := c.mainchainByHash.insert hash p }

def putMain (c : MainIndex) (data : ChainMain) : MainIndex :=
  let c' := ((c.alloc data).putHeight data.height c.next).putHash data.id c.next
  { c' with highest := if data.height > c.highest then data.height else c.highest }

def handleMainHeader (c : MainIndex) (mainHeader : MainHeader) : MainIndex :=
  c.putMain ⟨mainHeader.difficulty, mainHeader.height, mainHeader.timestamp, mainHeader.reward, mainHeader.id⟩

/-- The section of `HandleMainBlock` under the lock.  A block at an unknown height is not
recorded. -/
def handleMainBlock [Crypto] (c : MainIndex) (b : MainBlock) : MainIndex :=
  match c.mainchainByHeight.lookup b.coinbase.genHeight with
  | none => c
  | some h => c.putMain ⟨(c.entry h).difficulty, b.coinbase.genHeight, b.timestamp, b.coinbase.totalReward, b.id⟩

/-- The latest three RandomX seed heights; the differences wrap. -/
def seedHeights (height : UInt64) : List UInt64 :=
  [seedHeight height, seedHeight height - 2048, seedHeight height - 2048 * 2]

/-- Whether `cleanup(height)` deletes what is at `h`; the sum wraps. -/
def Prunes (height h : UInt64) : Prop := ¬ h + blockHeadersRequired ≥ height ∧ h ∉ seedHeights height

instance (height h : UInt64) : Decidable (Prunes height h) := inferInstanceAs (Decidable (_ ∧ _))

def cleanupEntry (height : UInt64) (c : MainIndex) (e : Sigma fun _ : UInt64 => Ptr) : MainIndex :=
  if Prunes height e.1 then
    { c with mainchainByHash := c.mainchainByHash.erase (c.entry e.2).id
             mainchainByHeight := c.mainchainByHeight.erase e.1 }
  else c

def cleanup (c : MainIndex) (height : UInt64) : MainIndex :=
  c.mainchainByHeight.entries.foldl (cleanupEntry height) c

def recordDifficulty (c : MainIndex) (minerData : MinerData) : MainIndex :=
  match c.mainchainByHeight.lookup minerData.height with
  | none =>
    (c.alloc { (default : ChainMain) with difficulty := minerData.difficulty, height := minerData.height }).putHeight
      minerData.height c.next
  | some p => c.modify p fun data => { data with difficulty := minerData.difficulty }

/-- It records the id of the block before it, in place if that height is known. -/
def recordPrev (c : MainIndex) (minerData : MinerData) : MainIndex :=
  match c.mainchainByHeight.lookup (minerData.height - 1) with
  | none =>
    ((c.alloc { (default : ChainMain) with height := minerData.height - 1, id := minerData.prevId }).putHeight
      (minerData.height - 1) c.next).putHash minerData.prevId c.next
  | some p => (c.modify p fun data => { data with id := minerData.prevId }).putHash minerData.prevId p

def handleMinerData (c : MainIndex) (minerData : MinerData) : MainIndex :=
  ((c.recordDifficulty minerData).recordPrev minerData).cleanup minerData.height

/-! ## Lookups after an operation -/

section Lookups

variable (c : MainIndex)

theorem lookup_putHeight (height : UInt64) (p : Ptr) (n : UInt64) :
    (c.putHeight height p).mainchainByHeight.lookup n =
      if n = height then some p else c.mainchainByHeight.lookup n := by
  unfold putHeight
  split_ifs with same
  · rw [same, AList.lookup_insert]
  · exact AList.lookup_insert_ne same

theorem lookup_putHash (hash : Hash) (p : Ptr) (h : Hash) :
    (c.putHash hash p).mainchainByHash.lookup h =
      if h = hash then some p else c.mainchainByHash.lookup h := by
  unfold putHash
  split_ifs with same
  · rw [same, AList.lookup_insert]
  · exact AList.lookup_insert_ne same

/-- `cleanup(height)` deletes the hash `h`: it is the id of an entry that the walk deletes. -/
def Deletes (height : UInt64) (h : Hash) : Prop :=
  ∃ n q, c.mainchainByHeight.lookup n = some q ∧ Prunes height n ∧ (c.entry q).id = h

theorem lookup_erase_iff {α : Type} [DecidableEq α] (m : AList fun _ : α => Ptr) (a n : α) (p : Ptr) :
    (m.erase a).lookup n = some p ↔ m.lookup n = some p ∧ ¬ a = n := by
  by_cases same : a = n
  · subst same
    rw [AList.lookup_erase]
    simp
  · rw [AList.lookup_erase_ne (Ne.symm same)]
    simp [same]

theorem cleanupEntry_spec (height : UInt64) (c : MainIndex) (e : Sigma fun _ : UInt64 => Ptr) :
    (cleanupEntry height c e).entry = c.entry ∧ (cleanupEntry height c e).next = c.next ∧
    (∀ n p, (cleanupEntry height c e).mainchainByHeight.lookup n = some p ↔
      c.mainchainByHeight.lookup n = some p ∧ ¬ (Prunes height e.1 ∧ e.1 = n)) ∧
    ∀ h p, (cleanupEntry height c e).mainchainByHash.lookup h = some p ↔
      c.mainchainByHash.lookup h = some p ∧ ¬ (Prunes height e.1 ∧ (c.entry e.2).id = h) := by
  unfold cleanupEntry
  split_ifs with prunes
  · simp [prunes, lookup_erase_iff]
  · simp [prunes]

theorem cleanupEntries_spec (height : UInt64) : ∀ (es : List (Sigma fun _ : UInt64 => Ptr)) (c : MainIndex),
    (es.foldl (cleanupEntry height) c).entry = c.entry ∧ (es.foldl (cleanupEntry height) c).next = c.next ∧
    (∀ n p, (es.foldl (cleanupEntry height) c).mainchainByHeight.lookup n = some p ↔
      c.mainchainByHeight.lookup n = some p ∧ ¬ ∃ e ∈ es, Prunes height e.1 ∧ e.1 = n) ∧
    ∀ h p, (es.foldl (cleanupEntry height) c).mainchainByHash.lookup h = some p ↔
      c.mainchainByHash.lookup h = some p ∧ ¬ ∃ e ∈ es, Prunes height e.1 ∧ (c.entry e.2).id = h
  | [], c => by simp
  | e :: es, c => by
    obtain ⟨entry, next, byHeight, byHash⟩ := cleanupEntries_spec height es (cleanupEntry height c e)
    obtain ⟨entry₁, next₁, byHeight₁, byHash₁⟩ := cleanupEntry_spec height c e
    rw [List.foldl_cons]
    refine ⟨entry.trans entry₁, next.trans next₁, fun n p => ?_, fun h p => ?_⟩
    · rw [byHeight, byHeight₁]
      simp only [List.exists_mem_cons_iff, not_or, and_assoc]
    · rw [byHash, byHash₁, entry₁]
      simp only [List.exists_mem_cons_iff, not_or, and_assoc]

variable {c}

theorem cleanup_entry (height : UInt64) : (c.cleanup height).entry = c.entry :=
  (cleanupEntries_spec height _ c).1

theorem cleanup_next (height : UInt64) : (c.cleanup height).next = c.next :=
  (cleanupEntries_spec height _ c).2.1

theorem lookup_height_cleanup {height n : UInt64} {p : Ptr} :
    (c.cleanup height).mainchainByHeight.lookup n = some p ↔
      c.mainchainByHeight.lookup n = some p ∧ ¬ Prunes height n := by
  rw [cleanup, (cleanupEntries_spec height _ c).2.2.1]
  refine and_congr_right fun found => not_congr ⟨?_, fun prunes => ?_⟩
  · rintro ⟨e, -, prunes, rfl⟩
    exact prunes
  · exact ⟨⟨n, p⟩, AList.mem_lookup_iff.mp found, prunes, rfl⟩

theorem lookup_hash_cleanup {height : UInt64} {h : Hash} {p : Ptr} :
    (c.cleanup height).mainchainByHash.lookup h = some p ↔
      c.mainchainByHash.lookup h = some p ∧ ¬ c.Deletes height h := by
  rw [cleanup, (cleanupEntries_spec height _ c).2.2.2]
  refine and_congr_right fun _ => not_congr ⟨?_, ?_⟩
  · rintro ⟨e, mem, prunes, id⟩
    exact ⟨e.1, e.2, AList.mem_lookup_iff.mpr mem, prunes, id⟩
  · rintro ⟨n, q, found, prunes, id⟩
    exact ⟨⟨n, q⟩, AList.mem_lookup_iff.mp found, prunes, id⟩

end Lookups

/-! ## What always holds -/

/-- The maps point to allocated entries, by height to those of that height. -/
structure WellFormed (c : MainIndex) : Prop where
  byHeight : ∀ {n p}, c.mainchainByHeight.lookup n = some p → p < c.next ∧ (c.entry p).height = n
  byHash : ∀ {h p}, c.mainchainByHash.lookup h = some p → p < c.next

theorem wellFormed_empty : empty.WellFormed where
  byHeight found := nomatch found
  byHash found := nomatch found

def HashCoherent (c : MainIndex) : Prop :=
  ∀ h p, c.mainchainByHash.lookup h = some p → (c.entry p).id = h

section Primitives

variable {c : MainIndex}

theorem entry_alloc (data : ChainMain) {p : Ptr} (old : p < c.next) : (c.alloc data).entry p = c.entry p :=
  Function.update_of_ne (Nat.ne_of_lt old) _ _

theorem entry_alloc_next (c : MainIndex) (data : ChainMain) : (c.alloc data).entry c.next = data :=
  Function.update_self _ _ _

theorem putHash_entry (c : MainIndex) (hash : Hash) (p : Ptr) : (c.putHash hash p).entry = c.entry := rfl

theorem entry_modify (c : MainIndex) (p q : Ptr) (f : ChainMain → ChainMain) :
    (c.modify p f).entry q = if q = p then f (c.entry p) else c.entry q := by
  unfold modify
  split_ifs with same
  · rw [same]
    exact Function.update_self _ _ _
  · exact Function.update_of_ne same _ _

theorem WellFormed.alloc (wf : c.WellFormed) (data : ChainMain) : (c.alloc data).WellFormed where
  byHeight found := by
    obtain ⟨old, height⟩ := wf.byHeight found
    exact ⟨Nat.lt_succ_of_lt old, (congrArg ChainMain.height (entry_alloc data old)).trans height⟩
  byHash found := Nat.lt_succ_of_lt (wf.byHash found)

theorem WellFormed.modify (wf : c.WellFormed) (p : Ptr) {f : ChainMain → ChainMain}
    (keeps : ∀ data, (f data).height = data.height) : (c.modify p f).WellFormed where
  byHeight {n q} found := by
    obtain ⟨old, height⟩ := wf.byHeight found
    refine ⟨old, ?_⟩
    rw [entry_modify]
    split_ifs with same
    · rw [keeps, ← same, height]
    · exact height
  byHash found := wf.byHash found

theorem WellFormed.putHeight (wf : c.WellFormed) {height : UInt64} {p : Ptr} (old : p < c.next)
    (at_ : (c.entry p).height = height) : (c.putHeight height p).WellFormed where
  byHeight {n q} found := by
    rw [lookup_putHeight] at found
    split_ifs at found with here
    · cases found
      exact ⟨old, at_.trans here.symm⟩
    · exact wf.byHeight found
  byHash found := wf.byHash found

theorem WellFormed.putHash (wf : c.WellFormed) (hash : Hash) {p : Ptr} (old : p < c.next) :
    (c.putHash hash p).WellFormed where
  byHeight found := wf.byHeight found
  byHash {h q} found := by
    rw [lookup_putHash] at found
    split_ifs at found
    · cases found
      exact old
    · exact wf.byHash found

theorem WellFormed.cleanup (wf : c.WellFormed) (height : UInt64) : (c.cleanup height).WellFormed where
  byHeight found := by
    rw [cleanup_next, cleanup_entry]
    exact wf.byHeight (lookup_height_cleanup.mp found).1
  byHash found := by
    rw [cleanup_next]
    exact wf.byHash (lookup_hash_cleanup.mp found).1

theorem HashCoherent.alloc (coherent : c.HashCoherent) (wf : c.WellFormed) (data : ChainMain) :
    (c.alloc data).HashCoherent := fun h p found =>
  (congrArg ChainMain.id (entry_alloc data (wf.byHash found))).trans (coherent h p found)

theorem HashCoherent.putHash (coherent : c.HashCoherent) {hash : Hash} {p : Ptr}
    (id : (c.entry p).id = hash) : (c.putHash hash p).HashCoherent := by
  intro h q found
  rw [lookup_putHash] at found
  split_ifs at found with here
  · cases found
    exact id.trans here.symm
  · exact coherent h q found

theorem hashCoherent_cleanup_iff (height : UInt64) : (c.cleanup height).HashCoherent ↔
    ∀ h p, c.mainchainByHash.lookup h = some p → ¬ c.Deletes height h → (c.entry p).id = h := by
  simp only [HashCoherent, lookup_hash_cleanup, cleanup_entry, and_imp]

theorem putMain_keeps (wf : c.WellFormed) (coherent : c.HashCoherent) (data : ChainMain) :
    (c.putMain data).WellFormed ∧ (c.putMain data).HashCoherent := by
  have new := entry_alloc_next c data
  have old : c.next < (c.alloc data).next := Nat.lt_succ_self _
  have wf' := ((wf.alloc data).putHeight old (congrArg ChainMain.height new)).putHash data.id old
  have coherent' : (((c.alloc data).putHeight data.height c.next).putHash data.id c.next).HashCoherent :=
    HashCoherent.putHash (c := (c.alloc data).putHeight data.height c.next) (coherent.alloc wf data)
      (congrArg ChainMain.id new)
  exact ⟨⟨wf'.byHeight, wf'.byHash⟩, coherent'⟩

/-- The values behind the pointers, as `Mainchain.FoundBlock` has them. -/
def values (c : MainIndex) : MainChain := ⟨c.highest, c.getChainMainByHeight, c.getChainMainByHash⟩

theorem values_handleMainBlock [Crypto] (wf : c.WellFormed) (b : MainBlock) :
    (c.handleMainBlock b).values = c.values.putMainBlock b := by
  unfold handleMainBlock MainChain.putMainBlock MainChain.mainData
  simp only [values, getChainMainByHeight]
  cases c.mainchainByHeight.lookup b.coinbase.genHeight with
  | none => rfl
  | some h =>
    have old : ∀ (data : ChainMain) {found : Option Ptr}, (∀ p, found = some p → p < c.next) →
        found.map (Function.update c.entry c.next data) = found.map c.entry := fun data found low =>
      Option.map_congr fun p mem => Function.update_of_ne (Nat.ne_of_lt (low p mem)) _ _
    simp only [putMain, putHash, putHeight, alloc, Option.map_some, MainChain.mk.injEq, Option.getD_some]
    refine ⟨rfl, funext fun n => ?_, funext fun k => ?_⟩
    · by_cases here : n = b.coinbase.genHeight
      · subst here
        simp [getChainMainByHeight, AList.lookup_insert]
      · simp [getChainMainByHeight, here, old _ fun p found => (wf.byHeight found).1]
    · by_cases here : k = b.id
      · subst here
        simp [getChainMainByHash, AList.lookup_insert]
      · simp [getChainMainByHash, here, old _ fun p found => wf.byHash found]

end Primitives

/-! ## The steps -/

inductive MainStep where
  | mainHeader (mainHeader : MainHeader)
  | mainBlock (b : MainBlock)
  | minerData (minerData : MinerData)
  | cleanup (height : UInt64)

def MainStep.cleansTo : MainStep → Option UInt64
  | .minerData data => some data.height
  | .cleanup height => some height
  | _ => none

/-- No entry of either map is more than 720 blocks below, seed heights apart. -/
def CleanedTo (c : MainIndex) (height : UInt64) : Prop :=
  (∀ h data, c.getChainMainByHash h = some data → data.height.toNat + 720 < height.toNat →
    data.height ∈ seedHeights height) ∧
  ∀ n data, c.getChainMainByHeight n = some data → data.height.toNat + 720 < height.toNat →
    data.height ∈ seedHeights height

def Reaches (c : MainIndex) (height : UInt64) : Prop :=
  ∀ h p, c.mainchainByHash.lookup h = some p → (c.entry p).height.toNat + 720 < height.toNat →
    (c.entry p).height ∉ seedHeights height → c.Deletes height h

section Steps

variable [Crypto]

def step (c : MainIndex) : MainStep → MainIndex
  | .mainHeader mainHeader => c.handleMainHeader mainHeader
  | .mainBlock b => c.handleMainBlock b
  | .minerData minerData => c.handleMinerData minerData
  | .cleanup height => c.cleanup height

end Steps

theorem cleanedTo_iff {c : MainIndex} (wf : c.WellFormed) (height : UInt64) :
    (c.cleanup height).CleanedTo height ↔ c.Reaches height := by
  have byHeight : ∀ n data, (c.cleanup height).getChainMainByHeight n = some data →
      data.height.toNat + 720 < height.toNat → data.height ∈ seedHeights height := by
    intro n data found old
    obtain ⟨p, lookup, rfl⟩ := Option.map_eq_some_iff.mp found
    obtain ⟨stored, kept⟩ := lookup_height_cleanup.mp lookup
    rw [cleanup_entry, (wf.byHeight stored).2] at old ⊢
    by_contra noSeed
    refine kept ⟨?_, noSeed⟩
    have bound := height.toNat_lt
    rw [ge_iff_le, UInt64.le_iff_toNat_le, UInt64.toNat_add,
      show blockHeadersRequired.toNat = 720 from rfl, Nat.mod_eq_of_lt (by omega)]
    omega
  constructor
  · intro ⟨cleaned, _⟩ h p found old noSeed
    by_contra kept
    have stays : (c.cleanup height).getChainMainByHash h = some (c.entry p) := by
      rw [getChainMainByHash, lookup_hash_cleanup.mpr ⟨found, kept⟩, cleanup_entry]
      rfl
    exact noSeed (cleaned h _ stays old)
  · intro reaches
    refine ⟨fun h data found old => ?_, byHeight⟩
    obtain ⟨p, lookup, rfl⟩ := Option.map_eq_some_iff.mp found
    obtain ⟨stored, kept⟩ := lookup_hash_cleanup.mp lookup
    rw [cleanup_entry] at old ⊢
    by_contra noSeed
    exact kept (reaches h p stored old noSeed)

/-! ## Miner data -/

section MinerData

variable {c : MainIndex} (minerData : MinerData)

def record (c : MainIndex) (minerData : MinerData) : MainIndex :=
  (c.recordDifficulty minerData).recordPrev minerData

theorem recordDifficulty_keeps (wf : c.WellFormed) : (c.recordDifficulty minerData).WellFormed ∧
    (c.recordDifficulty minerData).mainchainByHash = c.mainchainByHash ∧
    (c.recordDifficulty minerData).mainchainByHeight.lookup (minerData.height - 1) =
      c.mainchainByHeight.lookup (minerData.height - 1) ∧
    ∀ p, p < c.next → ((c.recordDifficulty minerData).entry p).id = (c.entry p).id := by
  unfold recordDifficulty
  split
  · refine ⟨(wf.alloc _).putHeight (Nat.lt_succ_self _) (congrArg ChainMain.height (entry_alloc_next c _)),
      rfl, ?_, fun p old => congrArg ChainMain.id (entry_alloc _ old)⟩
    have apart : minerData.height - 1 ≠ minerData.height := by grind
    rw [lookup_putHeight, if_neg apart]
    rfl
  · refine ⟨wf.modify _ fun _ => rfl, rfl, rfl, fun p _ => ?_⟩
    rw [entry_modify]
    split_ifs with same
    · rw [same]
    · rfl

theorem wellFormed_record (wf : c.WellFormed) : (c.record minerData).WellFormed := by
  obtain ⟨wf, -⟩ := recordDifficulty_keeps minerData wf
  unfold record recordPrev
  split
  · exact ((wf.alloc _).putHeight (Nat.lt_succ_self _)
      (congrArg ChainMain.height (entry_alloc_next _ _))).putHash _ (Nat.lt_succ_self _)
  · next p found =>
      refine WellFormed.putHash ?_ _ (wf.byHeight found).1
      exact wf.modify p fun _ => rfl

/-- The entry before the block to mine, whose id is overwritten, is stored under no other
hash that the cleanup of the same call leaves. -/
def RenamesNothing (c : MainIndex) (minerData : MinerData) : Prop :=
  ∀ p h, c.mainchainByHeight.lookup (minerData.height - 1) = some p → c.mainchainByHash.lookup h = some p →
    h = minerData.prevId ∨ (c.record minerData).Deletes minerData.height h

theorem hashCoherent_minerData_iff (wf : c.WellFormed) (coherent : c.HashCoherent) :
    (c.handleMinerData minerData).HashCoherent ↔ c.RenamesNothing minerData := by
  obtain ⟨wf', byHash, before, ids⟩ := recordDifficulty_keeps minerData wf
  have coherent' : (c.recordDifficulty minerData).HashCoherent := fun h p found => by
    rw [byHash] at found
    rw [ids p (wf.byHash found)]
    exact coherent h p found
  rw [show c.handleMinerData minerData = (c.record minerData).cleanup minerData.height from rfl,
    hashCoherent_cleanup_iff]
  cases stored : c.mainchainByHeight.lookup (minerData.height - 1) with
  | none =>
    have recorded : c.record minerData = (((c.recordDifficulty minerData).alloc
        { (default : ChainMain) with height := minerData.height - 1, id := minerData.prevId }).putHeight
        (minerData.height - 1) (c.recordDifficulty minerData).next).putHash minerData.prevId
        (c.recordDifficulty minerData).next := by
      unfold record recordPrev
      rw [before, stored]
    have new : (c.record minerData).HashCoherent := by
      rw [recorded]
      refine HashCoherent.putHash (coherent'.alloc wf' _) ?_
      exact congrArg ChainMain.id (entry_alloc_next _ _)
    refine iff_of_true (fun h p found _ => new h p found) fun p h found => ?_
    rw [stored] at found
    cases found
  | some p₀ =>
    have recorded : c.record minerData = ((c.recordDifficulty minerData).modify p₀ fun data =>
        { data with id := minerData.prevId }).putHash minerData.prevId p₀ := by
      unfold record recordPrev
      rw [before, stored]
    have lookup : ∀ h, (c.record minerData).mainchainByHash.lookup h =
        if h = minerData.prevId then some p₀ else c.mainchainByHash.lookup h := by
      intro h
      rw [recorded, lookup_putHash, ← byHash]
      rfl
    have id : ∀ p, ((c.record minerData).entry p).id =
        if p = p₀ then minerData.prevId else ((c.recordDifficulty minerData).entry p).id := by
      intro p
      rw [recorded, putHash_entry, entry_modify]
      split_ifs <;> rfl
    constructor
    · intro named p h found refers
      rw [stored] at found
      cases found
      by_contra neither
      rw [not_or] at neither
      have same := named h p₀ (by rw [lookup, if_neg neither.1, refers]) neither.2
      rw [id, if_pos rfl] at same
      exact neither.1 same.symm
    · intro renames h p found kept
      rw [lookup] at found
      rw [id]
      split_ifs at found with prev
      · cases found
        rw [if_pos rfl, prev]
      · rw [← byHash] at found
        split_ifs with same
        · rw [byHash, same] at found
          exact ((renames p₀ h stored found).resolve_left prev |> kept).elim
        · exact coherent' h p found

theorem minerData_iff (wf : c.WellFormed) (coherent : c.HashCoherent) :
    (c.handleMinerData minerData).HashCoherent ∧ (c.handleMinerData minerData).CleanedTo minerData.height ↔
      c.RenamesNothing minerData ∧ (c.record minerData).Reaches minerData.height := by
  rw [hashCoherent_minerData_iff minerData wf coherent]
  exact and_congr_right fun _ => cleanedTo_iff (wellFormed_record minerData wf) minerData.height

end MinerData

/-! ## Runs -/

/-- What is asked of the state after a step, which may have cleaned up. -/
structure Coherent (c : MainIndex) (cleaned : Option UInt64) : Prop where
  byHash : ∀ h data, c.getChainMainByHash h = some data → data.id = h
  byHeight : ∀ n data, c.getChainMainByHeight n = some data → data.height = n
  cleanedTo : ∀ height, cleaned = some height → c.CleanedTo height

theorem coherent_iff_hashCoherent {c : MainIndex} (wf : c.WellFormed) (cleaned : Option UInt64) :
    c.Coherent cleaned ↔ c.HashCoherent ∧ ∀ height, cleaned = some height → c.CleanedTo height := by
  constructor
  · intro coherent
    refine ⟨fun h p found => coherent.byHash h (c.entry p) ?_, coherent.cleanedTo⟩
    rw [getChainMainByHash, found]
    rfl
  · intro ⟨coherent, cleanedTo⟩
    refine ⟨fun h data found => ?_, fun n data found => ?_, cleanedTo⟩
    · obtain ⟨p, lookup, rfl⟩ := Option.map_eq_some_iff.mp found
      exact coherent h p lookup
    · obtain ⟨p, lookup, rfl⟩ := Option.map_eq_some_iff.mp found
      exact (wf.byHeight lookup).2

section Runs

variable [Crypto]

def StepOk (c : MainIndex) : MainStep → Prop
  | .mainHeader _ => True
  | .mainBlock _ => True
  | .minerData minerData => c.RenamesNothing minerData ∧ (c.record minerData).Reaches minerData.height
  | .cleanup height => c.Reaches height

theorem wellFormed_step {c : MainIndex} (wf : c.WellFormed) (coherent : c.HashCoherent) (a : MainStep) :
    (c.step a).WellFormed := by
  cases a with
  | mainHeader mainHeader => exact (putMain_keeps wf coherent _).1
  | mainBlock b =>
    simp only [step, handleMainBlock]
    split
    · exact wf
    · exact (putMain_keeps wf coherent _).1
  | minerData minerData => exact (wellFormed_record minerData wf).cleanup _
  | cleanup height => exact wf.cleanup height

theorem coherent_step_iff {c : MainIndex} (wf : c.WellFormed) (coherent : c.HashCoherent) (a : MainStep) :
    (c.step a).Coherent a.cleansTo ↔ c.StepOk a := by
  rw [coherent_iff_hashCoherent (wellFormed_step wf coherent a)]
  cases a with
  | mainHeader mainHeader =>
    exact iff_of_true ⟨(putMain_keeps wf coherent _).2, fun _ none => nomatch none⟩ trivial
  | mainBlock b =>
    refine iff_of_true ⟨?_, fun _ none => nomatch none⟩ trivial
    simp only [step, handleMainBlock]
    split
    · exact coherent
    · exact (putMain_keeps wf coherent _).2
  | minerData minerData =>
    have same := minerData_iff minerData wf coherent
    simpa [MainStep.cleansTo, step, StepOk] using same
  | cleanup height =>
    have keeps : (c.cleanup height).HashCoherent :=
      (hashCoherent_cleanup_iff height).mpr fun h p found _ => coherent h p found
    have same := cleanedTo_iff wf height
    simpa [MainStep.cleansTo, step, StepOk, keeps] using same

/-- In every run the maps are coherent after each step exactly if each step finds a state
in which it renames no entry under another hash and its cleanup reaches what is old. -/
theorem coherent_iff (steps : List MainStep) :
    EachStep step (fun c a => (c.step a).Coherent a.cleansTo) empty steps ↔
      EachStep step StepOk empty steps := by
  refine eachStep_iff (I := fun c => c.WellFormed ∧ c.HashCoherent) ?_ ?_ steps ⟨wellFormed_empty, ?_⟩
  · intro c a ⟨wf, coherent⟩ after
    have wf' := wellFormed_step wf coherent a
    exact ⟨wf', ((coherent_iff_hashCoherent wf' _).mp after).1⟩
  · intro c a ⟨wf, coherent⟩
    exact coherent_step_iff wf coherent a
  · intro h p found
    cases found

end Runs

/-- A reorganisation, seen by miner data and by headers.  Miner data with another id for the
block before it leaves that block under the hash `1` with the id `2`; a second header for a
height leaves the first one behind a cleanup that is 2000 blocks further. -/
theorem coherent_fails :
    (((empty.handleMainHeader ⟨⟨9, 0⟩, 5, 100, 6, 1⟩).handleMinerData ⟨⟨9, 0⟩, 6, 2⟩).getChainMainByHash 1) =
      some ⟨⟨9, 0⟩, 5, 100, 6, 2⟩ ∧
    (((empty.handleMainHeader ⟨⟨9, 0⟩, 5, 100, 6, 1⟩).handleMainHeader ⟨⟨9, 0⟩, 5, 101, 6, 2⟩).cleanup
        3000).getChainMainByHash 1 = some ⟨⟨9, 0⟩, 5, 100, 6, 1⟩ ∧
    (5 : UInt64) ∉ seedHeights 3000 := by
  decide +kernel

end MainIndex

end P2PoolObserver
