/-
# Sidechain.SeenBlocks -- which block messages are skipped as seen

A node handles a block message by `BlockSeen` and then, unless it skips it,
`AddPoolBlockExternal`.  The full id under which a message is remembered is what the message
states about itself, recorded before any check.  Of all refusals only the one for a proof-of-work
hash that cannot be computed takes it back; all others keep it, until `cleanupSeenBlocks` finds
its template id no longer stored (`seen_handleBlock`).
-/
import P2PoolObserver.Sidechain.External
import P2PoolObserver.Sidechain.Apart
import P2PoolObserver.Sidechain.StoreIndex

namespace P2PoolObserver

open Lib

namespace SideChain

/-! ## Which calls forget a full id -/

section External

variable [Uint128Package] [Crypto] (consensus : Consensus) (env : External) (torn : SideChain)
  (fuel : Nat)

/-- A new block that has passed the checks forgets `k` in one of three ways: its
proof-of-work hash cannot be computed, so that `BlockUnsee` runs; it is added, and
`cleanupSeenBlocks`, which runs after blocks have been pruned, does not find the
template id of `k`; or `AddPoolBlock` panics after such a cleanup. -/
def NewForgets (s : SideChain) (b : PoolBlock) (k : FullId) : Prop :=
  (∃ err, b.powHashWithError env.toPowSource = .error err ∧ b.fullId = some k) ∨
    b.isProofHigherThanDifficultyWithError env.toPowSource = .ok true ∧
      match addPoolBlock consensus env.toServer fuel s b with
      | .ok (t, _) => b.marshalBinary.isOk = true ∧ LosesBlock (s.insertBlock consensus b) t ∧
          t.blocksByTemplateId k.templateId = none
      | .error _ => torn.seenBlocks k = false

/-- `AddPoolBlockExternal` forgets `k`: its block has passed the checks and is new. -/
def ExternalForgets (n : Node) (b : PoolBlock) (k : FullId) : Prop :=
  ∃ checked m, (externalChecks consensus env fuel b).on n = (.ok checked, m) ∧
    IsNew consensus env fuel m.chain checked ∧ NewForgets consensus env torn fuel m.chain checked k

variable {consensus env torn fuel} {s t : SideChain} {n : Node} {b : PoolBlock} {k : FullId}

omit [Uint128Package] in
theorem insertBlock_seenBlocks : (s.insertBlock consensus b).seenBlocks = s.seenBlocks := by
  unfold insertBlock
  dsimp only
  split_ifs <;> split <;> rfl

theorem seen_addPoolBlock {server : Server} {err : Option String}
    (run : addPoolBlock consensus server fuel s b = .ok (t, err)) :
    t.seenBlocks k = true ↔ s.seenBlocks k = true ∧ ¬ (b.marshalBinary.isOk = true ∧
      LosesBlock (s.insertBlock consensus b) t ∧ t.blocksByTemplateId k.templateId = none) := by
  rcases apart_addPoolBlock run with ⟨stored | failed, rfl⟩ | ⟨encoded, apart⟩
  · have none : ¬ LosesBlock (t.insertBlock consensus b) t := by
      rintro ⟨h, there, gone⟩
      obtain ⟨p, found⟩ := Option.isSome_iff_exists.mp there
      rcases lookup_insertBlock found with ⟨rfl, -⟩ | found
      · rw [gone] at stored
        cases stored
      · rw [gone] at found
        cases found
    simp [none]
  · simp [failed]
  · have same : (s.insertBlock consensus b).seenBlocks = s.seenBlocks := insertBlock_seenBlocks
    rcases apart.seen with ⟨seen, index⟩ | cleaned
    · have none : ¬ LosesBlock (s.insertBlock consensus b) t := by
        rintro ⟨h, there, gone⟩
        rw [← index, gone] at there
        cases there
      simp [seen, same, none]
    · rw [cleaned.seen, same]
      cases t.blocksByTemplateId k.templateId <;> simp [encoded, cleaned.pruned]

omit [Uint128Package] in
variable (env b) in
theorem submitIfHigher_chain (n : Node) : ∃ m, (submitIfHigher env b).on n = (.ok (), m) ∧ m.chain = n.chain := by
  unfold submitIfHigher
  split
  · exact ⟨_, rfl, rfl⟩
  · exact ⟨n, rfl, rfl⟩

theorem seen_addHashed : ((addHashed consensus env torn fuel b).on n).2.chain.seenBlocks k = true ↔
      n.chain.seenBlocks k = true ∧ ¬ NewForgets consensus env torn fuel n.chain b k := by
  unfold addHashed NewForgets
  cases hashed : b.powHashWithError env.toPowSource with
  | error err =>
    have unproved : b.isProofHigherThanDifficultyWithError env.toPowSource = .error err := by
      rw [PoolBlock.isProofHigherThanDifficultyWithError, hashed]
      rfl
    dsimp only
    rw [Attempt.on_bind_ok (Attempt.on_get n), unproved]
    cases stated : b.fullId with
    | none =>
      have panic : n.chain.blockUnsee b = .error (.panic "slice bounds out of range") := by
        rw [blockUnsee, stated]
      rw [panic, Attempt.on_bind]
      simp [Except.mapError]
    | some id =>
      have unseen : n.chain.blockUnsee b =
          .ok { n.chain with seenBlocks := Function.update n.chain.seenBlocks id false } := by
        rw [blockUnsee, stated]
      rw [unseen]
      show Function.update n.chain.seenBlocks id false k = true ↔ _
      by_cases same : k = id
      · subst same
        simp
      · simp [same, Ne.symm same]
  | ok hash =>
    obtain ⟨m, submitted, same⟩ := submitIfHigher_chain env b n
    dsimp only
    rw [Attempt.on_bind_ok submitted, Attempt.on_bind, ← same]
    unfold requireProof
    cases proof : b.isProofHigherThanDifficultyWithError env.toPowSource with
    | error err => simp [Section.refuse]
    | ok isHigher =>
      cases isHigher with
      | false => simp [Section.require, Section.refuse]
      | true =>
        simp only [Section.require, if_true, Attempt.on_pure]
        rw [Attempt.on_bind_ok (Attempt.on_get m)]
        cases added : addPoolBlock consensus env.toServer fuel m.chain b with
        | error f =>
          show (m.chain.seenBlocks k && torn.seenBlocks k) = true ↔ _
          simp
        | ok result =>
          have seen := seen_addPoolBlock (k := k) added
          show result.1.seenBlocks k = true ↔ _
          simpa using seen

theorem addChecked_of_old (old : ¬ IsNew consensus env fuel n.chain b) :
    ((addChecked consensus env torn fuel b).on n).2 = n := by
  unfold addChecked
  rw [Attempt.on_bind_ok (Attempt.on_get n)]
  cases stored : n.chain.blocksByTemplateId (statedTemplateId b) with
  | some other =>
    dsimp only
    rw [addKnown_on]
  | none =>
    dsimp only
    unfold addNew
    rw [Attempt.on_bind_ok (Attempt.on_get n)]
    cases low : tooLowDiff consensus fuel n.chain b with
    | error f => rfl
    | ok tooLow =>
      cases tooLow with
      | true => rfl
      | false =>
        have wrong : ¬ rightMainHeight env b := fun right => old ⟨stored, low, right⟩
        unfold Section.require
        rw [if_neg wrong]
        rfl

theorem addChecked_of_new (new : IsNew consensus env fuel n.chain b) :
    (addChecked consensus env torn fuel b).on n = (addHashed consensus env torn fuel b).on n := by
  unfold addChecked
  rw [Attempt.on_bind_ok (Attempt.on_get n), new.unknown]
  exact addNew_of_new consensus env new

variable (consensus env torn fuel n b k) in
theorem seen_addPoolBlockExternal :
    (addPoolBlockExternal consensus env torn fuel n b).2.chain.seenBlocks k = true ↔
      n.chain.seenBlocks k = true ∧ ¬ ExternalForgets consensus env torn fuel n b k := by
  have kept : ((externalChecks consensus env fuel b).on n).2.chain.seenBlocks = n.chain.seenBlocks := by
    let Same (s : SideChain) : Prop := s.seenBlocks = n.chain.seenBlocks
    refine preserves_externalChecks (P := fun m => Same m.chain) consensus env fuel b (fun m same => ?_) n rfl
    exact preserves_preprocessBlock (P := Same) (fun _ _ _ same => same) consensus env.toServer fuel b
      m.chain same
  unfold ExternalForgets
  rcases passes : (externalChecks consensus env fuel b).on n with ⟨e | checked, m⟩ <;> rw [passes] at kept <;>
    dsimp only at kept
  · unfold addPoolBlockExternal
    rw [Attempt.on_bind, passes]
    simp [kept]
  · rw [addPoolBlockExternal_of_checks consensus env passes, ← kept]
    by_cases new : IsNew consensus env fuel m.chain checked
    · rw [addChecked_of_new new, seen_addHashed]
      simp [new]
    · rw [addChecked_of_old new]
      simp [new]

end External

end SideChain

/-! ## Runs of messages -/

open SideChain

structure Message where
  block : PoolBlock
  env : External
  fuel : Nat
  torn : SideChain

inductive Handled where
  | skipped
  /-- `BlockSeen` found no extra nonce. -/
  | panicked
  | added (result : ExternalResult)
  deriving DecidableEq

section Messages

variable [Uint128Package] [Crypto] (consensus : Consensus)

def handleBlock (n : Node) (m : Message) : Except Fault (Handled × Node) :=
  match n.chain.blockSeen consensus m.block with
  | .error _ => .ok (.panicked, n)
  | .ok (chain, true) => .ok (.skipped, { n with chain })
  | .ok (chain, false) =>
    match addPoolBlockExternal consensus m.env m.torn m.fuel { n with chain }
        { m.block with wantBroadcast := true } with
    | (.ok result, n) => .ok (.added result, n)
    | (.error f, _) => .error f

/-- Handling the message makes the node forget `k`. -/
def Forgets (n : Node) (m : Message) (k : FullId) : Prop :=
  ∃ chain, n.chain.blockSeen consensus m.block = .ok (chain, false) ∧
    ExternalForgets consensus m.env m.torn m.fuel { n with chain }
      { m.block with wantBroadcast := true } k

structure Receipt where
  message : Message
  before : Node
  handled : Handled
  after : Node

inductive Trace : Node → List Receipt → Node → Prop
  | nil (n : Node) : Trace n [] n
  | cons {n n' n'' : Node} {m : Message} {h : Handled} {rest : List Receipt}
      (handle : handleBlock consensus n m = .ok (h, n')) (later : Trace n' rest n'') :
      Trace n (⟨m, n, h, n'⟩ :: rest) n''

variable {consensus} {n n' : Node} {m : Message} {h : Handled} {k : FullId} {rs : List Receipt}

def Handled.IsAdded (h : Handled) : Prop := ∃ result, h = .added result

omit [Uint128Package] [Crypto] in
variable (consensus) in
theorem blockSeen_cases (s : SideChain) (b : PoolBlock) :
    (s.blockSeen consensus b = .error (.panic "slice bounds out of range") ∧ b.fullId = none) ∨
      (s.blockSeen consensus b = .ok (s, true) ∧
        (s.hopeless consensus b = true ∨ ∃ id, b.fullId = some id ∧ s.seenBlocks id = true)) ∨
      ∃ id, s.blockSeen consensus b =
          .ok ({ s with seenBlocks := Function.update s.seenBlocks id true }, false) ∧
        b.fullId = some id ∧ s.seenBlocks id = false := by
  unfold blockSeen
  cases far : s.hopeless consensus b with
  | true => exact .inr (.inl ⟨rfl, .inl rfl⟩)
  | false =>
    cases stated : b.fullId with
    | none => exact .inl ⟨rfl, rfl⟩
    | some id =>
      cases seen : s.seenBlocks id with
      | true => exact .inr (.inl ⟨by simp [seen], .inr ⟨id, rfl, seen⟩⟩)
      | false => exact .inr (.inr ⟨id, by simp [seen], rfl, seen⟩)

/-- One message: what is recorded after it was recorded before or is its own full
id, and is not forgotten. -/
theorem seen_handleBlock (handle : handleBlock consensus n m = .ok (h, n')) : n'.chain.seenBlocks k = true ↔
      (n.chain.seenBlocks k = true ∨ h.IsAdded ∧ m.block.fullId = some k) ∧ ¬ Forgets consensus n m k := by
  unfold handleBlock at handle
  unfold Forgets
  rcases blockSeen_cases consensus n.chain m.block with
    ⟨seen, -⟩ | ⟨seen, -⟩ | ⟨id, seen, stated, -⟩ <;> rw [seen] at handle ⊢ <;> dsimp only at handle
  · cases handle
    simp [Handled.IsAdded]
  · cases handle
    simp [Handled.IsAdded]
  · split at handle
    · rename_i result after added
      cases handle
      have exact := seen_addPoolBlockExternal consensus m.env m.torn m.fuel
        { n with chain := { n.chain with seenBlocks := Function.update n.chain.seenBlocks id true } }
        { m.block with wantBroadcast := true } k
      rw [added] at exact
      by_cases same : k = id
      · subst same
        simpa [Handled.IsAdded, stated] using exact
      · simpa [Handled.IsAdded, stated, same, Ne.symm same] using exact
    · cases handle

theorem handled_cases (handle : handleBlock consensus n m = .ok (h, n')) : h.IsAdded ∨
    (h = .panicked ∧ m.block.fullId = none) ∨ h = .skipped ∧ (n.chain.hopeless consensus m.block = true ∨
      ∃ id, m.block.fullId = some id ∧ n.chain.seenBlocks id = true) := by
  unfold handleBlock at handle
  rcases blockSeen_cases consensus n.chain m.block with
    ⟨seen, none⟩ | ⟨seen, reason⟩ | ⟨id, seen, -⟩ <;> rw [seen] at handle <;> dsimp only at handle
  · cases handle
    exact .inr (.inl ⟨rfl, none⟩)
  · cases handle
    exact .inr (.inr ⟨rfl, reason⟩)
  · split at handle <;> cases handle
    exact .inl ⟨_, rfl⟩

theorem skipped_of_seen (handle : handleBlock consensus n m = .ok (h, n')) (stated : m.block.fullId = some k)
    (seen : n.chain.seenBlocks k = true) : h = .skipped := by
  unfold handleBlock at handle
  rcases blockSeen_cases consensus n.chain m.block with
    ⟨run, none⟩ | ⟨run, -⟩ | ⟨id, run, stated', unseen⟩ <;> rw [run] at handle <;> dsimp only at handle
  · rw [stated] at none
    cases none
  · cases handle
    rfl
  · cases stated.symm.trans stated'
    rw [seen] at unseen
    cases unseen

theorem Trace.append {n n' : Node} {second : List Receipt} : ∀ {first : List Receipt},
    Trace consensus n (first ++ second) n' → ∃ m, Trace consensus n first m ∧ Trace consensus m second n'
  | [], trace => ⟨n, .nil n, trace⟩
  | r :: first, trace => by
    cases trace with
    | cons handle later =>
      obtain ⟨m, front, back⟩ := Trace.append later
      exact ⟨m, .cons handle front, back⟩

/-- While no message with this full id is added, it stays recorded exactly if it was
and no message forgets it. -/
theorem Trace.seen_iff (trace : Trace consensus n rs n')
    (others : ∀ r ∈ rs, r.message.block.fullId = some k → ¬ r.handled.IsAdded) : n'.chain.seenBlocks k = true ↔
      n.chain.seenBlocks k = true ∧ ∀ r ∈ rs, ¬ Forgets consensus r.before r.message k := by
  induction trace with
  | nil n => simp
  | cons handle later ih =>
    obtain ⟨here, others⟩ := List.forall_mem_cons.mp others
    have own : ¬ (_ ∧ _) := fun ⟨added, stated⟩ => here stated added
    rw [ih others, seen_handleBlock handle, or_iff_left own, List.forall_mem_cons, and_assoc]

theorem Trace.skipped_all (trace : Trace consensus n rs n') (seen : n.chain.seenBlocks k = true)
    (kept : ∀ r ∈ rs, ¬ Forgets consensus r.before r.message k) :
    ∀ r ∈ rs, r.message.block.fullId = some k → ¬ r.handled.IsAdded := by
  induction trace with
  | nil n => exact fun r mem => nomatch mem
  | cons handle later ih =>
    obtain ⟨here, kept⟩ := List.forall_mem_cons.mp kept
    refine List.forall_mem_cons.mpr ⟨fun stated => ?_, ih ((seen_handleBlock handle).mpr ⟨.inl seen, here⟩) kept⟩
    rw [skipped_of_seen handle stated seen]
    rintro ⟨_, ⟨⟩⟩

/-! ## Refused messages and later ones -/

def Receipt.Refused (r : Receipt) : Prop := ∃ result, r.handled = .added result ∧ result.err.isSome

variable (consensus)

/-- A refused message and a later one with the same full id and other content, which
is not skipped for being far behind the tip. -/
structure Contends (i j : Receipt) : Prop where
  refused : i.Refused
  sameId : i.message.block.fullId = j.message.block.fullId
  otherContent : i.message.block.mainId ≠ j.message.block.mainId
  hopeful : j.before.chain.hopeless consensus j.message.block = false

/-- The later message is skipped, and the refused one was the last added under its
full id. -/
structure Censors (i : Receipt) (between : List Receipt) (j : Receipt) : Prop
    extends Contends consensus i j where
  latest : ∀ r ∈ between, r.message.block.fullId = j.message.block.fullId → ¬ r.handled.IsAdded
  skipped : j.handled = .skipped

/-- From the refused message on until the later one, some message makes the node
forget their full id. -/
def Forgotten (i : Receipt) (between : List Receipt) (j : Receipt) : Prop :=
  ∃ r ∈ i :: between, ∃ id, j.message.block.fullId = some id ∧ Forgets consensus r.before r.message id

variable {consensus}

/-- `P` holds of no two messages of the run and those between them. -/
def Nowhere (P : Receipt → List Receipt → Receipt → Prop) (rs : List Receipt) : Prop :=
  ∀ pre i between j post, rs = pre ++ i :: (between ++ j :: post) → ¬ P i between j

theorem Receipt.Refused.fullId (handle : handleBlock consensus n m = .ok (h, n'))
    (refused : (Receipt.mk m n h n').Refused) : ∃ id, m.block.fullId = some id := by
  obtain ⟨result, rfl, -⟩ := refused
  unfold handleBlock at handle
  rcases blockSeen_cases consensus n.chain m.block with
    ⟨seen, -⟩ | ⟨seen, -⟩ | ⟨id, -, stated, -⟩
  · rw [seen] at handle
    cases handle
  · rw [seen] at handle
    cases handle
  · exact ⟨id, stated⟩

theorem not_forgotten_iff {i j : Receipt} {between : List Receipt} (stated : j.message.block.fullId = some k) :
    ¬ Forgotten consensus i between j ↔ ¬ Forgets consensus i.before i.message k ∧
      ∀ r ∈ between, ¬ Forgets consensus r.before r.message k := by
  simp [Forgotten, stated]

theorem censors_iff_not_forgotten {n'' : Node} {i j : Receipt} {between : List Receipt}
    (first : Trace consensus n [i] n') (middle : Trace consensus n' between n'')
    (last : ∃ end', Trace consensus n'' [j] end') (contends : Contends consensus i j) :
    Censors consensus i between j ↔ ¬ Forgotten consensus i between j := by
  obtain ⟨end', last⟩ := last
  cases first with
  | @cons _ _ _ m _ _ handle done =>
    cases done
    cases last with
    | cons handle' done =>
      obtain ⟨id, stated⟩ := contends.refused.fullId handle
      have stated' := contends.sameId.symm.trans stated
      have recorded : n'.chain.seenBlocks id = true ↔ ¬ Forgets consensus n m id := by
        obtain ⟨result, added, -⟩ := contends.refused
        rw [seen_handleBlock handle]
        exact and_iff_right (.inr ⟨⟨result, added⟩, stated⟩)
      refine Iff.trans ?_ (not_forgotten_iff stated').symm
      show _ ↔ ¬ Forgets consensus n m id ∧ _
      rw [← recorded]
      constructor
      · rintro ⟨-, latest, skipped⟩
        have seen : n''.chain.seenBlocks id = true := by
          rcases handled_cases handle' with ⟨_, added⟩ | ⟨panicked, -⟩ | ⟨-, far | ⟨id', same, seen⟩⟩
          · cases skipped.symm.trans added
          · cases skipped.symm.trans panicked
          · cases far.symm.trans contends.hopeful
          · cases stated'.symm.trans same
            exact seen
        rw [stated'] at latest
        exact (middle.seen_iff latest).mp seen
      · rintro ⟨seen, kept⟩
        have others := middle.skipped_all seen kept
        refine ⟨contends, by rwa [stated'], ?_⟩
        exact skipped_of_seen handle' stated' ((middle.seen_iff others).mpr ⟨seen, kept⟩)

/-- In a run of messages from any state, no refused message makes a later one with
other content be skipped, exactly when between every refused message and a later one
with the same full id and other content some message makes the node forget it: the
refused one, if its proof-of-work hash could not be computed, or one whose block is
added and after which `cleanupSeenBlocks` finds no block with this template id. -/
theorem nowhere_censors_iff (trace : Trace consensus n rs n') :
    Nowhere (Censors consensus) rs ↔
      Nowhere (fun i between j => Contends consensus i j ∧ ¬ Forgotten consensus i between j) rs := by
  have pairs : ∀ pre i between j post, rs = pre ++ i :: (between ++ j :: post) →
      (Censors consensus i between j ↔ Contends consensus i j ∧ ¬ Forgotten consensus i between j) := by
    rintro pre i between j post rfl
    rw [List.append_cons, List.append_cons between] at trace
    obtain ⟨_, front, back⟩ := trace.append
    obtain ⟨_, -, first⟩ := front.append
    obtain ⟨_, back, -⟩ := back.append
    obtain ⟨_, middle, last⟩ := back.append
    have iff := censors_iff_not_forgotten first middle ⟨_, last⟩
    exact ⟨fun censors => ⟨censors.toContends, (iff censors.toContends).mp censors⟩,
      fun ⟨contends, kept⟩ => (iff contends).mpr kept⟩
  constructor
  · intro clean pre i between j post split kept
    exact clean pre i between j post split ((pairs pre i between j post split).mpr kept)
  · intro clean pre i between j post split censors
    exact clean pre i between j post split ((pairs pre i between j post split).mp censors)

theorem handleBlock_of_new {n n' : Node} {m : Message} {id : FullId} {result : ExternalResult}
    (hopeful : n.chain.hopeless consensus m.block = false) (stated : m.block.fullId = some id)
    (unseen : n.chain.seenBlocks id = false) (added : addPoolBlockExternal consensus m.env m.torn m.fuel
      { n with chain := { n.chain with seenBlocks := Function.update n.chain.seenBlocks id true } }
      { m.block with wantBroadcast := true } = (.ok result, n')) :
    handleBlock consensus n m = .ok (.added result, n') := by
  unfold handleBlock blockSeen
  simp only [hopeful, stated, unseen, Bool.false_eq_true, if_false, added]

theorem handleBlock_of_seen {n : Node} {m : Message} {id : FullId}
    (stated : m.block.fullId = some id) (seen : n.chain.seenBlocks id = true) :
    handleBlock consensus n m = .ok (.skipped, n) := by
  unfold handleBlock blockSeen
  cases n.chain.hopeless consensus m.block <;>
    simp only [stated, seen, Bool.false_eq_true, if_false, if_true]

end Messages

/-! ## A forged block -/

namespace ForgedExample

open AlternateExample (crypto env empty templateId)

def honest : Message := ⟨AlternateExample.block 1, env, 9, empty.chain⟩

def forged : Message :=
  { honest with block := { honest.block with main := { honest.block.main with timestamp := 1 } } }

def fullId : FullId := ⟨templateId, 1, 0⟩

def recorded : Node :=
  { empty with chain := { empty.chain with
    seenBlocks := Function.update empty.chain.seenBlocks fullId true } }

def refusal : Except Fault ExternalResult × Node :=
  @addPoolBlockExternal .exact crypto consensusMini env empty.chain 9 recorded
    { forged.block with wantBroadcast := true }

def message : String :=
  "invalid template id " ++ Bytes32.string templateId ++ ", expected " ++
    Bytes32.string (@PoolBlock.sideTemplateId crypto forged.block consensusMini)

theorem refusal_eq : refusal = (.ok ⟨[], some message, true⟩, refusal.2) := by
  have outcome : refusal.1 = .ok ⟨[], some message, true⟩ := by decide +kernel
  rw [← outcome]

def first : Receipt := ⟨forged, empty, .added ⟨[], some message, true⟩, refusal.2⟩

def second : Receipt := ⟨honest, refusal.2, .skipped, refusal.2⟩

theorem trace : @Trace .exact crypto consensusMini empty [first, second] refusal.2 := by
  have new : @handleBlock .exact crypto consensusMini empty forged = .ok (first.handled, refusal.2) :=
    @handleBlock_of_new .exact crypto consensusMini empty refusal.2 forged fullId _ rfl
      (by decide +kernel) rfl refusal_eq
  have seen : @handleBlock .exact crypto consensusMini refusal.2 honest = .ok (.skipped, refusal.2) :=
    @handleBlock_of_seen .exact crypto consensusMini refusal.2 honest fullId (by decide +kernel)
      (by decide +kernel)
  exact @Trace.cons .exact crypto consensusMini _ _ _ _ _ _ new
    (@Trace.cons .exact crypto consensusMini _ _ _ _ _ _ seen (@Trace.nil .exact crypto _ _))

theorem nowhere_censors_iff_forged :
    Nowhere (@Censors crypto consensusMini) [first, second] ↔
      Nowhere (fun i between j => @Contends crypto consensusMini i j ∧
        ¬ @Forgotten .exact crypto consensusMini i between j) [first, second] :=
  @nowhere_censors_iff .exact crypto consensusMini empty refusal.2 [first, second] trace

/-- After the forged block has been refused for its template id, the honest block,
which passes all checks before the duplicate test, is skipped as seen. -/
theorem honest_skipped :
    @Trace .exact crypto consensusMini empty [first, second] refusal.2 ∧
      @Censors crypto consensusMini first [] second ∧
      ((@externalChecks .exact crypto consensusMini env 9 honest.block).on empty).1 =
        .ok honest.block :=
  ⟨trace,
    @Censors.mk crypto consensusMini first [] second
      (@Contends.mk crypto consensusMini first second ⟨_, rfl, rfl⟩ (by decide +kernel)
        (by decide +kernel) (by decide +kernel)) (fun _ mem => nomatch mem) rfl,
    by decide +kernel⟩

end ForgedExample

end P2PoolObserver
