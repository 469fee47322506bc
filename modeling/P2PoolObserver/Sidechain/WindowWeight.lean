/-
# Sidechain.WindowWeight -- the payout walk conserves weight and keeps its limit

A successful `BlocksInPPLNSWindow` is a list of `Segment`s, one for each chain block walked: the
uncles of the block that counted, then the block itself.  What `ApplyUnclePenalty` takes off an
uncle is added to the block that includes it.
-/
import P2PoolObserver.Sidechain.Window

namespace P2PoolObserver

structure Segment where
  block : Ptr
  uncles : List Ptr
  weight : Difficulty
  deriving DecidableEq

def totalWeight (calls : List WeightCall) : Nat := (calls.map fun call => call.weight.toNat).sum

theorem totalWeight_append (xs ys : List WeightCall) :
    totalWeight (xs ++ ys) = totalWeight xs + totalWeight ys := by
  simp [totalWeight]

section Weights

variable [Uint128Package] (V : View) (consensus : Consensus) (tip : Ptr)

def blockDifficulty (p : Ptr) : Nat := (V.block p).side.difficulty.toNat

def uncleCall (uncle : Ptr) : WeightCall :=
  ⟨uncle, (consensus.applyUnclePenalty (V.block uncle).side.difficulty).1⟩

def Segment.calls (seg : Segment) : List WeightCall :=
  seg.uncles.map (uncleCall V consensus) ++ [⟨seg.block, seg.weight⟩]

def Segment.difficulty (seg : Segment) : Nat :=
  blockDifficulty V seg.block + (seg.uncles.map (blockDifficulty V)).sum

def segmentCalls (segs : List Segment) : List WeightCall := segs.flatMap (Segment.calls V consensus)

def segmentDifficulty (segs : List Segment) : Nat := (segs.map (Segment.difficulty V)).sum

/-! ## The uncles of one block -/

def penaltySum (uncles : List Ptr) : Nat :=
  (uncles.map fun u => (consensus.applyUnclePenalty (V.block u).side.difficulty).2.toNat).sum

theorem uncles_weight_add_penalty (uncles : List Ptr) :
    totalWeight (uncles.map (uncleCall V consensus)) + penaltySum V consensus uncles =
      (uncles.map (blockDifficulty V)).sum := by
  induction uncles with
  | nil => rfl
  | cons u us ih =>
    have one := consensus.applyUnclePenalty_add (V.block u).side.difficulty
    simp only [totalWeight, penaltySum, uncleCall, blockDifficulty, List.map_cons, List.sum_cons,
      List.map_map, Function.comp_def] at ih ⊢
    omega

/-- An uncle inside the window, as the source subtracts the heights. -/
def InWindow (uncle : Ptr) : Prop :=
  (V.block tip).side.height - (V.block uncle).side.height < consensus.chainWindowSize

/-- An uncle is skipped, for the window or for the limit, or it is in the window,
fits under the limit and is counted. -/
theorem scanUncle_cases (limit : Difficulty) (s : UncleScan) (u : Ptr) :
    (scanUncle V consensus tip limit s u = s ∧ (InWindow V consensus tip u →
        limit.toNat < s.pplnsWeight.toNat + (uncleCall V consensus u).weight.toNat)) ∨
      InWindow V consensus tip u ∧
        (s.pplnsWeight.add (consensus.applyUnclePenalty (V.block u).side.difficulty).1).cmp limit ≠ .gt ∧
        scanUncle V consensus tip limit s u =
          ⟨s.curWeight.add (consensus.applyUnclePenalty (V.block u).side.difficulty).2,
            s.pplnsWeight.add (consensus.applyUnclePenalty (V.block u).side.difficulty).1,
            s.calls ++ [uncleCall V consensus u]⟩ := by
  by_cases out : (V.block tip).side.height - (V.block u).side.height ≥ consensus.chainWindowSize
  · refine .inl ⟨by simp only [scanUncle, out, if_true], fun inside => ?_⟩
    exact absurd inside (UInt64.not_lt.mpr out)
  · by_cases heavy : (s.pplnsWeight.add (consensus.applyUnclePenalty (V.block u).side.difficulty).1).cmp limit = .gt
    · refine .inl ⟨by simp only [scanUncle, out, heavy, if_true, if_false], fun _ => ?_⟩
      rw [Difficulty.cmp_eq_gt_iff] at heavy
      exact heavy.trans_le ((Difficulty.toNat_add _ _).trans_le (Nat.mod_le _ _))
    · refine .inr ⟨by simpa [InWindow] using out, heavy, ?_⟩
      simp only [scanUncle, out, heavy, if_false, uncleCall]

/-- With `before` handed out so far, an uncle in the window that is not counted
would have passed the limit when its turn came, after the uncles `taken`. -/
def LeftOut (limit : Difficulty) (before : Nat) (uncles counted : List Ptr) : Prop :=
  ∀ u ∈ uncles, InWindow V consensus tip u → u ∉ counted → ∃ taken, taken <+: counted ∧
    limit.toNat < before + totalWeight ((taken ++ [u]).map (uncleCall V consensus))

variable {V consensus tip} in
theorem LeftOut.skip {limit : Difficulty} {before : Nat} {u : Ptr} {us counted : List Ptr}
    (rest : LeftOut V consensus tip limit before us counted) (reason : InWindow V consensus tip u →
      limit.toNat < before + (uncleCall V consensus u).weight.toNat) :
    LeftOut V consensus tip limit before (u :: us) counted := by
  intro v mem inside out
  rcases List.mem_cons.mp mem with rfl | mem
  · exact ⟨[], List.nil_prefix, by simpa [totalWeight] using reason inside⟩
  · exact rest v mem inside out

variable {V consensus tip} in
theorem LeftOut.take {limit : Difficulty} {before after : Nat} {u : Ptr} {us counted : List Ptr}
    (rest : LeftOut V consensus tip limit after us counted)
    (sum : after ≤ before + (uncleCall V consensus u).weight.toNat) :
    LeftOut V consensus tip limit before (u :: us) (u :: counted) := by
  intro v mem inside out
  obtain ⟨other, out⟩ := not_or.mp (mt List.mem_cons.mpr out)
  obtain ⟨taken, initial, passes⟩ := rest v ((List.mem_cons.mp mem).resolve_left other) inside out
  refine ⟨u :: taken, List.cons_prefix_cons.mpr ⟨rfl, initial⟩, ?_⟩
  simp only [totalWeight, List.cons_append, List.map_cons, List.sum_cons] at passes ⊢
  omega

theorem scan_counts (limit : Difficulty) : ∀ (uncles : List Ptr) (s : UncleScan),
    ∃ counted : List Ptr, counted.Sublist uncles ∧ (∀ u ∈ counted, InWindow V consensus tip u) ∧
      LeftOut V consensus tip limit s.pplnsWeight.toNat uncles counted ∧
      (uncles.foldl (scanUncle V consensus tip limit) s).calls =
        s.calls ++ counted.map (uncleCall V consensus) ∧
      (s.pplnsWeight.toNat + s.curWeight.toNat + (counted.map (blockDifficulty V)).sum < 2 ^ 128 →
        (uncles.foldl (scanUncle V consensus tip limit) s).pplnsWeight.toNat =
            s.pplnsWeight.toNat + totalWeight (counted.map (uncleCall V consensus)) ∧
          (uncles.foldl (scanUncle V consensus tip limit) s).curWeight.toNat =
            s.curWeight.toNat + penaltySum V consensus counted ∧ (s.pplnsWeight.toNat ≤ limit.toNat →
            (uncles.foldl (scanUncle V consensus tip limit) s).pplnsWeight.toNat ≤ limit.toNat))
  | [], s => ⟨[], by simp, by simp, by simp [LeftOut], by simp, by simp [totalWeight, penaltySum]⟩
  | u :: us, s => by
    rcases scanUncle_cases V consensus tip limit s u with ⟨skip, reason⟩ | ⟨inWindow, light, step⟩
    · obtain ⟨counted, sub, inside, left, calls, sums⟩ := scan_counts limit us s
      rw [List.foldl_cons, skip]
      exact ⟨counted, sub.cons u, inside, left.skip reason, calls, sums⟩
    · obtain ⟨counted, sub, inside, left, calls, sums⟩ :=
        scan_counts limit us (scanUncle V consensus tip limit s u)
      refine ⟨u :: counted, sub.cons_cons u, ?_, left.take ?_, ?_, ?_⟩
      · intro v hv
        rcases List.mem_cons.mp hv with rfl | hv
        · exact inWindow
        · exact inside v hv
      · rw [step]
        exact (Difficulty.toNat_add _ _).trans_le (Nat.mod_le _ _)
      · rw [List.foldl_cons, calls, step]
        simp
      · intro fits
        have parts := consensus.applyUnclePenalty_add (V.block u).side.difficulty
        simp only [List.map_cons, List.sum_cons, blockDifficulty] at fits
        have weight := Difficulty.toNat_add_of_lt (d := s.pplnsWeight)
          (v := (consensus.applyUnclePenalty (V.block u).side.difficulty).1) (by omega)
        have penalty := Difficulty.toNat_add_of_lt (d := s.curWeight)
          (v := (consensus.applyUnclePenalty (V.block u).side.difficulty).2) (by omega)
        rw [Ne, Difficulty.cmp_eq_gt_iff] at light
        rw [step] at sums
        simp only [weight, penalty] at sums light
        obtain ⟨pplns, cur, bound⟩ := sums (by omega)
        simp only [List.foldl_cons, step, totalWeight, penaltySum, uncleCall, List.map_cons,
          List.sum_cons] at pplns cur bound ⊢
        exact ⟨by omega, by omega, fun _ => bound (by omega)⟩

/-! ## The walk -/

/-- The walk from `cur` on, with `before` handed out so far and at most `remaining`
more blocks to come. -/
structure SegmentsFrom (limit : Difficulty) (remaining : Nat) (cur : Ptr) (before : Nat)
    (bottomHeight : UInt64) (segs : List Segment) : Prop where
  chain : segs.head?.map Segment.block = some cur ∧
    segs.IsChain fun a b => V.iteratorGetParent a.block = some b.block
  count : segs.length ≤ remaining + 1
  bottom : (segs.getLast?.map fun seg => (V.block seg.block).side.height) = some bottomHeight
  counted : ∀ seg ∈ segs, seg.uncles.Sublist (V.iteratorUncles seg.block).visited ∧
    ∀ u ∈ seg.uncles, InWindow V consensus tip u
  /-- With every sum in range, nothing is created or lost, -/
  conserves : before + segmentDifficulty V segs < 2 ^ 128 →
    totalWeight (segmentCalls V consensus segs) = segmentDifficulty V segs
  /-- what was handed out before the last block is within the limit, -/
  limited : before + segmentDifficulty V segs < 2 ^ 128 → before ≤ limit.toNat →
    before + totalWeight (segmentCalls V consensus segs) -
      ((segs.getLast?.map fun seg => seg.weight.toNat).getD 0) ≤ limit.toNat
  /-- and only the last block takes the weight above it. -/
  stops : before + segmentDifficulty V segs < 2 ^ 128 → before ≤ limit.toNat →
    ∀ front back, segs = front ++ back → back ≠ [] →
      before + totalWeight (segmentCalls V consensus front) ≤ limit.toNat
  left : before + segmentDifficulty V segs < 2 ^ 128 → ∀ front seg back, segs = front ++ seg :: back →
    LeftOut V consensus tip limit (before + totalWeight (segmentCalls V consensus front))
      (V.iteratorUncles seg.block).visited seg.uncles
  ends : before + segmentDifficulty V segs < 2 ^ 128 →
    limit.toNat < before + totalWeight (segmentCalls V consensus segs) ∨
      segs.length = remaining + 1 ∨ bottomHeight = 0

/-- What one block of the walk adds. -/
structure OneBlock (limit : Difficulty) (before : Nat) (seg : Segment) (after : Nat) : Prop where
  counted : seg.uncles.Sublist (V.iteratorUncles seg.block).visited ∧
    ∀ u ∈ seg.uncles, InWindow V consensus tip u
  conserves : before + seg.difficulty V < 2 ^ 128 →
    totalWeight (seg.calls V consensus) = seg.difficulty V ∧ after = before + seg.difficulty V
  limited : before + seg.difficulty V < 2 ^ 128 → before ≤ limit.toNat →
    before + totalWeight (seg.calls V consensus) - seg.weight.toNat ≤ limit.toNat
  left : LeftOut V consensus tip limit before (V.iteratorUncles seg.block).visited seg.uncles

theorem oneBlock_of_scan (limit : Difficulty) (cur : Ptr) (pplnsWeight : Difficulty)
    (calls : List WeightCall) (s : UncleScan)
    (scan : (V.iteratorUncles cur).visited.foldl (scanUncle V consensus tip limit)
      ⟨(V.block cur).side.difficulty, pplnsWeight, calls⟩ = s) :
    ∃ seg : Segment, seg.block = cur ∧ seg.weight = s.curWeight ∧
      s.calls ++ [⟨cur, s.curWeight⟩] = calls ++ seg.calls V consensus ∧
      OneBlock V consensus tip limit pplnsWeight.toNat seg (s.pplnsWeight.add s.curWeight).toNat := by
  obtain ⟨uncles, sub, inside, left, callsEq, sums⟩ := scan_counts V consensus tip limit
    (V.iteratorUncles cur).visited ⟨(V.block cur).side.difficulty, pplnsWeight, calls⟩
  rw [scan] at callsEq sums
  refine ⟨⟨cur, uncles, s.curWeight⟩, rfl, rfl, ?_, ⟨sub, inside⟩, ?_, ?_, left⟩
  · rw [callsEq]
    simp [Segment.calls]
  · intro fits
    have moved := uncles_weight_add_penalty V consensus uncles
    simp only [Segment.difficulty, blockDifficulty] at fits sums moved
    obtain ⟨pplns, cur, -⟩ := sums (by omega)
    have after := Difficulty.toNat_add_of_lt (d := s.pplnsWeight) (v := s.curWeight) (by omega)
    simp only [Segment.calls, Segment.difficulty, totalWeight_append, blockDifficulty]
    simp only [totalWeight, List.map_cons, List.map_nil, List.sum_cons, List.sum_nil] at *
    omega
  · intro fits within
    have moved := uncles_weight_add_penalty V consensus uncles
    simp only [Segment.difficulty, blockDifficulty] at fits sums moved
    obtain ⟨pplns, -, bound⟩ := sums (by omega)
    have kept := bound within
    simp only [Segment.calls, totalWeight_append]
    simp only [totalWeight, List.map_cons, List.map_nil, List.sum_cons, List.sum_nil] at *
    omega

theorem segmentsFrom_singleton {limit : Difficulty} {remaining before after : Nat} {cur : Ptr}
    {seg : Segment} (at_cur : seg.block = cur) (one : OneBlock V consensus tip limit before seg after)
    (last : limit.toNat < after ∨ remaining = 0 ∨ (V.block cur).side.height = 0) :
    SegmentsFrom V consensus tip limit remaining cur before (V.block cur).side.height [seg] where
  chain := ⟨by simp [at_cur], by simp⟩
  count := by simp
  bottom := by simp [at_cur]
  counted := by simpa using one.counted
  conserves fits := by
    have := (one.conserves (by simpa [segmentDifficulty] using fits)).1
    simpa [segmentCalls, segmentDifficulty] using this
  limited fits within := by
    have := one.limited (by simpa [segmentDifficulty] using fits) within
    simpa [segmentCalls] using this
  stops fits within front back split nonempty := by
    have empty : front = [] := by
      cases front with
      | nil => rfl
      | cons x xs =>
        obtain ⟨-, rest⟩ := List.cons_eq_cons.mp split
        have := List.append_eq_nil_iff.mp rest.symm
        exact absurd this.2 nonempty
    subst empty
    simpa [segmentCalls, totalWeight] using within
  left _ front seg' back split := by
    obtain ⟨rfl, rfl, -⟩ : front = [] ∧ seg' = seg ∧ back = [] := by
      cases front <;> simp_all
    simpa [segmentCalls, totalWeight] using one.left
  ends fits := by
    obtain ⟨here, step⟩ := one.conserves (by simpa [segmentDifficulty] using fits)
    simp only [segmentCalls, List.flatMap_cons, List.flatMap_nil, List.append_nil, here, ← step]
    exact last.imp id (Or.imp (by rintro rfl; rfl) id)

theorem SegmentsFrom.cons {limit : Difficulty} {remaining before after : Nat} {cur parent : Ptr}
    {bottom : UInt64} {seg : Segment} {rest : List Segment} (at_cur : seg.block = cur)
    (one : OneBlock V consensus tip limit before seg after)
    (up : V.iteratorGetParent cur = some parent) (below : after ≤ limit.toNat)
    (more : SegmentsFrom V consensus tip limit remaining parent after bottom rest) :
    SegmentsFrom V consensus tip limit (remaining + 1) cur before bottom (seg :: rest) := by
  have total : ∀ segs, totalWeight (segmentCalls V consensus (seg :: segs)) =
      totalWeight (seg.calls V consensus) + totalWeight (segmentCalls V consensus segs) := by
    intro segs
    simp [segmentCalls, totalWeight_append]
  have difficulty : segmentDifficulty V (seg :: rest) = seg.difficulty V + segmentDifficulty V rest := by
    simp [segmentDifficulty]
  obtain ⟨next, others, rfl⟩ : ∃ next others, rest = next :: others := by
    cases rest with
    | nil => simpa using more.chain.1
    | cons next others => exact ⟨next, others, rfl⟩
  refine ⟨⟨by simp [at_cur], ?_⟩, ?_, ?_, ?_, ?_, ?_, ?_, ?_, ?_⟩
  · have head : next.block = parent := by simpa using more.chain.1
    exact List.isChain_cons_cons.mpr ⟨by rw [at_cur, up, head], more.chain.2⟩
  · have := more.count
    simp only [List.length_cons] at this ⊢
    omega
  · rw [List.getLast?_cons_cons]
    exact more.bottom
  · intro seg' mem
    rcases List.mem_cons.mp mem with rfl | mem
    · exact one.counted
    · exact more.counted seg' mem
  · intro fits
    rw [difficulty] at fits
    obtain ⟨here, step⟩ := one.conserves (by omega)
    have there := more.conserves (by omega)
    rw [total, difficulty]
    omega
  · intro fits within
    rw [difficulty] at fits
    obtain ⟨here, step⟩ := one.conserves (by omega)
    have there := more.limited (by omega) below
    rw [total, List.getLast?_cons_cons]
    omega
  · intro fits within front back split nonempty
    rw [difficulty] at fits
    obtain ⟨here, step⟩ := one.conserves (by omega)
    cases front with
    | nil => simpa [segmentCalls, totalWeight] using within
    | cons x xs =>
      obtain ⟨rfl, rest_split⟩ := List.cons_eq_cons.mp split
      have there := more.stops (by omega) below xs back rest_split nonempty
      rw [total]
      omega
  · intro fits front seg' back split
    rw [difficulty] at fits
    obtain ⟨here, step⟩ := one.conserves (by omega)
    cases front with
    | nil =>
      obtain ⟨rfl, -⟩ := List.cons_eq_cons.mp split
      simpa [segmentCalls, totalWeight] using one.left
    | cons x xs =>
      obtain ⟨rfl, rest_split⟩ := List.cons_eq_cons.mp split
      rw [total, here, ← Nat.add_assoc, ← step]
      exact more.left (by omega) xs seg' back rest_split
  · intro fits
    rw [difficulty] at fits
    obtain ⟨here, step⟩ := one.conserves (by omega)
    rw [total, here, ← Nat.add_assoc, ← step]
    exact (more.ends (by omega)).imp id (Or.imp (congrArg (· + 1)) id)

theorem blocksLoop_segments (limit : Difficulty) : ∀ (remaining : Nat) (cur : Ptr)
    (pplnsWeight : Difficulty) (calls : List WeightCall) (bottom : UInt64),
    (blocksLoop V consensus tip limit remaining cur pplnsWeight calls).result = .ok bottom →
    ∃ segs, SegmentsFrom V consensus tip limit remaining cur pplnsWeight.toNat bottom segs ∧
      (blocksLoop V consensus tip limit remaining cur pplnsWeight calls).calls =
        calls ++ segmentCalls V consensus segs := by
  intro remaining
  induction remaining with
  | zero =>
    intro cur pplnsWeight calls bottom ok
    obtain ⟨seg, at_cur, -, callsEq, one⟩ :=
      oneBlock_of_scan V consensus tip limit cur pplnsWeight calls _ rfl
    have stop := segmentsFrom_singleton V consensus tip at_cur one (.inr (.inl rfl))
    unfold blocksLoop at ok ⊢
    cases missing : (V.iteratorUncles cur).missing with
    | some id => simp [missing] at ok
    | none =>
      simp only [missing, ite_self, Except.ok.injEq] at ok ⊢
      subst ok
      refine ⟨[seg], stop, ?_⟩
      simpa only [segmentCalls, List.flatMap_cons, List.flatMap_nil, List.append_nil] using callsEq
  | succ remaining ih =>
    intro cur pplnsWeight calls bottom ok
    obtain ⟨seg, at_cur, -, callsEq, one⟩ :=
      oneBlock_of_scan V consensus tip limit cur pplnsWeight calls _ rfl
    have stop := @segmentsFrom_singleton _ V consensus tip limit (remaining + 1) _ _ cur seg at_cur one
    unfold blocksLoop at ok ⊢
    dsimp only at ok ⊢
    generalize (V.iteratorUncles cur).visited.foldl (scanUncle V consensus tip limit)
      ⟨(V.block cur).side.difficulty, pplnsWeight, calls⟩ = s at ok callsEq one stop ⊢
    cases missing : (V.iteratorUncles cur).missing with
    | some id => simp [missing] at ok
    | none =>
      simp only [missing] at ok ⊢
      by_cases heavy : (s.pplnsWeight.add s.curWeight).cmp limit = .gt
      · obtain rfl : (V.block cur).side.height = bottom := by simpa [heavy] using ok
        refine ⟨[seg], stop (.inl ?_), by simpa [heavy, segmentCalls] using callsEq⟩
        exact (Difficulty.cmp_eq_gt_iff _ _).mp heavy
      · by_cases genesis : (V.block cur).side.height = 0
        · obtain rfl : (V.block cur).side.height = bottom := by simpa [heavy, genesis] using ok
          exact ⟨[seg], stop (.inr (.inr genesis)), by simpa [heavy, genesis, segmentCalls] using callsEq⟩
        · cases up : V.iteratorGetParent cur with
          | none => simp [heavy, genesis, up] at ok
          | some parent =>
            simp only [heavy, genesis, up, if_false] at ok ⊢
            obtain ⟨rest, more, restCalls⟩ := ih parent _ _ bottom ok
            have below : (s.pplnsWeight.add s.curWeight).toNat ≤ limit.toNat := by
              rw [Difficulty.cmp_eq_gt_iff] at heavy
              omega
            refine ⟨seg :: rest, more.cons V consensus tip at_cur one up below, ?_⟩
            rw [restCalls, callsEq]
            simp [segmentCalls]

/-- A successful payout walk calls `addWeightFunc` once for each of the `1` to
`ChainWindowSize` chain blocks it walks and once for each counted uncle, all of
them in the window.  If the difficulties of these blocks and uncles add up within
128 bits, the weights handed out add up to the same, and what was handed out before
the last chain block is within the limit, which from version 2 on is at most twice
the mainchain difficulty.  The walk ends at the first chain block that passes the
limit, after `ChainWindowSize` blocks or at height 0, and leaves out an uncle of the
window only for the limit. -/
theorem blocksInPPLNSWindow_conserves (difficultyByHeight : UInt64 → Difficulty)
    (bottomHeight : UInt64)
    (ok : (blocksInPPLNSWindow V consensus tip difficultyByHeight).result = .ok bottomHeight) :
    ∃ mainchain segs, mainchainDiff V tip difficultyByHeight = .ok mainchain ∧
      (blocksInPPLNSWindow V consensus tip difficultyByHeight).calls = segmentCalls V consensus segs ∧
      SegmentsFrom V consensus tip (maxPplnsWeight V tip mainchain)
        (consensus.chainWindowSize.toNat - 1) tip 0 bottomHeight segs ∧
      1 ≤ segs.length ∧ segs.length ≤ consensus.chainWindowSize.toNat ∧
      ((V.block tip).shareVersion > shareVersionV1 →
        (maxPplnsWeight V tip mainchain).toNat ≤ 2 * mainchain.toNat) := by
  cases main : mainchainDiff V tip difficultyByHeight with
  | error e => simp [blocksInPPLNSWindow, main] at ok
  | ok mainchain =>
    have run : blocksInPPLNSWindow V consensus tip difficultyByHeight =
        blocksLoop V consensus tip (maxPplnsWeight V tip mainchain)
          (consensus.chainWindowSize.toNat - 1) tip Difficulty.zeroDifficulty [] := by
      rw [blocksInPPLNSWindow, main]
    rw [run] at ok ⊢
    obtain ⟨segs, walked, calls⟩ := blocksLoop_segments V consensus tip _ _ _ _ _ _ ok
    rw [Difficulty.toNat_zeroDifficulty] at walked
    have window : 60 ≤ consensus.chainWindowSize.toNat :=
      UInt64.le_iff_toNat_le.mp consensus.chainWindowSize_bounds.1
    have count := walked.count
    refine ⟨mainchain, segs, rfl, calls, walked, ?_, by omega, fun version => ?_⟩
    · cases segs with
      | nil => simpa using walked.chain.1
      | cons seg segs => simp
    · rw [maxPplnsWeight, if_pos version, Difficulty.toNat_mul64, Nat.mul_comm]
      exact Nat.mod_le _ _

end Weights

/-- A chain of three blocks.  The tip has two uncles, the second of them too heavy
for the limit `150`, which the tip reaches and its parent passes. -/
def nephewView : View where
  block
    | 0 => { (default : PoolBlock) with
        side := { (default : SideData) with difficulty := ⟨100, 0⟩ } }
    | 1 => { (default : PoolBlock) with
        side := { (default : SideData) with parent := 6, height := 1, difficulty := ⟨100, 0⟩ } }
    | 2 => { (default : PoolBlock) with
        side := { (default : SideData) with
          parent := 7, uncles := [8, 9], height := 2, difficulty := ⟨100, 0⟩ },
        cachedShareVersion := shareVersionV2 }
    | 3 => { (default : PoolBlock) with
        side := { (default : SideData) with difficulty := ⟨50, 0⟩ } }
    | _ => { (default : PoolBlock) with
        side := { (default : SideData) with difficulty := ⟨300, 0⟩ } }
  getByTemplateId id :=
    if id = 6 then some 0 else if id = 7 then some 1 else if id = 8 then some 3
    else if id = 9 then some 4 else none

theorem blocksInPPLNSWindow_conserves_nephew :
    letI : Uint128Package := .exact
    (blocksInPPLNSWindow nephewView consensusMini 2 fun _ => ⟨75, 0⟩).calls =
        [⟨3, ⟨40, 0⟩⟩, ⟨2, ⟨110, 0⟩⟩, ⟨1, ⟨100, 0⟩⟩] ∧
      ∃ segs, segmentCalls nephewView consensusMini segs =
          [⟨3, ⟨40, 0⟩⟩, ⟨2, ⟨110, 0⟩⟩, ⟨1, ⟨100, 0⟩⟩] ∧
        SegmentsFrom nephewView consensusMini 2 ⟨150, 0⟩ 2159 2 0 1 segs := by
  let _ : Uint128Package := .exact
  have calls : (blocksInPPLNSWindow nephewView consensusMini 2 fun _ => ⟨75, 0⟩).calls =
      [⟨3, ⟨40, 0⟩⟩, ⟨2, ⟨110, 0⟩⟩, ⟨1, ⟨100, 0⟩⟩] := by decide +kernel
  obtain ⟨mainchain, segs, main, same, walked, -⟩ :=
    @blocksInPPLNSWindow_conserves .exact nephewView consensusMini 2 (fun _ => ⟨75, 0⟩) 1 (by decide +kernel)
  obtain rfl : ⟨75, 0⟩ = mainchain := Except.ok.inj main
  exact ⟨calls, segs, same.symm.trans calls, walked⟩

end P2PoolObserver
