/-
# Sidechain.PossibleUncles -- the uncles a template offers and the uncles a block may have

`getPossibleUncles` collects the uncles for a block on top of a tip, and `verifyBlock`
checks the uncles of such a block.  The two walk the same chains with the same bounds but
write them differently; the look-backs name the same mined blocks (`minedBlocks_of_height_lt`)
unless the height of the new block is the largest one, where the bound of the checker wraps
around to zero.
-/
import P2PoolObserver.Sidechain.ForkChoice
import P2PoolObserver.Sidechain.Coherence

namespace P2PoolObserver

open Lib

namespace SideChain

section Producer

variable [Crypto] (consensus : Consensus) (s : SideChain)

def isPossibleUncle (fuel : Nat) (minedBlocks : List Hash) (tip : Ptr) (forHeight : UInt64)
    (uncle : Ptr) : Except Fault Bool :=
  if !(s.mem uncle).verified || (s.mem uncle).invalid then .ok false
  else if s.templateId consensus uncle ∈ minedBlocks then .ok false
  else do
    let tmp ← ancestorAtHeight s.view (s.mem uncle).side.height fuel (some tip)
    match tmp with
    | none => .ok false
    | some tmp =>
      if (s.mem tmp).side.height < (s.mem uncle).side.height then .ok false
      else .ok (sameChain s.view forHeight uncleBlockDepth.toNat (some tmp) (some uncle))

def collect (test : Ptr → Except Fault Bool) : List Ptr → Except Fault (List Ptr)
  | [] => .ok []
  | p :: rest => do
    let passes ← test p
    let others ← collect test rest
    .ok (if passes then p :: others else others)

/-- The heights that the source looks at: from the tip downwards. -/
def uncleCandidates (tip : Ptr) (n : Nat) : List Ptr :=
  (List.range n).flatMap fun i => s.getPoolBlocksByHeight ((s.mem tip).side.height - UInt64.ofNat i)

def getPossibleUncles (fuel : Nat) (tip : Ptr) (forHeight : UInt64) : Except Fault (List Hash) := do
  let n := (min uncleBlockDepth ((s.mem tip).side.height + 1)).toNat
  let mined := minedBlocks consensus s.view n (some tip)
  let uncles ← collect (s.isPossibleUncle consensus fuel mined tip forHeight) (s.uncleCandidates tip n)
  .ok ((uncles.map (s.templateId consensus)).insertionSort fun a b => Hash.compare a b ≠ .gt)

end Producer

/-! ## The walks of the two functions -/

section Walks

variable {V : View}

theorem descend_eq_ok_iff (height : UInt64) : ∀ (fuel : Nat) (p t : Ptr),
    descend V height fuel p = .ok t ↔ ancestorAtHeight V height fuel (some p) = .ok (some t)
  | 0, p, t => ⟨nofun, nofun⟩
  | fuel + 1, p, t => by
    unfold descend ancestorAtHeight
    split_ifs
    · cases parent : V.iteratorGetParent p with
      | none =>
        refine ⟨fun run => (by cases run), fun run => ?_⟩
        cases fuel <;> cases run
      | some q => exact descend_eq_ok_iff height fuel q t
    · simp

theorem not_above_of_ancestorAtHeight {height : UInt64} : ∀ {fuel : Nat} {p : Option Ptr} {t : Ptr},
    ancestorAtHeight V height fuel p = .ok (some t) → (V.block t).side.height ≤ height
  | fuel, none, t, run => by cases fuel <;> cases run
  | 0, some _, _, run => nomatch run
  | fuel + 1, some p, t, run => by
    unfold ancestorAtHeight at run
    split_ifs at run with above
    · exact not_above_of_ancestorAtHeight run
    · cases run
      exact UInt64.not_lt.mp above

theorem ancestorAtHeight_returns {height : UInt64} : ∀ (n : Nat) {p : Ptr} {fuel : Nat},
    V.ConsistentHeights p → (V.block p).side.height.toNat ≤ height.toNat + n → n < fuel →
      ∃ r, ancestorAtHeight V height fuel (some p) = .ok r
  | 0, p, fuel + 1, consistent, near, enough => by
    refine ⟨some p, ancestorAtHeight_of_le ?_⟩
    rw [UInt64.le_iff_toNat_le]
    exact near
  | n + 1, p, fuel + 1, consistent, near, enough => by
    unfold ancestorAtHeight
    split_ifs with above
    · cases parent : V.iteratorGetParent p with
      | none => exact ⟨none, by cases fuel <;> rfl⟩
      | some q =>
        have below := consistent.height parent
        exact ancestorAtHeight_returns n (consistent.parent parent) (by omega) (by omega)
    · exact ⟨some p, rfl⟩

/-- What both functions ask of an uncle of a block at `forHeight`: it has a common
ancestor with the chain of `tip`, found within the look-back. -/
def Related (V : View) (fuel : Nat) (tip : Ptr) (forHeight : UInt64) (u : Ptr) : Prop :=
  ∃ tmp, ancestorAtHeight V (V.block u).side.height fuel (some tip) = .ok (some tmp) ∧
    ¬ (V.block tmp).side.height < (V.block u).side.height ∧
    sameChain V forHeight uncleBlockDepth.toNat (some tmp) (some u) = true

theorem Related.height {fuel : Nat} {tip u : Ptr} {forHeight : UInt64}
    (related : Related V fuel tip forHeight u) : forHeight ≤ (V.block u).side.height + uncleBlockDepth := by
  obtain ⟨tmp, walk, notBelow, same⟩ := related
  have level : (V.block tmp).side.height = (V.block u).side.height :=
    UInt64.le_antisymm (not_above_of_ancestorAtHeight walk) (UInt64.not_lt.mp notBelow)
  rw [show uncleBlockDepth.toNat = 2 + 1 from rfl] at same
  unfold sameChain at same
  split_ifs at same with near
  · rwa [level] at near
  · rwa [level] at near

theorem checkUncle_eq_ok_iff {fuel : Nat} {b : PoolBlock} {parent u : Ptr} :
    checkUncle V fuel b parent u = .ok () ↔ (V.block u).verified = true ∧ (V.block u).invalid = false ∧
      (V.block u).side.height < b.side.height ∧ Related V fuel parent b.side.height u := by
  simp only [checkUncle, except_bind_eq_ok, requireValid_eq_ok, requireVerifiable_eq_ok,
    Bool.not_eq_true, descend_eq_ok_iff]
  constructor
  · rintro ⟨_, verified, _, valid, _, range, tmp, walk, _, notBelow, same⟩
    rw [not_or] at range
    exact ⟨verified, valid, UInt64.not_le.mp range.1, tmp, walk, notBelow, same⟩
  · rintro ⟨verified, valid, below, related⟩
    have near := related.height
    obtain ⟨tmp, walk, notBelow, same⟩ := related
    refine ⟨(), verified, (), valid, (), ?_, tmp, walk, (), notBelow, same⟩
    rw [not_or]
    exact ⟨UInt64.not_le.mpr below, UInt64.not_lt.mpr near⟩

variable [Crypto] {consensus : Consensus}

/-- A chain of consistent heights has no more blocks than its tip's height allows, so a
longer look-back names no others. -/
theorem minedBlocks_of_height_lt : ∀ (m k : Nat) {p : Ptr}, V.ConsistentHeights p →
    (V.block p).side.height.toNat < m →
      minedBlocks consensus V (m + k) (some p) = minedBlocks consensus V m (some p)
  | 0, _, _, _, low => absurd low (Nat.not_lt_zero _)
  | m + 1, k, p, consistent, low => by
    rw [show m + 1 + k = (m + k) + 1 by omega]
    simp only [minedBlocks]
    congr 1
    cases parent : V.iteratorGetParent p with
    | none => cases m <;> cases k <;> rfl
    | some q =>
      have below := consistent.height parent
      exact minedBlocks_of_height_lt m k (consistent.parent parent) (by omega)

end Walks

/-! ## Candidates, heights and order -/

theorem collect_returns {test : Ptr → Except Fault Bool} : ∀ {l : List Ptr},
    (∀ p ∈ l, ∃ r, test p = .ok r) → ∃ out, collect test l = .ok out ∧ out.Sublist l ∧
      ∀ p, p ∈ out ↔ p ∈ l ∧ test p = .ok true
  | [], _ => ⟨[], rfl, List.Sublist.refl _, fun p => ⟨nofun, nofun⟩⟩
  | q :: rest, returns => by
    obtain ⟨out, run, sub, mem⟩ := collect_returns fun p listed => returns p (.tail q listed)
    obtain ⟨passes, tested⟩ := returns q (.head _)
    refine ⟨if passes then q :: out else out, ?_, ?_, fun p => ?_⟩
    · unfold collect
      rw [tested, run]
      rfl
    · cases passes with
      | true => exact sub.cons_cons q
      | false => exact sub.cons q
    · cases passes with
      | true =>
        simp only [if_true, List.mem_cons, mem]
        constructor
        · rintro (rfl | ⟨listed, test⟩)
          · exact ⟨.inl rfl, tested⟩
          · exact ⟨.inr listed, test⟩
        · rintro ⟨rfl | listed, test⟩
          · exact .inl rfl
          · exact .inr ⟨listed, test⟩
      | false =>
        simp only [Bool.false_eq_true, if_false, List.mem_cons, mem]
        constructor
        · exact fun ⟨listed, test⟩ => ⟨.inr listed, test⟩
        · rintro ⟨rfl | listed, test⟩
          · rw [tested] at test
            cases test
          · exact ⟨listed, test⟩

theorem toNat_candidate_height {tipHeight : UInt64} {i : Nat}
    (small : i < (min uncleBlockDepth (tipHeight + 1)).toNat) :
    i < 3 ∧ i ≤ tipHeight.toNat ∧ (tipHeight - UInt64.ofNat i).toNat = tipHeight.toNat - i := by
  have bound := tipHeight.toNat_lt
  have one : (1 : UInt64).toNat = 1 := rfl
  rw [uint64_toNat_min, show uncleBlockDepth.toNat = 3 from rfl, UInt64.toNat_add, one] at small
  have index : (UInt64.ofNat i).toNat = i := by
    rw [UInt64.toNat_ofNat']
    omega
  refine ⟨by omega, by omega, ?_⟩
  rw [UInt64.toNat_sub_of_le _ _ (by rw [UInt64.le_iff_toNat_le]; omega), index]

theorem candidate_height_iff {tipHeight height forHeight : UInt64} (above : forHeight = tipHeight + 1)
    (near : forHeight ≤ height + uncleBlockDepth) :
    (∃ i < (min uncleBlockDepth (tipHeight + 1)).toNat, height = tipHeight - UInt64.ofNat i) ↔
      height < forHeight := by
  have three : uncleBlockDepth.toNat = 3 := rfl
  have one : (1 : UInt64).toNat = 1 := rfl
  have tipBound := tipHeight.toNat_lt
  have bound := height.toNat_lt
  subst above
  rw [UInt64.le_iff_toNat_le, UInt64.toNat_add, UInt64.toNat_add, three, one] at near
  rw [UInt64.lt_iff_toNat_lt, UInt64.toNat_add, one]
  constructor
  · rintro ⟨i, small, rfl⟩
    obtain ⟨-, low, value⟩ := toNat_candidate_height small
    rw [uint64_toNat_min, UInt64.toNat_add, one] at small
    omega
  · intro below
    have small : tipHeight.toNat - height.toNat < (min uncleBlockDepth (tipHeight + 1)).toNat := by
      rw [uint64_toNat_min, UInt64.toNat_add, three, one]
      omega
    obtain ⟨-, -, value⟩ := toNat_candidate_height small
    refine ⟨tipHeight.toNat - height.toNat, small, ?_⟩
    rw [← UInt64.toNat_inj, value]
    omega

theorem compare_ne_gt_iff (a b : Hash) : Hash.compare a b ≠ .gt ↔ a.toNat ≤ b.toNat := by
  rw [ne_eq, Hash.compare_eq_gt_iff, Nat.not_lt]

theorem unclesSorted_of_pairwise : ∀ {ids : List Hash},
    ids.Pairwise (fun a b => a.toNat < b.toNat) → unclesSorted ids = true
  | [], _ => rfl
  | [_], _ => rfl
  | a :: b :: rest, ordered => by
    obtain ⟨first, others⟩ := List.pairwise_cons.mp ordered
    unfold unclesSorted
    rw [Bool.and_eq_true, beq_iff_eq, Hash.compare_eq_lt_iff]
    exact ⟨first b (.head _), unclesSorted_of_pairwise others⟩

theorem pairwise_insertionSort_ids {ids : List Hash} (distinct : ids.Nodup) :
    (ids.insertionSort fun a b => Hash.compare a b ≠ .gt).Pairwise fun a b => a.toNat < b.toNat := by
  have : Std.Total fun a b : Hash => Hash.compare a b ≠ .gt :=
    ⟨fun a b => by simp only [compare_ne_gt_iff]; omega⟩
  have : IsTrans Hash fun a b => Hash.compare a b ≠ .gt :=
    ⟨fun a b c => by simp only [compare_ne_gt_iff]; omega⟩
  have once : (ids.insertionSort fun a b => Hash.compare a b ≠ .gt).Nodup :=
    (List.perm_insertionSort _ _).nodup_iff.mpr distinct
  refine ((List.pairwise_insertionSort (fun a b : Hash => Hash.compare a b ≠ .gt) ids).and once).imp ?_
  rintro a b ⟨le, ne⟩
  rw [compare_ne_gt_iff] at le
  exact Nat.lt_of_le_of_ne le fun same => ne (BitVec.eq_of_toNat_eq same)

/-! ## What the producer returns -/

section Returns

variable [Crypto] {consensus : Consensus} {s : SideChain}

theorem isPossibleUncle_eq_true_iff {fuel : Nat} {mined : List Hash} {tip u : Ptr} {forHeight : UInt64} :
    s.isPossibleUncle consensus fuel mined tip forHeight u = .ok true ↔
      (s.mem u).verified = true ∧ (s.mem u).invalid = false ∧ s.templateId consensus u ∉ mined ∧
      Related s.view fuel tip forHeight u := by
  unfold isPossibleUncle
  split_ifs with unfit already
  · simp only [Bool.or_eq_true, Bool.not_eq_true'] at unfit
    refine ⟨nofun, fun ⟨verified, valid, _⟩ => ?_⟩
    rcases unfit with unverified | invalid
    · rw [verified] at unverified
      cases unverified
    · rw [valid] at invalid
      cases invalid
  · exact ⟨nofun, fun possible => absurd already possible.2.2.1⟩
  · rw [Bool.or_eq_true, not_or, Bool.not_eq_true', Bool.not_eq_false, Bool.not_eq_true] at unfit
    rw [except_bind_eq_ok]
    constructor
    · rintro ⟨tmp, walk, found⟩
      cases tmp with
      | none => cases found
      | some tmp =>
        dsimp only at found
        split_ifs at found with below
        · cases found
        · exact ⟨unfit.1, unfit.2, already, tmp, walk, below, Except.ok.inj found⟩
    · rintro ⟨-, -, -, tmp, walk, below, same⟩
      exact ⟨some tmp, walk, (if_neg below).trans (congrArg Except.ok same)⟩

theorem isPossibleUncle_returns {fuel : Nat} {tip u : Ptr} (mined : List Hash) (forHeight : UInt64)
    (walk : ∃ r, ancestorAtHeight s.view (s.mem u).side.height fuel (some tip) = .ok r) :
    ∃ r, s.isPossibleUncle consensus fuel mined tip forHeight u = .ok r := by
  obtain ⟨tmp, walk⟩ := walk
  unfold isPossibleUncle
  rw [walk]
  split_ifs
  · exact ⟨_, rfl⟩
  · exact ⟨_, rfl⟩
  · cases tmp with
    | none => exact ⟨_, rfl⟩
    | some tmp =>
      by_cases below : (s.mem tmp).side.height < (s.mem u).side.height
      · exact ⟨_, if_pos below⟩
      · exact ⟨_, if_neg below⟩

theorem mem_uncleCandidates (indexed : Indexed consensus s) {tip u : Ptr} {n : Nat} :
    u ∈ s.uncleCandidates tip n ↔ s.Stored consensus u ∧
      ∃ i < n, (s.mem u).side.height = (s.mem tip).side.height - UInt64.ofNat i := by
  simp only [uncleCandidates, List.mem_flatMap, List.mem_range, indexed.mem_iff]
  constructor
  · rintro ⟨i, bound, stored, height⟩
    exact ⟨stored, i, bound, height⟩
  · rintro ⟨stored, i, bound, height⟩
    exact ⟨i, bound, stored, height⟩

theorem nodup_uncleCandidates (indexed : Indexed consensus s) (tip : Ptr) {n : Nat} (few : n ≤ 3) :
    (s.uncleCandidates tip n).Nodup := by
  refine List.nodup_flatMap.mpr ⟨fun i _ => indexed.once _, ?_⟩
  refine (List.nodup_range (n := n)).pairwise_of_forall_ne fun i hi j hj other p here there => other ?_
  have same := (indexed.listed here).1.symm.trans (indexed.listed there).1
  rw [List.mem_range] at hi hj
  have equal : UInt64.ofNat i = UInt64.ofNat j := by grind
  rw [← UInt64.toNat_inj, UInt64.toNat_ofNat', UInt64.toNat_ofNat'] at equal
  omega

variable {tip : Ptr} {b : PoolBlock} {fuel : Nat}

/-- The producer returns, in order, the ids of the stored blocks that pass the checks of
one uncle and are not in its look-back. -/
theorem getPossibleUncles_spec (indexed : Indexed consensus s)
    (consistent : s.view.ConsistentHeights tip) (above : b.side.height = (s.mem tip).side.height + 1)
    (enough : 3 ≤ fuel) :
    ∃ ids, s.getPossibleUncles consensus fuel tip b.side.height = .ok ids ∧
      ids.Pairwise (fun x y => x.toNat < y.toNat) ∧
      ∀ id, id ∈ ids ↔ ∃ u, s.Stored consensus u ∧ s.templateId consensus u = id ∧
        id ∉ minedBlocks consensus s.view
          (min uncleBlockDepth ((s.mem tip).side.height + 1)).toNat (some tip) ∧
        checkUncle s.view fuel b tip u = .ok () := by
  generalize lookBack : minedBlocks consensus s.view
    (min uncleBlockDepth ((s.mem tip).side.height + 1)).toNat (some tip) = mined
  have few : (min uncleBlockDepth ((s.mem tip).side.height + 1)).toNat ≤ 3 := by
    rw [uint64_toNat_min]
    exact Nat.min_le_left _ _
  have returns : ∀ u ∈ s.uncleCandidates tip (min uncleBlockDepth ((s.mem tip).side.height + 1)).toNat,
      ∃ r, s.isPossibleUncle consensus fuel mined tip b.side.height u = .ok r := by
    intro u listed
    obtain ⟨-, i, small, height⟩ := (mem_uncleCandidates indexed).mp listed
    refine isPossibleUncle_returns mined b.side.height
      (ancestorAtHeight_returns 2 consistent ?_ (by omega))
    obtain ⟨few, low, value⟩ := toNat_candidate_height small
    rw [height, value]
    show (s.mem tip).side.height.toNat ≤ _
    omega
  obtain ⟨out, run, sub, mem⟩ := collect_returns returns
  have stored : ∀ u ∈ out, s.Stored consensus u := fun u listed =>
    ((mem_uncleCandidates indexed).mp ((mem u).mp listed).1).1
  have distinct : (out.map (s.templateId consensus)).Nodup := by
    refine List.Nodup.map_on (fun u hu v hv same => ?_) ((nodup_uncleCandidates indexed tip few).sublist sub)
    have := stored u hu
    rw [Stored, same, stored v hv] at this
    exact (Option.some.inj this).symm
  refine ⟨_, ?_, pairwise_insertionSort_ids distinct, fun id => ?_⟩
  · unfold getPossibleUncles
    dsimp only
    rw [lookBack, run]
    rfl
  · rw [(List.perm_insertionSort _ _).mem_iff, List.mem_map]
    refine exists_congr fun u => ?_
    rw [mem, isPossibleUncle_eq_true_iff, mem_uncleCandidates indexed, checkUncle_eq_ok_iff]
    constructor
    · rintro ⟨⟨⟨stored, candidate⟩, verified, valid, fresh, related⟩, rfl⟩
      exact ⟨stored, rfl, fresh, verified, valid,
        (candidate_height_iff above related.height).mp candidate, related⟩
    · rintro ⟨stored, rfl, fresh, verified, valid, below, related⟩
      exact ⟨⟨⟨stored, (candidate_height_iff above related.height).mpr below⟩, verified, valid, fresh,
        related⟩, rfl⟩

end Returns

/-! ## Agreement -/

section Agreement

variable [Crypto] {consensus : Consensus} {s : SideChain} {tip : Ptr} {b : PoolBlock} {fuel : Nat}

variable (consensus s fuel b tip) in
def AcceptsUncles (ids : List Hash) : Prop :=
  ∃ total, checkUncles s.view fuel b tip
    (minedBlocks consensus s.view (min uncleBlockDepth (b.side.height + 1)).toNat (some tip)) ids
    ((s.mem tip).side.cumulativeDifficulty.add b.side.difficulty) = .ok total

theorem acceptsUncles_iff (indexed : Indexed consensus s) (ids : List Hash) :
    AcceptsUncles consensus s tip b fuel ids ↔ ∀ id ∈ ids, ∃ u, s.Stored consensus u ∧
      s.templateId consensus u = id ∧ id ≠ zeroHash ∧
      id ∉ minedBlocks consensus s.view (min uncleBlockDepth (b.side.height + 1)).toNat (some tip) ∧
      checkUncle s.view fuel b tip u = .ok () := by
  unfold AcceptsUncles
  simp only [checkUncles_eq_ok]
  constructor
  · rintro ⟨total, uncles, each, -⟩ id listed
    obtain ⟨u, -, nonzero, fresh, found, accepted⟩ := forall₂_exists_of_mem_left each listed
    exact ⟨u, indexed.stored found, (indexed.lookup found).1, nonzero, fresh, accepted⟩
  · intro each
    suffices ∃ uncles, List.Forall₂ (fun id u => id ≠ zeroHash ∧
        id ∉ minedBlocks consensus s.view (min uncleBlockDepth (b.side.height + 1)).toNat (some tip) ∧
        s.view.getByTemplateId id = some u ∧ checkUncle s.view fuel b tip u = .ok ()) ids uncles by
      obtain ⟨uncles, all⟩ := this
      exact ⟨_, uncles, all, rfl⟩
    induction ids with
    | nil => exact ⟨[], .nil⟩
    | cons id ids ih =>
      obtain ⟨u, stored, rfl, nonzero, fresh, accepted⟩ := each id (.head _)
      obtain ⟨uncles, all⟩ := ih fun id listed => each id (.tail _ listed)
      exact ⟨u :: uncles, .cons ⟨nonzero, fresh, stored, accepted⟩ all⟩

theorem minedBlocks_checker (consistent : s.view.ConsistentHeights tip)
    (above : b.side.height = (s.mem tip).side.height + 1) (notLast : (s.mem tip).side.height ≠ 0 - 1)
    (noWrap : (s.mem tip).side.height ≠ 0 - 2) :
    minedBlocks consensus s.view (min uncleBlockDepth (b.side.height + 1)).toNat (some tip) =
      minedBlocks consensus s.view (min uncleBlockDepth ((s.mem tip).side.height + 1)).toNat (some tip) := by
  have three : uncleBlockDepth.toNat = 3 := rfl
  have one : (1 : UInt64).toNat = 1 := rfl
  have bound := (s.mem tip).side.height.toNat_lt
  rw [ne_eq, ← UInt64.toNat_inj] at notLast noWrap
  have last : (0 - 1 : UInt64).toNat = 2 ^ 64 - 1 := rfl
  have wrap : (0 - 2 : UInt64).toNat = 2 ^ 64 - 2 := rfl
  rw [above, uint64_toNat_min, uint64_toNat_min, UInt64.toNat_add, UInt64.toNat_add, three, one]
  by_cases high : 2 ≤ (s.mem tip).side.height.toNat
  · congr 1
    omega
  · -- close to genesis the longer bound finds nothing more
    rw [show min 3 ((((s.mem tip).side.height.toNat + 1) % 2 ^ 64 + 1) % 2 ^ 64) =
        (s.mem tip).side.height.toNat + 1 + 1 by omega,
      show min 3 (((s.mem tip).side.height.toNat + 1) % 2 ^ 64) = (s.mem tip).side.height.toNat + 1 by omega]
    exact minedBlocks_of_height_lt _ 1 consistent (Nat.lt_succ_self _)

theorem minedBlocks_cases (consistent : s.view.ConsistentHeights tip)
    (above : b.side.height = (s.mem tip).side.height + 1) {u : Ptr}
    (accepted : checkUncle s.view fuel b tip u = .ok ()) :
    minedBlocks consensus s.view (min uncleBlockDepth (b.side.height + 1)).toNat (some tip) =
        minedBlocks consensus s.view (min uncleBlockDepth ((s.mem tip).side.height + 1)).toNat (some tip) ∨
      ((s.mem tip).side.height = 0 - 2 ∧
        minedBlocks consensus s.view (min uncleBlockDepth (b.side.height + 1)).toNat (some tip) = []) := by
  have notLast : (s.mem tip).side.height ≠ 0 - 1 := by
    intro last
    -- the height of the block would be zero, and nothing is below it
    have below := (checkUncle_eq_ok_iff.mp accepted).2.2.1
    rw [above, last, show (0 - 1 + 1 : UInt64) = 0 from rfl, UInt64.lt_iff_toNat_lt] at below
    exact absurd below (Nat.not_lt_zero _)
  by_cases wraps : (s.mem tip).side.height = 0 - 2
  · refine .inr ⟨wraps, ?_⟩
    rw [above, wraps]
    rfl
  · exact .inl (minedBlocks_checker consistent above notLast wraps)

/-- Where the two functions differ: the look-back of the checker is empty because its
bound has wrapped around, or a stored block has the id that stands for no block. -/
def Disagrees (consensus : Consensus) (s : SideChain) (fuel : Nat) (b : PoolBlock) (tip u : Ptr) : Prop :=
  s.Stored consensus u ∧ checkUncle s.view fuel b tip u = .ok () ∧
    (((s.mem tip).side.height = 0 - 2 ∧ s.templateId consensus u ≠ zeroHash ∧
        s.templateId consensus u ∈ minedBlocks consensus s.view uncleBlockDepth.toNat (some tip)) ∨
      (s.templateId consensus u = zeroHash ∧
        zeroHash ∉ minedBlocks consensus s.view
          (min uncleBlockDepth ((s.mem tip).side.height + 1)).toNat (some tip)))

variable (consensus s fuel b tip) in
/-- The producer offers exactly the stored blocks that the checker accepts as an uncle of
`b`, and everything it returns, taken together, passes the checks. -/
def UnclesAgree : Prop :=
  ∃ ids, s.getPossibleUncles consensus fuel tip b.side.height = .ok ids ∧
    (∀ u, s.Stored consensus u →
      (s.templateId consensus u ∈ ids ↔
        AcceptsUncles consensus s tip b fuel [s.templateId consensus u])) ∧
    unclesSorted ids = true ∧ AcceptsUncles consensus s tip b fuel ids

/-- Producer and checker agree if and only if there is no block on which they differ. -/
theorem unclesAgree_iff (indexed : Indexed consensus s)
    (consistent : s.view.ConsistentHeights tip) (above : b.side.height = (s.mem tip).side.height + 1)
    (enough : 3 ≤ fuel) :
    UnclesAgree consensus s tip b fuel ↔ ∀ u, ¬ Disagrees consensus s fuel b tip u := by
  obtain ⟨ids, run, ordered, mem⟩ := getPossibleUncles_spec indexed consistent above enough
  have same : ∀ {u v}, s.Stored consensus u → s.Stored consensus v →
      s.templateId consensus u = s.templateId consensus v → u = v := by
    intro u v storedU storedV named
    rw [Stored, named, storedV] at storedU
    exact (Option.some.inj storedU).symm
  constructor
  · rintro ⟨ids', run', agree, -, -⟩ u ⟨stored, accepted, differs⟩
    rw [run] at run'
    cases run'
    have offered := (agree u stored).trans (acceptsUncles_iff indexed _)
    rcases differs with ⟨wraps, nonzero, mined⟩ | ⟨zero, fresh⟩
    · -- accepted with an empty look-back, and left out by the producer
      have found : s.templateId consensus u ∈ ids := by
        refine offered.mpr fun id listed => ?_
        rw [List.mem_singleton.mp listed]
        refine ⟨u, stored, rfl, nonzero, ?_, accepted⟩
        rw [above, wraps]
        exact List.not_mem_nil
      obtain ⟨v, storedV, named, fresh, -⟩ := (mem _).mp found
      rw [wraps] at fresh
      exact fresh mined
    · have found := (mem _).mpr ⟨u, stored, rfl, zero ▸ fresh, accepted⟩
      obtain ⟨v, -, -, nonzero, -⟩ := offered.mp found _ (List.mem_singleton_self _)
      exact nonzero zero
  · intro agree
    have offered : ∀ id ∈ ids, ∃ u, s.Stored consensus u ∧ s.templateId consensus u = id ∧
        id ≠ zeroHash ∧ id ∉ minedBlocks consensus s.view
          (min uncleBlockDepth (b.side.height + 1)).toNat (some tip) ∧
        checkUncle s.view fuel b tip u = .ok () := by
      intro id listed
      obtain ⟨u, stored, rfl, fresh, accepted⟩ := (mem id).mp listed
      refine ⟨u, stored, rfl, fun zero => agree u ⟨stored, accepted, .inr ⟨zero, zero ▸ fresh⟩⟩, ?_, accepted⟩
      rcases minedBlocks_cases consistent above accepted with equal | ⟨-, empty⟩
      · rwa [equal]
      · rw [empty]
        exact List.not_mem_nil
    refine ⟨ids, run, fun u stored => ⟨fun listed => ?_, fun accepts => ?_⟩,
      unclesSorted_of_pairwise ordered, (acceptsUncles_iff indexed ids).mpr offered⟩
    · refine (acceptsUncles_iff indexed _).mpr fun id single => ?_
      rw [List.mem_singleton.mp single]
      exact offered _ listed
    · obtain ⟨v, storedV, named, nonzero, fresh, accepted⟩ :=
        (acceptsUncles_iff indexed _).mp accepts _ (List.mem_singleton_self _)
      obtain rfl := same storedV stored named
      refine (mem _).mpr ⟨v, stored, rfl, fun mined => ?_, accepted⟩
      rcases minedBlocks_cases consistent above accepted with equal | ⟨wraps, -⟩
      · exact fresh (equal ▸ mined)
      · refine agree v ⟨stored, accepted, .inl ⟨wraps, nonzero, ?_⟩⟩
        rwa [wraps] at mined

end Agreement

namespace HighestExample

open LongChain (crypto)
open LadderExample (consensus block templateIdAt missing addAll early)

/-- A ladder of blocks at low heights, which makes the block at height 1 deep. -/
def rung (k : Nat) : PoolBlock :=
  block (10 + k) (UInt64.ofNat (4 + 3 * k)) missing
    [if k = 0 then templateIdAt 2 else templateIdAt (9 + k)] 1 1

def deep : PoolBlock := block 2 1 missing [] 1 1
def tip : PoolBlock := block 3 (0 - 2) (templateIdAt 4) [] 1 1
def parent : PoolBlock := block 4 (0 - 3) (templateIdAt 5) [] 1 1
def grandparent : PoolBlock := block 5 (0 - 4) missing [] 1 1

def child : PoolBlock := block 6 (0 - 1) (templateIdAt 3) [templateIdAt 5] 1 1

/-- The highest blocks come last: the heights above them wrap around to the deep block. -/
def blocks : List PoolBlock :=
  (List.range 41).reverse.map rung ++ [deep, rung 41, tip, parent, grandparent]

def observed : Except Fault SideChain → Bool
  | .error _ => false
  | .ok s =>
    (s.mem 43).verified && !(s.mem 43).invalid &&
    decide (s.view.iteratorGetParent 43 = some 44) && decide (s.view.iteratorGetParent 44 = some 45) &&
    decide (s.view.iteratorGetParent 45 = none) &&
    decide ((s.mem 43).side.height = 0 - 2) && decide ((s.mem 44).side.height = 0 - 3) &&
    decide ((s.mem 45).side.height = 0 - 4) &&
    decide (@Stored crypto consensus s 45) &&
    decide (@templateId crypto consensus s 45 ≠ zeroHash) &&
    decide (@templateId crypto consensus s 45 ∈ @minedBlocks crypto consensus s.view 3 (some 43)) &&
    decide (checkUncle s.view 3 child 43 45 = .ok ())

set_option maxRecDepth 100000 in
theorem observed_blocks : observed (addAll early (newSideChain consensus) blocks) = true := by
  decide +kernel

theorem decoded_of_mem {b : PoolBlock} (mem : b ∈ blocks) : b.Decoded := by
  rcases List.mem_append.mp mem with isRung | isOther
  · obtain ⟨k, -, rfl⟩ := List.mem_map.mp isRung
    exact LadderExample.decoded_block _ _ _ _ _ _
  · simp only [List.mem_cons, List.not_mem_nil, or_false] at isOther
    rcases isOther with rfl | rfl | rfl | rfl | rfl <;> exact LadderExample.decoded_block _ _ _ _ _ _

/-- Three blocks in a row at the highest heights, of which the lowest is accepted as an
uncle of a block on top although it is an ancestor. -/
theorem of_observed {run : Except Fault SideChain}
    (built : addAll early (newSideChain consensus) blocks = run) (seen : observed run = true) :
    ∃ s, @Reachable .exact crypto consensus s ∧
    (s.mem 43).verified = true ∧ (s.mem 43).invalid = false ∧ s.view.ConsistentHeights 43 ∧
    child.side.height = (s.mem 43).side.height + 1 ∧ @Stored crypto consensus s 45 ∧
    checkUncle s.view 3 child 43 45 = .ok () ∧ (s.mem 43).side.height = 0 - 2 ∧
    @templateId crypto consensus s 45 ≠ zeroHash ∧
    @templateId crypto consensus s 45 ∈ @minedBlocks crypto consensus s.view uncleBlockDepth.toNat (some 43) := by
  cases run with
  | error fault => cases seen
  | ok s =>
    simp only [observed, Bool.and_eq_true, decide_eq_true_eq, Bool.not_eq_true'] at seen
    obtain ⟨⟨⟨⟨⟨⟨⟨⟨⟨⟨⟨verified, valid⟩, first⟩, second⟩, third⟩, h43⟩, h44⟩, h45⟩, stored⟩, nonzero⟩,
      mined⟩, accepted⟩ := seen
    refine ⟨s, LadderExample.reachable_addAll (@ReachableWhen.new .exact crypto consensus _)
      (fun b mem => decoded_of_mem mem) built, verified, valid, ?_, ?_,
      stored, accepted, h43, nonzero, mined⟩
    · have chain : ∀ q, Relation.ReflTransGen s.view.IsParent 43 q → q = 43 ∨ q = 44 ∨ q = 45 := by
        intro q reach
        induction reach with
        | refl => exact .inl rfl
        | tail _ link ih =>
          rcases ih with rfl | rfl | rfl
          · rw [View.IsParent, first] at link
            exact .inr (.inl (Option.some.inj link).symm)
          · rw [View.IsParent, second] at link
            exact .inr (.inr (Option.some.inj link).symm)
          · rw [View.IsParent, third] at link
            cases link
      intro q r reach link
      rcases chain q reach with rfl | rfl | rfl
      · rw [View.IsParent, first] at link
        cases link
        show (s.mem 44).side.height.toNat + 1 = (s.mem 43).side.height.toNat
        rw [h43, h44]
        rfl
      · rw [View.IsParent, second] at link
        cases link
        show (s.mem 45).side.height.toNat + 1 = (s.mem 44).side.height.toNat
        rw [h44, h45]
        rfl
      · rw [View.IsParent, third] at link
        cases link
    · rw [h43]
      rfl

end HighestExample

open LongChain (crypto)
open LadderExample (consensus)

/-- A reachable state in which the checker accepts a block that is already in the chain of
the tip, and the producer does not offer it. -/
theorem mined_block_accepted : ∃ (s : SideChain) (tip u : Ptr) (b : PoolBlock) (ids : List Hash),
    @Reachable .exact crypto consensus s ∧
    (s.mem tip).verified = true ∧ (s.mem tip).invalid = false ∧ s.view.ConsistentHeights tip ∧
    b.side.height = (s.mem tip).side.height + 1 ∧
    @Stored crypto consensus s u ∧
    @getPossibleUncles crypto consensus s 3 tip b.side.height = .ok ids ∧
    @templateId crypto consensus s u ∉ ids ∧
    @AcceptsUncles crypto consensus s tip b 3
      [@templateId crypto consensus s u] := by
  obtain ⟨s, reachable, verified, valid, consistent, above, stored, accepted, wraps, nonzero, mined⟩ :=
    HighestExample.of_observed rfl HighestExample.observed_blocks
  have indexed := @indexed_reachable .exact crypto _ _ _ reachable
  obtain ⟨ids, run, -, mem⟩ :=
    @getPossibleUncles_spec crypto _ _ _ _ 3 indexed consistent above (Nat.le_refl 3)
  refine ⟨s, 43, 45, HighestExample.child, ids, reachable, verified, valid, consistent, above, stored,
    run, fun listed => ?_, ?_⟩
  · obtain ⟨-, -, -, fresh, -⟩ := (mem _).mp listed
    rw [wraps] at fresh
    exact fresh mined
  · refine (@acceptsUncles_iff crypto _ _ _ _ _ indexed _).mpr fun id single => ?_
    rw [List.mem_singleton.mp single]
    refine ⟨45, stored, rfl, nonzero, ?_, accepted⟩
    rw [above, wraps]
    exact List.not_mem_nil

theorem unclesAgree_iff_highest : ∃ s : SideChain,
    @Reachable .exact crypto consensus s ∧ s.view.ConsistentHeights 43 ∧
    HighestExample.child.side.height = (s.mem 43).side.height + 1 ∧
    ¬ @UnclesAgree crypto consensus s 43 HighestExample.child 3 := by
  obtain ⟨s, reachable, -, -, consistent, above, stored, accepted, wraps, nonzero, mined⟩ :=
    HighestExample.of_observed rfl HighestExample.observed_blocks
  have indexed := @indexed_reachable .exact crypto _ _ _ reachable
  refine ⟨s, reachable, consistent, above, fun agree => ?_⟩
  exact (@unclesAgree_iff crypto _ _ _ _ _ indexed consistent above
    (Nat.le_refl 3)).mp agree 45 ⟨stored, accepted, .inl ⟨wraps, nonzero, mined⟩⟩

end SideChain

end P2PoolObserver
