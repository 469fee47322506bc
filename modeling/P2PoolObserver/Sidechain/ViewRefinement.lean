/-
# Sidechain.ViewRefinement -- walks that see the same data return the same result

The walks of the source read blocks through a `View`: an object's parent and uncles, its
side data and its timestamp.  `V.Covers W Same` says that whatever a walk finds in `V` it
also finds in `W`, in an object that holds the same data.  Then every walk that succeeds
in `V` succeeds in `W` with the same result.
-/
import P2PoolObserver.Sidechain.NextDifficulty
import P2PoolObserver.Sidechain.LongerChain
import Mathlib.Data.Option.Basic

namespace P2PoolObserver

open Lib

/-- `W` holds all that `V` holds, up to the objects related by `Same`. -/
structure View.Covers (V W : View) (Same : Ptr → Ptr → Prop) : Prop where
  side : ∀ {p q}, Same p q → (W.block q).side = (V.block p).side
  timestamp : ∀ {p q}, Same p q → (W.block q).main.timestamp = (V.block p).main.timestamp
  parent : ∀ {p q r}, Same p q → V.iteratorGetParent p = some r →
    ∃ r', W.iteratorGetParent q = some r' ∧ Same r r'
  uncles : ∀ {p q}, Same p q → (V.iteratorUncles p).missing = none →
    (W.iteratorUncles q).missing = none ∧
      List.Forall₂ Same (V.iteratorUncles p).visited (W.iteratorUncles q).visited

/-! ## Weights -/

def SameCall (Same : Ptr → Ptr → Prop) (a b : WeightCall) : Prop :=
  Same a.block b.block ∧ a.weight = b.weight

/-- Scans that have counted the same, over related blocks. -/
structure SameScan (Same : Ptr → Ptr → Prop) (s t : UncleScan) : Prop where
  curWeight : t.curWeight = s.curWeight
  pplnsWeight : t.pplnsWeight = s.pplnsWeight
  calls : List.Forall₂ (SameCall Same) s.calls t.calls

section Scan

variable [Uint128Package] {V W : View} {Same : Ptr → Ptr → Prop}
  (sides : ∀ {p q}, Same p q → (W.block q).side = (V.block p).side)
  (consensus : Consensus) {tip tip' : Ptr} (sameTip : Same tip tip')

include sides sameTip

theorem sameScan_scanUncle {limit : Difficulty} {s t : UncleScan} (scans : SameScan Same s t) {u v : Ptr}
    (same : Same u v) : SameScan Same (scanUncle V consensus tip limit s u)
      (scanUncle W consensus tip' limit t v) := by
  obtain ⟨curWeight, pplnsWeight, calls⟩ := scans
  unfold scanUncle
  rw [sides sameTip, sides same, curWeight, pplnsWeight]
  split_ifs
  · exact ⟨curWeight, pplnsWeight, calls⟩
  · dsimp only
    split_ifs
    · exact ⟨curWeight, pplnsWeight, calls⟩
    · exact ⟨rfl, rfl, List.rel_append calls (.cons ⟨same, rfl⟩ .nil)⟩

theorem sameScan_foldl (limit : Difficulty) {us vs : List Ptr} (uncles : List.Forall₂ Same us vs) :
    ∀ {s t : UncleScan}, SameScan Same s t → SameScan Same (us.foldl (scanUncle V consensus tip limit) s)
      (vs.foldl (scanUncle W consensus tip' limit) t) := by
  induction uncles with
  | nil => exact fun scans => scans
  | cons same _ ih => exact fun scans => ih (sameScan_scanUncle sides consensus sameTip scans same)

end Scan

section Window

variable [Uint128Package] {V W : View} {Same : Ptr → Ptr → Prop} (covers : V.Covers W Same)
  (consensus : Consensus) {tip : Ptr} (sameTip : Same tip tip)

/-! ## The PPLNS window -/

def Refines (Same : Ptr → Ptr → Prop) (run run' : WindowRun UInt64) : Prop :=
  ∀ bottom, run.result = .ok bottom →
    run'.result = .ok bottom ∧ List.Forall₂ (SameCall Same) run.calls run'.calls

omit [Uint128Package] in
theorem refines_ok {calls calls' : List WeightCall} (made : List.Forall₂ (SameCall Same) calls calls')
    (bottom : UInt64) : Refines Same ⟨calls, .ok bottom⟩ ⟨calls', .ok bottom⟩ :=
  fun _ ok => ⟨ok, made⟩

omit [Uint128Package] in
theorem refines_error (calls : List WeightCall) (e : WindowError) (run' : WindowRun UInt64) :
    Refines Same ⟨calls, .error e⟩ run' := nofun

include covers sameTip in
theorem blocksLoop_covers (limit : Difficulty) : ∀ (remaining : Nat) {p q : Ptr} {weight : Difficulty}
    {calls calls' : List WeightCall}, Same p q → List.Forall₂ (SameCall Same) calls calls' →
      Refines Same (blocksLoop V consensus tip limit remaining p weight calls)
        (blocksLoop W consensus tip limit remaining q weight calls')
  | remaining, p, q, weight, calls, calls', same, made => by
    unfold blocksLoop
    dsimp only
    cases found : (V.iteratorUncles p).missing with
    | some id => exact refines_error _ _ _
    | none =>
      obtain ⟨found', uncles⟩ := covers.uncles same found
      have start : SameScan Same ⟨(V.block p).side.difficulty, weight, calls⟩
          ⟨(W.block q).side.difficulty, weight, calls'⟩ :=
        ⟨congrArg SideData.difficulty (covers.side same), rfl, made⟩
      have scans := sameScan_foldl covers.side consensus sameTip limit uncles start
      rw [found']
      generalize List.foldl (scanUncle V consensus tip limit) _ _ = scan at scans ⊢
      generalize List.foldl (scanUncle W consensus tip limit) _ _ = scan' at scans ⊢
      obtain ⟨curWeight, pplnsWeight, scanned⟩ := scans
      have added : List.Forall₂ (SameCall Same) (scan.calls ++ [⟨p, scan.curWeight⟩])
          (scan'.calls ++ [⟨q, scan.curWeight⟩]) :=
        List.rel_append scanned (.cons ⟨same, rfl⟩ .nil)
      dsimp only
      rw [curWeight, pplnsWeight, covers.side same]
      by_cases full : (scan.pplnsWeight.add scan.curWeight).cmp limit = .gt
      · rw [if_pos full, if_pos full]
        exact refines_ok added _
      · rw [if_neg full, if_neg full]
        cases remaining with
        | zero => exact refines_ok added _
        | succ remaining =>
          dsimp only
          by_cases genesis : (V.block p).side.height = 0
          · rw [if_pos genesis, if_pos genesis]
            exact refines_ok added _
          · rw [if_neg genesis, if_neg genesis]
            cases parent : V.iteratorGetParent p with
            | none => exact refines_error _ _ _
            | some r =>
              obtain ⟨r', parent', next⟩ := covers.parent same parent
              rw [parent']
              exact blocksLoop_covers limit remaining next added

include covers sameTip in
theorem blocksInPPLNSWindow_covers (main : (W.block tip).main = (V.block tip).main)
    (version : (W.block tip).cachedShareVersion = (V.block tip).cachedShareVersion)
    (difficultyByHeight : UInt64 → Difficulty) :
    Refines Same (blocksInPPLNSWindow V consensus tip difficultyByHeight)
      (blocksInPPLNSWindow W consensus tip difficultyByHeight) := by
  have limit : ∀ mainchain, maxPplnsWeight W tip mainchain = maxPplnsWeight V tip mainchain := by
    intro mainchain
    unfold maxPplnsWeight PoolBlock.shareVersion
    rw [version]
  have diff : mainchainDiff W tip difficultyByHeight = mainchainDiff V tip difficultyByHeight := by
    unfold mainchainDiff
    rw [covers.side sameTip, main]
  unfold blocksInPPLNSWindow
  rw [diff]
  cases mainchainDiff V tip difficultyByHeight with
  | error e => exact refines_error _ _ _
  | ok mainchain =>
    dsimp only
    rw [limit]
    exact blocksLoop_covers covers consensus sameTip _ _ sameTip .nil

/-! ## The difficulty of the next block -/

omit [Uint128Package] in
include covers in
theorem difficultyEntry_covers {p q : Ptr} (same : Same p q) : difficultyEntry W q = difficultyEntry V p := by
  unfold difficultyEntry
  rw [covers.side same, covers.timestamp same]

omit [Uint128Package] in
include covers sameTip in
theorem windowUncles_covers {p q : Ptr} (same : Same p q) (found : (V.iteratorUncles p).missing = none) :
    (windowUncles consensus W tip q).map (difficultyEntry W) =
      (windowUncles consensus V tip p).map (difficultyEntry V) := by
  obtain ⟨-, uncles⟩ := covers.uncles same found
  unfold windowUncles
  rw [covers.side sameTip]
  generalize (V.iteratorUncles p).visited = us at uncles
  generalize (W.iteratorUncles q).visited = vs at uncles
  induction uncles with
  | nil => rfl
  | cons first _ ih =>
    simp only [List.filter_cons, covers.side first]
    split_ifs
    · rw [List.map_cons, List.map_cons, ih, difficultyEntry_covers covers first]
    · exact ih

omit [Uint128Package] in
include covers sameTip in
theorem difficultyLoop_covers : ∀ (remaining : Nat) {p q : Ptr} {data result : List DifficultyData},
    Same p q → difficultyLoop consensus V tip remaining p data = .ok result →
      difficultyLoop consensus W tip remaining q data = .ok result
  | remaining, p, q, data, result, same, run => by
    unfold difficultyLoop at run ⊢
    dsimp only at run ⊢
    cases found : (V.iteratorUncles p).missing with
    | some id =>
      rw [found] at run
      cases run
    | none =>
      rw [found] at run
      rw [(covers.uncles same found).1, difficultyEntry_covers covers same,
        windowUncles_covers covers consensus sameTip same found, covers.side same]
      cases remaining with
      | zero => exact run
      | succ remaining =>
        dsimp only at run ⊢
        by_cases genesis : (V.block p).side.height = 0
        · rw [if_pos genesis] at run ⊢
          exact run
        · rw [if_neg genesis] at run ⊢
          cases parent : V.iteratorGetParent p with
          | none =>
            rw [parent] at run
            cases run
          | some r =>
            obtain ⟨r', parent', next⟩ := covers.parent same parent
            rw [parent] at run
            rw [parent']
            exact difficultyLoop_covers remaining next run

include covers sameTip in
theorem getDifficultyForNextBlock_covers {result : Except DifficultyError Difficulty}
    (collected : ∀ e, result ≠ .error (.verify e)) (run : getDifficultyForNextBlock consensus V tip = result) :
    getDifficultyForNextBlock consensus W tip = result := by
  unfold getDifficultyForNextBlock at run ⊢
  cases loop : difficultyLoop consensus V tip (consensus.chainWindowSize.toNat - 1) tip [] with
  | error e =>
    rw [loop] at run
    exact absurd run.symm (collected e)
  | ok data =>
    rw [loop] at run
    rw [difficultyLoop_covers covers consensus sameTip _ sameTip loop]
    exact run

end Window

/-! ## Walks to a common ancestor -/

section Ancestors

variable {V W : View} {Same : Ptr → Ptr → Prop} (covers : V.Covers W Same)

include covers in
theorem ancestorAtHeight_covers {height : UInt64} : ∀ {fuel : Nat} {p q r : Ptr}, Same p q →
    ancestorAtHeight V height fuel (some p) = .ok (some r) →
      ∃ r', ancestorAtHeight W height fuel (some q) = .ok (some r') ∧ Same r r'
  | 0, _, _, _, _, run => nomatch run
  | fuel + 1, p, q, r, same, run => by
    unfold ancestorAtHeight at run ⊢
    rw [covers.side same]
    split_ifs at run ⊢ with above
    · cases parent : V.iteratorGetParent p with
      | none =>
        rw [parent] at run
        cases fuel <;> cases run
      | some u =>
        obtain ⟨u', parent', next⟩ := covers.parent same parent
        rw [parent] at run
        rw [parent']
        exact ancestorAtHeight_covers next run
    · cases run
      exact ⟨q, rfl, same⟩

include covers in
theorem haveCommonAncestor_covers : ∀ {fuel : Nat} {a a' b b' : Ptr}, Same a a' → Same b b' →
    haveCommonAncestor V fuel (some a) (some b) = .ok true →
      haveCommonAncestor W fuel (some a') (some b') = .ok true
  | 0, _, _, _, _, _, _, run => nomatch run
  | fuel + 1, a, a', b, b', sameA, sameB, run => by
    unfold haveCommonAncestor at run ⊢
    rw [covers.side sameA, covers.side sameB]
    split_ifs at run ⊢ with meet
    · rfl
    · cases parentA : V.iteratorGetParent a with
      | none =>
        rw [parentA] at run
        cases fuel <;> cases run
      | some u =>
        cases parentB : V.iteratorGetParent b with
        | none =>
          rw [parentA, parentB] at run
          cases fuel <;> cases run
        | some v =>
          obtain ⟨u', parentA', nextA⟩ := covers.parent sameA parentA
          obtain ⟨v', parentB', nextB⟩ := covers.parent sameB parentB
          rw [parentA, parentB] at run
          rw [parentA', parentB']
          exact haveCommonAncestor_covers nextA nextB run

include covers in
theorem haveSameRoot_covers {fuel : Nat} {a a' b b' : Ptr} (sameA : Same a a') (sameB : Same b b')
    (run : haveSameRoot V fuel a b = .ok true) : haveSameRoot W fuel a' b' = .ok true := by
  unfold haveSameRoot at run ⊢
  obtain ⟨ancestor, walk, run⟩ := except_bind_eq_ok.mp run
  cases ancestor with
  | none => cases run
  | some ancestor =>
    obtain ⟨ancestor', walk', sameAncestor⟩ := ancestorAtHeight_covers covers sameA walk
    obtain ⟨other, walkB, run⟩ := except_bind_eq_ok.mp run
    cases other with
    | none => cases fuel <;> cases run
    | some other =>
      obtain ⟨other', walkB', sameOther⟩ := ancestorAtHeight_covers covers sameB walkB
      rw [covers.side sameB, walk']
      show (ancestorAtHeight W _ fuel _ >>= _) = _
      rw [covers.side sameAncestor, walkB']
      exact haveCommonAncestor_covers covers sameAncestor sameOther run

/-! ### Chains that are known down to their root -/

inductive View.Rooted (V : View) : Ptr → Prop
  | root {p : Ptr} (orphan : (V.block p).side.parent = zeroHash) (last : V.iteratorGetParent p = none) :
      V.Rooted p
  | child {p q : Ptr} (parent : V.iteratorGetParent p = some q) (rooted : V.Rooted q) : V.Rooted p

/-- Blocks of the same data, with a chain that is known down to its root. -/
def Linked (V : View) (Same : Ptr → Ptr → Prop) (p q : Ptr) : Prop := Same p q ∧ V.Rooted p

variable (roots : ∀ {p q}, Same p q → (V.block p).side.parent = zeroHash →
  V.iteratorGetParent p = none → W.iteratorGetParent q = none)

include covers roots in
theorem linked_parent {p q : Ptr} (linked : Linked V Same p q) :
    Option.Rel (Linked V Same) (V.iteratorGetParent p) (W.iteratorGetParent q) := by
  obtain ⟨same, rooted⟩ := linked
  cases rooted with
  | root orphan last =>
    rw [last, roots same orphan last]
    exact .none
  | child parent rooted =>
    obtain ⟨r, parent', next⟩ := covers.parent same parent
    rw [parent, parent']
    exact .some ⟨next, rooted⟩

include covers roots in
theorem linked_ancestorAtHeight (height : UInt64) : ∀ (fuel : Nat) {a a' : Option Ptr},
    Option.Rel (Linked V Same) a a' →
      (∃ e, ancestorAtHeight V height fuel a = .error e ∧ ancestorAtHeight W height fuel a' = .error e) ∨
      ∃ r r', ancestorAtHeight V height fuel a = .ok r ∧ ancestorAtHeight W height fuel a' = .ok r' ∧
        Option.Rel (Linked V Same) r r'
  | fuel, none, none, .none => .inr ⟨none, none, by cases fuel <;> rfl, by cases fuel <;> rfl, .none⟩
  | 0, some _, some _, .some _ => .inl ⟨_, rfl, rfl⟩
  | fuel + 1, some p, some q, .some linked => by
    unfold ancestorAtHeight
    rw [covers.side linked.1]
    split_ifs
    · exact linked_ancestorAtHeight height fuel (linked_parent covers roots linked)
    · exact .inr ⟨_, _, rfl, rfl, .some linked⟩

include covers roots in
theorem haveCommonAncestor_linked : ∀ (fuel : Nat) {a a' b b' : Option Ptr},
    Option.Rel (Linked V Same) a a' → Option.Rel (Linked V Same) b b' →
      haveCommonAncestor W fuel a' b' = haveCommonAncestor V fuel a b
  | fuel, none, none, _, _, .none, _ => by cases fuel <;> rfl
  | fuel, some _, some _, none, none, .some _, .none => by cases fuel <;> rfl
  | 0, some _, some _, some _, some _, .some _, .some _ => rfl
  | fuel + 1, some _, some _, some _, some _, .some linkedA, .some linkedB => by
    unfold haveCommonAncestor
    rw [covers.side linkedA.1, covers.side linkedB.1]
    split_ifs
    · rfl
    · exact haveCommonAncestor_linked fuel (linked_parent covers roots linkedA)
        (linked_parent covers roots linkedB)

include covers roots in
theorem haveSameRoot_linked (fuel : Nat) {a a' b b' : Ptr} (linkedA : Linked V Same a a')
    (linkedB : Linked V Same b b') : haveSameRoot W fuel a' b' = haveSameRoot V fuel a b := by
  unfold haveSameRoot
  rw [covers.side linkedB.1]
  rcases linked_ancestorAtHeight covers roots _ fuel (.some linkedA) with
    ⟨e, walk, walk'⟩ | ⟨r, r', walk, walk', rel⟩
  · rw [walk, walk']
    rfl
  · rw [walk, walk']
    cases rel with
    | none => rfl
    | some linked =>
      show (ancestorAtHeight W _ fuel _ >>= _) = (ancestorAtHeight V _ fuel _ >>= _)
      rw [covers.side linked.1]
      rcases linked_ancestorAtHeight covers roots _ fuel (.some linkedB) with
        ⟨e, walkB, walkB'⟩ | ⟨o, o', walkB, walkB', relB⟩
      · rw [walkB, walkB']
        rfl
      · rw [walkB, walkB']
        exact haveCommonAncestor_linked covers roots fuel (.some linked) relB

end Ancestors

end P2PoolObserver
