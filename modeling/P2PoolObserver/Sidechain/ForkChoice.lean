/-
# Sidechain.ForkChoice -- the comparison of two tips does not depend on their roles

`isLongerChain` walks its two arguments differently: first the current tip down
to the candidate, then the candidate down to the current tip, then both.  When
heights fall by one from child to parent the order does not matter
(`haveSameRoot_comm`).
-/
import P2PoolObserver.Sidechain.LongerChain
import Mathlib.Logic.Relation

namespace P2PoolObserver

open Lib
open Relation (ReflTransGen)

/-- `q` is the parent of `p` as the walks find it, through the cache or the store. -/
def View.IsParent (V : View) (p q : Ptr) : Prop := V.iteratorGetParent p = some q

/-- Every ancestor that can be reached from `p` sits one height below its child. -/
def View.ConsistentHeights (V : View) (p : Ptr) : Prop :=
  ∀ q r, ReflTransGen V.IsParent p q → V.IsParent q r →
    (V.block r).side.height.toNat + 1 = (V.block q).side.height.toNat

section Walks

variable {V : View}

theorem View.ConsistentHeights.parent {p q : Ptr} (consistent : V.ConsistentHeights p)
    (parent : V.IsParent p q) : V.ConsistentHeights q :=
  fun r t reach => consistent r t (ReflTransGen.head parent reach)

theorem View.ConsistentHeights.height {p q : Ptr} (consistent : V.ConsistentHeights p)
    (parent : V.IsParent p q) : (V.block q).side.height.toNat + 1 = (V.block p).side.height.toNat :=
  consistent p q .refl parent

theorem ancestorAtHeight_of_le {height : UInt64} {fuel : Nat} {p : Ptr}
    (low : (V.block p).side.height ≤ height) :
    ancestorAtHeight V height (fuel + 1) (some p) = .ok (some p) := by
  rw [ancestorAtHeight, if_neg (UInt64.not_lt.mpr low)]

theorem ancestorAtHeight_height {height : UInt64} : ∀ {fuel : Nat} {p q : Ptr},
    V.ConsistentHeights p → height ≤ (V.block p).side.height →
      ancestorAtHeight V height fuel (some p) = .ok (some q) →
        (V.block q).side.height = height ∧ V.ConsistentHeights q
  | 0, _, _, _, _, run => nomatch run
  | fuel + 1, p, q, consistent, start, run => by
    unfold ancestorAtHeight at run
    split_ifs at run with above
    · cases parent : V.iteratorGetParent p with
      | none =>
        rw [parent] at run
        cases fuel <;> cases run
      | some r =>
        rw [parent] at run
        have below := consistent.height parent
        refine ancestorAtHeight_height (consistent.parent parent) ?_ run
        rw [gt_iff_lt, UInt64.lt_iff_toNat_lt] at above
        rw [UInt64.le_iff_toNat_le]
        omega
    · cases run
      exact ⟨UInt64.le_antisymm (UInt64.not_lt.mp above) start, consistent⟩

theorem haveCommonAncestor_comm : ∀ (fuel : Nat) (a b : Option Ptr),
    haveCommonAncestor V fuel a b = haveCommonAncestor V fuel b a
  | fuel, none, none => rfl
  | fuel, none, some _ => by cases fuel <;> rfl
  | fuel, some _, none => by cases fuel <;> rfl
  | 0, some _, some _ => rfl
  | fuel + 1, some a, some b => by
    simp only [haveCommonAncestor, eq_comm (a := (V.block a).side.parent)]
    rw [haveCommonAncestor_comm fuel]

theorem haveSameRoot_eq {a b : Ptr} (fuel : Nat) (consistent : V.ConsistentHeights a)
    (higher : (V.block b).side.height ≤ (V.block a).side.height) :
    haveSameRoot V (fuel + 1) a b =
      (do
        let ancestor ← ancestorAtHeight V (V.block b).side.height (fuel + 1) (some a)
        haveCommonAncestor V (fuel + 1) ancestor (some b)) ∧
    haveSameRoot V (fuel + 1) b a =
      (do
        let ancestor ← ancestorAtHeight V (V.block b).side.height (fuel + 1) (some a)
        haveCommonAncestor V (fuel + 1) (some b) ancestor) := by
  constructor
  · unfold haveSameRoot
    cases walk : ancestorAtHeight V (V.block b).side.height (fuel + 1) (some a) with
    | error e => rfl
    | ok ancestor =>
      cases ancestor with
      | none => rfl
      | some q =>
        obtain ⟨height, -⟩ := ancestorAtHeight_height consistent higher walk
        have stay : ancestorAtHeight V (V.block q).side.height (fuel + 1) (some b) = .ok (some b) :=
          ancestorAtHeight_of_le (UInt64.le_of_eq height.symm)
        simp only [Bind.bind, Except.bind, stay]
  · unfold haveSameRoot
    rw [ancestorAtHeight_of_le higher]
    rfl

theorem haveSameRoot_comm {a b : Ptr} (consistentA : V.ConsistentHeights a)
    (consistentB : V.ConsistentHeights b) (fuel : Nat) :
    haveSameRoot V (fuel + 1) a b = haveSameRoot V (fuel + 1) b a := by
  rcases UInt64.le_total (V.block b).side.height (V.block a).side.height with higher | higher
  · obtain ⟨one, other⟩ := haveSameRoot_eq fuel consistentA higher
    rw [one, other]
    simp only [haveCommonAncestor_comm (fuel + 1) (some b)]
  · obtain ⟨one, other⟩ := haveSameRoot_eq fuel consistentB higher
    rw [one, other]
    simp only [haveCommonAncestor_comm (fuel + 1) (some a)]

/-! ## The walks end -/

theorem ancestorAtHeight_yields (height : UInt64) : ∀ (n : Nat) (p : Ptr), V.ConsistentHeights p →
    (V.block p).side.height.toNat ≤ n →
      ∃ r, ∀ fuel, n < fuel → ancestorAtHeight V height fuel (some p) = .ok r := by
  intro n
  induction n using Nat.strong_induction_on with
  | _ n ih =>
    intro p consistent low
    by_cases above : (V.block p).side.height > height
    · cases parent : V.iteratorGetParent p with
      | none =>
        refine ⟨none, forall_of_succ fun fuel _ => ?_⟩
        rw [ancestorAtHeight, if_pos above, parent]
        cases fuel <;> rfl
      | some q =>
        have below := consistent.height parent
        obtain ⟨r, walk⟩ := ih (n - 1) (by omega) q (consistent.parent parent) (by omega)
        refine ⟨r, forall_of_succ fun fuel enough => ?_⟩
        rw [ancestorAtHeight, if_pos above, parent]
        exact walk fuel (by omega)
    · exact ⟨some p, forall_of_succ fun fuel _ => ancestorAtHeight_of_le (UInt64.not_lt.mp above)⟩

theorem haveCommonAncestor_yields : ∀ (n : Nat) (a b : Ptr), V.ConsistentHeights a →
    (V.block a).side.height.toNat ≤ n →
      ∃ r, ∀ fuel, n < fuel → haveCommonAncestor V fuel (some a) (some b) = .ok r := by
  intro n
  induction n using Nat.strong_induction_on with
  | _ n ih =>
    intro a b consistent low
    by_cases same : (V.block a).side.parent = (V.block b).side.parent
    · refine ⟨true, forall_of_succ fun fuel _ => ?_⟩
      rw [haveCommonAncestor, if_pos same]
    · have onward : ∃ r, ∀ fuel, n ≤ fuel →
          haveCommonAncestor V fuel (V.iteratorGetParent a) (V.iteratorGetParent b) = .ok r := by
        cases parentA : V.iteratorGetParent a with
        | none => exact ⟨false, fun fuel _ => by cases fuel <;> rfl⟩
        | some p =>
          cases parentB : V.iteratorGetParent b with
          | none => exact ⟨false, fun fuel _ => by cases fuel <;> rfl⟩
          | some q =>
            have below := consistent.height parentA
            obtain ⟨r, walk⟩ := ih (n - 1) (by omega) p q (consistent.parent parentA) (by omega)
            exact ⟨r, fun fuel enough => walk fuel (by omega)⟩
      obtain ⟨r, walk⟩ := onward
      refine ⟨r, forall_of_succ fun fuel enough => ?_⟩
      rw [haveCommonAncestor, if_neg same]
      exact walk fuel enough

theorem haveSameRoot_yields {a b : Ptr} (consistentA : V.ConsistentHeights a)
    (consistentB : V.ConsistentHeights b) :
    ∃ related, Yields (fun fuel => haveSameRoot V fuel a b) related ∧
      Yields (fun fuel => haveSameRoot V fuel b a) related := by
  -- it is enough to look at the pair with the higher tip first
  have ordered : ∀ a b : Ptr, V.ConsistentHeights a →
      (V.block b).side.height ≤ (V.block a).side.height →
      ∃ related, Yields (fun fuel => haveSameRoot V fuel a b) related := by
    intro a b consistent higher
    obtain ⟨r, walk⟩ := ancestorAtHeight_yields (V.block b).side.height
      (V.block a).side.height.toNat a consistent (Nat.le_refl _)
    cases r with
    | none =>
      refine ⟨false, (V.block a).side.height.toNat + 1, forall_of_succ fun fuel enough => ?_⟩
      dsimp only
      rw [(haveSameRoot_eq fuel consistent higher).1, walk _ (by omega)]
      rfl
    | some q =>
      obtain ⟨-, consistentQ⟩ := ancestorAtHeight_height consistent higher (walk _ (Nat.lt_succ_self _))
      obtain ⟨related, meet⟩ := haveCommonAncestor_yields (V.block q).side.height.toNat q b
        consistentQ (Nat.le_refl _)
      refine ⟨related, max (V.block a).side.height.toNat (V.block q).side.height.toNat + 1,
        forall_of_succ fun fuel enough => ?_⟩
      dsimp only
      rw [(haveSameRoot_eq fuel consistent higher).1, walk _ (by omega)]
      exact meet _ (by omega)
  have flip : ∀ {a b : Ptr} {related : Bool}, V.ConsistentHeights a → V.ConsistentHeights b →
      Yields (fun fuel => haveSameRoot V fuel a b) related →
        Yields (fun fuel => haveSameRoot V fuel b a) related := by
    rintro a b related consistentA consistentB ⟨N, run⟩
    refine ⟨N + 1, forall_of_succ fun fuel enough => ?_⟩
    dsimp only
    rw [haveSameRoot_comm consistentB consistentA]
    exact run _ (by omega)
  rcases UInt64.le_total (V.block b).side.height (V.block a).side.height with higher | higher
  · obtain ⟨related, run⟩ := ordered a b consistentA higher
    exact ⟨related, run, flip consistentA consistentB run⟩
  · obtain ⟨related, run⟩ := ordered b a consistentB higher
    exact ⟨related, flip consistentB consistentA run, run⟩

end Walks

/-! ## Unrelated chains -/

section Totals

variable (V : View)

/-- The difficulty of the first `n` blocks of a chain and of their uncles, on top of `total`. -/
def windowDifficulty : Nat → Option Ptr → Difficulty → Difficulty
  | 0, _, total => total
  | _, none, total => total
  | n + 1, some p, total => windowDifficulty n (V.iteratorGetParent p) (addWithUncles V total p)

theorem windowDifficulty_none (n : Nat) (total : Difficulty) : windowDifficulty V n none total = total := by
  cases n <;> rfl

theorem addCandidate_totalDiff (lookup : Hash → Option ChainMain) (t : CandidateTotals) (p : Ptr) :
    (addCandidate V lookup t p).totalDiff = addWithUncles V t.totalDiff p := by
  unfold addCandidate
  dsimp only
  split
  · rfl
  · split <;> rfl

theorem windowTotals_totalDiff (lookup : Hash → Option ChainMain) : ∀ (n : Nat) (old new : Option Ptr)
    (current : CurrentTotals) (candidate : CandidateTotals),
    (windowTotals V lookup n old new current candidate).1.totalDiff =
        windowDifficulty V n old current.totalDiff ∧
      (windowTotals V lookup n old new current candidate).2.totalDiff =
        windowDifficulty V n new candidate.totalDiff
  | 0, _, _, _, _ => ⟨rfl, rfl⟩
  | n + 1, old, new, current, candidate => by
    have rest := windowTotals_totalDiff lookup n (old.bind V.iteratorGetParent)
      (new.bind V.iteratorGetParent)
    refine ⟨(rest _ _).1.trans ?_, (rest _ _).2.trans ?_⟩
    · cases old with
      | none => simp only [Option.bind_none, windowDifficulty_none]
      | some p => rfl
    · cases new with
      | none => simp only [Option.bind_none, windowDifficulty_none]
      | some p =>
        simp only [Option.bind_some, addCandidate_totalDiff]
        rfl

theorem windowDifficulty_lt_of_alternative {consensus : Consensus} {lookup : Hash → Option ChainMain}
    {a b : Ptr} (longer : isLongerAlternative V consensus lookup a b = true) :
    (windowDifficulty V consensus.chainWindowSize.toNat (some a) Difficulty.zeroDifficulty).toNat <
      (windowDifficulty V consensus.chainWindowSize.toNat (some b) Difficulty.zeroDifficulty).toNat := by
  obtain ⟨current, candidate⟩ := windowTotals_totalDiff V lookup consensus.chainWindowSize.toNat
    (some a) (some b) ⟨Difficulty.zeroDifficulty, []⟩ ⟨Difficulty.zeroDifficulty, [], 0, 0⟩
  unfold isLongerAlternative at longer
  dsimp only at longer
  rw [current, candidate] at longer
  by_cases less : (windowDifficulty V consensus.chainWindowSize.toNat (some a)
      Difficulty.zeroDifficulty).cmp
        (windowDifficulty V consensus.chainWindowSize.toNat (some b) Difficulty.zeroDifficulty) = .lt
  · exact (Difficulty.cmp_eq_lt_iff _ _).mp less
  · rw [if_pos less] at longer
    cases longer

end Totals

/-! ## Fork choice -/

section ForkChoice

variable {V : View} (consensus : Consensus) (lookup : Hash → Option ChainMain)

theorem isLongerChain_yields {a b : Ptr} {related : Bool} (verified : (V.block b).verified = true)
    (valid : (V.block b).invalid = false) (root : Yields (fun fuel => haveSameRoot V fuel a b) related) :
    Yields (fun fuel => isLongerChain V consensus lookup fuel (some a) (some b))
      (if related then
        (decide ((V.block a).side.cumulativeDifficulty.cmp
          (V.block b).side.cumulativeDifficulty = .lt), false)
      else (isLongerAlternative V consensus lookup a b, true)) := by
  obtain ⟨N, run⟩ := root
  refine ⟨N, fun fuel enough => ?_⟩
  have found : haveSameRoot V fuel a b = .ok related := run fuel enough
  simp only [isLongerChain, verified, valid, found, Bind.bind, Except.bind]
  cases related <;> rfl

theorem haveSameRoot_self (a : Ptr) : Yields (fun fuel => haveSameRoot V fuel a a) true := by
  refine ⟨1, forall_of_succ fun fuel _ => ?_⟩
  have stay : ancestorAtHeight V (V.block a).side.height (fuel + 1) (some a) = .ok (some a) :=
    ancestorAtHeight_of_le (UInt64.le_refl _)
  simp [haveSameRoot, stay, Bind.bind, Except.bind, haveCommonAncestor]

/-- Between two valid blocks with consistent ancestors the comparison returns in both
directions, agrees on whether they are related, and never prefers each to the other. -/
theorem isLongerChain_consistent {a b : Ptr}
    (verifiedA : (V.block a).verified = true) (validA : (V.block a).invalid = false)
    (verifiedB : (V.block b).verified = true) (validB : (V.block b).invalid = false)
    (consistentA : V.ConsistentHeights a) (consistentB : V.ConsistentHeights b) :
    ∃ longerB longerA isAlternative,
      Yields (fun fuel => isLongerChain V consensus lookup fuel (some a) (some b))
        (longerB, isAlternative) ∧
      Yields (fun fuel => isLongerChain V consensus lookup fuel (some b) (some a))
        (longerA, isAlternative) ∧
      ¬ (longerB = true ∧ longerA = true) ∧
      (isAlternative = false → (longerB = true ↔
        (V.block a).side.cumulativeDifficulty.toNat < (V.block b).side.cumulativeDifficulty.toNat)) ∧
      Yields (fun fuel => isLongerChain V consensus lookup fuel (some a) (some a)) (false, false) := by
  obtain ⟨related, there, back⟩ := haveSameRoot_yields consistentA consistentB
  have forward := isLongerChain_yields consensus lookup verifiedB validB there
  have backward := isLongerChain_yields consensus lookup verifiedA validA back
  have self := isLongerChain_yields consensus lookup verifiedA validA (haveSameRoot_self a)
  have irrefl : decide ((V.block a).side.cumulativeDifficulty.cmp
      (V.block a).side.cumulativeDifficulty = .lt) = false := by
    simp [Difficulty.cmp_eq_lt_iff]
  rw [if_pos rfl, irrefl] at self
  cases related with
  | true =>
    refine ⟨_, _, false, forward, backward, ?_, fun _ => ?_, self⟩
    · simp only [decide_eq_true_eq, Difficulty.cmp_eq_lt_iff]
      omega
    · simp only [decide_eq_true_eq, Difficulty.cmp_eq_lt_iff]
  | false =>
    refine ⟨_, _, true, forward, backward, ?_, nofun, self⟩
    rintro ⟨longerB, longerA⟩
    have less := windowDifficulty_lt_of_alternative V longerB
    have greater := windowDifficulty_lt_of_alternative V longerA
    omega

def rootAndChildren : View where
  block p := { (default : PoolBlock) with
    verified := true
    side := { (default : SideData) with
      height := if p = 0 then 0 else 1
      parent := if p = 0 then zeroHash else 7
      cumulativeDifficulty := ⟨UInt64.ofNat p, 0⟩ } }
  getByTemplateId h := if h = 7 then some 0 else none

theorem rootAndChildren_consistent (p : Ptr) : rootAndChildren.ConsistentHeights p := by
  intro q r _ parent
  have absent : rootAndChildren.getByTemplateId zeroHash = none := rfl
  have present : rootAndChildren.getByTemplateId 7 = some 0 := rfl
  by_cases root : q = 0
  · subst root
    exact absurd (parent.symm.trans absent) nofun
  · have found : rootAndChildren.iteratorGetParent q = some 0 := by
      show rootAndChildren.getByTemplateId (if q = 0 then zeroHash else 7) = some 0
      rw [if_neg root, present]
    obtain rfl : 0 = r := Option.some.inj (found.symm.trans parent)
    simp [rootAndChildren, root]

theorem isLongerChain_consistent_siblings :
    ∃ longerB longerA isAlternative,
      Yields (fun fuel => isLongerChain rootAndChildren consensusDefault (fun _ => none) fuel
        (some 1) (some 2)) (longerB, isAlternative) ∧
      Yields (fun fuel => isLongerChain rootAndChildren consensusDefault (fun _ => none) fuel
        (some 2) (some 1)) (longerA, isAlternative) ∧
      ¬ (longerB = true ∧ longerA = true) ∧
      (isAlternative = false → (longerB = true ↔
        (rootAndChildren.block 1).side.cumulativeDifficulty.toNat <
          (rootAndChildren.block 2).side.cumulativeDifficulty.toNat)) ∧
      Yields (fun fuel => isLongerChain rootAndChildren consensusDefault (fun _ => none) fuel
        (some 1) (some 1)) (false, false) :=
  isLongerChain_consistent consensusDefault (fun _ => none) rfl rfl rfl rfl
    (rootAndChildren_consistent 1) (rootAndChildren_consistent 2)

end ForkChoice

end P2PoolObserver
