/-
# Sidechain.Queries -- what the peer-to-peer side asks of the store (`sidechain.go`)

`GetMissingBlocks` goes over the blocks in the order of a hash map and reports the parents and
uncles that are not stored, two uncles of a block at most.  It stops the whole iteration at the
first block with two missing uncles.

`GetPoolBlocksFromTip` follows the parents and collects blocks and uncles.  When an uncle is
missing, the uncles already taken for that block are cut off again.
-/
import P2PoolObserver.Sidechain.SideChain

namespace P2PoolObserver

open Lib

namespace SideChain

/-! ## Missing blocks -/

/-- An id that is asked for: not zero and not stored. -/
def Missing (s : SideChain) (id : Hash) : Prop := id ≠ zeroHash ∧ s.blocksByTemplateId id = none

instance (s : SideChain) (id : Hash) : Decidable (s.Missing id) := inferInstanceAs (Decidable (_ ∧ _))

def missingUnclesLoop (s : SideChain) : Nat → List Hash → List Hash → List Hash × Bool
  | _, [], missingBlocks => (missingBlocks, false)
  | missingUncles, uncleId :: uncles, missingBlocks =>
    if s.Missing uncleId then
      if missingUncles + 1 ≥ 2 then (missingBlocks ++ [uncleId], true)
      else missingUnclesLoop s (missingUncles + 1) uncles (missingBlocks ++ [uncleId])
    else missingUnclesLoop s missingUncles uncles missingBlocks

def missingVisit (s : SideChain) (b : PoolBlock) (missingBlocks : List Hash) : List Hash × Bool :=
  if b.verified then (missingBlocks, false)
  else
    let missingBlocks := if s.Missing b.side.parent then missingBlocks ++ [b.side.parent] else missingBlocks
    s.missingUnclesLoop 0 b.side.uncles missingBlocks

def missingIter (s : SideChain) : List (Hash × Ptr) → List Hash → List Hash
  | [], missingBlocks => missingBlocks
  | (_, p) :: order, missingBlocks =>
    let (missingBlocks, stop) := s.missingVisit (s.mem p) missingBlocks
    if stop then missingBlocks else missingIter s order missingBlocks

def getMissingBlocks (s : SideChain) (order : List (Hash × Ptr)) : List Hash := s.missingIter order []

structure Enumerates (s : SideChain) (order : List (Hash × Ptr)) : Prop where
  nodup : order.Nodup
  entries : ∀ id p, (id, p) ∈ order ↔ s.blocksByTemplateId id = some p

def needed (s : SideChain) (b : PoolBlock) : List Hash :=
  if b.verified then []
  else [b.side.parent].filter s.Missing ++ (b.side.uncles.filter s.Missing).take 2

/-- All that the blocks need and only what is not stored. -/
structure AllReported (s : SideChain) (reported : List Hash) : Prop where
  complete : ∀ id p, s.blocksByTemplateId id = some p → ∀ h ∈ s.needed (s.mem p), h ∈ reported
  sound : ∀ h ∈ reported, s.blocksByTemplateId h = none

def Stops (s : SideChain) (b : PoolBlock) : Prop :=
  b.verified = false ∧ 2 ≤ (b.side.uncles.filter s.Missing).length

instance (s : SideChain) (b : PoolBlock) : Decidable (s.Stops b) := inferInstanceAs (Decidable (_ ∧ _))

/-- The entries the iteration comes to: up to the first block at which it ends. -/
def visited (s : SideChain) : List (Hash × Ptr) → List (Hash × Ptr)
  | [] => []
  | e :: order => if s.Stops (s.mem e.2) then [e] else e :: visited s order

variable {s : SideChain}

theorem missingUnclesLoop_eq : ∀ {missingUncles : Nat} (uncles missingBlocks : List Hash), missingUncles < 2 →
    s.missingUnclesLoop missingUncles uncles missingBlocks =
      (missingBlocks ++ (uncles.filter s.Missing).take (2 - missingUncles),
        decide (2 ≤ missingUncles + (uncles.filter s.Missing).length)) := by
  intro missingUncles uncles
  induction uncles generalizing missingUncles with
  | nil =>
    intro missingBlocks few
    have notYet : ¬ 2 ≤ missingUncles := by omega
    simp [missingUnclesLoop, notYet]
  | cons uncleId uncles ih =>
    intro missingBlocks few
    rw [missingUnclesLoop]
    by_cases missing : s.Missing uncleId
    · rw [if_pos missing, List.filter_cons_of_pos (by simpa using missing), List.length_cons]
      by_cases second : missingUncles + 1 ≥ 2
      · have one : missingUncles = 1 := by omega
        subst one
        have enough : 2 ≤ 1 + ((uncles.filter s.Missing).length + 1) := by omega
        rw [if_pos second]
        simp [enough]
      · have zero : missingUncles = 0 := by omega
        subst zero
        rw [if_neg second, ih _ (by omega)]
        simp [Nat.add_comm 1]
    · rw [if_neg missing, List.filter_cons_of_neg (by simpa using missing), ih _ few]

theorem missingVisit_eq (b : PoolBlock) (missingBlocks : List Hash) :
    s.missingVisit b missingBlocks = (missingBlocks ++ s.needed b, decide (s.Stops b)) := by
  unfold missingVisit needed Stops
  by_cases verified : b.verified = true
  · simp [verified]
  · rw [if_neg verified, if_neg verified]
    dsimp only
    rw [missingUnclesLoop_eq _ _ (by omega)]
    by_cases missing : s.Missing b.side.parent
    · simp [verified, missing]
    · simp [verified, missing]

theorem getMissingBlocks_eq (order : List (Hash × Ptr)) :
    s.getMissingBlocks order = (s.visited order).flatMap fun e => s.needed (s.mem e.2) := by
  have loop : ∀ (order : List (Hash × Ptr)) (missingBlocks : List Hash), s.missingIter order missingBlocks =
      missingBlocks ++ (s.visited order).flatMap fun e => s.needed (s.mem e.2) := by
    intro order
    induction order with
    | nil => simp [missingIter, visited]
    | cons e order ih =>
      intro missingBlocks
      rw [missingIter, missingVisit_eq, visited]
      dsimp only
      by_cases stops : s.Stops (s.mem e.2)
      · simp [stops]
      · simp [stops, ih]
  exact loop order []

theorem visited_front : ∀ order : List (Hash × Ptr), s.visited order <+: order
  | [] => List.prefix_rfl
  | e :: order => by
    rw [visited]
    split_ifs
    · exact ⟨order, rfl⟩
    · exact List.prefix_cons_inj e |>.mpr (visited_front order)

theorem not_stored_of_needed {b : PoolBlock} {h : Hash} (mem : h ∈ s.needed b) :
    s.blocksByTemplateId h = none := by
  have missing : s.Missing h := by
    unfold needed at mem
    split_ifs at mem
    · cases mem
    · rcases List.mem_append.mp mem with parent | uncle
      · simpa using (List.mem_filter.mp parent).2
      · simpa using (List.mem_filter.mp (List.mem_of_mem_take uncle)).2
  exact missing.2

/-- Nothing is left out exactly if the entries behind the first block with two missing uncles
need only what the entries up to it report. -/
theorem allReported_iff {order : List (Hash × Ptr)} (enumerates : s.Enumerates order) :
    s.AllReported (s.getMissingBlocks order) ↔
      ∀ e ∈ order.drop (s.visited order).length, ∀ h ∈ s.needed (s.mem e.2),
        ∃ e' ∈ s.visited order, h ∈ s.needed (s.mem e'.2) := by
  obtain ⟨rest, whole⟩ := s.visited_front order
  have behind : order.drop (s.visited order).length = rest :=
    (congrArg (List.drop (s.visited order).length) whole).symm.trans List.drop_left
  rw [behind, getMissingBlocks_eq]
  constructor
  · rintro ⟨complete, -⟩ ⟨id, p⟩ later h mem
    have stored : s.blocksByTemplateId id = some p := by
      rw [← enumerates.entries, ← whole]
      exact List.mem_append_right _ later
    exact List.mem_flatMap.mp (complete id p stored h mem)
  · intro covered
    refine ⟨fun id p stored h mem => List.mem_flatMap.mpr ?_, fun h mem => ?_⟩
    · have entry : (id, p) ∈ s.visited order ++ rest := by
        rw [whole, enumerates.entries]
        exact stored
      rcases List.mem_append.mp entry with seen | later
      · exact ⟨(id, p), seen, mem⟩
      · exact covered (id, p) later h mem
    · obtain ⟨e, -, reported⟩ := List.mem_flatMap.mp mem
      exact not_stored_of_needed reported

end SideChain

namespace QueriesExample

def block (parent : Hash) (uncles : List Hash) : PoolBlock :=
  { (default : PoolBlock) with side := { (default : PoolBlock).side with parent := parent, uncles := uncles } }

def pair (a b : PoolBlock) : SideChain :=
  { newSideChain consensusMini with
    mem := fun p => if p = 0 then a else b
    blocksByTemplateId := fun id => if id = 1 then some 0 else if id = 2 then some 1 else none }

theorem pair_enumerates (a b : PoolBlock) : (pair a b).Enumerates [(1, 0), (2, 1)] where
  nodup := by decide
  entries id p := by
    change _ ↔ (if id = 1 then some 0 else if id = 2 then some 1 else none) = some p
    split_ifs with one two
    · simp [one, eq_comm]
    · simp [two, eq_comm]
    · have notOne : ¬ id = 1#256 := one
      have notTwo : ¬ id = 2#256 := two
      simp [notOne, notTwo]

/-- The first block misses its parent and two uncles, the second the same parent. -/
theorem allReported_shared : (pair (block 10 [11, 12]) (block 10 [])).AllReported
    ((pair (block 10 [11, 12]) (block 10 [])).getMissingBlocks [(1, 0), (2, 1)]) := by
  have seen : (pair (block 10 [11, 12]) (block 10 [])).visited [(1, 0), (2, 1)] = [(1, 0)] := by
    decide +kernel
  have first : (pair (block 10 [11, 12]) (block 10 [])).needed (block 10 [11, 12]) = [10, 11, 12] := by
    decide +kernel
  have second : (pair (block 10 [11, 12]) (block 10 [])).needed (block 10 []) = [10] := by
    decide +kernel
  refine (SideChain.allReported_iff (pair_enumerates _ _)).mpr fun e behind h need => ?_
  rw [seen] at behind ⊢
  rw [List.mem_singleton.mp behind, show (pair (block 10 [11, 12]) (block 10 [])).mem 1 = block 10 [] from rfl,
    second, List.mem_singleton] at need
  refine ⟨(1, 0), List.mem_singleton_self _, ?_⟩
  rw [show (pair (block 10 [11, 12]) (block 10 [])).mem 0 = block 10 [11, 12] from rfl, first, need]
  exact .head _

/-- The second block misses its parent, but the iteration ends at the two missing uncles of the
first. -/
theorem getMissingBlocks_ends_early :
    (pair (block 2 [10, 11]) (block 20 [])).Enumerates [(1, 0), (2, 1)] ∧
      (pair (block 2 [10, 11]) (block 20 [])).getMissingBlocks [(1, 0), (2, 1)] = [10, 11] ∧
      ¬ (pair (block 2 [10, 11]) (block 20 [])).AllReported
        ((pair (block 2 [10, 11]) (block 20 [])).getMissingBlocks [(1, 0), (2, 1)]) := by
  have found : (pair (block 2 [10, 11]) (block 20 [])).getMissingBlocks [(1, 0), (2, 1)] = [10, 11] := by
    decide +kernel
  refine ⟨pair_enumerates _ _, found, fun all => ?_⟩
  rw [found] at all
  exact absurd (all.complete 2 1 rfl 20 (by decide +kernel)) (by decide)

end QueriesExample

namespace SideChain

variable {s : SideChain}
variable {cur : Option Ptr} {chain : List Ptr} {parts : List (List Ptr)}

/-! ## Chains from a tip -/

def parentOf (s : SideChain) (p : Ptr) : Option Ptr := s.blocksByTemplateId (s.mem p).side.parent

/-- The loop over the uncles of a block.  At a missing one it returns the uncles collected
before this block: `i` uncles of it are cut off. -/
def appendUncles (s : SideChain) : Nat → List Hash → List Ptr → Except (List Ptr) (List Ptr)
  | _, [], uncles => .ok uncles
  | i, uncleId :: rest, uncles =>
    match s.blocksByTemplateId uncleId with
    | none => .error (uncles.take (uncles.length - i))
    | some u => appendUncles s (i + 1) rest (uncles ++ [u])

/-- The loop of both functions; `more` is what its condition asks of the length of the chain. -/
def fromTipLoop (s : SideChain) (more : Nat → Bool) :
    Nat → Option Ptr → List Ptr → List Ptr → Except Fault (List Ptr × List Ptr)
  | 0, _, _, _ => .error .outOfFuel
  | _ + 1, none, chain, uncles => .ok (chain, uncles)
  | fuel + 1, some cur, chain, uncles =>
    if more chain.length then
      match s.appendUncles 0 (s.mem cur).side.uncles uncles with
      | .error uncles => .ok (chain, uncles)
      | .ok uncles => fromTipLoop s more fuel (s.parentOf cur) (chain ++ [cur]) uncles
    else .ok (chain, uncles)

def getPoolBlocksFromTip (s : SideChain) (fuel : Nat) (id : Hash) : Except Fault (List Ptr × List Ptr) :=
  s.fromTipLoop (fun _ => true) fuel (s.blocksByTemplateId id) [] []

def getPoolBlocksFromTipWithDepth (s : SideChain) (fuel : Nat) (id : Hash) (depth : UInt64) :
    Except Fault (List Ptr × List Ptr) :=
  s.fromTipLoop (fun length => (length : Int) < depth.toBitVec.toInt) fuel (s.blocksByTemplateId id) [] []

def UnclesOf (s : SideChain) (p : Ptr) (uncles : List Ptr) : Prop :=
  List.Forall₂ (fun id u => s.blocksByTemplateId id = some u) (s.mem p).side.uncles uncles

def UnclesOfChain (s : SideChain) (chain uncles : List Ptr) : Prop :=
  ∃ parts, List.Forall₂ s.UnclesOf chain parts ∧ uncles = parts.flatten

def Linked (s : SideChain) : Option Ptr → List Ptr → Prop
  | _, [] => True
  | cur, p :: chain => cur = some p ∧ Linked s (s.parentOf p) chain

def behind (s : SideChain) : Option Ptr → List Ptr → Option Ptr
  | cur, [] => cur
  | _, p :: chain => behind s (s.parentOf p) chain

/-- A chain of parents and its uncles, which ends where a parent or an uncle is missing. -/
structure ChainFromTip (s : SideChain) (id : Hash) (chain uncles : List Ptr) : Prop where
  linked : s.Linked (s.blocksByTemplateId id) chain
  uncles : s.UnclesOfChain chain uncles
  ends : s.behind (s.blocksByTemplateId id) chain = none ∨
    ∃ p, s.behind (s.blocksByTemplateId id) chain = some p ∧
      ∃ uncleId ∈ (s.mem p).side.uncles, s.blocksByTemplateId uncleId = none

inductive Extracts (s : SideChain) : Option Ptr → List Ptr → List (List Ptr) → Prop
  | missingParent : Extracts s none [] []
  | missingUncle {p : Ptr} {uncleId : Hash} (named : uncleId ∈ (s.mem p).side.uncles)
      (missing : s.blocksByTemplateId uncleId = none) : Extracts s (some p) [] []
  | block {p : Ptr} {uncles chain : List Ptr} {parts : List (List Ptr)} (found : s.UnclesOf p uncles)
      (rest : Extracts s (s.parentOf p) chain parts) : Extracts s (some p) (p :: chain) (uncles :: parts)

theorem appendUncles_found {ids : List Hash} {found : List Ptr}
    (stored : List.Forall₂ (fun id u => s.blocksByTemplateId id = some u) ids found) :
    ∀ (i : Nat) (uncles : List Ptr), s.appendUncles i ids uncles = .ok (uncles ++ found) := by
  induction stored with
  | nil => intro i uncles; rw [appendUncles, List.append_nil]
  | cons here _ ih =>
    intro i uncles
    rw [appendUncles, here]
    dsimp only
    rw [ih, List.append_assoc, List.singleton_append]

theorem appendUncles_missing {uncleId : Hash} (missing : s.blocksByTemplateId uncleId = none) :
    ∀ {ids : List Hash} (before taken : List Ptr), uncleId ∈ ids →
      s.appendUncles taken.length ids (before ++ taken) = .error before := by
  intro ids
  induction ids with
  | nil => exact fun _ _ named => nomatch named
  | cons id ids ih =>
    intro before taken named
    rw [appendUncles]
    cases here : s.blocksByTemplateId id with
    | none =>
      dsimp only
      rw [List.length_append, Nat.add_sub_cancel, List.take_left]
    | some u =>
      have later : uncleId ∈ ids := by
        rcases List.mem_cons.mp named with rfl | later
        · rw [missing] at here
          cases here
        · exact later
      have next := ih before (taken ++ [u]) later
      rw [List.length_append, List.length_singleton, ← List.append_assoc] at next
      exact next

theorem exists_unclesOf (s : SideChain) (p : Ptr) : (∃ uncles, s.UnclesOf p uncles) ∨
    ∃ uncleId ∈ (s.mem p).side.uncles, s.blocksByTemplateId uncleId = none := by
  unfold UnclesOf
  induction (s.mem p).side.uncles with
  | nil => exact .inl ⟨[], .nil⟩
  | cons id ids ih =>
    cases here : s.blocksByTemplateId id with
    | none => exact .inr ⟨id, List.mem_cons_self, here⟩
    | some u =>
      rcases ih with ⟨uncles, found⟩ | ⟨uncleId, named, missing⟩
      · exact .inl ⟨u :: uncles, .cons here found⟩
      · exact .inr ⟨uncleId, List.mem_cons_of_mem id named, missing⟩

theorem exists_extracts {p : Ptr} (ends : Acc (fun q p => s.parentOf p = some q) p) :
    ∃ chain parts, s.Extracts (some p) chain parts := by
  induction ends with
  | intro p _ ih =>
    rcases s.exists_unclesOf p with ⟨uncles, found⟩ | ⟨uncleId, named, missing⟩
    · cases parent : s.parentOf p with
      | none => exact ⟨[p], [uncles], .block found (parent ▸ .missingParent)⟩
      | some q =>
        obtain ⟨chain, parts, rest⟩ := ih q parent
        exact ⟨p :: chain, uncles :: parts, .block found (parent ▸ rest)⟩
    · exact ⟨[], [], .missingUncle named missing⟩

/-- The loop takes the first `count` blocks, if its condition holds up to there and then fails or
the chain ends. -/
theorem fromTipLoop_eq (more : Nat → Bool)
    (path : s.Extracts cur chain parts) : ∀ (count fuel : Nat) (before uncles : List Ptr),
      (∀ k < count, more (before.length + k) = true) → count ≤ chain.length →
      (count = chain.length ∨ more (before.length + count) = false) → count < fuel →
      s.fromTipLoop more fuel cur before uncles =
        .ok (before ++ chain.take count, uncles ++ (parts.take count).flatten) := by
  induction path with
  | missingParent =>
    intro count fuel before uncles _ _ _ enough
    obtain ⟨fuel, rfl⟩ := Nat.exists_eq_succ_of_ne_zero (by omega : fuel ≠ 0)
    simp [fromTipLoop]
  | missingUncle named missing =>
    intro count fuel before uncles _ _ _ enough
    obtain ⟨fuel, rfl⟩ := Nat.exists_eq_succ_of_ne_zero (by omega : fuel ≠ 0)
    have cut := appendUncles_missing missing uncles [] named
    rw [List.append_nil] at cut
    rw [fromTipLoop]
    split_ifs
    · rw [List.length_nil] at cut
      rw [cut]
      simp
    · simp
  | @block p found' chain parts found rest ih =>
    intro count fuel before uncles goesOn within ends enough
    obtain ⟨fuel, rfl⟩ := Nat.exists_eq_succ_of_ne_zero (by omega : fuel ≠ 0)
    rw [fromTipLoop]
    cases count with
    | zero =>
      have stop : more before.length = false := by
        rcases ends with whole | stop
        · simp at whole
        · exact stop
      rw [stop]
      simp
    | succ count =>
      have first : more before.length = true := goesOn 0 (by omega)
      have next := ih count fuel (before ++ [p]) (uncles ++ found')
      simp only [List.length_append, List.length_singleton, Nat.add_assoc, Nat.add_comm 1] at next
      rw [first, appendUncles_found found]
      have loop := next (fun k below => goesOn (k + 1) (by omega))
        (by simpa using within) (by simpa using ends) (by omega)
      simpa using loop

theorem Extracts.linked (path : s.Extracts cur chain parts) : s.Linked cur chain := by
  induction path with
  | missingParent => trivial
  | missingUncle _ _ => trivial
  | block _ _ ih => exact ⟨rfl, ih⟩

theorem Extracts.uncles (path : s.Extracts cur chain parts) : List.Forall₂ s.UnclesOf chain parts := by
  induction path with
  | missingParent | missingUncle _ _ => exact .nil
  | block found _ ih => exact .cons found ih

theorem Extracts.ends
    (path : s.Extracts cur chain parts) : s.behind cur chain = none ∨ ∃ p, s.behind cur chain = some p ∧
        ∃ uncleId ∈ (s.mem p).side.uncles, s.blocksByTemplateId uncleId = none := by
  induction path with
  | missingParent => exact .inl rfl
  | missingUncle named missing => exact .inr ⟨_, rfl, _, named, missing⟩
  | block _ _ ih => exact ih

theorem chainFromTip_of_extracts {id : Hash}
    (path : s.Extracts (s.blocksByTemplateId id) chain parts) : s.ChainFromTip id chain parts.flatten :=
  ⟨path.linked, ⟨parts, path.uncles, rfl⟩, path.ends⟩

theorem UnclesOfChain.take {chain : List Ptr} {parts : List (List Ptr)}
    (uncles : List.Forall₂ s.UnclesOf chain parts) (n : Nat) :
    s.UnclesOfChain (chain.take n) (parts.take n).flatten :=
  ⟨parts.take n, List.forall₂_take n uncles, rfl⟩

/-- Both functions return, and what they return belongs together: the full chain is linked, with
exactly its uncles, and a depth cuts the same chain. -/
theorem fromTip_consistent (s : SideChain) (id : Hash)
    (wellFounded : ∀ h p, s.blocksByTemplateId h = some p →
      Acc (fun q p => s.parentOf p = some q) p) :
    ∃ chain uncles, Yields (fun fuel => s.getPoolBlocksFromTip fuel id) (chain, uncles) ∧
      s.ChainFromTip id chain uncles ∧
      ∀ depth : UInt64, depth.toNat < 2 ^ 63 → ∃ uncles',
        Yields (fun fuel => s.getPoolBlocksFromTipWithDepth fuel id depth)
          (chain.take (min depth.toNat chain.length), uncles') ∧
        s.UnclesOfChain (chain.take (min depth.toNat chain.length)) uncles' := by
  obtain ⟨chain, parts, path⟩ : ∃ chain parts, s.Extracts (s.blocksByTemplateId id) chain parts := by
    cases found : s.blocksByTemplateId id with
    | none => exact ⟨[], [], .missingParent⟩
    | some p => exact exists_extracts (wellFounded id p found)
  have each := path.uncles
  refine ⟨chain, parts.flatten, ⟨chain.length + 1, fun fuel enough => ?_⟩,
    chainFromTip_of_extracts path, fun depth small => ?_⟩
  · have run := fromTipLoop_eq (fun _ => true) path chain.length fuel [] []
      (fun _ _ => rfl) le_rfl (.inl rfl) (by omega)
    rw [List.take_length, each.length_eq, List.take_length] at run
    exact run
  · have int : depth.toBitVec.toInt = depth.toNat := by
      rw [BitVec.toInt_eq_toNat_of_lt (by change 2 * depth.toNat < _; omega)]
      rfl
    refine ⟨_, ⟨chain.length + 1, fun fuel enough => ?_⟩,
      UnclesOfChain.take each (min depth.toNat chain.length)⟩
    refine fromTipLoop_eq _ path _ _ [] [] (fun k below => ?_) (Nat.min_le_right _ _) ?_ (by omega)
    · rw [int]
      simp
      omega
    · rcases Nat.le_total chain.length depth.toNat with short | long
      · exact .inl (Nat.min_eq_right short)
      · refine Or.inr ?_
        rw [int, Nat.min_eq_left long]
        simp

end SideChain

namespace QueriesExample

/-- The chain from block 1 goes on to block 2, its parent and uncle, and ends there, where an uncle
is missing. -/
theorem fromTip_consistent_pair : ∃ chain uncles,
    Yields (fun fuel => (pair (block 2 []) (block 9 [1, 10])).getPoolBlocksFromTip fuel 1) (chain, uncles) ∧
      (pair (block 2 []) (block 9 [1, 10])).ChainFromTip 1 chain uncles ∧
      ∀ depth : UInt64, depth.toNat < 2 ^ 63 → ∃ uncles',
        Yields (fun fuel => (pair (block 2 []) (block 9 [1, 10])).getPoolBlocksFromTipWithDepth fuel 1 depth)
          (chain.take (min depth.toNat chain.length), uncles') ∧
        (pair (block 2 []) (block 9 [1, 10])).UnclesOfChain
          (chain.take (min depth.toNat chain.length)) uncles' := by
  have last : ∀ {p : Ptr}, p ≠ 0 → (pair (block 2 []) (block 9 [1, 10])).parentOf p = none := by
    intro p other
    simp [SideChain.parentOf, pair, other, block]
  have ends : ∀ p : Ptr, p ≠ 0 →
      Acc (fun q p => (pair (block 2 []) (block 9 [1, 10])).parentOf p = some q) p :=
    fun p other => .intro p fun q parent => by
      rw [last other] at parent
      cases parent
  refine SideChain.fromTip_consistent _ 1 fun h p _ => ?_
  by_cases first : p = 0
  · refine .intro p fun q parent => ends q fun zero => ?_
    subst first zero
    exact absurd parent (by decide +kernel)
  · exact ends p first

end QueriesExample

end P2PoolObserver
