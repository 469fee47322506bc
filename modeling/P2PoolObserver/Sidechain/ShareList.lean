/-
# Sidechain.ShareList -- shares in memory (`share.go`, `GetSharesOrdered` of `utils.go`)

`GetSharesOrdered` writes the weights of the window into shares that were allocated before,
appends new ones when there are more, sorts the slice of pointers and merges shares of one
address in place.  `Shares` has the values only; this module has the pointers, the memory behind
them, and `slices.SortFunc` as the package documents it.

`getSharesOrderedIn` takes a `SharesBuffer` and leaves one behind, also when it fails.
-/
import P2PoolObserver.Lib.MergeRuns
import P2PoolObserver.Sidechain.Shares
import Mathlib.Data.Prod.Lex
import Mathlib.Data.ZMod.Basic
import Mathlib.Algebra.BigOperators.Ring.Finset

namespace P2PoolObserver

open Lib

/-! ## The consensus order of addresses -/

/-- The consensus order: the spend key, then the view key, each as a number. -/
def PackedAddress.Below (a b : PackedAddress) : Prop :=
  a.spend.toNat < b.spend.toNat ∨ a.spend = b.spend ∧ a.view.toNat < b.view.toNat

def PackedAddress.rank (a : PackedAddress) : ℕ ×ₗ ℕ := toLex (a.spend.toNat, a.view.toNat)

theorem PackedAddress.rank_lt_iff (a b : PackedAddress) : a.rank < b.rank ↔ a.Below b := by
  rw [rank, rank, Prod.Lex.toLex_lt_toLex, Below, BitVec.toNat_inj]

theorem PackedAddress.rank_inj {a b : PackedAddress} : a.rank = b.rank ↔ a = b := by
  constructor
  · intro same
    have pairs : (a.spend.toNat, a.view.toNat) = (b.spend.toNat, b.view.toNat) := same
    rw [Prod.mk.injEq, BitVec.toNat_inj, BitVec.toNat_inj] at pairs
    cases a
    cases b
    simpa using pairs
  · rintro rfl
    rfl

def Ordering.toInt : Ordering → Int
  | .lt => -1
  | .eq => 0
  | .gt => 1

theorem PackedAddress.comparePacked_eq_cmp (a b : PackedAddress) : a.comparePacked b = cmp a.rank b.rank := by
  rw [comparePacked, Hash.compare_eq_cmp, Hash.compare_eq_cmp]
  rcases lt_trichotomy a.spend.toNat b.spend.toNat with below | same | above
  · have ranks : a.rank < b.rank := Prod.Lex.toLex_lt_toLex.mpr (.inl below)
    rw [below.cmp_eq_lt, ranks.cmp_eq_lt]
  · rw [same, cmp_self_eq_eq]
    rcases lt_trichotomy a.view.toNat b.view.toNat with below | equal | above
    · have ranks : a.rank < b.rank := Prod.Lex.toLex_lt_toLex.mpr (.inr ⟨same, below⟩)
      rw [below.cmp_eq_lt, ranks.cmp_eq_lt]
    · rw [rank, rank, same, equal, cmp_self_eq_eq, cmp_self_eq_eq]
    · have ranks : b.rank < a.rank := Prod.Lex.toLex_lt_toLex.mpr (.inr ⟨same.symm, above⟩)
      rw [above.cmp_eq_gt, ranks.cmp_eq_gt]
  · have ranks : b.rank < a.rank := Prod.Lex.toLex_lt_toLex.mpr (.inl above)
    rw [above.cmp_eq_gt, ranks.cmp_eq_gt]

theorem PackedAddress.comparePacked_eq_lt_iff (a b : PackedAddress) :
    a.comparePacked b = .lt ↔ a.rank < b.rank := by
  rw [comparePacked_eq_cmp, cmp_eq_lt_iff]

theorem PackedAddress.comparePacked_eq_gt_iff (a b : PackedAddress) :
    a.comparePacked b = .gt ↔ b.rank < a.rank := by
  rw [comparePacked_eq_cmp, cmp_eq_gt_iff]

theorem PackedAddress.comparePacked_self (a : PackedAddress) : a.comparePacked a = .eq := by
  rw [comparePacked_eq_cmp, cmp_self_eq_eq]

namespace Share

def sortCompare (a b : Share) : Int :=
  let diff : Int := (lastByte a.address.spend : Int) - (lastByte b.address.spend : Int)
  if diff ≠ 0 then diff
  else if a.address = b.address then 0
  else Ordering.toInt (a.address.comparePacked b.address)

theorem rank_lt_of_lastByte_lt {a b : PackedAddress} (less : lastByte a.spend < lastByte b.spend) :
    a.rank < b.rank := by
  rw [PackedAddress.rank_lt_iff]
  left
  by_contra notLess
  exact absurd (Nat.div_le_div_right (Nat.le_of_not_lt notLess)) (Nat.not_le_of_lt less)

theorem sign_sortCompare (a b : Share) :
    (a.sortCompare b).sign = Ordering.toInt (a.address.comparePacked b.address) := by
  unfold sortCompare
  dsimp only
  split_ifs with fast same
  · rcases lt_or_gt_of_ne fast with less | more
    · rw [Int.sign_eq_neg_one_of_neg less,
        (PackedAddress.comparePacked_eq_lt_iff _ _).mpr (rank_lt_of_lastByte_lt (by omega))]
      rfl
    · rw [Int.sign_eq_one_of_pos more,
        (PackedAddress.comparePacked_eq_gt_iff _ _).mpr (rank_lt_of_lastByte_lt (by omega))]
      rfl
  · rw [same, PackedAddress.comparePacked_self]
    rfl
  · cases a.address.comparePacked b.address <;> rfl

theorem sortCompare_neg_iff (a b : Share) : a.sortCompare b < 0 ↔ a.address.rank < b.address.rank := by
  rw [← Int.sign_eq_neg_one_iff_neg, sign_sortCompare, ← PackedAddress.comparePacked_eq_lt_iff]
  cases a.address.comparePacked b.address <;> simp [Ordering.toInt]

theorem sortCompare_pos_iff (a b : Share) : 0 < a.sortCompare b ↔ b.address.rank < a.address.rank := by
  rw [← Int.sign_eq_one_iff_pos, sign_sortCompare, ← PackedAddress.comparePacked_eq_gt_iff]
  cases a.address.comparePacked b.address <;> simp [Ordering.toInt]

theorem sortCompare_nonpos_iff (a b : Share) : a.sortCompare b ≤ 0 ↔ a.address.rank ≤ b.address.rank := by
  rw [← not_lt, sortCompare_pos_iff, not_lt]

theorem sortCompare_eq_zero_iff (a b : Share) : a.sortCompare b = 0 ↔ a.address = b.address := by
  have neg := sortCompare_neg_iff a b
  have pos := sortCompare_pos_iff a b
  rw [← PackedAddress.rank_inj]
  constructor
  · intro zero
    rw [zero] at neg pos
    exact le_antisymm (not_lt.mp (pos.not.mp (lt_irrefl 0))) (not_lt.mp (neg.not.mp (lt_irrefl 0)))
  · intro same
    rw [same] at neg pos
    exact le_antisymm (not_lt.mp (pos.not.mpr (lt_irrefl _))) (not_lt.mp (neg.not.mpr (lt_irrefl _)))

theorem compare_eq (a b : Share) : a.compare b = a.address.comparePacked b.address := by
  unfold compare
  split_ifs with less more same
  · exact ((PackedAddress.comparePacked_eq_lt_iff _ _).mpr (rank_lt_of_lastByte_lt less)).symm
  · exact ((PackedAddress.comparePacked_eq_gt_iff _ _).mpr (rank_lt_of_lastByte_lt more)).symm
  · rw [same, PackedAddress.comparePacked_self]
  · rfl

end Share

/-! ## `slices.SortFunc` -/

/-- What `SortFunc` requires of its comparison function. -/
structure StrictWeakOrder {α : Type} (cmp : α → α → Int) : Prop where
  irrefl : ∀ a, ¬ cmp a a < 0
  swap : ∀ a b, cmp a b < 0 ↔ 0 < cmp b a
  trans : ∀ a b c, cmp a b < 0 → cmp b c < 0 → cmp a c < 0
  incomparable : ∀ a b c, cmp a b = 0 → cmp b c = 0 → cmp a c = 0

/-- `slices.SortFunc` as documented: it sorts in ascending order, and not stably. -/
class SlicesPackage where
  sortFunc : {α : Type} → (α → α → Int) → List α → List α
  perm : ∀ {α : Type} (cmp : α → α → Int) (l : List α), (sortFunc cmp l).Perm l
  ascending : ∀ {α : Type} (cmp : α → α → Int) (l : List α), StrictWeakOrder cmp →
    (sortFunc cmp l).Pairwise fun a b => cmp a b ≤ 0

theorem StrictWeakOrder.le_trans {α : Type} {cmp : α → α → Int} (order : StrictWeakOrder cmp)
    {a b c : α} (ab : cmp a b ≤ 0) (bc : cmp b c ≤ 0) : cmp a c ≤ 0 := by
  by_contra above
  have ca : cmp c a < 0 := (order.swap c a).mpr (not_le.mp above)
  rcases lt_or_eq_of_le ab with less | same
  · exact absurd ((order.swap c b).mp (order.trans c a b ca less)) (not_lt.mpr bc)
  · rcases lt_or_eq_of_le bc with less' | same'
    · exact absurd ((order.swap b a).mp (order.trans b c a less' ca)) (by omega)
    · have := order.incomparable a b c same same'
      omega

@[reducible] def SlicesPackage.exact : SlicesPackage where
  sortFunc cmp l := l.mergeSort fun a b => cmp a b ≤ 0
  perm cmp l := List.mergeSort_perm l _
  ascending cmp l order := by
    refine (List.pairwise_mergeSort ?_ ?_ l).imp (by simp)
    · intro a b c ab bc
      simp only [decide_eq_true_eq] at ab bc ⊢
      exact order.le_trans ab bc
    · intro a b
      have swap := order.swap b a
      simp only [Bool.or_eq_true, decide_eq_true_eq]
      omega

/-! ## Memory -/

abbrev SharePtr := Nat

structure ShareMemory where
  share : SharePtr → Share
  next : SharePtr

namespace ShareMemory

def write (mem : ShareMemory) (p : SharePtr) (share : Share) : ShareMemory :=
  { mem with share := Function.update mem.share p share }

def alloc (mem : ShareMemory) (share : Share) : ShareMemory :=
  { mem.write mem.next share with next := mem.next + 1 }

@[simp] theorem share_write_self (mem : ShareMemory) (p : SharePtr) (share : Share) :
    (mem.write p share).share p = share := by
  simp only [write, Function.update_self]

@[simp] theorem share_alloc_self (mem : ShareMemory) (share : Share) :
    (mem.alloc share).share mem.next = share := share_write_self mem mem.next share

theorem map_write {mem : ShareMemory} {p : SharePtr} {ptrs : List SharePtr} (other : p ∉ ptrs)
    (share : Share) : ptrs.map (mem.write p share).share = ptrs.map mem.share := by
  refine List.map_congr_left fun q inside => ?_
  have ne : q ≠ p := by
    rintro rfl
    exact other inside
  simp only [write, Function.update_of_ne ne]

end ShareMemory

structure SharesBuffer where
  mem : ShareMemory
  slice : List SharePtr
  nodup : slice.Nodup
  allocated : ∀ p ∈ slice, p < mem.next

namespace SharesBuffer

def shares (s : SharesBuffer) : Shares := s.slice.map s.mem.share

def preAllocateShares (mem : ShareMemory) (n : Nat) : SharesBuffer where
  mem :=
    { share := fun p => if mem.next ≤ p ∧ p < mem.next + n then default else mem.share p
      next := mem.next + n }
  slice := List.range' mem.next n
  nodup := List.nodup_range'
  allocated p inside := by
    have bounds := List.mem_range'_1.mp inside
    exact bounds.2

/-! ## Collecting the weights -/

/-- The callback: the share at `index` is overwritten while the slice that was passed has
one, afterwards new shares are appended. -/
def addWeight (l index : Nat) (s : SharesBuffer) (share : Share) : SharesBuffer :=
  if index < l then
    { s with
      mem := s.mem.write (s.slice.getD index 0) share
      allocated := s.allocated }
  else
    { mem := s.mem.alloc share
      slice := s.slice ++ [s.mem.next]
      nodup := by
        refine List.nodup_append'.mpr ⟨s.nodup, List.nodup_singleton _, ?_⟩
        intro p inside fresh
        have := s.allocated p inside
        rw [List.mem_singleton.mp fresh] at this
        exact lt_irrefl _ this
      allocated := by
        intro p inside
        rcases List.mem_append.mp inside with old | fresh
        · exact Nat.lt_succ_of_lt (s.allocated p old)
        · rw [List.mem_singleton.mp fresh]
          exact Nat.lt_succ_self _ }

/-- The callbacks of a window walk, the first of them with `index`. -/
def collect (l : Nat) : Nat → SharesBuffer → Shares → SharesBuffer
  | _, s, [] => s
  | index, s, share :: rest => collect l (index + 1) (s.addWeight l index share) rest

theorem addWeight_spec {l index : Nat} {s : SharesBuffer} (length : s.slice.length = max l index)
    (share : Share) : (s.addWeight l index share).slice.length = max l (index + 1) ∧
      ((s.addWeight l index share).shares.take (index + 1)) = s.shares.take index ++ [share] := by
  unfold addWeight shares
  split_ifs with inside
  · have bound : index < s.slice.length := by omega
    refine ⟨by simp only; omega, ?_⟩
    -- the pointer at `index` occurs nowhere else in the slice
    have split : s.slice = s.slice.take index ++ s.slice[index] :: s.slice.drop (index + 1) := by
      rw [List.cons_getElem_drop_succ, List.take_append_drop]
    have apart : s.slice[index] ∉ s.slice.take index := by
      have nodup := s.nodup
      rw [split, List.nodup_append'] at nodup
      exact fun mem => nodup.2.2 mem (.head _)
    simp only [List.getD_eq_getElem s.slice 0 bound]
    rw [← List.map_take, ← List.map_take, List.take_succ_eq_append_getElem bound, List.map_append,
      ShareMemory.map_write apart]
    simp
  · have full : s.slice.length = index := by omega
    refine ⟨by simp only [List.length_append, List.length_singleton]; omega, ?_⟩
    have fresh : s.mem.next ∉ s.slice := fun mem => lt_irrefl _ (s.allocated _ mem)
    simp only [List.map_append, List.map_singleton, ShareMemory.share_alloc_self]
    rw [List.take_of_length_le (by simp [full]), List.take_of_length_le (by simp [full])]
    exact congrArg (· ++ [share]) (ShareMemory.map_write fresh share)

theorem collect_spec (l : Nat) (emitted : Shares) : ∀ (index : Nat) (s : SharesBuffer),
    s.slice.length = max l index → (collect l index s emitted).slice.length = max l (index + emitted.length) ∧
      (collect l index s emitted).shares.take (index + emitted.length) = s.shares.take index ++ emitted := by
  induction emitted with
  | nil =>
    intro index s length
    exact ⟨length, (List.append_nil _).symm⟩
  | cons share rest ih =>
    intro index s length
    obtain ⟨length', written⟩ := addWeight_spec length share
    obtain ⟨lengthAll, all⟩ := ih (index + 1) (s.addWeight l index share) length'
    rw [written, List.append_assoc, List.singleton_append] at all
    rw [List.length_cons, show index + (rest.length + 1) = index + 1 + rest.length by omega]
    exact ⟨lengthAll, all⟩

theorem collect_keeps (l : Nat) (emitted : Shares) : ∀ (index : Nat) (s : SharesBuffer),
    s.slice <+: (collect l index s emitted).slice ∧ s.mem.next ≤ (collect l index s emitted).mem.next := by
  induction emitted with
  | nil =>
    intro index s
    exact ⟨List.prefix_refl _, le_refl _⟩
  | cons share rest ih =>
    intro index s
    have here : s.slice <+: (s.addWeight l index share).slice ∧
        s.mem.next ≤ (s.addWeight l index share).mem.next := by
      unfold addWeight
      split_ifs
      · exact ⟨List.prefix_refl _, le_refl _⟩
      · exact ⟨List.prefix_append _ _, Nat.le_succ _⟩
    obtain ⟨slice, next⟩ := ih (index + 1) (s.addWeight l index share)
    exact ⟨here.1.trans slice, here.2.trans next⟩

/-! ## Sorting and merging in place -/

def take (s : SharesBuffer) (n : Nat) : SharesBuffer :=
  { s with
    slice := s.slice.take n
    nodup := s.nodup.sublist (List.take_sublist n s.slice)
    allocated := fun p inside => s.allocated p (List.mem_of_mem_take inside) }

theorem shares_take (s : SharesBuffer) (n : Nat) : (s.take n).shares = s.shares.take n :=
  List.map_take

section Sorting

variable [SlicesPackage]

def sort (s : SharesBuffer) : SharesBuffer :=
  let sorted := SlicesPackage.sortFunc
    (fun a b => (s.mem.share a).sortCompare (s.mem.share b)) s.slice
  have perm : sorted.Perm s.slice := SlicesPackage.perm _ _
  { s with
    slice := sorted
    nodup := perm.nodup_iff.mpr s.nodup
    allocated := fun p inside => s.allocated p (perm.mem_iff.mp inside) }

theorem sort_perm (s : SharesBuffer) : s.sort.slice.Perm s.slice := SlicesPackage.perm _ _

theorem shares_sort_perm (s : SharesBuffer) : s.sort.shares.Perm s.shares := s.sort_perm.map _

theorem shares_sort_ascending (s : SharesBuffer) :
    s.sort.shares.Pairwise fun a b => a.address.rank ≤ b.address.rank := by
  have order : StrictWeakOrder fun a b => (s.mem.share a).sortCompare (s.mem.share b) := by
    constructor
    · intro a
      rw [Share.sortCompare_neg_iff]
      exact lt_irrefl _
    · intro a b
      rw [Share.sortCompare_neg_iff, Share.sortCompare_pos_iff]
    · intro a b c
      simp only [Share.sortCompare_neg_iff]
      exact lt_trans
    · intro a b c
      simp only [Share.sortCompare_eq_zero_iff]
      exact Eq.trans
  refine List.pairwise_map.mpr ((SlicesPackage.ascending _ s.slice order).imp ?_)
  intro a b le
  exact (Share.sortCompare_nonpos_iff _ _).mp le

end Sorting

variable {s front tail : List SharePtr} {p : SharePtr}

def compactLoop (s : List SharePtr) : List SharePtr → ShareMemory → Nat → ShareMemory × Nat
  | [], mem, index => (mem, index)
  | share :: rest, mem, index =>
    let current := s.getD index 0
    if (mem.share current).address = (mem.share share).address then
      compactLoop s rest
        (mem.write current { mem.share current with
          weight := (mem.share current).weight.add (mem.share share).weight }) index
    else
      compactLoop s rest
        (mem.write (s.getD (index + 1) 0)
          { address := (mem.share share).address, weight := (mem.share share).weight }) (index + 1)

theorem apart_of_nodup (nodup : s.Nodup) (split : s = front ++ p :: tail) : p ∉ front ∧ p ∉ tail := by
  rw [split, List.nodup_append', List.nodup_cons, List.disjoint_cons_right] at nodup
  exact ⟨nodup.2.2.1, nodup.2.1.1⟩

theorem getD_of_split (split : s = front ++ p :: tail) : s.getD front.length 0 = p := by
  rw [split, List.getD_append_right _ _ _ _ le_rfl]
  simp

/-- Of the slice, `front` is done, `current` is in hand, the pointers of `gap` were read and
those of `rest` were not.  What is written lies before what is still to be read. -/
theorem compactLoop_spec (nodup : s.Nodup) (rest : List SharePtr) :
    ∀ (front : List SharePtr) (current : SharePtr) (gap : List SharePtr) (mem : ShareMemory),
    s = front ++ current :: (gap ++ rest) → (compactLoop s rest mem front.length).1.next = mem.next ∧
      (compactLoop s rest mem front.length).2 < s.length ∧
      (s.take ((compactLoop s rest mem front.length).2 + 1)).map (compactLoop s rest mem front.length).1.share =
        front.map mem.share ++ Shares.compactLoop (mem.share current) (rest.map mem.share) := by
  induction rest with
  | nil =>
    intro front current gap mem split
    have length : s.length = front.length + 1 + gap.length := by
      rw [split]
      simp
      omega
    refine ⟨rfl, by simp only [compactLoop]; omega, ?_⟩
    have taken : s.take (front.length + 1) = front ++ [current] := by
      rw [split, List.take_length_add_append]
      rfl
    simp only [compactLoop, taken, List.map_append, List.map_nil, Shares.compactLoop,
      List.map_singleton]
  | cons share rest ih =>
    intro front current gap mem split
    have write : s = front ++ current :: (gap ++ [share] ++ rest) := by
      rw [split]
      simp
    obtain ⟨apartFront, apartTail⟩ := apart_of_nodup nodup write
    unfold compactLoop
    simp only [getD_of_split split, List.map_cons, Shares.compactLoop]
    split_ifs with same
    · obtain ⟨next, inside, merged⟩ := ih front current (gap ++ [share])
        (mem.write current { mem.share current with
          weight := (mem.share current).weight.add (mem.share share).weight }) write
      refine ⟨next, inside, merged.trans ?_⟩
      have apartRest : current ∉ rest := fun mem => apartTail (List.mem_append_right _ mem)
      rw [ShareMemory.map_write apartFront, ShareMemory.map_write apartRest,
        ShareMemory.share_write_self]
    · -- the next slot belongs to a pointer that was read already
      obtain ⟨slot, gap', shift⟩ : ∃ slot gap', gap ++ [share] = slot :: gap' := by
        cases gap with
        | nil => exact ⟨share, [], rfl⟩
        | cons slot gap => exact ⟨slot, gap ++ [share], rfl⟩
      have moved : s = (front ++ [current]) ++ slot :: (gap' ++ rest) := by
        rw [write, shift]
        simp
      obtain ⟨apartFront, apartTail⟩ := apart_of_nodup nodup moved
      have apartRest : slot ∉ rest := fun mem => apartTail (List.mem_append_right _ mem)
      have atSlot := getD_of_split moved
      rw [List.length_append, List.length_singleton] at atSlot
      rw [atSlot]
      obtain ⟨next, inside, merged⟩ := ih (front ++ [current]) slot gap'
        (mem.write slot { address := (mem.share share).address
                          weight := (mem.share share).weight }) moved
      rw [List.length_append, List.length_singleton] at next inside merged
      refine ⟨next, inside, merged.trans ?_⟩
      rw [ShareMemory.map_write apartFront, ShareMemory.map_write apartRest,
        ShareMemory.share_write_self, List.map_append, List.append_assoc]
      rfl

section Compact

variable [SlicesPackage]

/-- `Compact`: the shares of one address are added up in the first of them. -/
def compact (s : SharesBuffer) : SharesBuffer :=
  match sorted : s.sort.slice with
  | [] => s
  | _ :: rest =>
    let run := compactLoop s.sort.slice rest s.mem 0
    { mem := run.1
      slice := s.sort.slice.take (run.2 + 1)
      nodup := s.sort.nodup.sublist (List.take_sublist _ _)
      allocated := by
        intro p inside
        have next := (compactLoop_spec s.sort.nodup rest [] _ [] s.mem sorted).1
        rw [show run.1.next = s.mem.next from next]
        exact s.sort.allocated p (List.mem_of_mem_take inside) }

theorem next_compact (s : SharesBuffer) : s.compact.mem.next = s.mem.next := by
  unfold compact
  split
  next => rfl
  next first rest sorted => exact (compactLoop_spec s.sort.nodup rest [] first [] s.mem sorted).1

theorem shares_compact (s : SharesBuffer) :
    s.compact.shares = match s.sort.shares with
      | [] => []
      | first :: rest => Shares.compactLoop first rest := by
  unfold compact
  split
  next sorted =>
    have empty : s.slice = [] := by
      have perm := s.sort_perm
      rw [sorted] at perm
      exact perm.nil_eq.symm
    simp [shares, sorted, empty]
  next first rest sorted =>
    have merged := (compactLoop_spec s.sort.nodup rest [] first [] s.mem sorted).2.2
    rw [show s.sort.shares = s.mem.share first :: rest.map s.mem.share by
      rw [shares, sorted]
      rfl]
    exact merged

end Compact

end SharesBuffer

/-! ## The totals by address -/

namespace Shares

def weightOf (emitted : Shares) (address : PackedAddress) : Nat :=
  ((emitted.filter fun share => share.address = address).map fun share => share.weight.toNat).sum

/-- Every address that received weight, once and in ascending order, with the sum of its
weights in 128 bits. -/
structure Canonical (emitted out : Shares) : Prop where
  ascending : out.Pairwise fun a b => a.address.Below b.address
  addresses : ∀ address, address ∈ out.map Share.address ↔ address ∈ emitted.map Share.address
  weights : ∀ share ∈ out, share.weight.toNat = weightOf emitted share.address % 2 ^ 128

def rankOf (share : Share) : ℕ ×ₗ ℕ := share.address.rank

def weightIn (share : Share) : ZMod (2 ^ 128) := (share.weight.toNat : ZMod (2 ^ 128))

theorem eq_of_rank_weight (a b : Share) (rank : rankOf a = rankOf b)
    (weight : weightIn a = weightIn b) : a = b := by
  have address : a.address = b.address := PackedAddress.rank_inj.mp rank
  have value : a.weight = b.weight := by
    rw [weightIn, weightIn, ZMod.natCast_eq_natCast_iff', Nat.mod_eq_of_lt a.weight.toNat_lt,
      Nat.mod_eq_of_lt b.weight.toNat_lt] at weight
    exact Difficulty.toNat_inj.mp weight
  cases a
  cases b
  simp_all

theorem keyTotal_eq (emitted : Shares) (address : PackedAddress) :
    keyTotal rankOf weightIn emitted address.rank = (weightOf emitted address : ZMod (2 ^ 128)) := by
  have same : (fun share => decide (rankOf share = address.rank)) =
      fun share => decide (share.address = address) := by
    funext share
    exact decide_eq_decide.mpr PackedAddress.rank_inj
  rw [keyTotal, same, weightOf, Nat.cast_list_sum, List.map_map]
  rfl

theorem canonical_of_totals {emitted out : Shares} (totals : Totals rankOf weightIn emitted out) :
    Canonical emitted out where
  ascending := totals.ascending.imp fun below => (PackedAddress.rank_lt_iff _ _).mp below
  addresses address := by
    have keys := totals.keys address.rank
    have ranked : ∀ l : Shares, address.rank ∈ l.map rankOf ↔ address ∈ l.map Share.address := by
      intro l
      simp only [List.mem_map, rankOf, PackedAddress.rank_inj]
    rwa [ranked, ranked] at keys
  weights share mem := by
    have total := totals.total share mem
    rw [rankOf, keyTotal_eq, weightIn, ZMod.natCast_eq_natCast_iff',
      Nat.mod_eq_of_lt share.weight.toNat_lt] at total
    exact total

def addShare (a b : Share) : Share := { a with weight := a.weight.add b.weight }

theorem compactLoop_eq (rest : Shares) : ∀ current : Share,
    compactLoop current rest = mergeRuns rankOf addShare current rest := by
  induction rest with
  | nil =>
    intro current
    rfl
  | cons share rest ih =>
    intro current
    rw [compactLoop, mergeRuns, ih, ih]
    exact if_congr PackedAddress.rank_inj.symm rfl rfl

theorem totals_of_sorted {emitted : Shares} {first : Share} {rest : Shares}
    (perm : (first :: rest).Perm emitted)
    (sorted : (first :: rest).Pairwise fun a b => a.address.rank ≤ b.address.rank) :
    Totals rankOf weightIn emitted (compactLoop first rest) := by
  have weightAdd : ∀ a b, weightIn (addShare a b) = weightIn a + weightIn b := by
    intro a b
    rw [weightIn, addShare, Difficulty.toNat_add, ZMod.natCast_mod, Nat.cast_add]
    rfl
  have keyAdd : ∀ a b, rankOf (addShare a b) = rankOf a := fun _ _ => rfl
  rw [compactLoop_eq]
  exact (totals_mergeRuns keyAdd weightAdd rest first sorted).of_perm perm

theorem sort_ascending (s : Shares) :
    s.sort.Pairwise fun a b => a.address.rank ≤ b.address.rank := by
  have notGt : ∀ a b : Share, (a.compare b != .gt) = true ↔ a.address.rank ≤ b.address.rank := by
    intro a b
    rw [Share.compare_eq, bne_iff_ne, ne_eq, PackedAddress.comparePacked_eq_gt_iff, not_lt]
  refine (List.pairwise_mergeSort ?_ ?_ s).imp fun le => (notGt _ _).mp le
  · intro a b c ab bc
    rw [notGt] at ab bc ⊢
    exact ab.trans bc
  · intro a b
    rw [Bool.or_eq_true, notGt, notGt]
    exact le_total _ _

theorem totals_compact {emitted : Shares} (nonempty : emitted ≠ []) :
    Totals rankOf weightIn emitted emitted.compact := by
  have perm : emitted.sort.Perm emitted := List.mergeSort_perm _ _
  have ascending := emitted.sort_ascending
  unfold compact
  cases sorted : emitted.sort with
  | nil =>
    rw [sorted] at perm
    exact absurd perm.nil_eq.symm nonempty
  | cons first rest =>
    rw [sorted] at perm ascending
    exact totals_of_sorted perm ascending

end Shares

/-! ## `GetSharesOrdered` -/

section Ordered

variable [SlicesPackage]

namespace SharesBuffer

/-- All callbacks of a window walk that emits the given shares. -/
def collected (s : SharesBuffer) (emitted : Shares) : SharesBuffer :=
  collect s.slice.length 0 s emitted

/-- The shares made of what was emitted: `preAllocatedShares[:index]`, merged. -/
def sharesOf (s : SharesBuffer) (emitted : Shares) : SharesBuffer :=
  ((s.collected emitted).take emitted.length).compact

omit [SlicesPackage] in
theorem shares_collected (s : SharesBuffer) (emitted : Shares) :
    ((s.collected emitted).take emitted.length).shares = emitted := by
  have written := (collect_spec s.slice.length emitted 0 s (by simp)).2
  rw [Nat.zero_add, List.take_zero, List.nil_append] at written
  rw [shares_take]
  exact written

theorem totals_sharesOf (s : SharesBuffer) {emitted : Shares} (nonempty : emitted ≠ []) :
    Totals Shares.rankOf Shares.weightIn emitted (s.sharesOf emitted).shares := by
  have perm := ((s.collected emitted).take emitted.length).shares_sort_perm
  have ascending := ((s.collected emitted).take emitted.length).shares_sort_ascending
  rw [shares_collected] at perm
  rw [sharesOf, shares_compact]
  cases sorted : ((s.collected emitted).take emitted.length).sort.shares with
  | nil =>
    rw [sorted] at perm
    exact absurd perm.nil_eq.symm nonempty
  | cons first rest =>
    rw [sorted] at perm ascending
    exact Shares.totals_of_sorted perm ascending

theorem shares_sharesOf (s : SharesBuffer) {emitted order : Shares} (nonempty : emitted ≠ [])
    (perm : order.Perm emitted) : (s.sharesOf order).shares = emitted.compact := by
  have nonempty' : order ≠ [] := by
    rintro rfl
    exact nonempty perm.nil_eq.symm
  exact ((s.totals_sharesOf nonempty').of_perm perm).unique Shares.eq_of_rank_weight
    (Shares.totals_compact nonempty)

/-- The slice of the caller after a failed walk: the shares were overwritten. -/
def leftByError (s : SharesBuffer) (emitted : Shares) : SharesBuffer :=
  { mem := (s.collected emitted).mem
    slice := s.slice
    nodup := s.nodup
    allocated := fun p inside =>
      (s.allocated p inside).trans_le (collect_keeps s.slice.length emitted 0 s).2 }

/-- The pointers of the caller after the sort.  As its slice has no spare capacity, `append`
has copied them if there were more shares. -/
def leftSlice (s : SharesBuffer) (emitted : Shares) : List SharePtr :=
  if emitted.length ≤ s.slice.length then
    ((s.collected emitted).take emitted.length).sort.slice ++ s.slice.drop emitted.length
  else s.slice

theorem leftSlice_perm (s : SharesBuffer) (emitted : Shares) : (s.leftSlice emitted).Perm s.slice := by
  unfold leftSlice
  split_ifs with fits
  · have same : s.slice = (s.collected emitted).slice := by
      refine (collect_keeps s.slice.length emitted 0 s).1.eq_of_length ?_
      have length := (collect_spec s.slice.length emitted 0 s (by simp)).1
      rw [length]
      omega
    refine (((s.collected emitted).take emitted.length).sort_perm.append_right _).trans ?_
    rw [show ((s.collected emitted).take emitted.length).slice = s.slice.take emitted.length by
      rw [same]
      rfl, List.take_append_drop]
  · exact List.Perm.refl _

def left (s : SharesBuffer) (emitted : Shares) : SharesBuffer :=
  { mem := (s.sharesOf emitted).mem
    slice := s.leftSlice emitted
    nodup := (s.leftSlice_perm emitted).nodup_iff.mpr s.nodup
    allocated := by
      intro p inside
      rw [sharesOf, next_compact]
      exact (s.leftByError emitted).allocated p ((s.leftSlice_perm emitted).mem_iff.mp inside) }

end SharesBuffer

variable [Uint128Package] (V : View) (consensus : Consensus)
  (difficultyByHeight : UInt64 → Difficulty)

def emittedShares (tip : Ptr) : Shares :=
  (blocksInPPLNSWindow V consensus tip difficultyByHeight).calls.map fun call =>
    ⟨(V.block call.block).side.publicKey, call.weight⟩

/-- `GetSharesOrdered` with the slice it is given, and what it leaves of that slice; `none`
is a nil slice. -/
def getSharesOrderedIn (tip : Ptr) (preAllocatedShares : SharesBuffer) :
    Option (SharesBuffer × UInt64) × SharesBuffer :=
  let emitted := emittedShares V consensus difficultyByHeight tip
  match (blocksInPPLNSWindow V consensus tip difficultyByHeight).result with
  | .error _ => (none, preAllocatedShares.leftByError emitted)
  | .ok bottomHeight =>
    (some (preAllocatedShares.sharesOf emitted, bottomHeight), preAllocatedShares.left emitted)

omit [SlicesPackage] in
theorem blocksLoop_calls_ne_nil (tip : Ptr) (limit : Difficulty) (remaining : Nat) :
    ∀ (cur : Ptr) (pplnsWeight : Difficulty) (calls : List WeightCall) (bottomHeight : UInt64),
    (blocksLoop V consensus tip limit remaining cur pplnsWeight calls).result = .ok bottomHeight →
      (blocksLoop V consensus tip limit remaining cur pplnsWeight calls).calls ≠ [] := by
  induction remaining with
  | zero =>
    intro cur pplnsWeight calls bottomHeight
    unfold blocksLoop
    dsimp only
    split
    · simp
    · split_ifs <;> simp
  | succ remaining ih =>
    intro cur pplnsWeight calls bottomHeight
    unfold blocksLoop
    dsimp only
    split
    · simp
    · split_ifs
      · simp
      · simp
      · split
        · simp
        · exact ih _ _ _ bottomHeight

omit [SlicesPackage] in
theorem emittedShares_ne_nil {tip : Ptr} {bottomHeight : UInt64}
    (window : (blocksInPPLNSWindow V consensus tip difficultyByHeight).result = .ok bottomHeight) :
    emittedShares V consensus difficultyByHeight tip ≠ [] := by
  unfold emittedShares
  unfold blocksInPPLNSWindow at window ⊢
  cases main : mainchainDiff V tip difficultyByHeight with
  | error e => simp [main] at window
  | ok mainchain =>
    simp only [main] at window
    simpa using blocksLoop_calls_ne_nil V consensus tip _ _ _ _ _ bottomHeight window

/-- Of a window that is found, `GetSharesOrdered` makes the totals by address, ascending in
consensus order, whatever slice it is given and in whatever order the weights come.  The
comparison function it sorts with has the sign of `ComparePacked` and decides a total order
of addresses. -/
theorem getSharesOrderedIn_canonical (tip : Ptr) (preAllocatedShares : SharesBuffer)
    (bottomHeight : UInt64)
    (window : (blocksInPPLNSWindow V consensus tip difficultyByHeight).result = .ok bottomHeight) :
    (∃ shares : SharesBuffer,
      (getSharesOrderedIn V consensus difficultyByHeight tip preAllocatedShares).1 =
          some (shares, bottomHeight) ∧
        (emittedShares V consensus difficultyByHeight tip).Canonical shares.shares ∧
        ∀ (order : Shares) (other : SharesBuffer),
          order.Perm (emittedShares V consensus difficultyByHeight tip) →
            (other.sharesOf order).shares = shares.shares) ∧
      (∀ a b : Share,
        (a.sortCompare b).sign = Ordering.toInt (a.address.comparePacked b.address)) ∧
      (∀ a b : Share, a.sortCompare b = 0 ↔ a.address = b.address) ∧
      (∀ a b : Share, a.sortCompare b < 0 ↔ 0 < b.sortCompare a) ∧
      ∀ a b c : Share, a.sortCompare b ≤ 0 → b.sortCompare c ≤ 0 → a.sortCompare c ≤ 0 := by
  have nonempty := emittedShares_ne_nil V consensus difficultyByHeight window
  refine ⟨⟨preAllocatedShares.sharesOf (emittedShares V consensus difficultyByHeight tip), ?_, ?_,
    ?_⟩, Share.sign_sortCompare, Share.sortCompare_eq_zero_iff, ?_, ?_⟩
  · simp only [getSharesOrderedIn, window]
  · exact Shares.canonical_of_totals (preAllocatedShares.totals_sharesOf nonempty)
  · intro order other perm
    rw [other.shares_sharesOf nonempty perm,
      preAllocatedShares.shares_sharesOf nonempty (List.Perm.refl _)]
  · intro a b
    rw [Share.sortCompare_neg_iff, Share.sortCompare_pos_iff]
  · intro a b c
    simp only [Share.sortCompare_nonpos_iff]
    exact le_trans

end Ordered

/-- Two miners: the one of the tip and its uncle, and the one of the genesis block below. -/
def twoMinersView : View where
  block
    | 0 => { (default : PoolBlock) with
        side := { (default : SideData) with publicKey := ⟨1, 5⟩, difficulty := ⟨100, 0⟩ } }
    | 1 => { (default : PoolBlock) with
        side := { (default : SideData) with
          publicKey := ⟨2, 4⟩, parent := 7, uncles := [9], height := 1, difficulty := ⟨100, 0⟩ },
        cachedShareVersion := shareVersionV2 }
    | _ => { (default : PoolBlock) with
        side := { (default : SideData) with publicKey := ⟨2, 4⟩, difficulty := ⟨50, 0⟩ } }
  getByTemplateId id := if id = 7 then some 0 else if id = 9 then some 2 else none

/-- Three weights arrive where one share was allocated. -/
theorem getSharesOrderedIn_canonical_twoMiners :
    letI : Uint128Package := .exact
    letI : SlicesPackage := .exact
    (blocksInPPLNSWindow twoMinersView consensusMini 1 fun _ => ⟨1000, 0⟩).result = .ok 0 ∧
      ∃ shares, (getSharesOrderedIn twoMinersView consensusMini (fun _ => ⟨1000, 0⟩) 1
          (SharesBuffer.preAllocateShares ⟨fun _ => default, 3⟩ 1)).1 = some (shares, 0) ∧
        (emittedShares twoMinersView consensusMini (fun _ => ⟨1000, 0⟩) 1).Canonical
          shares.shares := by
  have window : (@blocksInPPLNSWindow .exact twoMinersView consensusMini 1
      fun _ => ⟨1000, 0⟩).result = .ok 0 := by decide +kernel
  obtain ⟨⟨shares, returned, canonical, -⟩, -⟩ := @getSharesOrderedIn_canonical .exact .exact
    twoMinersView consensusMini (fun _ => ⟨1000, 0⟩) 1
    (SharesBuffer.preAllocateShares ⟨fun _ => default, 3⟩ 1) 0 window
  exact ⟨window, shares, returned, canonical⟩

end P2PoolObserver
