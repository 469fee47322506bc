/-
# Sidechain.CompactFilling -- transactions of a compact block (`poolblock.go`)

The loop that fills in the parent's transactions refuses an index by comparing the one below it
with the number of the parent's transactions, so that the index one past the last is let through
and read.
-/
import P2PoolObserver.Sidechain.Preprocess
import P2PoolObserver.Sidechain.DecodedBlocks

namespace P2PoolObserver

open Lib Lib.Reader

/-! ## Compact blocks -/

/-- A transaction that is named by its place in the parent, counted from one, has a zero hash. -/
structure MainBlock.CompactForm (main : MainBlock) : Prop where
  indices : main.transactionParentIndices.length = main.transactions.length
  named : ∀ (i : Nat) (k : UInt64), main.transactionParentIndices[i]? = some k → k ≠ 0 →
    main.transactions[i]? = some zeroHash

theorem PoolBlock.needsCompactTransactionFilling_of_named {b : PoolBlock}
    (compact : b.main.CompactForm) {i : Nat} {k : UInt64}
    (stated : b.main.transactionParentIndices[i]? = some k) (positive : k ≠ 0) :
    b.needsCompactTransactionFilling = true := by
  have zero : zeroHash ∈ b.main.transactions := List.mem_of_getElem? (compact.named i k stated positive)
  have some' : 0 < b.main.transactionParentIndices.length :=
    List.length_pos_of_mem (List.mem_of_getElem? stated)
  simp [needsCompactTransactionFilling, compact.indices, zero, compact.indices ▸ some']

/-! ## The loop -/

def pastEnd (parentTransactions : List Hash) (k : UInt64) : Bool :=
  decide (parentTransactions.length < k.toNat)

/-- Each transaction is the parent's one with its index, or the old one at the index zero. -/
structure FilledFrom (parentTransactions : List Hash) (indices : List UInt64) (txs filled : List Hash) :
    Prop where
  length : filled.length = txs.length
  named : ∀ (i : Nat) (k : UInt64), indices[i]? = some k → k ≠ 0 →
    ∃ tx, parentTransactions[k.toNat - 1]? = some tx ∧ filled[i]? = some tx
  others : ∀ (i : Nat), indices[i]? = some 0 → filled[i]? = txs[i]?

theorem FilledFrom.cons {parentTransactions : List Hash} {indices : List UInt64} {txs filled : List Hash}
    (rest : FilledFrom parentTransactions indices txs filled) {k : UInt64} {old new : Hash}
    (named : k ≠ 0 → parentTransactions[k.toNat - 1]? = some new) (other : k = 0 → new = old) :
    FilledFrom parentTransactions (k :: indices) (old :: txs) (new :: filled) where
  length := congrArg (· + 1) rest.length
  named i k' stated positive := by
    cases i with
    | zero =>
      cases stated
      exact ⟨new, named positive, rfl⟩
    | succ i => exact rest.named i k' stated positive
  others i stated := by
    cases i with
    | zero => exact congrArg some (other (Option.some.inj stated))
    | succ i => exact rest.others i stated

theorem toNat_pred {k : UInt64} (positive : k ≠ 0) : (k - 1).toNat = k.toNat - 1 := by
  have one : (1 : UInt64) ≤ k := by
    rw [UInt64.le_iff_toNat_le]
    exact Nat.one_le_iff_ne_zero.mpr fun zero => positive (UInt64.toNat_inj.mp zero)
  rw [UInt64.toNat_sub_of_le _ _ one]
  rfl

section Loop

variable {parentTransactions : List Hash}

theorem fillTransactions_step {k : UInt64} (inside : pastEnd parentTransactions k = false) (old : Hash)
    (indices : List UInt64) (txs : List Hash) :
    ∃ new, (k ≠ 0 → parentTransactions[k.toNat - 1]? = some new) ∧ (k = 0 → new = old) ∧
      fillTransactions parentTransactions (k :: indices) (old :: txs) =
        (new :: (fillTransactions parentTransactions indices txs).1,
          (fillTransactions parentTransactions indices txs).2) := by
  have small : k.toNat ≤ parentTransactions.length := not_lt.mp (of_decide_eq_false inside)
  by_cases zero : k = 0
  · exact ⟨old, fun positive => absurd zero positive, fun _ => rfl, by simp [fillTransactions, zero]⟩
  · have positive : 0 < k.toNat := Nat.pos_of_ne_zero fun none => zero (UInt64.toNat_inj.mp none)
    have place : k.toNat - 1 < parentTransactions.length := by omega
    refine ⟨parentTransactions.get ⟨k.toNat - 1, place⟩, fun _ => List.getElem?_eq_getElem place,
      fun none => absurd none zero, ?_⟩
    have read : parentTransactions[(k - 1).toNat]? = some (parentTransactions.get ⟨k.toNat - 1, place⟩) := by
      rw [toNat_pred zero]
      exact List.getElem?_eq_getElem place
    rw [fillTransactions, if_pos zero]
    dsimp only
    rw [if_neg (by rw [toNat_pred zero]; omega), read]

theorem fillTransactions_inside : ∀ (indices : List UInt64) (txs : List Hash),
    indices.length = txs.length → (∀ k ∈ indices, pastEnd parentTransactions k = false) →
      FilledFrom parentTransactions indices txs (fillTransactions parentTransactions indices txs).1 ∧
        (fillTransactions parentTransactions indices txs).2 = .filled
  | [], [], _, _ => ⟨⟨rfl, nofun, nofun⟩, rfl⟩
  | k :: indices, old :: txs, same, inside => by
    obtain ⟨first, later⟩ := List.forall_mem_cons.mp inside
    obtain ⟨new, named, other, run⟩ := fillTransactions_step first old indices txs
    obtain ⟨rest, filled⟩ := fillTransactions_inside indices txs (Nat.succ.inj same) later
    rw [run]
    exact ⟨rest.cons named other, filled⟩

theorem fillTransactions_pastEnd {k : UInt64} : ∀ (indices : List UInt64) (txs : List Hash),
    indices.length = txs.length → indices.find? (pastEnd parentTransactions) = some k →
      (fillTransactions parentTransactions indices txs).2 =
        if k.toNat = parentTransactions.length + 1 then .panicked "index out of range"
        else .failed "index of parent transaction out of bounds"
  | [], _, _, first => by cases first
  | k' :: indices, old :: txs, same, first => by
    cases past : pastEnd parentTransactions k' with
    | false =>
      rw [List.find?_cons, past] at first
      obtain ⟨new, -, -, run⟩ := fillTransactions_step past old indices txs
      rw [run]
      exact fillTransactions_pastEnd indices txs (Nat.succ.inj same) first
    | true =>
      rw [List.find?_cons, past] at first
      obtain rfl : k' = k := Option.some.inj first
      have large : parentTransactions.length < k'.toNat := of_decide_eq_true past
      have positive : k' ≠ 0 := by
        rintro rfl
        exact absurd large (Nat.not_lt_zero _)
      rw [fillTransactions, if_pos positive, toNat_pred positive]
      dsimp only
      by_cases next : k'.toNat = parentTransactions.length + 1
      · rw [if_neg (by omega), if_pos next, List.getElem?_eq_none (by omega)]
      · rw [if_pos (by omega), if_neg next]

end Loop

namespace PoolBlock

variable {b p : PoolBlock}

/-! ## Filling a block -/

/-- Filling does not crash, fails exactly on an index beyond the parent, and else fills in what was named. -/
structure FillSafe (b p : PoolBlock) : Prop where
  returns : ∀ message, (b.fillTransactionsFromTransactionParentIndices (some p)).2 ≠ .panicked message
  fails_iff : (∃ message, (b.fillTransactionsFromTransactionParentIndices (some p)).2 = .failed message) ↔
    b.needsCompactTransactionFilling = true ∧
      ∃ k ∈ b.main.transactionParentIndices, k ≠ 0 ∧ p.main.transactions.length < k.toNat
  fills : (b.fillTransactionsFromTransactionParentIndices (some p)).2 = .filled →
    FilledFrom p.main.transactions b.main.transactionParentIndices b.main.transactions
      (b.fillTransactionsFromTransactionParentIndices (some p)).1.main.transactions

theorem fillTransactions_of_needs (needs : b.needsCompactTransactionFilling = true)
    (claimed : hashFromBytes (p.coinbaseExtra .sideTemplateId) = b.side.parent) :
    (b.fillTransactionsFromTransactionParentIndices (some p)).1.main.transactions =
        (fillTransactions p.main.transactions b.main.transactionParentIndices b.main.transactions).1 ∧
      (b.fillTransactionsFromTransactionParentIndices (some p)).2 =
        (fillTransactions p.main.transactions b.main.transactionParentIndices b.main.transactions).2 := by
  rw [fillTransactionsFromTransactionParentIndices, if_pos needs]
  dsimp only
  rw [if_pos claimed]
  exact ⟨rfl, rfl⟩

theorem fillSafe_of_whole (compact : b.main.CompactForm)
    (whole : b.needsCompactTransactionFilling = false) : b.FillSafe p := by
  have run : b.fillTransactionsFromTransactionParentIndices (some p) = (b, .filled) := by
    rw [fillTransactionsFromTransactionParentIndices, whole, if_neg Bool.false_ne_true]
  have zero : ∀ (i : Nat) (k : UInt64), b.main.transactionParentIndices[i]? = some k → k = 0 := by
    intro i k stated
    by_contra positive
    rw [needsCompactTransactionFilling_of_named compact stated positive] at whole
    cases whole
  refine ⟨?_, ?_, ?_⟩
  · rw [run]
    exact nofun
  · rw [run, whole]
    simp
  · intro _
    rw [run]
    exact ⟨rfl, fun i k stated positive => absurd (zero i k stated) positive, fun _ _ => rfl⟩

theorem fillSafe_of_inside (compact : b.main.CompactForm)
    (claimed : hashFromBytes (p.coinbaseExtra .sideTemplateId) = b.side.parent)
    (needs : b.needsCompactTransactionFilling = true)
    (none : b.main.transactionParentIndices.find? (pastEnd p.main.transactions) = none) : b.FillSafe p := by
  obtain ⟨transactions, outcome⟩ := fillTransactions_of_needs needs claimed
  have inside : ∀ k ∈ b.main.transactionParentIndices, pastEnd p.main.transactions k = false :=
    fun k present => Bool.eq_false_iff.mpr (List.find?_eq_none.mp none k present)
  obtain ⟨filled, done⟩ := fillTransactions_inside _ _ compact.indices inside
  rw [← outcome] at done
  refine ⟨?_, ?_, ?_⟩
  · rw [done]
    exact nofun
  · rw [done, needs]
    refine ⟨nofun, fun ⟨_, k, present, _, large⟩ => ?_⟩
    exact absurd large (of_decide_eq_false (inside k present))
  · intro _
    rw [transactions]
    exact filled

theorem fillSafe_iff_of_pastEnd (compact : b.main.CompactForm)
    (claimed : hashFromBytes (p.coinbaseExtra .sideTemplateId) = b.side.parent)
    (needs : b.needsCompactTransactionFilling = true) {k : UInt64}
    (first : b.main.transactionParentIndices.find? (pastEnd p.main.transactions) = some k) :
    b.FillSafe p ↔ k.toNat ≠ p.main.transactions.length + 1 := by
  have stopped := fillTransactions_pastEnd _ _ compact.indices first
  rw [← (fillTransactions_of_needs needs claimed).2] at stopped
  have past : pastEnd p.main.transactions k = true := List.find?_some first
  have large : p.main.transactions.length < k.toNat := of_decide_eq_true past
  constructor
  · intro safe next
    rw [if_pos next] at stopped
    exact safe.returns _ stopped
  · intro other
    rw [if_neg other] at stopped
    refine ⟨?_, ?_, ?_⟩
    · rw [stopped]
      exact nofun
    · rw [stopped, needs]
      refine ⟨fun _ => ⟨rfl, k, List.mem_of_find?_eq_some first, ?_, large⟩, fun _ => ⟨_, rfl⟩⟩
      rintro rfl
      exact absurd large (Nat.not_lt_zero _)
    · rw [stopped]
      exact nofun

/-- Filling a compact block from its parent is safe exactly if the first index past the end,
where filling is needed, is not the next one. -/
theorem fillSafe_iff {b p : PoolBlock} (compact : b.main.CompactForm)
    (claimed : hashFromBytes (p.coinbaseExtra .sideTemplateId) = b.side.parent) :
    b.FillSafe p ↔ (b.needsCompactTransactionFilling = true → ∀ k,
      b.main.transactionParentIndices.find? (pastEnd p.main.transactions) = some k →
        k.toNat ≠ p.main.transactions.length + 1) := by
  cases needs : b.needsCompactTransactionFilling with
  | false => exact ⟨fun _ => nofun, fun _ => fillSafe_of_whole compact needs⟩
  | true =>
    cases first : b.main.transactionParentIndices.find? (pastEnd p.main.transactions) with
    | none => exact ⟨fun _ _ => nofun, fun _ => fillSafe_of_inside compact claimed needs first⟩
    | some k =>
      rw [fillSafe_iff_of_pastEnd compact claimed needs first]
      constructor
      · rintro other - k' same
        obtain rfl : k = k' := Option.some.inj same
        exact other
      · intro condition
        exact condition rfl k rfl

end PoolBlock

namespace FillingExample

def parent : PoolBlock := { RoundTripExample.block with main :=
  { RoundTripExample.block.main with transactions := [21, 22] } }

def compactBlock (index : UInt64) : PoolBlock :=
  { (default : PoolBlock) with
    main := { (default : MainBlock) with transactions := [zeroHash], transactionParentIndices := [index] }
    side := { (default : SideData) with parent := .ofBytes (List.replicate 32 9) } }

theorem compactForm (index : UInt64) : (compactBlock index).main.CompactForm where
  indices := rfl
  named i k stated _ := by
    cases i with
    | zero => rfl
    | succ i => cases stated

theorem fillSafe_last : (compactBlock 2).FillSafe parent :=
  (PoolBlock.fillSafe_iff (compactForm 2) (by decide +kernel)).mpr fun _ _ none => by cases none

/-- The index after the last is read. -/
theorem fill_panics : (compactBlock 3).main.CompactForm ∧
    hashFromBytes (parent.coinbaseExtra .sideTemplateId) = (compactBlock 3).side.parent ∧
    ((compactBlock 3).fillTransactionsFromTransactionParentIndices (some parent)).2 =
      .panicked "index out of range" := by
  refine ⟨compactForm 3, ?_, ?_⟩
  · decide +kernel
  · decide +kernel

end FillingExample

end P2PoolObserver
