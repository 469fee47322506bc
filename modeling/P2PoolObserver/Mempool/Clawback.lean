/-
# Mempool.Clawback -- the weight of a transaction (`NewEntryFromRPCData`)

A range proof for many outputs is smaller than as many proofs for two, and the weight of a
transaction makes up for four fifths of the difference.  The difference is `base * n - size` for
`n` padded outputs, with `base = 32 * (c + 14) / 2` and `size = 32 * (c + 2 * l)`.  The source
writes both products without the inner brackets, `(32 * c + 14) / 2` and `32 * c + 2 * l`.

The two agree at two padded outputs only (`weight_iff`): there both differences are zero.
-/
import P2PoolObserver.Mempool.Pick

namespace P2PoolObserver

open Lib

/-! ## The source -/

/-- What `NewEntryFromRPCData` reads of the transaction: the lengths of the slices, and for each
proof that of its `L`. -/
structure TransactionJSON where
  type : Int
  outpk : Nat
  txnfee : UInt64
  bp : List Nat
  bpp : List Nat
  deriving DecidableEq

def isRctBulletproof (t : Int) : Bool := t == 3 || t == 4 || t == 5

def isRctBulletproofPlus (t : Int) : Bool := t == 6

/-- The loop over the proofs; no result is a shift by a negative count. -/
def paddedOutputsFrom : UInt64 → List Nat → Option UInt64
  | paddedOutputs, [] => some paddedOutputs
  | paddedOutputs, l :: proofs =>
    let lSize := l / 2
    if lSize < 6 then none
    else
      let n2 : UInt64 := if lSize - 6 < 64 then UInt64.ofNat (2 ^ (lSize - 6)) else 0
      if n2 = 0 then some 0 else paddedOutputsFrom (paddedOutputs + n2) proofs

def paddedOutputs (proofs : List Nat) : Option UInt64 := paddedOutputsFrom 0 proofs

/-- `for (1 << nlr) < paddedOutputs`, with so many iterations to go.  From a shift by 64 on the left side is
zero, and the loop does not end. -/
def nlrLoop (paddedOutputs : UInt64) : Nat → Nat → Option Nat
  | 0, _ => none
  | left + 1, nlr => if 2 ^ nlr < paddedOutputs.toNat then nlrLoop paddedOutputs left (nlr + 1) else some nlr

/-- The branch for proofs with `c` elements of a fixed number. -/
def clawbackWeight (c : UInt64) (blobSize : UInt64) (outpk : Nat) (proofs : List Nat) : Option UInt64 :=
  match paddedOutputs proofs with
  | none => none
  | some paddedOutputs =>
    let bpBase := (32 * c + 7 * 2) / 2
    if outpk ≤ 2 then some blobSize
    else
      match nlrLoop paddedOutputs 64 0 with
      | none => none
      | some nlr =>
        let bpSize := 32 * c + 2 * UInt64.ofNat (nlr + 6)
        some (blobSize + (bpBase * paddedOutputs - bpSize) * 4 / 5)

/-- The entry; no result is a panic or a loop that does not end. -/
def newEntryFromRPCData (id : Hash) (buf : Bytes) (json : TransactionJSON) : Option MempoolEntry :=
  let blobSize := UInt64.ofNat buf.length
  let weight :=
    if !isRctBulletproof json.type && !isRctBulletproofPlus json.type then some blobSize
    else if isRctBulletproofPlus json.type then clawbackWeight 6 blobSize json.outpk json.bpp
    else clawbackWeight 9 blobSize json.outpk json.bp
  weight.map fun weight => ⟨id, weight, json.txnfee⟩

/-! ## The exact difference -/

/-- The proofs of the branch that is taken, and their fixed number of elements. -/
def TransactionJSON.proofs (json : TransactionJSON) : List Nat :=
  if isRctBulletproofPlus json.type then json.bpp else json.bp

def TransactionJSON.fixedElements (json : TransactionJSON) : Nat := if isRctBulletproofPlus json.type then 6 else 9

def clawbackBase (c : Nat) : Nat := 32 * (c + 14) / 2

/-- For `n` padded outputs, with `l = 6 + ceil(log2 n)`. -/
def clawbackSize (c n : Nat) : Nat := 32 * (c + 2 * (6 + Nat.clog 2 n))

/-- The weight is the blob size and four fifths of the difference, which is not negative. -/
def MeetsClawback (id : Hash) (buf : Bytes) (json : TransactionJSON) : Prop :=
  ∃ n entry, paddedOutputs json.proofs = some n ∧ newEntryFromRPCData id buf json = some entry ∧
    clawbackSize json.fixedElements n.toNat ≤ clawbackBase json.fixedElements * n.toNat ∧
    entry.weight.toNat = buf.length +
      (clawbackBase json.fixedElements * n.toNat - clawbackSize json.fixedElements n.toNat) * 4 / 5

theorem nlrLoop_eq {n : UInt64} {left nlr r : Nat} (done : nlrLoop n left nlr = some r)
    (before : nlr ≤ Nat.clog 2 n.toNat) : r = Nat.clog 2 n.toNat := by
  induction left generalizing nlr with
  | zero => cases done
  | succ left ih =>
    unfold nlrLoop at done
    split_ifs at done with less
    · exact ih done ((Nat.lt_clog_iff_pow_lt (by norm_num)).mpr less)
    · cases done
      exact le_antisymm before (Nat.clog_le_of_le_pow (not_lt.mp less))

theorem clog_lt_self {n : Nat} (positive : 0 < n) : Nat.clog 2 n + 1 ≤ n := by
  have small : n ≤ 2 ^ (n - 1) := by
    have self := Nat.lt_two_pow_self (n := n - 1)
    omega
  have least := Nat.clog_le_of_le_pow small
  omega

/-- The two fifths of the machine words: without a wrap the product is exact, with one the words are small. -/
theorem fifths_lt {x s e : Nat} (sub : s ≤ x) (word : s < 2 ^ 64) (less : x - s + 2 ≤ e)
    (large : 2 ^ 64 ≤ x → 2 ^ 64 + 5 ≤ e * 4) :
    (2 ^ 64 - s + x % 2 ^ 64) % 2 ^ 64 * 4 % 2 ^ 64 / 5 < e * 4 / 5 := by
  by_cases wraps : 2 ^ 64 ≤ x
  · have enough := large wraps
    have bound := Nat.mod_lt ((2 ^ 64 - s + x % 2 ^ 64) % 2 ^ 64 * 4) (show 2 ^ 64 > 0 by decide)
    omega
  · have exactDifference : (2 ^ 64 - s + x % 2 ^ 64) % 2 ^ 64 = x - s := by omega
    rw [exactDifference]
    have bound := Nat.mod_le ((x - s) * 4) (2 ^ 64)
    omega

theorem toNat_clawback (base fixed n : UInt64) {l : Nat} (few : l ≤ 64) (small : fixed.toNat ≤ 288) :
    ((base * n - (fixed + 2 * UInt64.ofNat (l + 6))) * 4 / 5).toNat =
      (2 ^ 64 - (fixed.toNat + 2 * (l + 6)) + base.toNat * n.toNat % 2 ^ 64) % 2 ^ 64 * 4 % 2 ^ 64 / 5 := by
  have size : (fixed + 2 * UInt64.ofNat (l + 6)).toNat = fixed.toNat + 2 * (l + 6) := by
    rw [UInt64.toNat_add, UInt64.toNat_mul, UInt64.toNat_ofNat']
    change (_ + 2 * _ % _) % _ = _
    omega
  rw [UInt64.toNat_div, UInt64.toNat_mul, UInt64.toNat_sub, size, UInt64.toNat_mul]
  rfl

/-- From three padded outputs on the source's difference is too small, if it does not wrap, and smaller
than a fifth of 2^64 anyway. -/
theorem clawback_lt {c n : UInt64} (kind : c = 6 ∨ c = 9) {l : Nat} (many : 3 ≤ n.toNat) (log : l + 1 ≤ n.toNat)
    (few : l ≤ 64) : (((32 * c + 7 * 2) / 2 * n - (32 * c + 2 * UInt64.ofNat (l + 6))) * 4 / 5).toNat <
      (32 * (c.toNat + 14) / 2 * n.toNat - 32 * (c.toNat + 2 * (6 + l))) * 4 / 5 := by
  have base : ((32 * 6 + 7 * 2) / 2 : UInt64).toNat = 103 ∧ ((32 * 9 + 7 * 2) / 2 : UInt64).toNat = 151 := by decide
  have fixed : (32 * 6 : UInt64).toNat = 192 ∧ (32 * 9 : UInt64).toNat = 288 := by decide
  have elements : (6 : UInt64).toNat = 6 ∧ (9 : UInt64).toNat = 9 := by decide
  rcases kind with rfl | rfl
  · rw [toNat_clawback _ _ n few (by omega), base.1, fixed.1, elements.1]
    exact fifths_lt (by omega) (by omega) (by omega) (by omega)
  · rw [toNat_clawback _ _ n few (by omega), base.2, fixed.2, elements.2]
    exact fifths_lt (by omega) (by omega) (by omega) (by omega)

theorem newEntryFromRPCData_eq {json : TransactionJSON}
    (proved : isRctBulletproof json.type = true ∨ isRctBulletproofPlus json.type = true) (id : Hash) (buf : Bytes) :
    ∃ c : UInt64, (c = 6 ∨ c = 9) ∧ c.toNat = json.fixedElements ∧ newEntryFromRPCData id buf json =
      (clawbackWeight c (UInt64.ofNat buf.length) json.outpk json.proofs).map fun weight =>
        ⟨id, weight, json.txnfee⟩ := by
  unfold newEntryFromRPCData TransactionJSON.proofs TransactionJSON.fixedElements
  cases plus : isRctBulletproofPlus json.type with
  | true => exact ⟨6, .inl rfl, rfl, by simp⟩
  | false =>
    have other : isRctBulletproof json.type = true := by simpa [plus] using proved
    exact ⟨9, .inr rfl, rfl, by simp [other]⟩

/-- With fewer than two padded outputs the exact difference is negative. -/
theorem two_le_of_le {c n : Nat} (whole : clawbackSize c n ≤ clawbackBase c * n) : 2 ≤ n := by
  by_contra fewer
  unfold clawbackBase clawbackSize at whole
  obtain zero | one : n = 0 ∨ n = 1 := by omega
  · rw [zero] at whole
    omega
  · rw [one, Nat.clog_one_right] at whole
    omega

theorem clawbackWeight_eq {c blobSize n w : UInt64} {outpk : Nat} {proofs : List Nat} (many : 2 < outpk)
    (padded : paddedOutputs proofs = some n) (computed : clawbackWeight c blobSize outpk proofs = some w) :
    w = blobSize + ((32 * c + 7 * 2) / 2 * n - (32 * c + 2 * UInt64.ofNat (Nat.clog 2 n.toNat + 6))) * 4 / 5 := by
  unfold clawbackWeight at computed
  rw [padded] at computed
  dsimp only at computed
  rw [if_neg (by omega)] at computed
  split at computed
  · cases computed
  · rename_i nlr looped
    cases computed
    rw [nlrLoop_eq looped (Nat.zero_le _)]

theorem clawbackWeight_two {c : UInt64} (kind : c = 6 ∨ c = 9) (blobSize : UInt64) {outpk : Nat} {proofs : List Nat}
    (padded : paddedOutputs proofs = some 2) (many : 2 < outpk) :
    clawbackWeight c blobSize outpk proofs = some blobSize := by
  have looped : nlrLoop 2 64 0 = some 1 := by decide +kernel
  have none : ((32 * c + 7 * 2) / 2 * 2 - (32 * c + 2 * UInt64.ofNat (1 + 6))) * 4 / 5 = 0 := by
    rcases kind with rfl | rfl
    · decide
    · decide
  unfold clawbackWeight
  rw [padded]
  dsimp only
  rw [if_neg (by omega), looped]
  dsimp only
  rw [none, UInt64.add_zero]

/-- From three padded outputs on the weight is too small. -/
theorem weight_lt {c n : UInt64} (kind : c = 6 ∨ c = 9) (more : 3 ≤ n.toNat) (blobSize : UInt64) :
    (blobSize + ((32 * c + 7 * 2) / 2 * n - (32 * c + 2 * UInt64.ofNat (Nat.clog 2 n.toNat + 6))) * 4 / 5).toNat <
      blobSize.toNat + (clawbackBase c.toNat * n.toNat - clawbackSize c.toNat n.toNat) * 4 / 5 := by
  have log := clog_lt_self (show 0 < n.toNat by omega)
  have less := clawback_lt kind more log (Nat.clog_le_of_le_pow n.toNat_lt.le)
  rw [UInt64.toNat_add]
  unfold clawbackBase clawbackSize
  exact (Nat.mod_le _ _).trans_lt (Nat.add_lt_add_left less _)

/-- The weight is right exactly if there are two padded outputs. -/
theorem weight_iff (id : Hash) {buf : Bytes} (fits : buf.length < 2 ^ 63) {json : TransactionJSON}
    (proved : isRctBulletproof json.type = true ∨ isRctBulletproofPlus json.type = true) (many : 2 < json.outpk) :
    MeetsClawback id buf json ↔ paddedOutputs json.proofs = some 2 := by
  obtain ⟨c, kind, elements, eq⟩ := newEntryFromRPCData_eq proved id buf
  have blob : (UInt64.ofNat buf.length).toNat = buf.length := by
    rw [UInt64.toNat_ofNat', Nat.mod_eq_of_lt (by omega)]
  have kindNat : c.toNat = 6 ∨ c.toNat = 9 := kind.imp (congrArg UInt64.toNat) (congrArg UInt64.toNat)
  unfold MeetsClawback
  rw [eq, ← elements]
  constructor
  · rintro ⟨n, entry, padded, made, whole, weight⟩
    obtain ⟨w, computed, rfl⟩ := Option.map_eq_some_iff.mp made
    obtain rfl := clawbackWeight_eq many padded computed
    have least := two_le_of_le whole
    by_contra other
    have more : 3 ≤ n.toNat := by
      by_contra fewer
      have two : n = 2 := UInt64.toNat_inj.mp (show n.toNat = 2 by omega)
      exact other (padded.trans (congrArg some two))
    have less := weight_lt kind more (UInt64.ofNat buf.length)
    rw [blob] at less
    exact less.ne weight
  · intro padded
    have log : Nat.clog 2 2 = 1 := by decide +kernel
    refine ⟨2, ⟨id, UInt64.ofNat buf.length, json.txnfee⟩, padded, ?_, ?_, ?_⟩
    · rw [clawbackWeight_two kind _ padded many, Option.map_some]
    · change clawbackSize c.toNat 2 ≤ clawbackBase c.toNat * 2
      unfold clawbackBase clawbackSize
      rw [log]
      omega
    · change (UInt64.ofNat buf.length).toNat = buf.length + (clawbackBase c.toNat * 2 - clawbackSize c.toNat 2) * 4 / 5
      unfold clawbackBase clawbackSize
      rw [blob, log]
      omega

/-- One proof for two outputs, and a third output. -/
theorem weight_iff_two : MeetsClawback 0 [] ⟨6, 3, 1, [], [14]⟩ :=
  (weight_iff 0 (show ([] : Bytes).length < 2 ^ 63 by simp) (.inr rfl) (show 2 < 3 by decide)).mpr (by decide +kernel)

/-- One proof for four outputs: the source adds 163 to the blob size, and not 460. -/
theorem weight_four_fails :
    newEntryFromRPCData 0 [] ⟨6, 4, 1, [], [16]⟩ = some ⟨0, 163, 1⟩ ∧
      (clawbackBase 6 * 4 - clawbackSize 6 4) * 4 / 5 = 460 ∧ ¬ MeetsClawback 0 [] ⟨6, 4, 1, [], [16]⟩ ∧
      newEntryFromRPCData 0 [] ⟨6, 3, 1, [], []⟩ = some ⟨0, 3689348814741910160, 1⟩ := by
  have value : (clawbackBase 6 * 4 - clawbackSize 6 4) * 4 / 5 = 460 := by decide +kernel
  have made : newEntryFromRPCData 0 [] ⟨6, 4, 1, [], [16]⟩ = some ⟨0, 163, 1⟩ := by decide +kernel
  refine ⟨made, value, ?_, by decide +kernel⟩
  rintro ⟨n, entry, padded, made', -, weight⟩
  have four : paddedOutputs (TransactionJSON.proofs ⟨6, 4, 1, [], [16]⟩) = some 4 := by decide +kernel
  have six : TransactionJSON.fixedElements ⟨6, 4, 1, [], [16]⟩ = 6 := by decide
  have word : (4 : UInt64).toNat = 4 := rfl
  have blob : (163 : UInt64).toNat = 163 := rfl
  rw [four] at padded
  cases padded
  rw [made] at made'
  cases made'
  rw [six, word, value, blob, List.length_nil] at weight
  omega

end P2PoolObserver
