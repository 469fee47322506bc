/-
# Monero.Merkle -- the transaction tree (`monero/crypto/merkle.go`)

`RootHash` reduces the tree in one scratch slice: the leaves that are too many for a perfect
tree are joined in pairs first, then each level is joined in place.  `MainBranch` does the
same and keeps the sibling of the first node at each level before it is overwritten.

The branch leads from the first leaf to the root exactly unless the tree has two leaves
(`mainBranch_proves_iff`), for which the source returns no branch.
-/
import P2PoolObserver.Lib.PairTree
import P2PoolObserver.Sidechain.Pow
import P2PoolObserver.Sidechain.RoundTrip

namespace P2PoolObserver

open Lib

namespace BinaryTreeHash

variable {α : Type} (H : α → α → α)
variable {n offset : Nat} {t : List α} {a : α}

/-! ## The source -/

def offsetBranchLoop (t : List α) (offset : Nat) :
    Nat → Nat → List α → List α → Except Fault (List α × List α)
  | 0, _, temporaryTree, mainBranch => .ok (temporaryTree, mainBranch)
  | count + 1, i, temporaryTree, mainBranch => do
    let mainBranch ← if offset + i * 2 = 0 then (do return mainBranch ++ [← index t 1]) else .ok mainBranch
    let node ← leafHash H (← sliceFrom t (offset + i * 2))
    offsetBranchLoop t offset count (i + 1) (← store temporaryTree (offset + i) node) mainBranch

def levelBranchLoop : Nat → Nat → List α → List α → Except Fault (List α × List α)
  | 0, _, temporaryTree, mainBranch => .ok (temporaryTree, mainBranch)
  | count + 1, i, temporaryTree, mainBranch => do
    let mainBranch ← if i = 0 then (do return mainBranch ++ [← index temporaryTree 1]) else .ok mainBranch
    let node ← leafHash H (← sliceFrom temporaryTree (i * 2))
    levelBranchLoop count (i + 1) (← store temporaryTree i node) mainBranch

def branchLevels : Nat → Nat → List α → List α → Except Fault (List α × List α)
  | 0, _, _, _ => .error .outOfFuel
  | fuel + 1, pow2cnt, temporaryTree, mainBranch =>
    let pow2cnt := pow2cnt >>> 1
    if pow2cnt > 1 then do
      let (temporaryTree, mainBranch) ← levelBranchLoop H pow2cnt 0 temporaryTree mainBranch
      branchLevels fuel pow2cnt temporaryTree mainBranch
    else .ok (temporaryTree, mainBranch)

def mainBranch [Inhabited α] (t : List α) : Except Fault (List α) := do
  let count := t.length
  if count ≤ 2 then return []
  else
    let pow2cnt := previousPowerOfTwo (UInt64.ofNat count)
    let offset := pow2cnt * 2 - count
    let (temporaryTree, mainBranch) ←
      offsetBranchLoop H t offset (pow2cnt - offset) 0 (scratch t pow2cnt offset) []
    let (temporaryTree, mainBranch) ← branchLevels H 64 pow2cnt temporaryTree mainBranch
    return mainBranch ++ [← index temporaryTree 1]

/-! ## The tree hash -/

/-- The nodes of the lowest full level of a tree with more than two leaves: with `p` the
largest power of two up to their number `n`, the first `2 * p - n` leaves and the others joined
in pairs. -/
def nodes (t : List α) : List α :=
  let kept := 2 * 2 ^ Nat.log 2 t.length - t.length
  t.take kept ++ pairUp H (t.drop kept)

def treeHash [Inhabited α] : List α → α
  | [] => default
  | [a] => a
  | [a, b] => H a b
  | a :: b :: c :: rest =>
    perfectTree H (Nat.log 2 (a :: b :: c :: rest).length) (nodes H (a :: b :: c :: rest))

/-! ## Powers of two -/

theorem previousPowerOfTwo_eq (positive : n ≠ 0) (fits : n < 2 ^ 63) :
    previousPowerOfTwo (UInt64.ofNat n) = 2 ^ Nat.log 2 n := by
  have value : (UInt64.ofNat n).toNat = n := UInt64.toNat_ofNat_of_lt' (lt_trans fits (by decide))
  have nonzero : UInt64.ofNat n ≠ 0 := by
    intro zero
    rw [zero] at value
    exact positive value.symm
  have small : Nat.log 2 n < 63 := Nat.log_lt_of_lt_pow positive fits
  rw [previousPowerOfTwo, if_neg nonzero, leadingZeros64, if_neg nonzero, value, Nat.log2_eq_log_two,
    Nat.one_shiftLeft]
  congr 1
  omega

theorem kept_bounds (many : 2 < n) : 2 ^ Nat.log 2 n ≤ n ∧ n < 2 * 2 ^ Nat.log 2 n ∧ 2 ≤ 2 ^ Nat.log 2 n := by
  have low : 2 ^ Nat.log 2 n ≤ n := Nat.pow_log_le_self 2 (by omega)
  have high : n < 2 ^ (Nat.log 2 n + 1) := Nat.lt_pow_succ_log_self (by omega) n
  have one : 1 ≤ Nat.log 2 n := Nat.log_pos (by omega) (by omega)
  have two : 2 ^ 1 ≤ 2 ^ Nat.log 2 n := Nat.pow_le_pow_right (by omega) one
  rw [pow_succ] at high
  exact ⟨low, by omega, by omega⟩

theorem length_nodes (many : 2 < t.length) : (nodes H t).length = 2 ^ Nat.log 2 t.length := by
  obtain ⟨low, high, -⟩ := kept_bounds many
  have pairs : (t.drop (2 * 2 ^ Nat.log 2 t.length - t.length)).length =
      2 * (t.length - 2 ^ Nat.log 2 t.length) := by
    rw [List.length_drop]
    omega
  rw [nodes, List.length_append, length_pairUp H pairs, List.length_take]
  omega

/-! ## The loops -/

theorem leafHash_drop {k : Nat} {b : α} (first : t[k]? = some a)
    (second : t[k + 1]? = some b) : leafHash H (t.drop k) = .ok (H a b) := by
  obtain ⟨bound, here⟩ := List.getElem?_eq_some_iff.mp second
  obtain ⟨_, here'⟩ := List.getElem?_eq_some_iff.mp first
  rw [List.drop_eq_getElem_cons (by omega), List.drop_eq_getElem_cons (by omega), here, here']
  rfl

theorem offsetLoop_eq [Inhabited α] {pairs : Nat}
    (total : t.length = offset + 2 * pairs) : ∀ (count i : Nat), i + count = pairs →
      offsetLoop H t offset count i (t.take offset ++
          (pairUp H ((t.drop offset).take (2 * i)) ++ List.replicate count default)) =
        .ok (t.take offset ++ pairUp H (t.drop offset)) := by
  intro count
  induction count with
  | zero =>
    intro i done
    have whole : (t.drop offset).take (2 * i) = t.drop offset := by
      rw [List.take_of_length_le]
      rw [List.length_drop]
      omega
    rw [offsetLoop, whole, List.replicate_zero, List.append_nil]
  | succ count ih =>
    intro i left
    have bound : offset + i * 2 + 1 < t.length := by omega
    have first : t[offset + i * 2]? = some t[offset + i * 2] := List.getElem?_eq_getElem _
    have second : t[offset + i * 2 + 1]? = some t[offset + i * 2 + 1] := List.getElem?_eq_getElem _
    have front : (t.take offset).length = offset := by rw [List.length_take]; omega
    have before : ((t.drop offset).take (2 * i)).length = 2 * i := by
      rw [List.length_take, List.length_drop]
      omega
    have joined := length_pairUp H before
    have more : (t.drop offset).take (2 * (i + 1)) =
        (t.drop offset).take (2 * i) ++ [t[offset + i * 2], t[offset + i * 2 + 1]] := by
      rw [show 2 * (i + 1) = 2 * i + 1 + 1 by ring, List.take_add_one, List.take_add_one,
        List.getElem?_drop, List.getElem?_drop, Nat.mul_comm 2 i, ← Nat.add_assoc, first, second]
      simp
    have stored : (t.take offset ++ (pairUp H ((t.drop offset).take (2 * i)) ++
          List.replicate (count + 1) default)).set (offset + i)
            (H t[offset + i * 2] t[offset + i * 2 + 1]) =
        t.take offset ++ (pairUp H ((t.drop offset).take (2 * (i + 1))) ++
          List.replicate count default) := by
      rw [List.set_append_right _ _ (by omega), front, Nat.add_sub_cancel_left,
        List.set_append_right _ _ (by omega), joined, Nat.sub_self, List.replicate_succ,
        List.set_cons_zero, more, pairUp_append H before]
      simp [pairUp]
    have room : offset + i < (t.take offset ++ (pairUp H ((t.drop offset).take (2 * i)) ++
        List.replicate (count + 1) default)).length := by
      simp only [List.length_append, front, joined, List.length_replicate]
      omega
    rw [offsetLoop, sliceFrom_of_le (by omega)]
    dsimp only [bind, Except.bind]
    rw [leafHash_drop H first second]
    dsimp only
    rw [store_of_lt room, stored]
    exact ih _ (by omega)

theorem levelLoop_eq (t : List α) : ∀ (count i : Nat), 2 * (i + count) ≤ t.length →
    levelLoop H count i (pairUp H (t.take (2 * i)) ++ t.drop i) =
      .ok (pairUp H (t.take (2 * (i + count))) ++ t.drop (i + count)) := by
  intro count
  induction count with
  | zero => exact fun _ _ => rfl
  | succ count ih =>
    intro i enough
    have bound : 2 * i + 1 < t.length := by omega
    have first : t[2 * i]? = some t[2 * i] := List.getElem?_eq_getElem _
    have second : t[2 * i + 1]? = some t[2 * i + 1] := List.getElem?_eq_getElem _
    have size := length_pairUp_append H (t := t) (i := i) (by omega)
    have node : leafHash H ((pairUp H (t.take (2 * i)) ++ t.drop i).drop (i * 2)) =
        .ok (H t[2 * i] t[2 * i + 1]) := by
      rw [Nat.mul_comm i 2]
      refine leafHash_drop H ?_ ?_
      · rw [getElem?_pairUp_append H (by omega) (by omega), first]
      · rw [getElem?_pairUp_append H (by omega) (by omega), second]
    rw [levelLoop, sliceFrom_of_le (by omega)]
    dsimp only [bind, Except.bind]
    rw [node]
    dsimp only
    rw [store_of_lt (by omega), set_pairUp H first second]
    dsimp only
    rw [ih _ (by omega), Nat.add_right_comm i 1 count, Nat.add_assoc i count 1]

theorem levelLoop_level (enough : 2 * n ≤ t.length) :
    levelLoop H n 0 t = .ok (pairUp H (t.take (2 * n)) ++ t.drop n) := by
  have whole := levelLoop_eq H t n 0 (by omega)
  rw [Nat.zero_add] at whole
  exact whole

theorem take_level (enough : 2 * n ≤ t.length) :
    (pairUp H (t.take (2 * n)) ++ t.drop n).take n = pairUp H (t.take (2 * n)) := by
  have front : (t.take (2 * n)).length = 2 * n := by rw [List.length_take]; omega
  exact List.take_left' (length_pairUp H front)

omit H in
theorem halves (d : Nat) :
    2 ^ (d + 1 + 1) = 2 * 2 ^ (d + 1) ∧ 2 ^ (d + 1 + 1) >>> 1 = 2 ^ (d + 1) ∧ 2 ^ (d + 1) > 1 := by
  have double : 2 ^ (d + 1 + 1) = 2 * 2 ^ (d + 1) := by rw [pow_succ]; ring
  refine ⟨double, ?_, Nat.one_lt_two_pow (by omega)⟩
  rw [Nat.shiftRight_one, double]
  omega

theorem levels_eq [Inhabited α] : ∀ (d fuel : Nat) (t : List α), d < fuel → 2 ^ (d + 1) ≤ t.length →
    ∃ top, levels H fuel (2 ^ (d + 1)) t = .ok top ∧ 2 ≤ top.length ∧
      perfectTree H 1 (top.take 2) = perfectTree H (d + 1) (t.take (2 ^ (d + 1))) := by
  intro d
  induction d with
  | zero =>
    intro fuel t enough size
    obtain ⟨fuel, rfl⟩ := Nat.exists_eq_succ_of_ne_zero (by omega : fuel ≠ 0)
    exact ⟨t, rfl, size, rfl⟩
  | succ d ih =>
    intro fuel t enough size
    obtain ⟨fuel, rfl⟩ := Nat.exists_eq_succ_of_ne_zero (by omega : fuel ≠ 0)
    obtain ⟨double, half, above⟩ := halves d
    have room : 2 * 2 ^ (d + 1) ≤ t.length := by omega
    have joined := length_pairUp_append H room
    obtain ⟨top, run, two, same⟩ := ih fuel
      (pairUp H (t.take (2 * 2 ^ (d + 1))) ++ t.drop (2 ^ (d + 1))) (by omega) (by omega)
    have front : (t.take (2 ^ (d + 1 + 1))).length = 2 ^ (d + 1 + 1) := by rw [List.length_take]; omega
    refine ⟨top, ?_, two, ?_⟩
    · rw [levels, half, if_pos above, levelLoop_level H room]
      exact run
    · rw [same, take_level H room, perfectTree_pairUp H front, double]

/-! ## The root -/

theorem leafHash_top [Inhabited α] {top : List α} (two : 2 ≤ top.length) :
    leafHash H top = .ok (perfectTree H 1 (top.take 2)) := by
  match top, two with
  | _ :: _ :: _, _ => rfl

theorem offsetLoop_nodes [Inhabited α] (many : 2 < t.length) :
    offsetLoop H t (2 ^ Nat.log 2 t.length * 2 - t.length)
        (2 ^ Nat.log 2 t.length - (2 ^ Nat.log 2 t.length * 2 - t.length)) 0
        (scratch t (2 ^ Nat.log 2 t.length) (2 ^ Nat.log 2 t.length * 2 - t.length)) = .ok (nodes H t) := by
  obtain ⟨low, high, -⟩ := kept_bounds many
  unfold nodes
  generalize 2 ^ Nat.log 2 t.length = p at low high
  have kept : (t.take (p * 2 - t.length)).length = p * 2 - t.length := by rw [List.length_take]; omega
  have start : scratch t p (p * 2 - t.length) =
      t.take (p * 2 - t.length) ++ List.replicate (p - (p * 2 - t.length)) default := by
    rw [scratch, copySlice, List.length_replicate, kept, List.drop_replicate,
      List.take_of_length_le (by omega)]
  have total : t.length = p * 2 - t.length + 2 * (p - (p * 2 - t.length)) := by omega
  have run := offsetLoop_eq H total (p - (p * 2 - t.length)) 0 (by omega)
  rw [start, Nat.mul_comm 2 p]
  exact run

theorem levels_nodes [Inhabited α] (many : 2 < t.length) (fits : t.length < 2 ^ 63) :
    ∃ top, levels H 64 (2 ^ Nat.log 2 t.length) (nodes H t) = .ok top ∧ 2 ≤ top.length ∧
      perfectTree H 1 (top.take 2) = perfectTree H (Nat.log 2 t.length) (nodes H t) := by
  obtain ⟨d, depth⟩ := Nat.exists_eq_succ_of_ne_zero (Nat.log_pos (b := 2) (by omega) (by omega : 2 ≤ t.length)).ne'
  have small : Nat.log 2 t.length < 63 := Nat.log_lt_of_lt_pow (by omega) fits
  have size := length_nodes H many
  rw [depth] at size ⊢
  obtain ⟨top, run, two, same⟩ := levels_eq H d 64 (nodes H t) (by omega) (by omega)
  have whole : (nodes H t).take (2 ^ (d + 1)) = nodes H t := List.take_of_length_le size.le
  rw [whole] at same
  exact ⟨top, run, two, same⟩

theorem rootHash_of_many [Inhabited α] (many : 2 < t.length) (fits : t.length < 2 ^ 63) :
    rootHash H t = .ok (perfectTree H (Nat.log 2 t.length) (nodes H t)) := by
  obtain ⟨top, run, two, same⟩ := levels_nodes H many fits
  rw [rootHash, if_neg (by omega), previousPowerOfTwo_eq (by omega) fits]
  dsimp only [bind, Except.bind]
  rw [offsetLoop_nodes H many]
  dsimp only
  rw [run]
  dsimp only
  rw [leafHash_top H two, same]

/-- `RootHash` is the tree hash. -/
theorem rootHash_eq_treeHash [Inhabited α] {t : List α} (nonempty : t ≠ []) (fits : t.length < 2 ^ 63) :
    rootHash H t = .ok (treeHash H t) := by
  match t, nonempty with
  | [_], _ => rfl
  | [_, _], _ => rfl
  | a :: b :: c :: rest, _ => exact rootHash_of_many H (by simp) fits

/-- The tree of five leaves: three stay, and the last two are joined first. -/
theorem rootHash_eq_treeHash_five :
    rootHash (fun a b => 10 * a + b) [1, 2, 3, 4, 5] = .ok (treeHash (fun a b => 10 * a + b) [1, 2, 3, 4, 5]) ∧
      treeHash (fun a b => 10 * a + b) [1, 2, 3, 4, 5] = 10 * (10 * 1 + 2) + (10 * 3 + (10 * 4 + 5)) :=
  ⟨rootHash_eq_treeHash _ (by decide) (by decide), by decide +kernel⟩

/-! ## The main branch -/

omit H in
theorem map_bind {ε β γ δ : Type} (x : Except ε β) (f : β → Except ε γ) (g : γ → δ) :
    (x >>= f).map g = x >>= fun a => (f a).map g := by
  cases x <;> rfl

theorem offsetBranchLoop_eq (some' : 0 < offset) (branch : List α) :
    ∀ (count i : Nat) (tree : List α), offsetBranchLoop H t offset count i tree branch =
      (offsetLoop H t offset count i tree).map (·, branch) := by
  intro count
  induction count with
  | zero => exact fun _ _ => rfl
  | succ count ih =>
    intro i tree
    rw [offsetBranchLoop, offsetLoop, if_neg (by omega)]
    simp only [map_bind, ← ih]
    rfl

theorem levelBranchLoop_eq (branch : List α) : ∀ (count : Nat) {i : Nat} (tree : List α), i ≠ 0 →
    levelBranchLoop H count i tree branch = (levelLoop H count i tree).map (·, branch) := by
  intro count
  induction count with
  | zero => exact fun _ _ => rfl
  | succ count ih =>
    intro i tree later
    rw [levelBranchLoop, levelLoop, if_neg later]
    simp only [map_bind, ← ih _ (Nat.succ_ne_zero i)]
    rfl

theorem levelBranchLoop_level {sibling : α} (some' : 0 < n) (second : t[1]? = some sibling) (branch : List α) :
    levelBranchLoop H n 0 t branch = (levelLoop H n 0 t).map (·, branch ++ [sibling]) := by
  obtain ⟨n, rfl⟩ := Nat.exists_eq_succ_of_ne_zero some'.ne'
  rw [levelBranchLoop, levelLoop, if_pos rfl, index_of_getElem? second]
  simp only [map_bind, ← levelBranchLoop_eq H _ n _ (Nat.succ_ne_zero 0)]
  rfl

theorem branchLevels_eq [Inhabited α] : ∀ (d fuel : Nat) (t branch : List α), d < fuel →
    2 ^ (d + 1) ≤ t.length → ∃ top siblings last, branchLevels H fuel (2 ^ (d + 1)) t branch =
        .ok (top, branch ++ siblings) ∧ top[1]? = some last ∧
      siblings ++ [last] = leftBranch H (d + 1) (t.take (2 ^ (d + 1))) := by
  intro d
  induction d with
  | zero =>
    intro fuel t branch enough size
    obtain ⟨fuel, rfl⟩ := Nat.exists_eq_succ_of_ne_zero (by omega : fuel ≠ 0)
    match t, size with
    | a :: b :: rest, _ => exact ⟨a :: b :: rest, [], b, by rw [List.append_nil]; rfl, rfl, rfl⟩
  | succ d ih =>
    intro fuel t branch enough size
    obtain ⟨fuel, rfl⟩ := Nat.exists_eq_succ_of_ne_zero (by omega : fuel ≠ 0)
    obtain ⟨double, half, above⟩ := halves d
    have room : 2 * 2 ^ (d + 1) ≤ t.length := by omega
    have joined := length_pairUp_append H room
    have second : t[1]? = some t[1] := List.getElem?_eq_getElem _
    obtain ⟨top, siblings, last, run, there, same⟩ := ih fuel
      (pairUp H (t.take (2 * 2 ^ (d + 1))) ++ t.drop (2 ^ (d + 1))) (branch ++ [t[1]]) (by omega) (by omega)
    refine ⟨top, t[1] :: siblings, last, ?_, there, ?_⟩
    · rw [branchLevels, half, if_pos above, levelBranchLoop_level H (by omega) second,
        levelLoop_level H room]
      rw [List.append_assoc, List.singleton_append] at run
      exact run
    · have kept : (t.take (2 ^ (d + 1 + 1))).getD 1 default = t[1] := by
        rw [List.getD_eq_getElem?_getD, List.getElem?_take_of_lt (by omega), second]
        rfl
      rw [leftBranch, kept, List.cons_append, same, take_level H room, double]

theorem mainBranch_eq [Inhabited α] (many : 2 < t.length) (fits : t.length < 2 ^ 63) :
    mainBranch H t = .ok (leftBranch H (Nat.log 2 t.length) (nodes H t)) := by
  obtain ⟨low, high, -⟩ := kept_bounds many
  obtain ⟨d, depth⟩ := Nat.exists_eq_succ_of_ne_zero (Nat.log_pos (b := 2) (by omega) (by omega : 2 ≤ t.length)).ne'
  have small : Nat.log 2 t.length < 63 := Nat.log_lt_of_lt_pow (by omega) fits
  have size := length_nodes H many
  have start := offsetLoop_nodes H many
  rw [mainBranch, if_neg (by omega), previousPowerOfTwo_eq (by omega) fits]
  dsimp only [bind, Except.bind]
  rw [offsetBranchLoop_eq H (by omega), start]
  rw [depth] at size ⊢
  obtain ⟨top, siblings, last, run, there, same⟩ :=
    branchLevels_eq H d 64 (nodes H t) [] (by omega) (by omega)
  have whole : (nodes H t).take (2 ^ (d + 1)) = nodes H t := List.take_of_length_le size.le
  rw [whole] at same
  dsimp only [Except.map]
  rw [run]
  dsimp only
  rw [index_of_getElem? there, List.nil_append]
  dsimp only
  rw [same]
  rfl

theorem headD_nodes [Inhabited α] {rest : List α} (many : 2 < (a :: rest).length) :
    (nodes H (a :: rest)).headD default = a := by
  obtain ⟨low, high, -⟩ := kept_bounds many
  obtain ⟨k, kept⟩ := Nat.exists_eq_succ_of_ne_zero
    (by omega : 2 * 2 ^ Nat.log 2 (a :: rest).length - (a :: rest).length ≠ 0)
  rw [nodes, kept]
  rfl

def BranchProves [Inhabited α] (t : List α) : Prop :=
  ∃ branch, mainBranch H t = .ok branch ∧ rootHash H t = .ok (branch.foldl H (t.headD default))

/-- It does for every number of leaves but two, where the branch is empty. -/
theorem mainBranch_proves_iff [Inhabited α] (a : α) (rest : List α) (fits : (a :: rest).length < 2 ^ 63) :
    BranchProves H (a :: rest) ↔ ∀ b, rest = [b] → H a b = a := by
  match rest with
  | [] => exact ⟨fun _ => nofun, fun _ => ⟨[], rfl, rfl⟩⟩
  | [b] =>
    constructor
    · rintro ⟨branch, found, root⟩ b' same
      cases same
      cases found
      exact Except.ok.inj root
    · intro joined
      exact ⟨[], rfl, congrArg Except.ok (joined b rfl)⟩
  | b :: c :: rest =>
    have many : 2 < (a :: b :: c :: rest).length := by simp
    refine ⟨fun _ _ same => (nomatch same), fun _ => ⟨_, mainBranch_eq H many fits, ?_⟩⟩
    have first := headD_nodes H many
    have fold := foldl_leftBranch H (length_nodes H many)
    rw [first] at fold
    rw [rootHash_of_many H many fits, ← fold]
    rfl

theorem mainBranch_proves_five : BranchProves (fun a b => 10 * a + b) [1, 2, 3, 4, 5] :=
  (mainBranch_proves_iff _ 1 [2, 3, 4, 5] (by decide)).mpr nofun

/-- A block with one transaction: the branch is empty, and the root is not the coinbase hash. -/
theorem mainBranch_two_leaves :
    mainBranch (@hashTwo RoundTripExample.crypto) [5, 6] = .ok [] ∧
      rootHash (@hashTwo RoundTripExample.crypto) [5, 6] = .ok 1 ∧
      ¬ BranchProves (@hashTwo RoundTripExample.crypto) [5, 6] := by
  refine ⟨rfl, rfl, ?_⟩
  rintro ⟨branch, found, root⟩
  cases found
  exact absurd (Except.ok.inj root) (by decide)

end BinaryTreeHash

end P2PoolObserver
