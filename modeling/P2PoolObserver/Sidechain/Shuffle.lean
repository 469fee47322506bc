/-
# Sidechain.Shuffle -- the swaps behind `ShuffleShares` (`utils.go`, `xorshift64star.go`)

`ShuffleSequence` hands a sequence of swaps to a callback; `ShuffleShares` applies
them to a slice.  Which swaps these are is a function of the share version, the key
seed and the number of items alone (`swapSequence`).
-/
import P2PoolObserver.Sidechain.Shares
import P2PoolObserver.Utils.QuickSelect

namespace P2PoolObserver

open Lib

/-! ## The generator -/

theorem eq_zero_of_mul_odd {x : UInt64} {c : Nat} (odd : Nat.Coprime (2 ^ 64) c)
    (divides : 2 ^ 64 ∣ x.toNat * c) : x = 0 := by
  have whole : 2 ^ 64 ∣ x.toNat := odd.dvd_of_dvd_mul_right divides
  exact UInt64.toNat_inj.mp (Nat.eq_zero_of_dvd_of_lt whole x.toNat_lt)

theorem eq_zero_of_mul_multiplier {x : UInt64} (zero : x * 0x2545F4914F6CDD1D = 0) : x = 0 := by
  have product := congrArg UInt64.toNat zero
  rw [UInt64.toNat_mul] at product
  exact eq_zero_of_mul_odd (by decide +kernel) (Nat.dvd_of_mod_eq_zero product)

theorem eq_zero_of_xor_shiftLeft_25 {x : UInt64} (zero : x ^^^ (x <<< 25) = 0) : x = 0 := by
  have same := congrArg UInt64.toNat (UInt64.xor_eq_zero_iff.mp zero)
  rw [UInt64.toNat_shiftLeft, Nat.shiftLeft_eq] at same
  have multiple : x.toNat ≡ x.toNat * 2 ^ 25 [MOD 2 ^ 64] := by
    rw [Nat.ModEq, Nat.mod_eq_of_lt x.toNat_lt]
    exact same
  have bound : x.toNat ≤ x.toNat * 2 ^ 25 := Nat.le_mul_of_pos_right _ (by decide)
  have divides := (Nat.modEq_iff_dvd' bound).mp multiple
  rw [show x.toNat * 2 ^ 25 - x.toNat = x.toNat * (2 ^ 25 - 1) by
    rw [Nat.mul_sub, Nat.mul_one]] at divides
  exact eq_zero_of_mul_odd (by decide +kernel) divides

theorem eq_zero_of_xor_shiftRight {x k : UInt64} (shifts : 0 < k.toNat % 64) (zero : x ^^^ (x >>> k) = 0) :
    x = 0 := by
  have same := congrArg UInt64.toNat (UInt64.xor_eq_zero_iff.mp zero)
  rw [UInt64.toNat_shiftRight, Nat.shiftRight_eq_div_pow] at same
  have shrinks : 1 < 2 ^ (k.toNat % 64) := Nat.one_lt_two_pow (by omega)
  apply UInt64.toNat_inj.mp
  by_contra positive
  have smaller := Nat.div_lt_self (Nat.pos_of_ne_zero positive) shrinks
  omega

theorem xorShift64Star_ne_zero {x : UInt64} (nonzero : x ≠ 0) : xorShift64Star x ≠ 0 := by
  intro zero
  have third := eq_zero_of_mul_multiplier zero
  have second := eq_zero_of_xor_shiftRight (by decide) third
  have first := eq_zero_of_xor_shiftLeft_25 second
  exact nonzero (eq_zero_of_xor_shiftRight (by decide) first)

def shuffleState (seed : UInt64) : Nat → UInt64
  | 0 => seed
  | t + 1 => xorShift64Star (shuffleState seed t)

theorem shuffleState_ne_zero {seed : UInt64} (nonzero : seed ≠ 0) : ∀ t, shuffleState seed t ≠ 0
  | 0 => nonzero
  | t + 1 => xorShift64Star_ne_zero (shuffleState_ne_zero nonzero t)

/-! ## The swaps -/

def shuffleSequenceLoop {σ : Type} (swap : σ → Nat → Nat → σ) (n : Nat) : Nat → Nat → UInt64 → σ → σ
  | 0, _, _, acc => acc
  | steps + 1, i, seed, acc =>
    let seed := xorShift64Star seed
    let k := (Difficulty.bitsMul64 seed (UInt64.ofNat (n - i))).1
    shuffleSequenceLoop swap n steps (i + 1) seed (swap acc i (i + k.toNat))

section Sequence

variable [Crypto]

def shuffleSeed (privateKeySeed : Hash) : UInt64 :=
  let seed := (Crypto.keccak256 (Bytes32.bytes privateKeySeed)).uint64
  if seed = 0 then 1 else seed

def shuffleSequence {σ : Type} (shareVersion : ShareVersion) (privateKeySeed : Hash) (items : Nat)
    (swap : σ → Nat → Nat → σ) (start : σ) : σ :=
  if shareVersion > shareVersionV1 ∧ items > 1 then
    shuffleSequenceLoop swap items (items - 1) 0 (shuffleSeed privateKeySeed) start
  else start

def swapSequence (shareVersion : ShareVersion) (privateKeySeed : Hash) (items : Nat) : List (Nat × Nat) :=
  shuffleSequence shareVersion privateKeySeed items (fun calls i j => calls ++ [(i, j)]) []

theorem shuffleSeed_ne_zero (privateKeySeed : Hash) : shuffleSeed privateKeySeed ≠ 0 := by
  unfold shuffleSeed
  dsimp only
  split_ifs with zero
  · decide
  · exact zero

end Sequence

/-- The swap at step `t` of a sequence for `n` items. -/
def swapAt (seed : UInt64) (n t : Nat) : Nat × Nat :=
  (t, t + (Difficulty.bitsMul64 (shuffleState seed (t + 1)) (UInt64.ofNat (n - t))).1.toNat)

theorem bitsMul64_hi_lt {x : UInt64} {m : Nat} (positive : 0 < m) :
    (Difficulty.bitsMul64 x (UInt64.ofNat m)).1.toNat < m := by
  have small := x.toNat_lt
  have value : (Difficulty.bitsMul64 x (UInt64.ofNat m)).1.toNat = x.toNat * (m % 2 ^ 64) / 2 ^ 64 := by
    have fits : x.toNat * (m % 2 ^ 64) / 2 ^ 64 < 2 ^ 64 := by
      rw [Nat.div_lt_iff_lt_mul (by decide)]
      exact Nat.mul_lt_mul'' small (Nat.mod_lt m (by decide))
    rw [Difficulty.bitsMul64, UInt64.toNat_ofNat', UInt64.toNat_ofNat', Nat.mod_eq_of_lt fits]
  rw [value, Nat.div_lt_iff_lt_mul (by decide)]
  have wrapped : m % 2 ^ 64 ≤ m := Nat.mod_le _ _
  calc x.toNat * (m % 2 ^ 64) ≤ x.toNat * m := Nat.mul_le_mul_left _ wrapped
    _ < 2 ^ 64 * m := Nat.mul_lt_mul_of_pos_right small positive
    _ = m * 2 ^ 64 := Nat.mul_comm _ _

theorem swapAt_inside (seed : UInt64) {n t : Nat} (left : t < n) :
    (swapAt seed n t).1 ≤ (swapAt seed n t).2 ∧ (swapAt seed n t).2 < n := by
  have picked := bitsMul64_hi_lt (x := shuffleState seed (t + 1)) (m := n - t) (by omega)
  simp only [swapAt]
  omega

theorem shuffleSequenceLoop_eq {σ : Type} (swap : σ → Nat → Nat → σ) (n : Nat) (seed : UInt64) :
    ∀ (steps i : Nat) (acc : σ), shuffleSequenceLoop swap n steps i (shuffleState seed i) acc =
      ((List.range' i steps).map (swapAt seed n)).foldl (fun acc s => swap acc s.1 s.2) acc
  | 0, _, _ => rfl
  | steps + 1, i, acc => by
    rw [List.range'_succ, List.map_cons, List.foldl_cons]
    exact shuffleSequenceLoop_eq swap n seed steps (i + 1) _

theorem foldl_snoc {α : Type} : ∀ (xs acc : List α), xs.foldl (fun calls x => calls ++ [x]) acc = acc ++ xs
  | [], acc => (List.append_nil acc).symm
  | x :: xs, acc => by
    rw [List.foldl_cons, foldl_snoc xs, List.append_assoc, List.singleton_append]

section Sequence

variable [Crypto] (shareVersion : ShareVersion) (privateKeySeed : Hash)

theorem swapSequence_eq (n : Nat) : swapSequence shareVersion privateKeySeed n =
    if shareVersion > shareVersionV1 ∧ n > 1 then
      (List.range (n - 1)).map (swapAt (shuffleSeed privateKeySeed) n)
    else [] := by
  unfold swapSequence shuffleSequence
  split_ifs
  · rw [List.range_eq_range']
    have calls := shuffleSequenceLoop_eq (fun calls i j => calls ++ [(i, j)]) n
      (shuffleSeed privateKeySeed) (n - 1) 0 []
    rw [shuffleState] at calls
    rw [calls, foldl_snoc, List.nil_append]
  · rfl

theorem shuffleSequence_eq {σ : Type} (n : Nat) (swap : σ → Nat → Nat → σ) (start : σ) :
    shuffleSequence shareVersion privateKeySeed n swap start =
      (swapSequence shareVersion privateKeySeed n).foldl (fun acc s => swap acc s.1 s.2) start := by
  rw [swapSequence_eq]
  unfold shuffleSequence
  split_ifs
  · rw [List.range_eq_range']
    exact shuffleSequenceLoop_eq swap n (shuffleSeed privateKeySeed) (n - 1) 0 start
  · rfl

omit [Crypto] in
theorem shuffleLoop_eq {α : Type} (n : Nat) : ∀ (steps i : Nat) (seed : UInt64) (items : List α),
    shuffleLoop n steps i seed items = shuffleSequenceLoop swap n steps i seed items
  | 0, _, _, _ => rfl
  | steps + 1, _, _, _ => shuffleLoop_eq n steps _ _ _

theorem shuffleShares_eq {α : Type} (xs : List α) : shuffleShares xs shareVersion privateKeySeed =
    (swapSequence shareVersion privateKeySeed xs.length).foldl (fun ys s => swap ys s.1 s.2) xs := by
  rw [← shuffleSequence_eq]
  unfold shuffleShares shuffleSequence
  split_ifs
  · exact shuffleLoop_eq _ _ _ _ _
  · rfl

theorem swapSequence_inside {n : Nat} {s : Nat × Nat} (mem : s ∈ swapSequence shareVersion privateKeySeed n) :
    s.1 ≤ s.2 ∧ s.2 < n := by
  rw [swapSequence_eq] at mem
  split_ifs at mem
  · obtain ⟨t, inRange, rfl⟩ := List.mem_map.mp mem
    have left : t < n - 1 := List.mem_range.mp inRange
    exact swapAt_inside _ (by omega)
  · cases mem

/-! ## Swapping in a slice -/

omit [Crypto] in
theorem foldl_swap_perm {α : Type} : ∀ (swaps : List (Nat × Nat)) (xs : List α),
    (∀ s ∈ swaps, s.1 ≤ s.2 ∧ s.2 < xs.length) →
      (swaps.foldl (fun ys s => swap ys s.1 s.2) xs).Perm xs
  | [], xs, _ => List.Perm.refl xs
  | s :: swaps, xs, inside => by
    obtain ⟨ordered, last⟩ := inside s (.head _)
    have rest := foldl_swap_perm swaps (swap xs s.1 s.2) fun t mem => by
      rw [length_swap]
      exact inside t (.tail s mem)
    refine rest.trans ?_
    rw [swap_eq (Nat.lt_of_le_of_lt ordered last) last]
    exact List.set_set_perm _ _

omit [Crypto] in
theorem foldl_swap_map {α β : Type} (f : α → β) : ∀ (swaps : List (Nat × Nat)) (xs : List α),
    swaps.foldl (fun ys s => swap ys s.1 s.2) (xs.map f) =
      (swaps.foldl (fun ys s => swap ys s.1 s.2) xs).map f
  | [], _ => rfl
  | s :: swaps, xs => by
    rw [List.foldl_cons, map_swap, foldl_swap_map f swaps, List.foldl_cons]

/-- The swaps stay inside the slice and leave a permutation of it, they depend on
version, seed and length only, so that parallel slices stay aligned, and the
generator is never zero. -/
theorem shuffle_permutes :
    (∀ n, ∀ s ∈ swapSequence shareVersion privateKeySeed n, s.1 ≤ s.2 ∧ s.2 < n) ∧
    (∀ (α : Type) (xs : List α), (shuffleShares xs shareVersion privateKeySeed).Perm xs) ∧
    (∀ (α : Type) (xs : List α), shuffleShares xs shareVersion privateKeySeed =
      (swapSequence shareVersion privateKeySeed xs.length).foldl (fun ys s => swap ys s.1 s.2) xs) ∧
    (∀ (α β : Type) (f : α → β) (xs : List α), shuffleShares (xs.map f) shareVersion privateKeySeed =
      (shuffleShares xs shareVersion privateKeySeed).map f) ∧
    (∀ n, swapSequence shareVersion privateKeySeed n =
      if shareVersion > shareVersionV1 ∧ n > 1 then
        (List.range (n - 1)).map (swapAt (shuffleSeed privateKeySeed) n) else []) ∧
    ∀ t, shuffleState (shuffleSeed privateKeySeed) t ≠ 0 := by
  refine ⟨fun n s => swapSequence_inside shareVersion privateKeySeed, fun α xs => ?_,
    fun α xs => shuffleShares_eq shareVersion privateKeySeed xs, fun α β f xs => ?_,
    swapSequence_eq shareVersion privateKeySeed, shuffleState_ne_zero (shuffleSeed_ne_zero privateKeySeed)⟩
  · rw [shuffleShares_eq]
    exact foldl_swap_perm _ xs fun s mem => swapSequence_inside shareVersion privateKeySeed mem
  · rw [shuffleShares_eq, shuffleShares_eq, List.length_map, foldl_swap_map]

end Sequence

end P2PoolObserver
