/-
# Monero.ScReduce -- reduction of 32 bytes modulo the group order (`edwards25519.go`)

`scReduce32` splits the bytes into twelve limbs of 21 bits, and twice replaces what lies
above bit 252 by its multiple of the order's tail.  The limbs are words of 64 bits: of `wrap`,
what their arithmetic does to a result, nothing is assumed but that it keeps what fits.

With the carries rounded to the nearest, what is left of the first pass is below 2^252 in
size; so the second quotient is 0 or -1, and the result is the remainder (`scReduce32_eq`).
-/
import P2PoolObserver.Lib.Bytes
import P2PoolObserver.Lib.Limbs
import Mathlib.Data.Int.Bitwise
import Mathlib.Tactic.IntervalCases
import Mathlib.Tactic.NormNum

namespace P2PoolObserver

open Lib

/-! ## The source -/

/-- The order of the group, `2 ^ 252 + 27742317777372353535851937790883648493`. -/
def groupOrder : Nat := 7237005577332262213973186563042994240857116359379907606001950938285454250989

def int64 (x : Int) : Int := (x + 2 ^ 63) % 2 ^ 64 - 2 ^ 63

def load3 (bs : Bytes) : Nat :=
  (bs.getD 0 0).toNat ||| (bs.getD 1 0).toNat <<< 8 ||| (bs.getD 2 0).toNat <<< 16

def load4 (bs : Bytes) : Nat :=
  (bs.getD 0 0).toNat ||| (bs.getD 1 0).toNat <<< 8 ||| (bs.getD 2 0).toNat <<< 16 |||
    (bs.getD 3 0).toNat <<< 24

def loadLimbs (s : Bytes) : Limbs
  | 0 => ((2097151 &&& load3 s : Nat) : Int)
  | 1 => ((2097151 &&& (load4 (s.drop 2) >>> 5) : Nat) : Int)
  | 2 => ((2097151 &&& (load3 (s.drop 5) >>> 2) : Nat) : Int)
  | 3 => ((2097151 &&& (load4 (s.drop 7) >>> 7) : Nat) : Int)
  | 4 => ((2097151 &&& (load4 (s.drop 10) >>> 4) : Nat) : Int)
  | 5 => ((2097151 &&& (load3 (s.drop 13) >>> 1) : Nat) : Int)
  | 6 => ((2097151 &&& (load4 (s.drop 15) >>> 6) : Nat) : Int)
  | 7 => ((2097151 &&& (load3 (s.drop 18) >>> 3) : Nat) : Int)
  | 8 => ((2097151 &&& load3 (s.drop 21) : Nat) : Int)
  | 9 => ((2097151 &&& (load4 (s.drop 23) >>> 5) : Nat) : Int)
  | 10 => ((2097151 &&& (load3 (s.drop 26) >>> 2) : Nat) : Int)
  | 11 => ((load4 (s.drop 28) >>> 7 : Nat) : Int)
  | _ => 0

section Machine

variable (wrap : Int → Int)

/-- `carry[i] = (si + round) >> 21`, then `s(i+1) += carry[i]` and `si -= carry[i] << 21`. -/
def carryStep (round : Int) (s : Limbs) (i : Nat) : Limbs :=
  let c := wrap (s i + round) >>> (21 : Nat)
  fun j =>
    if j = i then wrap (s j - wrap (c <<< (21 : Nat)))
    else if j = i + 1 then wrap (s j + c)
    else s j

/-- What is above bit 252 is taken down; the second time the source leaves `s12` as it is
and does not use it again. -/
def foldTop (s : Limbs) : Limbs
  | 0 => wrap (s 0 + wrap (s 12 * 666643))
  | 1 => wrap (s 1 + wrap (s 12 * 470296))
  | 2 => wrap (s 2 + wrap (s 12 * 654183))
  | 3 => wrap (s 3 - wrap (s 12 * 997805))
  | 4 => wrap (s 4 + wrap (s 12 * 136657))
  | 5 => wrap (s 5 - wrap (s 12 * 683901))
  | 12 => 0
  | j => s j

def firstPass (s : Limbs) : Limbs :=
  [0, 2, 4, 6, 8, 10, 1, 3, 5, 7, 9, 11].foldl (carryStep wrap (1 <<< 20)) s

def laterPass (n : Nat) (s : Limbs) : Limbs := (List.range n).foldl (carryStep wrap 0) s

def reduceLimbs (s : Limbs) : Limbs :=
  laterPass wrap 11 (foldTop wrap (laterPass wrap 12 (foldTop wrap (firstPass wrap s))))

def lowByte (x : Int) : UInt8 := UInt8.ofNat (x % 256).toNat

def storeLimbs (s : Limbs) : Bytes :=
  [lowByte (s 0 >>> (0 : Nat)),
    lowByte (s 0 >>> (8 : Nat)),
    lowByte (Int.lor (s 0 >>> (16 : Nat)) (s 1 <<< (5 : Nat))),
    lowByte (s 1 >>> (3 : Nat)),
    lowByte (s 1 >>> (11 : Nat)),
    lowByte (Int.lor (s 1 >>> (19 : Nat)) (s 2 <<< (2 : Nat))),
    lowByte (s 2 >>> (6 : Nat)),
    lowByte (Int.lor (s 2 >>> (14 : Nat)) (s 3 <<< (7 : Nat))),
    lowByte (s 3 >>> (1 : Nat)),
    lowByte (s 3 >>> (9 : Nat)),
    lowByte (Int.lor (s 3 >>> (17 : Nat)) (s 4 <<< (4 : Nat))),
    lowByte (s 4 >>> (4 : Nat)),
    lowByte (s 4 >>> (12 : Nat)),
    lowByte (Int.lor (s 4 >>> (20 : Nat)) (s 5 <<< (1 : Nat))),
    lowByte (s 5 >>> (7 : Nat)),
    lowByte (Int.lor (s 5 >>> (15 : Nat)) (s 6 <<< (6 : Nat))),
    lowByte (s 6 >>> (2 : Nat)),
    lowByte (s 6 >>> (10 : Nat)),
    lowByte (Int.lor (s 6 >>> (18 : Nat)) (s 7 <<< (3 : Nat))),
    lowByte (s 7 >>> (5 : Nat)),
    lowByte (s 7 >>> (13 : Nat)),
    lowByte (s 8 >>> (0 : Nat)),
    lowByte (s 8 >>> (8 : Nat)),
    lowByte (Int.lor (s 8 >>> (16 : Nat)) (s 9 <<< (5 : Nat))),
    lowByte (s 9 >>> (3 : Nat)),
    lowByte (s 9 >>> (11 : Nat)),
    lowByte (Int.lor (s 9 >>> (19 : Nat)) (s 10 <<< (2 : Nat))),
    lowByte (s 10 >>> (6 : Nat)),
    lowByte (Int.lor (s 10 >>> (14 : Nat)) (s 11 <<< (7 : Nat))),
    lowByte (s 11 >>> (1 : Nat)),
    lowByte (s 11 >>> (9 : Nat)),
    lowByte (s 11 >>> (17 : Nat))]

def scReduce32With (s : Bytes) : Bytes := storeLimbs (reduceLimbs wrap (loadLimbs s))

end Machine

def scReduce32 (s : Bytes) : Bytes := scReduce32With int64 s

/-! ## The machine keeps what fits -/

/-- The arithmetic keeps every result that is a word of 64 bits. -/
def KeepsWords (wrap : Int → Int) : Prop := ∀ x, -2 ^ 63 ≤ x → x < 2 ^ 63 → wrap x = x

theorem keepsWords_int64 : KeepsWords int64 := by
  intro x low high
  unfold int64
  omega

/-- All limbs are at most `b` in size, and the thirteenth at most `t`. -/
structure Bounded (b t : Int) (s : Limbs) : Prop where
  limbs : ∀ j, -b ≤ s j ∧ s j ≤ b
  top : -t ≤ s 12 ∧ s 12 ≤ t

theorem Bounded.mono {b t c d : Int} {s : Limbs} (bounded : Bounded b t s) (limbs : b ≤ c) (tops : t ≤ d) :
    Bounded c d s := by
  refine ⟨fun j => ?_, ?_⟩
  · have here := bounded.limbs j
    omega
  · have top := bounded.top
    omega

section Exact

variable {wrap : Int → Int} (keeps : KeepsWords wrap) {b t g round : Int} {s : Limbs}

def carried (round : Int) (s : Limbs) (i : Nat) : Int := (s i + round) / 2 ^ 21

theorem carried_bounds (bounded : Bounded b t s) (nonneg : 0 ≤ round) (small : round ≤ 2 ^ 20)
    (growth : b ≤ g * 2 ^ 20) (enough : 4 ≤ g) (i : Nat) : -g ≤ carried round s i ∧ carried round s i ≤ g := by
  have limb := bounded.limbs i
  unfold carried
  omega

theorem rest_bounds (s : Limbs) (i : Nat) (round : Int) :
    -round ≤ s i - carried round s i * 2 ^ 21 ∧ s i - carried round s i * 2 ^ 21 < 2 ^ 21 - round := by
  unfold carried
  omega

include keeps in
theorem carryStep_eq (bounded : Bounded b t s) (nonneg : 0 ≤ round) (small : round ≤ 2 ^ 20)
    (growth : b ≤ g * 2 ^ 20) (enough : 4 ≤ g) (fits : g ≤ 2 ^ 40) (i : Nat) :
    carryStep wrap round s i = Limbs.carry (2 ^ 21) (carried round s i) i s := by
  have limb := bounded.limbs
  have amount := carried_bounds bounded nonneg small growth enough i
  have rest := rest_bounds s i round
  have sum : wrap (s i + round) = s i + round := keeps _ (by have := limb i; omega) (by have := limb i; omega)
  have shift : (s i + round) >>> (21 : Nat) = carried round s i := Int.shiftRight_eq_div_pow _ _
  have product : wrap (carried round s i <<< (21 : Nat)) = carried round s i * 2 ^ 21 := by
    rw [Int.shiftLeft_eq]
    exact keeps _ (by omega) (by omega)
  funext j
  unfold carryStep Limbs.carry
  rw [sum, shift, product]
  split_ifs with own next
  · subst own
    exact keeps _ (by omega) (by omega)
  · have here := limb j
    exact keeps _ (by omega) (by omega)
  · rfl

theorem bounded_carry (bounded : Bounded b t s) (nonneg : 0 ≤ round) (small : round ≤ 2 ^ 20)
    (growth : b ≤ g * 2 ^ 20) (enough : 4 ≤ g) (large : 2 ^ 21 ≤ b) {i : Nat} (inside : i < 12) :
    Bounded (b + g) (t + g) (Limbs.carry (2 ^ 21) (carried round s i) i s) := by
  have limb := bounded.limbs
  have top := bounded.top
  have amount := carried_bounds bounded nonneg small growth enough i
  have rest := rest_bounds s i round
  constructor
  · intro j
    have here := limb j
    unfold Limbs.carry
    split_ifs with own next
    · subst own
      omega
    · omega
    · omega
  · unfold Limbs.carry
    split_ifs with own next
    · omega
    · omega
    · omega

def exactPass (round : Int) (is : List Nat) (s : Limbs) : Limbs :=
  is.foldl (fun s i => Limbs.carry (2 ^ 21) (carried round s i) i s) s

/-- Bounds under which a pass of carries over the limbs `is` keeps within words. -/
structure Pass (round g : Int) (is : List Nat) (b t : Int) (s : Limbs) : Prop where
  nonneg : 0 ≤ round
  small : round ≤ 2 ^ 20
  enough : 4 ≤ g
  inside : ∀ i ∈ is, i < 12
  bounded : Bounded b t s
  large : 2 ^ 21 ≤ b
  growth : b + is.length * g ≤ g * 2 ^ 20

namespace Pass

variable {i : Nat} {rest : List Nat}

theorem growth_cons (pass : Pass round g (i :: rest) b t s) :
    b ≤ g * 2 ^ 20 ∧ b + g + rest.length * g ≤ g * 2 ^ 20 := by
  have growth := pass.growth
  have enough := pass.enough
  rw [List.length_cons] at growth
  push_cast at growth
  have counted : 0 ≤ (rest.length : Int) * g := by positivity
  constructor
  · linarith
  · linarith

theorem carried (pass : Pass round g (i :: rest) b t s) :
    -g ≤ P2PoolObserver.carried round s i ∧ P2PoolObserver.carried round s i ≤ g :=
  carried_bounds pass.bounded pass.nonneg pass.small pass.growth_cons.1 pass.enough i

theorem next (pass : Pass round g (i :: rest) b t s) :
    Pass round g rest (b + g) (t + g) (Limbs.carry (2 ^ 21) (P2PoolObserver.carried round s i) i s) where
  nonneg := pass.nonneg
  small := pass.small
  enough := pass.enough
  inside := (List.forall_mem_cons.mp pass.inside).2
  bounded := bounded_carry pass.bounded pass.nonneg pass.small pass.growth_cons.1 pass.enough pass.large
    (List.forall_mem_cons.mp pass.inside).1
  large := by
    have enough := pass.enough
    have large := pass.large
    omega
  growth := pass.growth_cons.2

end Pass

include keeps in
theorem pass_eq {is : List Nat} (pass : Pass round g is b t s) (fits : g ≤ 2 ^ 40) :
    is.foldl (carryStep wrap round) s = exactPass round is s ∧
      Bounded (b + is.length * g) (t + is.length * g) (exactPass round is s) := by
  induction is generalizing s b t with
  | nil => exact ⟨rfl, by simpa [exactPass] using pass.bounded⟩
  | cons i rest ih =>
    have step := carryStep_eq keeps pass.bounded pass.nonneg pass.small pass.growth_cons.1 pass.enough fits i
    obtain ⟨same, final⟩ := ih pass.next
    refine ⟨?_, ?_⟩
    · rw [List.foldl_cons, step, same]
      rfl
    · rw [List.length_cons]
      push_cast
      have sizes : b + (rest.length + 1) * g = b + g + rest.length * g := by ring
      have tops : t + (rest.length + 1) * g = t + g + rest.length * g := by ring
      rw [sizes, tops]
      exact final

theorem value_exactPass (is : List Nat) (inside : ∀ i ∈ is, i < 12) :
    Limbs.value (2 ^ 21) 13 (exactPass round is s) = Limbs.value (2 ^ 21) 13 s := by
  induction is generalizing s with
  | nil => rfl
  | cons i rest ih =>
    obtain ⟨first, later⟩ := List.forall_mem_cons.mp inside
    exact (ih later).trans (Limbs.value_carry (by omega))

theorem exactPass_range (n : Nat) (s : Limbs) : exactPass 0 (List.range n) s = Limbs.normalize (2 ^ 21) n s := by
  unfold exactPass Limbs.normalize carried
  simp only [add_zero]

/-! ## The first pass -/

theorem drift_exactPass {is : List Nat} (pass : Pass round g is b t s) {j : Nat} (other : j ∉ is) :
    s j - is.length * g ≤ exactPass round is s j ∧ exactPass round is s j ≤ s j + is.length * g := by
  induction is generalizing s b t with
  | nil => simp [exactPass]
  | cons i rest ih =>
    rw [List.mem_cons, not_or] at other
    obtain ⟨apart, absent⟩ := other
    have amount := pass.carried
    have rest' := ih pass.next absent
    have step : s j - g ≤ Limbs.carry (2 ^ 21) (carried round s i) i s j ∧
        Limbs.carry (2 ^ 21) (carried round s i) i s j ≤ s j + g := by
      unfold Limbs.carry
      rw [if_neg apart]
      split_ifs
      · omega
      · omega
    rw [List.length_cons]
    push_cast
    change _ ≤ exactPass round rest _ j ∧ exactPass round rest _ j ≤ _
    constructor
    · linarith [rest'.1, step.1]
    · linarith [rest'.2, step.2]

theorem near_exactPass {is : List Nat} (pass : Pass round g is b t s) (once : is.Nodup) {j : Nat} (own : j ∈ is) :
    -round - is.length * g ≤ exactPass round is s j ∧ exactPass round is s j ≤ 2 ^ 21 - round + is.length * g := by
  induction is generalizing s b t with
  | nil => cases own
  | cons i rest ih =>
    obtain ⟨absent, others⟩ := List.nodup_cons.mp once
    have enough := pass.enough
    rw [List.length_cons]
    push_cast
    change _ ≤ exactPass round rest _ j ∧ exactPass round rest _ j ≤ _
    by_cases here : j = i
    · subst here
      have left := rest_bounds s j round
      have after := drift_exactPass pass.next absent
      rw [Limbs.carry_self] at after
      constructor
      · linarith [after.1, left.1]
      · linarith [after.2, left.2]
    · have after := ih pass.next others ((List.mem_cons.mp own).resolve_left here)
      constructor
      · linarith [after.1]
      · linarith [after.2]

/-! ## Taking the top down -/

theorem foldTop_rows (f : Int → Int) (s : Limbs) (j : Nat) : (∃ k : Int, 0 ≤ k ∧ k ≤ 2 ^ 20 ∧
      (foldTop f s j = f (s j + f (s 12 * k)) ∨ foldTop f s j = f (s j - f (s 12 * k)))) ∨
      foldTop f s j = s j ∨ foldTop f s j = 0 := by
  unfold foldTop
  split
  · exact .inl ⟨666643, by norm_num, by norm_num, .inl rfl⟩
  · exact .inl ⟨470296, by norm_num, by norm_num, .inl rfl⟩
  · exact .inl ⟨654183, by norm_num, by norm_num, .inl rfl⟩
  · exact .inl ⟨997805, by norm_num, by norm_num, .inr rfl⟩
  · exact .inl ⟨136657, by norm_num, by norm_num, .inl rfl⟩
  · exact .inl ⟨683901, by norm_num, by norm_num, .inr rfl⟩
  · exact .inr (.inr rfl)
  · exact .inr (.inl rfl)

theorem value_foldTop (s : Limbs) :
    Limbs.value (2 ^ 21) 13 (foldTop id s) = Limbs.value (2 ^ 21) 13 s - s 12 * groupOrder := by
  simp only [Limbs.value, Finset.sum_range_succ, Finset.sum_range_zero, foldTop, id_eq, groupOrder]
  push_cast
  ring

theorem product_bounds {k : Int} (bounded : Bounded b t s) (nonneg : 0 ≤ k) (small : k ≤ 2 ^ 20) :
    -(t * 2 ^ 20) ≤ s 12 * k ∧ s 12 * k ≤ t * 2 ^ 20 := by
  obtain ⟨low, high⟩ := bounded.top
  constructor
  · nlinarith
  · nlinarith

include keeps in
theorem foldTop_eq (bounded : Bounded b t s) (tops : t ≤ 2 ^ 40) (limbs : b ≤ 2 ^ 60) :
    foldTop wrap s = foldTop id s := by
  have limb := bounded.limbs
  have row : ∀ j (k : Int), 0 ≤ k → k ≤ 2 ^ 20 →
      wrap (s j + wrap (s 12 * k)) = s j + s 12 * k ∧ wrap (s j - wrap (s 12 * k)) = s j - s 12 * k := by
    intro j k nonneg small
    have product := product_bounds bounded nonneg small
    have here := limb j
    rw [keeps (s 12 * k) (by omega) (by omega)]
    exact ⟨keeps _ (by omega) (by omega), keeps _ (by omega) (by omega)⟩
  funext j
  unfold foldTop
  split
  · exact (row 0 666643 (by norm_num) (by norm_num)).1
  · exact (row 1 470296 (by norm_num) (by norm_num)).1
  · exact (row 2 654183 (by norm_num) (by norm_num)).1
  · exact (row 3 997805 (by norm_num) (by norm_num)).2
  · exact (row 4 136657 (by norm_num) (by norm_num)).1
  · exact (row 5 683901 (by norm_num) (by norm_num)).2
  · rfl
  · rfl

theorem bounded_foldTop (bounded : Bounded b t s) : Bounded (b + t * 2 ^ 20) 0 (foldTop id s) := by
  have tops : 0 ≤ t := by
    have top := bounded.top
    omega
  refine ⟨fun j => ?_, by simp [foldTop]⟩
  have here := bounded.limbs j
  rcases foldTop_rows id s j with ⟨k, nonneg, small, same⟩ | same | same
  · have product := product_bounds bounded nonneg small
    rcases same with same | same
    · rw [same]
      simp only [id_eq]
      omega
    · rw [same]
      simp only [id_eq]
      omega
  · rw [same]
    omega
  · rw [same]
    omega

/-! ## The whole reduction -/

def firstOrder : List Nat := [0, 2, 4, 6, 8, 10, 1, 3, 5, 7, 9, 11]

def exactReduce (s : Limbs) : Limbs :=
  Limbs.normalize (2 ^ 21) 11 (foldTop id (Limbs.normalize (2 ^ 21) 12 (foldTop id (exactPass (2 ^ 20) firstOrder s))))

theorem range_inside {n : Nat} (few : n ≤ 12) : ∀ i ∈ List.range n, i < 12 :=
  fun _ mem => (List.mem_range.mp mem).trans_le few

include keeps in
theorem laterPass_eq (enough : 4 ≤ g) (fits : g ≤ 2 ^ 40) {n : Nat} (few : n ≤ 12) (bounded : Bounded b t s)
    (large : 2 ^ 21 ≤ b) (growth : b + n * g ≤ g * 2 ^ 20) : laterPass wrap n s = Limbs.normalize (2 ^ 21) n s ∧
      Bounded (b + n * g) (t + n * g) (Limbs.normalize (2 ^ 21) n s) := by
  have range : Pass 0 g (List.range n) b t s :=
    ⟨le_refl 0, by norm_num, enough, range_inside few, bounded, large, by rwa [List.length_range]⟩
  have pass := pass_eq keeps range fits
  rwa [exactPass_range, List.length_range] at pass

theorem firstOrder_pass (bounded : Bounded (2 ^ 25) 0 s) : Pass (2 ^ 20) (2 ^ 6) firstOrder (2 ^ 25) 0 s :=
  ⟨by norm_num, le_refl _, by norm_num, by decide, bounded, by norm_num, by norm_num [firstOrder]⟩

include keeps in
theorem reduceLimbs_eq (bounded : Bounded (2 ^ 25) 0 s) : reduceLimbs wrap s = exactReduce s := by
  -- from pass to pass the limbs stay below 2^26, 2^32 and 2^38
  obtain ⟨first, after₁⟩ := pass_eq keeps (firstOrder_pass bounded) (by norm_num)
  have bounded₁ := after₁.mono (c := 2 ^ 26) (d := 2 ^ 10) (by norm_num [firstOrder]) (by norm_num [firstOrder])
  have folded₁ := (bounded_foldTop bounded₁).mono (c := 2 ^ 31) (by norm_num) (le_refl 0)
  obtain ⟨second, after₂⟩ := laterPass_eq keeps (g := 2 ^ 12) (by norm_num) (by norm_num) (le_refl 12) folded₁
    (by norm_num) (by norm_num)
  have bounded₂ := after₂.mono (c := 2 ^ 32) (d := 2 ^ 16) (by norm_num) (by norm_num)
  have folded₂ := (bounded_foldTop bounded₂).mono (c := 2 ^ 37) (by norm_num) (le_refl 0)
  obtain ⟨third, _⟩ := laterPass_eq keeps (g := 2 ^ 18) (n := 11) (by norm_num) (by norm_num) (by norm_num) folded₂
    (by norm_num) (by norm_num)
  have rounded : firstPass wrap s = exactPass (2 ^ 20) firstOrder s := first
  unfold reduceLimbs exactReduce
  rw [rounded, foldTop_eq keeps bounded₁ (by norm_num) (by norm_num), second,
    foldTop_eq keeps bounded₂ (by norm_num) (by norm_num), third]

theorem value_firstPass (bounded : Bounded (2 ^ 25) 0 s) :
    -(2 ^ 252 - 2 ^ 140) ≤ Limbs.value (2 ^ 21) 12 (exactPass (2 ^ 20) firstOrder s) ∧
      Limbs.value (2 ^ 21) 12 (exactPass (2 ^ 20) firstOrder s) ≤ 2 ^ 252 - 2 ^ 140 := by
  have near : ∀ j < 12, -(2 ^ 20 + 768) ≤ exactPass (2 ^ 20) firstOrder s j ∧
      exactPass (2 ^ 20) firstOrder s j ≤ 2 ^ 20 + 768 := by
    intro j small
    have all : ∀ j < 12, j ∈ firstOrder := by decide
    have bounds := near_exactPass (firstOrder_pass bounded) (by decide) (all j small)
    have count : (firstOrder.length : Int) * 2 ^ 6 = 768 := by norm_num [firstOrder]
    rw [count] at bounds
    constructor
    · linarith [bounds.1]
    · linarith [bounds.2]
  have ones : (2 ^ 21 - 1) * Limbs.value (2 ^ 21) 12 (fun _ => 1) = 2 ^ 252 - 1 := by
    norm_num [Limbs.value, Finset.sum_range_succ]
  have upper : Limbs.value (2 ^ 21) 12 (exactPass (2 ^ 20) firstOrder s) ≤
      (2 ^ 20 + 768) * Limbs.value (2 ^ 21) 12 fun _ => 1 :=
    Limbs.value_le (by norm_num) fun j small => (near j small).2
  have lower : Limbs.value (2 ^ 21) 12 (fun j => -exactPass (2 ^ 20) firstOrder s j) ≤
      (2 ^ 20 + 768) * Limbs.value (2 ^ 21) 12 fun _ => 1 :=
    Limbs.value_le (by norm_num) fun j small => by linarith [(near j small).1]
  rw [Limbs.value_neg] at lower
  constructor
  · linarith
  · linarith

theorem groupOrder_eq : (groupOrder : Int) = 2 ^ 252 + 27742317777372353535851937790883648493 := by
  norm_num [groupOrder]

theorem remainder_range {v : Int} (low : -2 ^ 252 ≤ v) (high : v < 2 ^ 252) :
    0 ≤ v - v / 2 ^ 252 * groupOrder ∧ v - v / 2 ^ 252 * groupOrder < groupOrder := by
  rw [groupOrder_eq]
  by_cases negative : v < 0
  · have quotient : v / 2 ^ 252 = -1 := by omega
    rw [quotient]
    omega
  · have quotient : v / 2 ^ 252 = 0 := by omega
    rw [quotient]
    omega

/-- The number after the reduction is the remainder modulo the order, in digits but for the
highest limb. -/
theorem value_exactReduce (bounded : Bounded (2 ^ 25) 0 s) :
    Limbs.value (2 ^ 21) 12 (exactReduce s) = Limbs.value (2 ^ 21) 13 s % groupOrder ∧
      ∀ j < 11, 0 ≤ exactReduce s j ∧ exactReduce s j < 2 ^ 21 := by
  have positive : (0 : Int) < 2 ^ 21 := by norm_num
  refine ⟨?_, fun j small => Limbs.digit_normalize positive small⟩
  set first := exactPass (2 ^ 20) firstOrder s with firstDef
  set second := Limbs.normalize (2 ^ 21) 12 (foldTop id first) with secondDef
  have top : -2 ^ 10 ≤ first 12 ∧ first 12 ≤ 2 ^ 10 := by
    obtain ⟨_, after⟩ := pass_eq keepsWords_int64 (firstOrder_pass bounded) (by norm_num)
    exact (after.mono (c := 2 ^ 26) (by norm_num [firstOrder]) (by norm_num [firstOrder])).top
  have low := value_firstPass bounded
  rw [← firstDef] at low
  have whole : Limbs.value (2 ^ 21) 13 s = Limbs.value (2 ^ 21) 12 first + first 12 * 2 ^ 252 := by
    rw [← value_exactPass firstOrder (by decide), ← firstDef, Limbs.value_succ]
    norm_num
  have order := groupOrder_eq
  have value₁ : Limbs.value (2 ^ 21) 13 second = Limbs.value (2 ^ 21) 13 s - first 12 * groupOrder := by
    rw [secondDef, Limbs.value_normalize (by norm_num), value_foldTop, firstDef, value_exactPass firstOrder (by decide)]
  have quotient : second 12 = Limbs.value (2 ^ 21) 13 second / 2 ^ 252 := by
    have above := Limbs.top_eq positive (n := 12) (s := second) fun j small => Limbs.digit_normalize positive small
    rwa [← pow_mul] at above
  have value₂ : Limbs.value (2 ^ 21) 12 (exactReduce s) =
      Limbs.value (2 ^ 21) 13 second - second 12 * groupOrder := by
    have last : exactReduce s 12 = 0 := Limbs.normalize_of_lt (by norm_num)
    have thirteen := @Limbs.value_succ (2 ^ 21) 12 (exactReduce s)
    rw [last, zero_mul, add_zero] at thirteen
    rw [← thirteen, exactReduce, Limbs.value_normalize (by norm_num), value_foldTop]
  -- below bit 252 the order's tail cannot make up for the margin of the first pass
  have small : -2 ^ 252 ≤ Limbs.value (2 ^ 21) 13 second ∧ Limbs.value (2 ^ 21) 13 second < 2 ^ 252 := by
    rw [value₁, whole, order]
    omega
  have range := remainder_range small.1 small.2
  rw [← quotient, ← value₂] at range
  have split : Limbs.value (2 ^ 21) 13 s =
      Limbs.value (2 ^ 21) 12 (exactReduce s) + (first 12 + second 12) * groupOrder := by
    rw [value₂, value₁]
    ring
  rw [split, Int.add_mul_emod_self_right, Int.emod_eq_of_lt range.1 range.2]

end Exact

/-! ## The bytes -/

/-- The limbs are the digits of `v`, the last one with all that is left. -/
structure HoldsBits (v : Nat) (s : Limbs) : Prop where
  low : ∀ j < 11, s j = bitsAt v (21 * j) 21
  last : s 11 = bitsAt v 231 25

theorem ofLeBytes_drop (bs : Bytes) (k : Nat) : ofLeBytes (bs.drop k) = ofLeBytes bs / 2 ^ (8 * k) := by
  induction bs generalizing k with
  | nil => simp [ofLeBytes]
  | cons b rest ih =>
    cases k with
    | zero => simp
    | succ k =>
      have small := b.toNat_lt
      have quotient : (b.toNat + 256 * ofLeBytes rest) / 256 = ofLeBytes rest := by omega
      have power : 2 ^ (8 * (k + 1)) = 256 * 2 ^ (8 * k) := by
        rw [Nat.mul_succ, pow_add, Nat.mul_comm]
        rfl
      rw [List.drop_succ_cons, ih, ofLeBytes, power, ← Nat.div_div_eq_div_mul, quotient]

theorem toNat_getD (bs : Bytes) (k : Nat) : (bs.getD k 0).toNat = bitsAt (ofLeBytes bs) (8 * k) 8 := by
  rw [bitsAt, ← ofLeBytes_drop]
  induction bs generalizing k with
  | nil => simp [ofLeBytes]
  | cons b rest ih =>
    cases k with
    | zero =>
      have small := b.toNat_lt
      change b.toNat = (b.toNat + 256 * ofLeBytes rest) % 256
      omega
    | succ k => exact ih k

theorem load3_eq (bs : Bytes) : load3 bs = bitsAt (ofLeBytes bs) 0 24 := by
  rw [load3, toNat_getD, toNat_getD, toNat_getD, bitsAt_or_shiftLeft _ 0 8 8, bitsAt_or_shiftLeft _ 0 16 8]

theorem load4_eq (bs : Bytes) : load4 bs = bitsAt (ofLeBytes bs) 0 32 := by
  have three : load4 bs = load3 bs ||| (bs.getD 3 0).toNat <<< 24 := rfl
  rw [three, load3_eq, toNat_getD, bitsAt_or_shiftLeft _ 0 24 8]

theorem bitsAt_drop (s : Bytes) (k w : Nat) : bitsAt (ofLeBytes (s.drop k)) 0 w = bitsAt (ofLeBytes s) (8 * k) w := by
  rw [bitsAt, bitsAt, ofLeBytes_drop, pow_zero, Nat.div_one]

theorem and_mask (x o : Nat) : 2097151 &&& (x >>> o) = bitsAt x o 21 := by
  rw [Nat.and_comm, Nat.shiftRight_eq_div_pow]
  exact Nat.and_two_pow_sub_one_eq_mod _ 21

theorem masked3 (s : Bytes) (k o : Nat) (inside : o + 21 ≤ 24) :
    2097151 &&& (load3 (s.drop k) >>> o) = bitsAt (ofLeBytes s) (8 * k + o) 21 := by
  rw [load3_eq, bitsAt_drop, and_mask, bitsAt_bitsAt inside]

theorem masked4 (s : Bytes) (k o : Nat) (inside : o + 21 ≤ 32) :
    2097151 &&& (load4 (s.drop k) >>> o) = bitsAt (ofLeBytes s) (8 * k + o) 21 := by
  rw [load4_eq, bitsAt_drop, and_mask, bitsAt_bitsAt inside]

theorem holdsBits_load (s : Bytes) : HoldsBits (ofLeBytes s) (loadLimbs s) := by
  constructor
  · intro j small
    interval_cases j
    · exact congrArg Nat.cast (masked3 s 0 0 (by norm_num))
    · exact congrArg Nat.cast (masked4 s 2 5 (by norm_num))
    · exact congrArg Nat.cast (masked3 s 5 2 (by norm_num))
    · exact congrArg Nat.cast (masked4 s 7 7 (by norm_num))
    · exact congrArg Nat.cast (masked4 s 10 4 (by norm_num))
    · exact congrArg Nat.cast (masked3 s 13 1 (by norm_num))
    · exact congrArg Nat.cast (masked4 s 15 6 (by norm_num))
    · exact congrArg Nat.cast (masked3 s 18 3 (by norm_num))
    · exact congrArg Nat.cast (masked3 s 21 0 (by norm_num))
    · exact congrArg Nat.cast (masked4 s 23 5 (by norm_num))
    · exact congrArg Nat.cast (masked3 s 26 2 (by norm_num))
  · change ((load4 (s.drop 28) >>> 7 : Nat) : Int) = _
    rw [load4_eq, bitsAt_drop, bitsAt_shiftRight]

theorem lowByte_natCast (x : Nat) : lowByte (x : Int) = UInt8.ofNat (x % 2 ^ 8) := by
  rw [lowByte]
  norm_cast

theorem lowByte_within (v i w o : Nat) (inside : o + 8 ≤ w) :
    lowByte (((bitsAt v i w : Nat) : Int) >>> o) = UInt8.ofNat (bitsAt v (i + o) 8) := by
  rw [← Int.natCast_shiftRight, lowByte_natCast, Nat.shiftRight_eq_div_pow, ← bitsAt, bitsAt_bitsAt inside]

theorem lowByte_across (v i w o p : Nat) (limb : o + p = 21) (inside : 8 ≤ p + w) :
    lowByte (Int.lor (((bitsAt v i 21 : Nat) : Int) >>> o) (((bitsAt v (i + 21) w : Nat) : Int) <<< p)) =
      UInt8.ofNat (bitsAt v (i + o) 8) := by
  have next : i + 21 = i + o + p := by omega
  have rest : 21 - o = p := by omega
  have both : Int.lor (((bitsAt v i 21 : Nat) : Int) >>> o) (((bitsAt v (i + 21) w : Nat) : Int) <<< p) =
      ((bitsAt v i 21 >>> o ||| bitsAt v (i + 21) w <<< p : Nat) : Int) := by
    rw [← Int.natCast_shiftRight, ← Int.natCast_shiftLeft]
    rfl
  have cut : bitsAt v (i + o) (p + w) % 2 ^ 8 = bitsAt v (i + o) 8 :=
    Nat.mod_mod_of_dvd _ (pow_dvd_pow 2 inside)
  rw [both, bitsAt_shiftRight, rest, next, bitsAt_or_shiftLeft, lowByte_natCast, cut]

theorem leBytes_eq_map (w n : Nat) : leBytes w n = (List.range w).map fun k => UInt8.ofNat (bitsAt n (8 * k) 8) := by
  induction w generalizing n with
  | zero => rfl
  | succ w ih =>
    have head : UInt8.ofNat n = UInt8.ofNat (bitsAt n (8 * 0) 8) := by
      apply UInt8.toNat_inj.mp
      simp [bitsAt]
    have shift : ∀ k, bitsAt (n / 256) (8 * k) 8 = bitsAt n (8 * (k + 1)) 8 := by
      intro k
      rw [bitsAt, bitsAt, Nat.div_div_eq_div_mul, Nat.mul_succ, Nat.add_comm (8 * k), pow_add]
      rfl
    rw [leBytes, ih, List.range_succ_eq_map, List.map_cons, List.map_map, ← head]
    congr 1
    refine List.map_congr_left fun k _ => ?_
    exact congrArg UInt8.ofNat (shift k)

theorem storeLimbs_eq {v : Nat} {s : Limbs} (holds : HoldsBits v s) : storeLimbs s = leBytes 32 v := by
  have within : ∀ i o : Nat, i < 11 → o + 8 ≤ 21 → lowByte (s i >>> o) = UInt8.ofNat (bitsAt v (21 * i + o) 8) := by
    intro i o small inside
    rw [holds.low i small, lowByte_within v _ 21 o inside]
  have across : ∀ i o p : Nat, i < 10 → o + p = 21 → 8 ≤ p + 21 →
      lowByte (Int.lor (s i >>> o) (s (i + 1) <<< p)) = UInt8.ofNat (bitsAt v (21 * i + o) 8) := by
    intro i o p small limb inside
    rw [holds.low i (by omega), holds.low (i + 1) (by omega), Nat.mul_succ, lowByte_across v _ 21 o p limb inside]
  have last : ∀ o : Nat, o + 8 ≤ 25 → lowByte (s 11 >>> o) = UInt8.ofNat (bitsAt v (231 + o) 8) := by
    intro o inside
    rw [holds.last, lowByte_within v _ 25 o inside]
  have lastAcross : lowByte (Int.lor (s 10 >>> (14 : Nat)) (s 11 <<< (7 : Nat))) = UInt8.ofNat (bitsAt v 224 8) := by
    rw [holds.low 10 (by norm_num), holds.last]
    exact lowByte_across v 210 25 14 7 rfl (by norm_num)
  rw [storeLimbs, leBytes_eq_map, within 0 0 (by norm_num) (by norm_num), within 0 8 (by norm_num) (by norm_num),
    across 0 16 5 (by norm_num) (by norm_num) (by norm_num), within 1 3 (by norm_num) (by norm_num),
    within 1 11 (by norm_num) (by norm_num), across 1 19 2 (by norm_num) (by norm_num) (by norm_num),
    within 2 6 (by norm_num) (by norm_num), across 2 14 7 (by norm_num) (by norm_num) (by norm_num),
    within 3 1 (by norm_num) (by norm_num), within 3 9 (by norm_num) (by norm_num),
    across 3 17 4 (by norm_num) (by norm_num) (by norm_num), within 4 4 (by norm_num) (by norm_num),
    within 4 12 (by norm_num) (by norm_num), across 4 20 1 (by norm_num) (by norm_num) (by norm_num),
    within 5 7 (by norm_num) (by norm_num), across 5 15 6 (by norm_num) (by norm_num) (by norm_num),
    within 6 2 (by norm_num) (by norm_num), within 6 10 (by norm_num) (by norm_num),
    across 6 18 3 (by norm_num) (by norm_num) (by norm_num), within 7 5 (by norm_num) (by norm_num),
    within 7 13 (by norm_num) (by norm_num), within 8 0 (by norm_num) (by norm_num),
    within 8 8 (by norm_num) (by norm_num), across 8 16 5 (by norm_num) (by norm_num) (by norm_num),
    within 9 3 (by norm_num) (by norm_num), within 9 11 (by norm_num) (by norm_num),
    across 9 19 2 (by norm_num) (by norm_num) (by norm_num), within 10 6 (by norm_num) (by norm_num), lastAcross,
    last 1 (by norm_num), last 9 (by norm_num), last 17 (by norm_num)]
  rfl

/-! ## The remainder -/

theorem bounded_load {v : Nat} {s : Limbs} (holds : HoldsBits v s) (rest : ∀ j, 12 ≤ j → s j = 0) :
    Bounded (2 ^ 25) 0 s := by
  constructor
  · intro j
    rcases Nat.lt_or_ge j 11 with low | high
    · have small : bitsAt v (21 * j) 21 < 2 ^ 21 := Nat.mod_lt _ (by norm_num)
      rw [holds.low j low]
      omega
    · rcases Nat.lt_or_ge j 12 with here | above
      · obtain rfl : j = 11 := by omega
        have small : bitsAt v 231 25 < 2 ^ 25 := Nat.mod_lt _ (by norm_num)
        rw [holds.last]
        omega
      · rw [rest j above]
        norm_num
  · rw [rest 12 (le_refl 12)]
    norm_num

theorem value_load {v : Nat} {s : Limbs} (holds : HoldsBits v s) (small : v < 2 ^ 256) :
    Limbs.value (2 ^ 21) 12 s = v := by
  have digits : Limbs.value (2 ^ 21) 11 s = ((v % 2 ^ 231 : Nat) : Int) := by
    have whole := Limbs.value_digitsOf (b := 2 ^ 21) (v := v) 11
    rw [← pow_mul] at whole
    rw [← whole]
    push_cast
    refine Limbs.value_congr fun j less => ?_
    rw [holds.low j less, bitsAt, pow_mul]
    push_cast
    rfl
  have top : bitsAt v 231 25 = v / 2 ^ 231 := by
    unfold bitsAt
    omega
  rw [Limbs.value_succ, digits, holds.last, top]
  omega

/-- `scReduce32` leaves the remainder modulo the order, in any arithmetic that keeps words of
64 bits: no result on the way is larger. -/
theorem scReduce32With_eq {wrap : Int → Int} (keeps : KeepsWords wrap) {s : Bytes} (size : s.length = 32) :
    scReduce32With wrap s = leBytes 32 (ofLeBytes s % groupOrder) := by
  have holds := holdsBits_load s
  have bounded : Bounded (2 ^ 25) 0 (loadLimbs s) := bounded_load holds fun j above => by
    match j, above with
    | j + 12, _ => rfl
  have small : ofLeBytes s < 2 ^ 256 := by
    have less := ofLeBytes_lt s
    rw [size] at less
    norm_num at less ⊢
    exact less
  obtain ⟨value, digits⟩ := value_exactReduce bounded
  have loaded : Limbs.value (2 ^ 21) 13 (loadLimbs s) = ofLeBytes s := by
    rw [Limbs.value_succ, value_load holds small]
    exact add_eq_left.mpr (zero_mul _)
  rw [loaded] at value
  have positive : (0 : Int) < 2 ^ 21 := by norm_num
  rw [scReduce32With, reduceLimbs_eq keeps bounded]
  apply storeLimbs_eq
  constructor
  · intro j less
    rw [Limbs.digit_eq positive digits less, value, bitsAt, pow_mul]
    push_cast
    rfl
  · have order : groupOrder < 2 ^ 256 := by norm_num [groupOrder]
    have top : bitsAt (ofLeBytes s % groupOrder) 231 25 = ofLeBytes s % groupOrder / 2 ^ 231 := by
      have less := Nat.mod_lt (ofLeBytes s) (show groupOrder > 0 by norm_num [groupOrder])
      unfold bitsAt
      omega
    rw [Limbs.top_eq positive digits, value, top, ← pow_mul]
    push_cast
    rfl

theorem scReduce32_eq {s : Bytes} (size : s.length = 32) :
    scReduce32 s = leBytes 32 (ofLeBytes s % groupOrder) :=
  scReduce32With_eq keepsWords_int64 size

end P2PoolObserver
