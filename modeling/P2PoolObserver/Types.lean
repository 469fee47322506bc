/-
# Types -- hashes and 128-bit difficulties (`types/types.go`, `types/difficulty.go`)

A `Hash` is the source's `[32]byte`, kept as the 256-bit integer its bytes spell
in little-endian order; `Hash.bytes` is the array itself.  The word-by-word
`Hash.compare` is the order of those integers (`compare_eq_cmp`).

`Difficulty` keeps the two machine words of the source.  `Add` and `Mul64` are
written out there with `math/bits` and are translated word for word; the other
operations are calls into the `uint128` package, which is not part of the
repository.  Everything above is parametric in it (`Uint128Package`).
-/
import P2PoolObserver.Lib.Bytes
import Mathlib.Data.Nat.Bitwise
import Mathlib.Data.UInt
import Mathlib.Order.Compare

namespace P2PoolObserver

open Lib

/-! ## Hashes and keys -/

/-- Thirty-two bytes, as the integer they spell in little-endian order. -/
abbrev Bytes32 := BitVec 256

abbrev Hash := Bytes32
abbrev PublicKeyBytes := Bytes32
abbrev PrivateKeyBytes := Bytes32

instance Bytes32.lawfulBEq : LawfulBEq Bytes32 := inferInstance

def hashSize : Nat := 32

namespace Bytes32

def bytes (h : Bytes32) : Bytes := leBytes 32 h.toNat

def ofBytes (bs : Bytes) : Bytes32 := BitVec.ofNat 256 (ofLeBytes bs)

@[simp] theorem bytes_length (h : Bytes32) : h.bytes.length = 32 := leBytes_length 32 _

theorem ofBytes_bytes (h : Bytes32) : ofBytes h.bytes = h := by
  have small : h.toNat < 256 ^ 32 := by
    have := h.isLt
    norm_num at this ⊢
    exact this
  unfold ofBytes bytes
  rw [ofLeBytes_leBytes_of_lt small, BitVec.ofNat_toNat, BitVec.setWidth_eq]

theorem bytes_inj {g h : Bytes32} (same : g.bytes = h.bytes) : g = h := by
  rw [← ofBytes_bytes g, same, ofBytes_bytes]

def hexDigit (n : Nat) : Char := Char.ofNat (if n < 10 then 48 + n else 87 + n)

def string (h : Bytes32) : String :=
  String.ofList (h.bytes.flatMap fun b => [hexDigit (b.toNat / 16), hexDigit (b.toNat % 16)])

end Bytes32

def zeroHash : Hash := 0

def hashFromBytes (buf : Bytes) : Hash :=
  if buf.length = hashSize then Bytes32.ofBytes buf else zeroHash

namespace Hash

/-- The `i`-th of the four words the source reads through `unsafe.Slice`. -/
def word (h : Hash) (i : Nat) : Nat := h.toNat / 2 ^ (64 * i) % 2 ^ 64

def compare (a b : Hash) : Ordering :=
  if a.word 3 < b.word 3 then .lt
  else if a.word 3 > b.word 3 then .gt
  else if a.word 2 < b.word 2 then .lt
  else if a.word 2 > b.word 2 then .gt
  else if a.word 1 < b.word 1 then .lt
  else if a.word 1 > b.word 1 then .gt
  else if a.word 0 < b.word 0 then .lt
  else if a.word 0 > b.word 0 then .gt
  else .eq

theorem toNat_eq_words (h : Hash) :
    h.toNat = h.word 0 + 2 ^ 64 * h.word 1 + 2 ^ 128 * h.word 2 + 2 ^ 192 * h.word 3 := by
  have small := h.isLt
  simp only [word]
  omega

theorem compare_eq_cmp (a b : Hash) : compare a b = cmp a.toNat b.toNat := by
  have bound : ∀ (h : Hash) (i : Nat), h.word i < 2 ^ 64 := fun h i => Nat.mod_lt _ (by norm_num)
  have a0 := bound a 0
  have a1 := bound a 1
  have a2 := bound a 2
  have b0 := bound b 0
  have b1 := bound b 1
  have b2 := bound b 2
  rw [toNat_eq_words a, toNat_eq_words b]
  unfold compare cmp cmpUsing
  split_ifs <;> first | rfl | omega

theorem compare_eq_lt_iff (a b : Hash) : compare a b = .lt ↔ a.toNat < b.toNat := by
  rw [compare_eq_cmp, cmp_eq_lt_iff]

theorem compare_eq_gt_iff (a b : Hash) : compare a b = .gt ↔ b.toNat < a.toNat := by
  rw [compare_eq_cmp, cmp_eq_gt_iff]

/-- `Hash.Uint64`: the first eight bytes, little-endian. -/
def uint64 (h : Hash) : UInt64 := UInt64.ofNat h.toNat

end Hash

theorem uint64_toNat_min (a b : UInt64) : (min a b).toNat = min a.toNat b.toNat := by
  have le := UInt64.le_iff_toNat_le (a := a) (b := b)
  rw [show min a b = if a ≤ b then a else b from rfl, Nat.min_def]
  split_ifs <;> first | rfl | tauto

/-! ## Difficulties -/

@[ext]
structure Difficulty where
  lo : UInt64
  hi : UInt64
  deriving DecidableEq, Inhabited

namespace Difficulty

def toNat (d : Difficulty) : Nat := d.hi.toNat * 2 ^ 64 + d.lo.toNat

def ofNat (n : Nat) : Difficulty := ⟨UInt64.ofNat n, UInt64.ofNat (n / 2 ^ 64)⟩

theorem toNat_lt (d : Difficulty) : d.toNat < 2 ^ 128 := by
  have hi := d.hi.toNat_lt
  have lo := d.lo.toNat_lt
  simp only [toNat]
  omega

theorem toNat_inj {d e : Difficulty} : d.toNat = e.toNat ↔ d = e := by
  constructor
  · intro same
    obtain ⟨dlo, dhi⟩ := d
    obtain ⟨elo, ehi⟩ := e
    have bounds := And.intro dlo.toNat_lt elo.toNat_lt
    simp only [toNat] at same
    have low : dlo.toNat = elo.toNat := by omega
    have high : dhi.toNat = ehi.toNat := by omega
    rw [UInt64.toNat_inj.mp low, UInt64.toNat_inj.mp high]
  · rintro rfl
    rfl

theorem toNat_ofNat (n : Nat) : (ofNat n).toNat = n % 2 ^ 128 := by
  simp only [toNat, ofNat, UInt64.toNat_ofNat']
  omega

def stringNumeric (d : Difficulty) : String := toString d.toNat

def newDifficulty (lo hi : UInt64) : Difficulty := ⟨lo, hi⟩

def difficultyFrom64 (v : UInt64) : Difficulty := newDifficulty v 0

def zeroDifficulty : Difficulty := ⟨0, 0⟩

def maxDifficulty : Difficulty := ⟨0xFFFFFFFFFFFFFFFF, 0xFFFFFFFFFFFFFFFF⟩

@[simp] theorem toNat_difficultyFrom64 (v : UInt64) : (difficultyFrom64 v).toNat = v.toNat := by
  simp [difficultyFrom64, newDifficulty, toNat]

@[simp] theorem toNat_zeroDifficulty : zeroDifficulty.toNat = 0 := rfl

@[simp] theorem toNat_maxDifficulty : maxDifficulty.toNat = 2 ^ 128 - 1 := rfl

def bitsAdd64 (x y carry : UInt64) : UInt64 × UInt64 :=
  let sum := x.toNat + y.toNat + carry.toNat
  (UInt64.ofNat sum, UInt64.ofNat (sum / 2 ^ 64))

def bitsMul64 (x y : UInt64) : UInt64 × UInt64 :=
  let product := x.toNat * y.toNat
  (UInt64.ofNat (product / 2 ^ 64), UInt64.ofNat product)

def add (d v : Difficulty) : Difficulty :=
  let (lo, carry) := bitsAdd64 d.lo v.lo 0
  let (hi, _) := bitsAdd64 d.hi v.hi carry
  ⟨lo, hi⟩

theorem toNat_add (d v : Difficulty) : (d.add v).toNat = (d.toNat + v.toNat) % 2 ^ 128 := by
  have dlo := d.lo.toNat_lt
  have vlo := v.lo.toNat_lt
  simp only [add, bitsAdd64, toNat, UInt64.toNat_ofNat', UInt64.toNat_zero]
  omega

theorem toNat_add_of_lt {d v : Difficulty} (fits : d.toNat + v.toNat < 2 ^ 128) :
    (d.add v).toNat = d.toNat + v.toNat := by
  rw [toNat_add, Nat.mod_eq_of_lt fits]

theorem toNat_foldl_add {α : Type} (f : α → Difficulty) : ∀ (xs : List α) (d : Difficulty),
    (xs.foldl (fun d x => d.add (f x)) d).toNat =
      (d.toNat + (xs.map fun x => (f x).toNat).sum) % 2 ^ 128
  | [], d => by
    have := d.toNat_lt
    simp only [List.foldl_nil, List.map_nil, List.sum_nil]
    omega
  | x :: xs, d => by
    rw [List.foldl_cons, toNat_foldl_add f xs, toNat_add, List.map_cons, List.sum_cons]
    omega

def mul64 (d : Difficulty) (v : UInt64) : Difficulty :=
  let (hi, lo) := bitsMul64 d.lo v
  ⟨lo, hi + d.hi * v⟩

theorem toNat_mul64 (d : Difficulty) (v : UInt64) : (d.mul64 v).toNat = d.toNat * v.toNat % 2 ^ 128 := by
  have product : d.toNat * v.toNat =
      d.hi.toNat * v.toNat * 2 ^ 64 + d.lo.toNat * v.toNat := by
    simp only [toNat]
    ring
  rw [product]
  simp only [mul64, bitsMul64, toNat, UInt64.toNat_add, UInt64.toNat_mul, UInt64.toNat_ofNat']
  omega

def cmp (d v : Difficulty) : Ordering :=
  if d = v then .eq
  else if d.hi < v.hi ∨ (d.hi = v.hi ∧ d.lo < v.lo) then .lt
  else .gt

theorem cmp_eq_lt_iff (d v : Difficulty) : d.cmp v = .lt ↔ d.toNat < v.toNat := by
  have bounds := And.intro d.lo.toNat_lt v.lo.toNat_lt
  by_cases same : d = v
  · subst same
    simp [cmp]
  · have words : (d.hi < v.hi ∨ (d.hi = v.hi ∧ d.lo < v.lo)) ↔ d.toNat < v.toNat := by
      simp only [toNat, UInt64.lt_iff_toNat_lt, ← UInt64.toNat_inj]
      omega
    by_cases less : d.toNat < v.toNat
    · simp [cmp, same, words, less]
    · simp [cmp, same, words, less]

theorem cmp_eq_gt_iff (d v : Difficulty) : d.cmp v = .gt ↔ v.toNat < d.toNat := by
  by_cases same : d = v
  · subst same
    simp [cmp]
  · have apart : d.toNat ≠ v.toNat := fun h => same (toNat_inj.mp h)
    have less := cmp_eq_lt_iff d v
    constructor
    · intro gt
      rw [gt] at less
      simp only [reduceCtorEq, false_iff] at less
      omega
    · intro gt
      have notLess : d.cmp v ≠ .lt := fun h => by
        have := less.mp h
        omega
      unfold cmp at notLess ⊢
      simp only [same, if_false] at notLess ⊢
      split_ifs at notLess ⊢ <;> simp_all

end Difficulty

/-! ## The `uint128` package -/

/-- The operations of `lukechampine.com/uint128` that the repository calls, with
their documented meaning.  `sub` and `mul64` panic on wrap-around (`none`); the
quotients are documented for a nonzero divisor only. -/
class Uint128Package where
  subWrap : Difficulty → Difficulty → Difficulty
  sub : Difficulty → Difficulty → Option Difficulty
  mul64 : Difficulty → UInt64 → Option Difficulty
  div : Difficulty → Difficulty → Difficulty
  div64 : Difficulty → UInt64 → Difficulty
  cmp64 : Difficulty → UInt64 → Ordering
  equals : Difficulty → Difficulty → Bool
  equals64 : Difficulty → UInt64 → Bool
  fromBytesBE : Bytes → Difficulty
  subWrap_eq : ∀ u v, (subWrap u v).toNat = (u.toNat + 2 ^ 128 - v.toNat) % 2 ^ 128
  sub_eq : ∀ u v, sub u v =
    if v.toNat ≤ u.toNat then some (Difficulty.ofNat (u.toNat - v.toNat)) else none
  mul64_eq : ∀ u v, mul64 u v =
    if u.toNat * v.toNat < 2 ^ 128 then some (Difficulty.ofNat (u.toNat * v.toNat)) else none
  div_eq : ∀ u v, v.toNat ≠ 0 → (div u v).toNat = u.toNat / v.toNat
  div64_eq : ∀ u v, v ≠ 0 → (div64 u v).toNat = u.toNat / v.toNat
  cmp64_eq : ∀ u v, cmp64 u v = compare u.toNat v.toNat
  equals_eq : ∀ u v, equals u v = decide (u = v)
  equals64_eq : ∀ u v, equals64 u v = decide (u.toNat = v.toNat)
  fromBytesBE_eq : ∀ buf, buf.length = 16 → (fromBytesBE buf).toNat = ofLeBytes buf.reverse

namespace Uint128Package

@[reducible] def exact : Uint128Package where
  subWrap u v := .ofNat (u.toNat + 2 ^ 128 - v.toNat)
  sub u v := if v.toNat ≤ u.toNat then some (.ofNat (u.toNat - v.toNat)) else none
  mul64 u v := if u.toNat * v.toNat < 2 ^ 128 then some (.ofNat (u.toNat * v.toNat)) else none
  div u v := .ofNat (u.toNat / v.toNat)
  div64 u v := .ofNat (u.toNat / v.toNat)
  cmp64 u v := compare u.toNat v.toNat
  equals u v := decide (u = v)
  equals64 u v := decide (u.toNat = v.toNat)
  fromBytesBE buf := .ofNat (ofLeBytes buf.reverse)
  subWrap_eq u v := Difficulty.toNat_ofNat _
  sub_eq _ _ := rfl
  mul64_eq _ _ := rfl
  div_eq u v _ := by
    rw [Difficulty.toNat_ofNat]
    exact Nat.mod_eq_of_lt (Nat.lt_of_le_of_lt (Nat.div_le_self _ _) u.toNat_lt)
  div64_eq u v _ := by
    rw [Difficulty.toNat_ofNat]
    exact Nat.mod_eq_of_lt (Nat.lt_of_le_of_lt (Nat.div_le_self _ _) u.toNat_lt)
  cmp64_eq _ _ := rfl
  equals_eq _ _ := rfl
  equals64_eq _ _ := rfl
  fromBytesBE_eq buf length := by
    have bound := ofLeBytes_lt buf.reverse
    rw [List.length_reverse, length] at bound
    rw [Difficulty.toNat_ofNat, Nat.mod_eq_of_lt (by simpa using bound)]

end Uint128Package

namespace Difficulty

variable [Uint128Package]

def sub (d v : Difficulty) : Difficulty := Uint128Package.subWrap d v

def div (d v : Difficulty) : Difficulty := Uint128Package.div d v

def div64 (d : Difficulty) (v : UInt64) : Difficulty := Uint128Package.div64 d v

def cmp64 (d : Difficulty) (v : UInt64) : Ordering := Uint128Package.cmp64 d v

def equals (d v : Difficulty) : Bool := Uint128Package.equals d v

def equals64 (d : Difficulty) (v : UInt64) : Bool := Uint128Package.equals64 d v

@[simp] theorem equals_iff (d v : Difficulty) : d.equals v = true ↔ d = v := by
  simp [equals, Uint128Package.equals_eq]

@[simp] theorem equals64_iff (d : Difficulty) (v : UInt64) : d.equals64 v = true ↔ d.toNat = v.toNat := by
  simp [equals64, Uint128Package.equals64_eq]

theorem toNat_sub_of_le {d v : Difficulty} (le : v.toNat ≤ d.toNat) : (d.sub v).toNat = d.toNat - v.toNat := by
  have bound := d.toNat_lt
  unfold sub
  rw [Uint128Package.subWrap_eq]
  omega

theorem toNat_div64 {v : UInt64} (nonzero : v ≠ 0) (d : Difficulty) :
    (d.div64 v).toNat = d.toNat / v.toNat := Uint128Package.div64_eq d v nonzero

theorem toNat_div {v : Difficulty} (nonzero : v.toNat ≠ 0) (d : Difficulty) :
    (d.div v).toNat = d.toNat / v.toNat := Uint128Package.div_eq d v nonzero

theorem cmp64_eq_eq_iff (d : Difficulty) (v : UInt64) : d.cmp64 v = .eq ↔ d = difficultyFrom64 v := by
  unfold cmp64
  rw [Uint128Package.cmp64_eq, Nat.compare_eq_eq, ← toNat_inj, toNat_difficultyFrom64]

theorem cmp64_eq_lt_iff (d : Difficulty) (v : UInt64) : d.cmp64 v = .lt ↔ d.toNat < v.toNat := by
  unfold cmp64
  rw [Uint128Package.cmp64_eq, Nat.compare_eq_lt]

end Difficulty

/-! ## Big-endian words -/

def beUint64 (bs : Bytes) : UInt64 := UInt64.ofNat (ofLeBytes bs.reverse)

theorem toNat_beUint64 {bs : Bytes} (length : bs.length = 8) : (beUint64 bs).toNat = ofLeBytes bs.reverse := by
  have bound := ofLeBytes_lt bs.reverse
  rw [List.length_reverse, length] at bound
  rw [beUint64, UInt64.toNat_ofNat', Nat.mod_eq_of_lt (by simpa using bound)]

def Difficulty.difficultyFromBytes [Uint128Package] (buf : Bytes) : Difficulty := Uint128Package.fromBytesBE buf

end P2PoolObserver
