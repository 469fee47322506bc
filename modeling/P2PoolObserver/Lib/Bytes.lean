/-
# Lib.Bytes -- byte strings: fixed-width little-endian words, base-128 varints, delimiting encoders

An encoder *delimits* a class of values up to a relation (`Delimits`) when
`enc a ++ rest` determines the value, up to that relation, and the rest.  Sequences, fixed-width words and
count-prefixed lists of such encoders are such encoders.
-/
import Mathlib.Data.Nat.Log
import Mathlib.Data.List.Forall2
import Mathlib.Tactic.Ring

namespace P2PoolObserver.Lib

abbrev Bytes := List UInt8

/-! ## Little-endian words -/

/-- The `w` low bytes of `n`, least significant first. -/
def leBytes : Nat → Nat → Bytes
  | 0, _ => []
  | w + 1, n => UInt8.ofNat n :: leBytes w (n / 256)

def ofLeBytes : Bytes → Nat
  | [] => 0
  | b :: bs => b.toNat + 256 * ofLeBytes bs

@[simp] theorem leBytes_length (w n : Nat) : (leBytes w n).length = w := by
  induction w generalizing n with
  | zero => rfl
  | succ w ih => simp [leBytes, ih]

theorem ofLeBytes_lt (bs : Bytes) : ofLeBytes bs < 256 ^ bs.length := by
  induction bs with
  | nil => simp [ofLeBytes]
  | cons b bs ih =>
    have hb := b.toNat_lt
    simp only [ofLeBytes, List.length_cons, pow_succ]
    omega

theorem ofLeBytes_leBytes (w n : Nat) : ofLeBytes (leBytes w n) = n % 256 ^ w := by
  induction w generalizing n with
  | zero => simp [leBytes, ofLeBytes, Nat.mod_one]
  | succ w ih =>
    simp only [leBytes, ofLeBytes, ih, UInt8.toNat_ofNat']
    rw [Nat.pow_succ (n := 256), Nat.mul_comm (256 ^ w) 256, Nat.mod_mul]

theorem ofLeBytes_leBytes_of_lt {w n : Nat} (fits : n < 256 ^ w) : ofLeBytes (leBytes w n) = n := by
  rw [ofLeBytes_leBytes, Nat.mod_eq_of_lt fits]

theorem leBytes_ofLeBytes (bs : Bytes) : leBytes bs.length (ofLeBytes bs) = bs := by
  induction bs with
  | nil => rfl
  | cons b bs ih =>
    have hb := b.toNat_lt
    have hdiv : (b.toNat + 256 * ofLeBytes bs) / 256 = ofLeBytes bs := by omega
    have hmod : UInt8.ofNat (b.toNat + 256 * ofLeBytes bs) = b := by
      apply UInt8.toNat_inj.mp
      rw [UInt8.toNat_ofNat']
      omega
    simp [leBytes, ofLeBytes, hdiv, hmod, ih]

theorem ofLeBytes_append (xs ys : Bytes) :
    ofLeBytes (xs ++ ys) = ofLeBytes xs + 256 ^ xs.length * ofLeBytes ys := by
  induction xs with
  | nil => simp [ofLeBytes]
  | cons x xs ih =>
    simp only [List.cons_append, ofLeBytes, List.length_cons, ih, pow_succ]
    ring

theorem take_leBytes {w v : Nat} (le : w ≤ v) (n : Nat) : (leBytes v n).take w = leBytes w n := by
  induction w generalizing v n with
  | zero => rfl
  | succ w ih =>
    obtain ⟨v, rfl⟩ : ∃ u, v = u + 1 := ⟨v - 1, by omega⟩
    simp only [leBytes, List.take_succ_cons, ih (Nat.le_of_succ_le_succ le)]

theorem leBytes_inj {w n m : Nat} (hn : n < 256 ^ w) (hm : m < 256 ^ w)
    (same : leBytes w n = leBytes w m) : n = m := by
  rw [← ofLeBytes_leBytes_of_lt hn, ← ofLeBytes_leBytes_of_lt hm, same]

/-! ## Base-128 varints -/

/-- Seven payload bits per byte, continuation bit on every byte but the last.
The fuel bounds the recursion; `n` itself always suffices (`uvarint_of_ge`). -/
def uvarintAux : Nat → Nat → Bytes
  | 0, n => [UInt8.ofNat n]
  | fuel + 1, n =>
    if n < 128 then [UInt8.ofNat n]
    else UInt8.ofNat (n % 128 + 128) :: uvarintAux fuel (n / 128)

def uvarint (n : Nat) : Bytes := uvarintAux n n

theorem uvarintAux_fuel {f g n : Nat} (hf : n ≤ f) (hg : n ≤ g) : uvarintAux f n = uvarintAux g n := by
  induction f generalizing g n with
  | zero =>
    have hn : n = 0 := by omega
    subst hn
    cases g <;> simp [uvarintAux]
  | succ f ih =>
    cases g with
    | zero =>
      have hn : n = 0 := by omega
      subst hn
      simp [uvarintAux]
    | succ g =>
      by_cases small : n < 128
      · simp [uvarintAux, small]
      · simp only [uvarintAux, small, if_false]
        rw [ih (n := n / 128) (g := g) (by omega) (by omega)]

theorem uvarint_of_lt {n : Nat} (small : n < 128) : uvarint n = [UInt8.ofNat n] := by
  unfold uvarint
  cases n <;> simp [uvarintAux, small]

theorem uvarint_of_ge {n : Nat} (large : 128 ≤ n) :
    uvarint n = UInt8.ofNat (n % 128 + 128) :: uvarint (n / 128) := by
  obtain ⟨m, rfl⟩ : ∃ m, n = m + 1 := ⟨n - 1, by omega⟩
  have notSmall : ¬ m + 1 < 128 := by omega
  unfold uvarint
  simp only [uvarintAux, notSmall, if_false]
  rw [uvarintAux_fuel (g := (m + 1) / 128) (by omega) (le_refl _)]

/-! ## Delimiting encoders -/

/-- On the values satisfying `P`, `enc a ++ r` determines `a` up to `R`, and the
rest `r`; and `R` is all that the encoding sees. -/
def Delimits {α : Type} (P : α → Prop) (R : α → α → Prop) (enc : α → Bytes) : Prop :=
  ∀ ⦃a b : α⦄, P a → P b → ∀ ⦃r s : Bytes⦄, enc a ++ r = enc b ++ s ↔ R a b ∧ r = s

namespace Delimits

variable {α β : Type} {P : α → Prop} {R S : α → α → Prop} {enc e : α → Bytes}

theorem eq_iff (delimits : Delimits P R enc) {a b : α} (ha : P a) (hb : P b) : enc a = enc b ↔ R a b := by
  have := delimits ha hb (r := []) (s := [])
  simpa using this

theorem comap (delimits : Delimits P R enc) {Q : β → Prop} (f : β → α) (sub : ∀ b, Q b → P (f b)) :
    Delimits Q (fun a b => R (f a) (f b)) (fun b => enc (f b)) :=
  fun _ _ ha hb => delimits (sub _ ha) (sub _ hb)

theorem part {enc : α → Bytes} (delimits : Delimits (fun _ => True) R enc) {Q : β → Prop}
    (f : β → α) : Delimits Q (fun a b => R (f a) (f b)) (fun b => enc (f b)) :=
  delimits.comap f fun _ _ => trivial

theorem congr (delimits : Delimits P R enc) (same : ∀ a, P a → e a = enc a)
    (agree : ∀ a b, P a → P b → (S a b ↔ R a b)) : Delimits P S e := by
  intro a b ha hb r s
  rw [same a ha, same b hb, delimits ha hb, agree a b ha hb]

theorem append (first : Delimits P R enc)
    (second : ∀ ⦃a b : α⦄, P a → P b → R a b → ∀ ⦃r s : Bytes⦄,
      e a ++ r = e b ++ s ↔ S a b ∧ r = s) :
    Delimits P (fun a b => R a b ∧ S a b) (fun a => enc a ++ e a) := by
  intro a b ha hb r s
  rw [List.append_assoc, List.append_assoc, first ha hb]
  constructor
  · rintro ⟨agree, tail⟩
    obtain ⟨agree', rest⟩ := (second ha hb agree).mp tail
    exact ⟨⟨agree, agree'⟩, rest⟩
  · rintro ⟨⟨agree, agree'⟩, rest⟩
    exact ⟨agree, (second ha hb agree).mpr ⟨agree', rest⟩⟩

theorem append' (first : Delimits P R enc) (second : Delimits P S e) :
    Delimits P (fun a b => R a b ∧ S a b) (fun a => enc a ++ e a) :=
  first.append fun _ _ ha hb _ => second ha hb

theorem ite (c : Prop) [Decidable c] (first : Delimits P R enc) (second : Delimits P S e) :
    Delimits P (fun a b => (c → R a b) ∧ (¬ c → S a b)) (fun a => if c then enc a else e a) := by
  intro a b ha hb r s
  by_cases h : c
  · simpa [h] using first ha hb (r := r) (s := s)
  · simpa [h] using second ha hb (r := r) (s := s)

end Delimits

theorem const_delimits {α : Type} {P : α → Prop} (bytes : Bytes) :
    Delimits P (fun _ _ => True) (fun _ => bytes) := by
  intro a b _ _ r s
  simp

theorem byte_delimits : Delimits (fun _ : UInt8 => True) Eq (fun b => [b]) := by
  intro a b _ _ r s
  simp

theorem uvarint_append_inj : ∀ {a b : Nat} {r s : Bytes}, uvarint a ++ r = uvarint b ++ s → a = b ∧ r = s := by
  intro a
  induction a using Nat.strongRecOn with
  | ind a ih =>
    intro b r s same
    by_cases ha : a < 128 <;> by_cases hb : b < 128
    · rw [uvarint_of_lt ha, uvarint_of_lt hb] at same
      simp only [List.cons_append, List.nil_append, List.cons.injEq] at same
      have bytes := congrArg UInt8.toNat same.1
      rw [UInt8.toNat_ofNat', UInt8.toNat_ofNat'] at bytes
      exact ⟨by omega, same.2⟩
    · rw [uvarint_of_lt ha, uvarint_of_ge (by omega)] at same
      simp only [List.cons_append, List.nil_append, List.cons.injEq] at same
      have bytes := congrArg UInt8.toNat same.1
      rw [UInt8.toNat_ofNat', UInt8.toNat_ofNat'] at bytes
      omega
    · rw [uvarint_of_ge (by omega : 128 ≤ a), uvarint_of_lt hb] at same
      simp only [List.cons_append, List.nil_append, List.cons.injEq] at same
      have bytes := congrArg UInt8.toNat same.1
      rw [UInt8.toNat_ofNat', UInt8.toNat_ofNat'] at bytes
      omega
    · rw [uvarint_of_ge (by omega : 128 ≤ a), uvarint_of_ge (by omega : 128 ≤ b)] at same
      simp only [List.cons_append, List.cons.injEq] at same
      have bytes := congrArg UInt8.toNat same.1
      rw [UInt8.toNat_ofNat', UInt8.toNat_ofNat'] at bytes
      obtain ⟨quot, rest⟩ := ih (a / 128) (by omega) same.2
      exact ⟨by omega, rest⟩

theorem uvarint_delimits : Delimits (fun _ => True) Eq uvarint := by
  intro a b _ _ r s
  constructor
  · exact uvarint_append_inj
  · rintro ⟨rfl, rfl⟩
    rfl

theorem delimits_of_length {α : Type} {P : α → Prop} {enc : α → Bytes} (w : Nat)
    (length : ∀ a, P a → (enc a).length = w)
    (inj : ∀ a b, P a → P b → enc a = enc b → a = b) : Delimits P Eq enc := by
  intro a b ha hb r s
  constructor
  · intro same
    obtain ⟨head, tail⟩ := List.append_inj same ((length a ha).trans (length b hb).symm)
    exact ⟨inj a b ha hb head, tail⟩
  · rintro ⟨rfl, rfl⟩
    rfl

theorem leBytes_delimits (w : Nat) : Delimits (fun n => n < 256 ^ w) Eq (leBytes w) :=
  delimits_of_length w (fun _ _ => leBytes_length w _) fun _ _ ha hb => leBytes_inj ha hb

def concatBytes {α : Type} (enc : α → Bytes) (xs : List α) : Bytes := xs.flatMap enc

theorem concatBytes_delimits {α : Type} {P : α → Prop} {R : α → α → Prop} {enc : α → Bytes}
    (delimits : Delimits P R enc) :
    ∀ {xs ys : List α}, xs.length = ys.length → (∀ x ∈ xs, P x) → (∀ y ∈ ys, P y) →
      ∀ {r s : Bytes}, concatBytes enc xs ++ r = concatBytes enc ys ++ s ↔ List.Forall₂ R xs ys ∧ r = s
  | [], [], _, _, _, r, s => by simp [concatBytes]
  | x :: xs, y :: ys, hlen, hx, hy, r, s => by
    have tail := concatBytes_delimits delimits (by simpa using hlen : xs.length = ys.length)
      (fun z hz => hx z (by simp [hz])) (fun z hz => hy z (by simp [hz])) (r := r) (s := s)
    simp only [concatBytes] at tail
    simp only [concatBytes, List.flatMap_cons, List.append_assoc, List.forall₂_cons]
    rw [delimits (hx x (by simp)) (hy y (by simp)), tail, and_assoc]

def countedBytes {α : Type} (enc : α → Bytes) (xs : List α) : Bytes :=
  uvarint xs.length ++ concatBytes enc xs

theorem countedBytes_delimits {α : Type} {P : α → Prop} {R : α → α → Prop} {enc : α → Bytes}
    (delimits : Delimits P R enc) :
    Delimits (fun xs : List α => ∀ x ∈ xs, P x) (List.Forall₂ R) (countedBytes enc) := by
  intro xs ys hx hy r s
  simp only [countedBytes, List.append_assoc]
  rw [uvarint_delimits trivial trivial]
  constructor
  · rintro ⟨hlen, tail⟩
    exact (concatBytes_delimits delimits hlen hx hy).mp tail
  · rintro ⟨agree, rest⟩
    exact ⟨agree.length_eq, (concatBytes_delimits delimits agree.length_eq hx hy).mpr ⟨agree, rest⟩⟩

end P2PoolObserver.Lib
