/-
# Lib.Hex -- bytes in hexadecimal, and numbers in big-endian order

`hexDecode` reads two digits per byte, of either case, and reports the first byte that is no
digit or an odd length.
-/
import P2PoolObserver.Lib.Bytes

namespace P2PoolObserver.Lib

/-! ## Big-endian numbers -/

def beBytes (w n : Nat) : Bytes := (leBytes w n).reverse

def ofBeBytes (bs : Bytes) : Nat := ofLeBytes bs.reverse

@[simp] theorem beBytes_length (w n : Nat) : (beBytes w n).length = w := by
  rw [beBytes, List.length_reverse, leBytes_length]

theorem ofBeBytes_beBytes {w n : Nat} (fits : n < 256 ^ w) : ofBeBytes (beBytes w n) = n := by
  rw [ofBeBytes, beBytes, List.reverse_reverse, ofLeBytes_leBytes_of_lt fits]

theorem ofBeBytes_cons (b : UInt8) (bs : Bytes) : ofBeBytes (b :: bs) = b.toNat * 256 ^ bs.length + ofBeBytes bs := by
  rw [ofBeBytes, List.reverse_cons, ofLeBytes_append, List.length_reverse, ofBeBytes]
  simp only [ofLeBytes]
  ring

theorem ofBeBytes_replicate_zero (n : Nat) (bs : Bytes) : ofBeBytes (List.replicate n 0 ++ bs) = ofBeBytes bs := by
  induction n with
  | zero => rfl
  | succ n ih =>
    rw [List.replicate_succ, List.cons_append, ofBeBytes_cons, ih]
    simp

/-! ## Digits -/

def fromHexChar (c : UInt8) : Option Nat :=
  if 48 ≤ c ∧ c ≤ 57 then some (c.toNat - 48)
  else if 97 ≤ c ∧ c ≤ 102 then some (c.toNat - 87)
  else if 65 ≤ c ∧ c ≤ 70 then some (c.toNat - 55)
  else none

def hexChar (n : Nat) : UInt8 := if n < 10 then UInt8.ofNat (48 + n) else UInt8.ofNat (87 + n)

def IsHex (s : Bytes) : Prop := ∀ c ∈ s, (fromHexChar c).isSome = true

instance (s : Bytes) : Decidable (IsHex s) := inferInstanceAs (Decidable (∀ c ∈ s, _))

def hexValue (s : Bytes) : Nat := s.foldl (fun v c => 16 * v + (fromHexChar c).getD 0) 0

theorem fromHexChar_hexChar {n : Nat} (small : n < 16) : fromHexChar (hexChar n) = some n := by
  have all : ∀ n < 16, fromHexChar (hexChar n) = some n := by decide
  exact all n small

theorem fromHexChar_lt {c : UInt8} {n : Nat} (digit : fromHexChar c = some n) : n < 16 := by
  unfold fromHexChar at digit
  simp only [UInt8.le_iff_toNat_le, UInt8.reduceToNat] at digit
  split_ifs at digit with decimal lower upper <;>
    · obtain rfl := Option.some.inj digit
      omega

/-! ## Encoding and decoding -/

def hexEncode (bs : Bytes) : Bytes := bs.flatMap fun b => [hexChar (b.toNat / 16), hexChar (b.toNat % 16)]

inductive HexError where
  | invalidByte (b : UInt8)
  | length
  deriving DecidableEq

def hexDecode : Bytes → Except HexError Bytes
  | [] => .ok []
  | [p] => if (fromHexChar p).isNone then .error (.invalidByte p) else .error .length
  | p :: q :: rest =>
    match fromHexChar p, fromHexChar q with
    | none, _ => .error (.invalidByte p)
    | some _, none => .error (.invalidByte q)
    | some a, some b =>
      match hexDecode rest with
      | .error e => .error e
      | .ok bs => .ok (UInt8.ofNat (16 * a + b) :: bs)

theorem hexEncode_length (bs : Bytes) : (hexEncode bs).length = 2 * bs.length := by
  induction bs with
  | nil => rfl
  | cons b bs ih =>
    rw [hexEncode, List.flatMap_cons, List.length_append, ← hexEncode, ih, List.length_cons]
    simp only [List.length_cons, List.length_nil]
    omega

theorem hexDecode_cons_eq_ok_iff {p q : UInt8} {rest bs : Bytes} : hexDecode (p :: q :: rest) = .ok bs ↔
      ∃ a b more, fromHexChar p = some a ∧ fromHexChar q = some b ∧ hexDecode rest = .ok more ∧
        bs = UInt8.ofNat (16 * a + b) :: more := by
  rw [hexDecode]
  cases fromHexChar p with
  | none => simp
  | some a =>
    cases fromHexChar q with
    | none => simp
    | some b =>
      cases hexDecode rest with
      | error e => simp
      | ok more => simp [eq_comm]

theorem hexDecode_hexEncode (bs : Bytes) : hexDecode (hexEncode bs) = .ok bs := by
  induction bs with
  | nil => rfl
  | cons b bs ih =>
    have small := b.toNat_lt
    refine hexDecode_cons_eq_ok_iff.mpr ⟨b.toNat / 16, b.toNat % 16, bs, fromHexChar_hexChar (by omega),
      fromHexChar_hexChar (by omega), ih, ?_⟩
    rw [Nat.div_add_mod, UInt8.ofNat_toNat]

theorem hexDecode_single_ne_ok (p : UInt8) (bs : Bytes) : hexDecode [p] ≠ .ok bs := by
  rw [hexDecode]
  split_ifs <;> exact fun same => by cases same

theorem hexDecode_isOk_iff : ∀ s : Bytes, (∃ bs, hexDecode s = .ok bs) ↔ IsHex s ∧ s.length % 2 = 0
  | [] => by simp [hexDecode, IsHex]
  | [p] => by simp [hexDecode_single_ne_ok]
  | p :: q :: rest => by
    have more := hexDecode_isOk_iff rest
    have length : (p :: q :: rest).length % 2 = rest.length % 2 := by
      simp only [List.length_cons]
      omega
    rw [length, IsHex, List.forall_mem_cons, List.forall_mem_cons, ← IsHex]
    constructor
    · rintro ⟨bs, decoded⟩
      obtain ⟨a, b, bs, isP, isQ, decoded, -⟩ := hexDecode_cons_eq_ok_iff.mp decoded
      obtain ⟨hex, even⟩ := more.mp ⟨bs, decoded⟩
      exact ⟨⟨by rw [isP]; rfl, by rw [isQ]; rfl, hex⟩, even⟩
    · rintro ⟨⟨isP, isQ, hex⟩, even⟩
      obtain ⟨a, isP⟩ := Option.isSome_iff_exists.mp isP
      obtain ⟨b, isQ⟩ := Option.isSome_iff_exists.mp isQ
      obtain ⟨bs, decoded⟩ := more.mpr ⟨hex, even⟩
      exact ⟨_, hexDecode_cons_eq_ok_iff.mpr ⟨a, b, bs, isP, isQ, decoded, rfl⟩⟩

theorem length_hexDecode : ∀ {s bs : Bytes}, hexDecode s = .ok bs → s.length = 2 * bs.length
  | [], _, decoded => by
    cases decoded
    rfl
  | [p], bs, decoded => absurd decoded (hexDecode_single_ne_ok p bs)
  | p :: q :: rest, _, decoded => by
    obtain ⟨a, b, bs, -, -, inner, rfl⟩ := hexDecode_cons_eq_ok_iff.mp decoded
    have more := length_hexDecode inner
    simp only [List.length_cons]
    omega

/-! ## Values -/

theorem foldl_hexValue (s : Bytes) (v : Nat) :
    s.foldl (fun v c => 16 * v + (fromHexChar c).getD 0) v = v * 16 ^ s.length + hexValue s := by
  induction s generalizing v with
  | nil => simp [hexValue]
  | cons c s ih =>
    rw [hexValue, List.foldl_cons, List.foldl_cons, ih, ih, List.length_cons, pow_succ]
    ring

theorem ofBeBytes_hexDecode : ∀ {s bs : Bytes}, hexDecode s = .ok bs → ofBeBytes bs = hexValue s
  | [], _, decoded => by
    cases decoded
    rfl
  | [p], bs, decoded => absurd decoded (hexDecode_single_ne_ok p bs)
  | p :: q :: rest, _, decoded => by
    obtain ⟨a, b, bs, isP, isQ, inner, rfl⟩ := hexDecode_cons_eq_ok_iff.mp decoded
    have more := ofBeBytes_hexDecode inner
    have length := length_hexDecode inner
    have smallA := fromHexChar_lt isP
    have smallB := fromHexChar_lt isQ
    have byte : (UInt8.ofNat (16 * a + b)).toNat = 16 * a + b := by
      rw [UInt8.toNat_ofNat']
      omega
    have bytes : 256 ^ bs.length = 16 ^ rest.length := by
      rw [length, pow_mul]
      rfl
    have value : hexValue (p :: q :: rest) = (16 * a + b) * 16 ^ rest.length + hexValue rest := by
      rw [hexValue, List.foldl_cons, List.foldl_cons, foldl_hexValue, isP, isQ]
      simp
    rw [ofBeBytes_cons, byte, more, bytes, value]

end P2PoolObserver.Lib
